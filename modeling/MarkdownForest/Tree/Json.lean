/-
# MarkdownForest.Tree.Json -- trees written in JSON

A node is an object with its type, the fields that its kind has, and its
children if it has any.
-/
import MarkdownForest.Json.Basic
import MarkdownForest.Tree

namespace MarkdownForest

set_option autoImplicit false

/-- The fields that a node of the content shows. -/
def Content.jsonFields : Content → List (String × Json)
  | text literal | code literal | html literal | inlineHtml literal =>
    [("literal", .ofString literal)]
  | codeBlock info literal => [("literal", .ofString literal), ("info", .ofString info)]
  | header level => [("level", .ofNat level)]
  | list .bullet _ tight => [("list_type", .ofString ListType.bullet.name), ("tight", .bool tight)]
  | list .ordered start tight =>
    [("list_type", .ofString ListType.ordered.name), ("start", .ofNat start),
      ("tight", .bool tight)]
  | link url title | image url title => [("url", .ofString url), ("title", .ofString title)]
  | _ => []

namespace Tree

mutual
def toJson : Tree → Json
  | node c children =>
    let below := match toJsonList children with
      | [] => []
      | items => [("children", .array items)]
    .ofFields (("type", .ofString c.kind.typeName) :: c.jsonFields ++ below)

def toJsonList : List Tree → List Json
  | [] => []
  | t :: ts => t.toJson :: toJsonList ts
end

end Tree

end MarkdownForest
