/-
# MarkdownForest.Settings.Json -- settings written in JSON

Settings are records (`Json.record?`): a field that is missing has its default,
and a field of the wrong form makes the whole unreadable.
-/
import MarkdownForest.Json.Printer
import MarkdownForest.Json.Reader
import MarkdownForest.Settings

namespace MarkdownForest

set_option autoImplicit false

open Json

def ParseOptions.ofJson? (v : Json) : Option ParseOptions := do
  match ← record? ["smart", "maxNesting"] v with
  | [smart, maxNesting] =>
    let d : ParseOptions := {}
    return {
      smart := ← field? bool? d.smart smart
      maxNesting := ← field? word? d.maxNesting maxNesting }
  | _ => none

def Html.RenderOptions.ofJson? (v : Json) : Option Html.RenderOptions := do
  match ← record? ["hardbreaks", "safe"] v with
  | [hardbreaks, safe] =>
    let d : Html.RenderOptions := {}
    return {
      hardbreaks := ← field? bool? d.hardbreaks hardbreaks
      safe := ← field? bool? d.safe safe }
  | _ => none

/-- The settings of a workspace from the values of their fields. -/
def Settings.ofFields? (parse render gcThreshold : Option Json) : Option Settings := do
  let d : Settings := {}
  return {
    parse := ← field? ParseOptions.ofJson? d.parse parse
    render := ← field? Html.RenderOptions.ofJson? d.render render
    gcThreshold := ← field? word? d.gcThreshold gcThreshold }

def Settings.ofJson? (v : Json) : Option Settings := do
  match ← record? ["parse", "render", "gcThreshold"] v with
  | [parse, render, gcThreshold] => Settings.ofFields? parse render gcThreshold
  | _ => none

def Project.ofJson? (v : Json) : Option Project := do
  match ← record? ["srcDir", "outDir", "target", "parse", "render", "gcThreshold"] v with
  | [sourceDir, outputDir, target, parse, render, gcThreshold] =>
    let d : Project := {}
    return {
      sourceDir := ← field? string? d.sourceDir sourceDir
      outputDir := ← field? string? d.outputDir outputDir
      target := ← field? string? d.target target
      settings := ← Settings.ofFields? parse render gcThreshold }
  | _ => none

/-! ## Writing -/

def ParseOptions.toJson (o : ParseOptions) : Json :=
  .ofFields [("smart", .bool o.smart), ("maxNesting", .ofNat o.maxNesting)]

def Html.RenderOptions.toJson (o : Html.RenderOptions) : Json :=
  .ofFields [("hardbreaks", .bool o.hardbreaks), ("safe", .bool o.safe)]

def Project.toJson (p : Project) : Json :=
  .ofFields [
    ("srcDir", .ofString p.sourceDir),
    ("outDir", .ofString p.outputDir),
    ("target", .ofString p.target),
    ("parse", p.settings.parse.toJson),
    ("render", p.settings.render.toJson),
    ("gcThreshold", .ofNat p.settings.gcThreshold)]

end MarkdownForest
