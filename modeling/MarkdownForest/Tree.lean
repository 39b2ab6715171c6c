/-
# MarkdownForest.Tree -- documents and parts of documents as values

A tree is a content with the trees below it.  Parsing yields trees, rendering
and writing consume them, and a node of a forest is observed as one
(`MarkdownForest.Forest.Observe`).

`Tree.WellFormed` says that every content is in range and that every child stands
under a kind that may contain it; the functions on trees do not need it.
-/
import MarkdownForest.Content

namespace MarkdownForest

set_option autoImplicit false

inductive Tree where
  | node (content : Content) (children : List Tree)
  deriving Repr, Inhabited

namespace Tree

def content : Tree → Content
  | node c _ => c

def children : Tree → List Tree
  | node _ ts => ts

def kind (t : Tree) : Kind :=
  t.content.kind

/-- A tree without children. -/
def leaf (c : Content) : Tree :=
  node c []

/-! ## Equality -/

mutual
def decEq : (s t : Tree) → Decidable (s = t)
  | node c ss, node d ts =>
    match (inferInstance : Decidable (c = d)), decEqList ss ts with
    | isTrue hc, isTrue hs => isTrue (by rw [hc, hs])
    | isFalse hc, _ => isFalse fun h => hc (by injection h)
    | _, isFalse hs => isFalse fun h => hs (by injection h)

def decEqList : (ss ts : List Tree) → Decidable (ss = ts)
  | [], [] => isTrue rfl
  | [], _ :: _ => isFalse nofun
  | _ :: _, [] => isFalse nofun
  | s :: ss, t :: ts =>
    match decEq s t, decEqList ss ts with
    | isTrue h, isTrue hs => isTrue (by rw [h, hs])
    | isFalse h, _ => isFalse fun e => h (by injection e)
    | _, isFalse hs => isFalse fun e => hs (by injection e)
end

instance : DecidableEq Tree := decEq

/-! ## Size and placement -/

mutual
/-- The number of nodes. -/
def size : Tree → Nat
  | node _ ts => 1 + sizeList ts

def sizeList : List Tree → Nat
  | [] => 0
  | t :: ts => t.size + sizeList ts
end

theorem size_pos (t : Tree) : 0 < t.size := by
  cases t; simp only [size]; omega

theorem sizeList_append (ss ts : List Tree) : sizeList (ss ++ ts) = sizeList ss + sizeList ts := by
  induction ss with
  | nil => simp [sizeList]
  | cons s ss ih => simp [sizeList, ih, Nat.add_assoc]

mutual
/-- Every content is in range, and every child stands under a kind that may contain it. -/
def WellFormed : Tree → Prop
  | node c ts => c.InRange ∧ (∀ t ∈ ts, c.kind.canContain t.kind) ∧ WellFormedList ts

def WellFormedList : List Tree → Prop
  | [] => True
  | t :: ts => t.WellFormed ∧ WellFormedList ts
end

theorem wellFormedList_iff (ts : List Tree) : WellFormedList ts ↔ ∀ t ∈ ts, t.WellFormed := by
  induction ts with
  | nil => simp [WellFormedList]
  | cons t ts ih => simp [WellFormedList, ih]

theorem wellFormed_leaf {c : Content} (h : c.InRange) : (leaf c).WellFormed := by
  simp [leaf, WellFormed, WellFormedList, h]

end Tree

end MarkdownForest
