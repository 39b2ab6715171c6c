/-
# MarkdownForest.Command.Request -- what a command line asks for

There are three commands: one begins a project, one compiles sources, and one
shows the tree of a source.
-/
import MarkdownForest.Command.Arguments

namespace MarkdownForest.Command

set_option autoImplicit false

structure InitRequest where
  target : String := "html"
  sourceDir : String := "src"
  force : Bool := false
  deriving DecidableEq, Repr

structure CompileRequest where
  path : Option String := none
  target : Option String := none
  stdout : Bool := false
  outputDir : Option String := none
  safe : Bool := false
  smart : Bool := false
  deriving DecidableEq, Repr

structure TreeRequest where
  file : String
  json : Bool := false
  stats : Bool := false
  deriving DecidableEq, Repr

inductive Request where
  | init (request : InitRequest)
  | compile (request : CompileRequest)
  | tree (request : TreeRequest)
  deriving DecidableEq, Repr

namespace Request

def initForms : List OptionForm :=
  [⟨"target", some 't', true⟩, ⟨"src-dir", some 's', true⟩, ⟨"force", some 'f', false⟩]

def compileForms : List OptionForm :=
  [⟨"target", some 't', true⟩, ⟨"stdout", none, false⟩, ⟨"out-dir", some 'o', true⟩,
    ⟨"safe", none, false⟩, ⟨"smart", none, false⟩]

def treeForms : List OptionForm :=
  [⟨"json", none, false⟩, ⟨"stats", none, false⟩]

def ofInit? (arguments : List String) : Option Request := do
  let a ← Arguments.read? initForms arguments
  match a.operands with
  | [] =>
    let d : InitRequest := {}
    return .init {
      target := (a.value? "target").getD d.target
      sourceDir := (a.value? "src-dir").getD d.sourceDir
      force := a.has "force" }
  | _ => none

def ofCompile? (arguments : List String) : Option Request := do
  let a ← Arguments.read? compileForms arguments
  if a.operands.length ≤ 1 then
    return .compile {
      path := a.operands.head?
      target := a.value? "target"
      stdout := a.has "stdout"
      outputDir := a.value? "out-dir"
      safe := a.has "safe"
      smart := a.has "smart" }
  else none

def ofTree? (arguments : List String) : Option Request := do
  let a ← Arguments.read? treeForms arguments
  match a.operands with
  | [file] => return .tree { file, json := a.has "json", stats := a.has "stats" }
  | _ => none

/-- The request of a command line. -/
def ofArguments? : List String → Option Request
  | "init" :: arguments => ofInit? arguments
  | "compile" :: arguments => ofCompile? arguments
  | "tree" :: arguments => ofTree? arguments
  | _ => none

end Request

end MarkdownForest.Command
