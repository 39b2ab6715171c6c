/-
# MarkdownForest.Command.Document -- sources as commands handle them

A source is bytes with a file name.  It is read into a workspace
(`readDocument`), and compiled to a text (`compileSource`).  Nothing holds a
compiled document, so the next collection drops it (`tidy`, `clear`).
-/
import MarkdownForest.Command.Machine
import MarkdownForest.Report
import MarkdownForest.Text.Quoted
import MarkdownForest.Workspace

namespace MarkdownForest.Command

set_option autoImplicit false

/-- Why a command fails. -/
inductive CommandError where
  | file (cause : FileError)
  | unknownTarget (name : String)
  | missingSource (path : String)
  | unreadableSettings
  /-- An error in a source, with the report on it. -/
  | source (report : String)
  | workspace (cause : WorkspaceError)
  deriving DecidableEq, Repr

def CommandError.message : CommandError → String
  | file cause => cause.message
  | unknownTarget name => "Unknown target: " ++ name
  | missingSource path =>
    "Source directory does not exist: " ++ String.ofList (Text.quotedPath path.toList)
  | unreadableSettings => "the settings are not valid JSON"
  | source report => "\n" ++ report
  | workspace cause => cause.message

/-- What sources are compiled to. -/
inductive Target where
  | html | markdown
  deriving DecidableEq, Repr

namespace Target

def ofName? : String → Option Target
  | "html" => some html
  | "markdown" | "md" => some markdown
  | _ => none

/-- The end of the names of the files made. -/
def fileEnd : Target → String
  | html => "html"
  | markdown => "md"

end Target

/-- Reads bytes as a document into a workspace. -/
def readDocument (ws : Workspace) (name : String) (bytes : List UInt8) :
    Except CommandError WrapperId × Workspace :=
  match Text.decode bytes with
  | .error position =>
    let report := Report.render name (Text.decodeLossy bytes) (.invalidUtf8 position)
    (.error (.source report), ws)
  | .ok source =>
    match ws.parse (String.ofList source) with
    | (.ok w, ws) => (.ok w, ws)
    | (.error (.parse e), ws) => (.error (.source (Report.render name source e)), ws)
    | (.error e, ws) => (.error (.workspace e), ws)

/-- The text that a wrapped document is compiled to. -/
def compileDocument (ws : Workspace) (target : Target) (w : WrapperId) :
    Except CommandError String :=
  match target with
  | .html => (ws.html w).mapError .workspace
  | .markdown => (ws.commonMark w).mapError .workspace

/-- Compiles a source. -/
def compileSource (ws : Workspace) (target : Target) (name : String) (bytes : List UInt8) :
    Except CommandError String × Workspace :=
  match readDocument ws name bytes with
  | (.ok w, ws) => (compileDocument ws target w, ws)
  | (.error e, ws) => (.error e, ws)

/-- Collects if that is due.  In a workspace there is no violation to find, so none is reported. -/
def tidy (ws : Workspace) : Workspace :=
  match ws.maybeCollect with
  | .ok (_, ws) => ws
  | .error _ => ws

/-- Collects.  As in `tidy`, there is no violation to report. -/
def clear (ws : Workspace) : Workspace :=
  match ws.collect with
  | .ok (_, ws) => ws
  | .error _ => ws

end MarkdownForest.Command
