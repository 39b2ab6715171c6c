/-
# MarkdownForest.Workspace -- documents as a host sees them

A host holds wrappers, never nodes that it has to keep alive itself.  Every
operation that leads to a node gives its wrapper, and a node always has the same
wrapper for as long as that is not collected.

A host roots the wrappers it wants to keep.  A collection drops the trees that
have no rooted wrapper, together with all their wrappers; using a wrapper that
was dropped fails (`WorkspaceError.staleWrapper`).
-/
import MarkdownForest.Forest.Html
import MarkdownForest.Settings
import MarkdownForest.Wrapper.Collector
import MarkdownForest.Wrapper.Mutation

namespace MarkdownForest

set_option autoImplicit false

structure Workspace extends Store where
  settings : Settings := {}
  /-- The number of collections so far. -/
  collections : Nat := 0

instance : Inhabited Workspace := ⟨{}⟩

namespace Workspace

/-- The workspace with another store. -/
def withStore (ws : Workspace) (s : Store) : Workspace :=
  { ws with toStore := s }

/-! ## Nodes and wrappers -/

/-- The wrapper of a node. -/
def wrap (ws : Workspace) (x : NodeId) : Except WorkspaceError (WrapperId × Workspace) := do
  let (w, s) ← (ws.toStore.materialize x).mapError .forest
  return (w, ws.withStore s)

/-- Makes a node, as a root. -/
def newNode (ws : Workspace) (k : Kind) : Except WorkspaceError (WrapperId × Workspace) :=
  let (x, forest) := ws.forest.newNode (.new k)
  wrap { ws with forest } x

/-- Reads a document.  The workspace changes also when the reading fails. -/
def parse (ws : Workspace) (source : String) : Except WorkspaceError WrapperId × Workspace :=
  let (result, forest) := ws.forest.read ws.settings.parse source
  let ws := { ws with forest }
  match result with
  | .error e => (.error (.parse e), ws)
  | .ok x =>
    match ws.wrap x with
    | .ok (w, ws) => (.ok w, ws)
    | .error e => (.error e, ws)

/-- The live node of a wrapper. -/
def nodeOf (ws : Workspace) (w : WrapperId) : Except WorkspaceError NodeId := do
  let x ← ws.wrappedNode w
  if ws.forest.contains x then return x else throw (.forest (.stale x))

/-- Adds a hold on a wrapper. -/
def root (ws : Workspace) (w : WrapperId) : Except WorkspaceError Workspace := do
  let _ ← ws.wrapper w
  return { ws with heap := ws.heap.update w fun v => { v with roots := v.roots + 1 } }

/-- Takes a hold off a wrapper, if there is one. -/
def unroot (ws : Workspace) (w : WrapperId) : Except WorkspaceError Workspace := do
  let _ ← ws.wrapper w
  return { ws with heap := ws.heap.update w fun v => { v with roots := v.roots - 1 } }

/-! ## Links -/

/-- Follows a link from the node of a wrapper, and wraps what it leads to. -/
def follow (ws : Workspace)
    (link : Forest → NodeId → Except ForestError (Option NodeId)) (w : WrapperId) :
    Except WorkspaceError (Option WrapperId × Workspace) := do
  match ← (link ws.forest (← ws.nodeOf w)).mapError .forest with
  | none => return (none, ws)
  | some x =>
    let (found, ws) ← ws.wrap x
    return (some found, ws)

def parent (ws : Workspace) := ws.follow Forest.parent

def firstChild (ws : Workspace) := ws.follow Forest.firstChild

def lastChild (ws : Workspace) := ws.follow Forest.lastChild

def next (ws : Workspace) := ws.follow Forest.next

def previous (ws : Workspace) := ws.follow Forest.previous

/-! ## Contents -/

def kind (ws : Workspace) (w : WrapperId) : Except WorkspaceError Kind := do
  (ws.forest.kind (← ws.nodeOf w)).mapError .forest

/-- Whether the node of a wrapper is a root, as the wrapper knows it. -/
def ownership (ws : Workspace) (w : WrapperId) : Except WorkspaceError Ownership :=
  return (← ws.wrapper w).ownership

/-- Reads a field. -/
def get {α : Type} (ws : Workspace) (read : Content → Except FieldError α) (w : WrapperId) :
    Except WorkspaceError α := do
  (ws.forest.get read (← ws.nodeOf w)).mapError .forest

/-- Writes a field. -/
def set (ws : Workspace) (write : Content → Except FieldError Content) (w : WrapperId) :
    Except WorkspaceError Workspace := do
  let forest ← (ws.forest.set write (← ws.nodeOf w)).mapError .forest
  return { ws with forest }

/-- A node as HTML. -/
def htmlWith (ws : Workspace) (o : Html.RenderOptions) (w : WrapperId) :
    Except WorkspaceError String := do
  (ws.forest.html o (← ws.nodeOf w)).mapError .forest

/-- A node as HTML, by the settings. -/
def html (ws : Workspace) (w : WrapperId) : Except WorkspaceError String :=
  ws.htmlWith ws.settings.render w

/-- A node as CommonMark. -/
def commonMark (ws : Workspace) (w : WrapperId) : Except WorkspaceError String := do
  (ws.forest.commonMark (← ws.nodeOf w)).mapError .forest

/-! ## Changes -/

/-- Carries out a mutation. -/
def apply (ws : Workspace) (m : Mutation) : Except WorkspaceError (Transition × Workspace) := do
  let (transition, s) ← ws.toStore.apply m
  return (transition, ws.withStore s)

/-- Collects. -/
def collect (ws : Workspace) : Except Violation (CollectStats × Workspace) := do
  let (stats, s) ← ws.toStore.collect
  return (stats, { ws.withStore s with collections := ws.collections + 1 })

/-- Collects if that is due. -/
def maybeCollect (ws : Workspace) : Except Violation (Option CollectStats × Workspace) :=
  if ws.heap.allocatedSinceCollect < ws.settings.gcThreshold then .ok (none, ws)
  else do
    let (stats, ws) ← ws.collect
    return (some stats, ws)

end Workspace

end MarkdownForest
