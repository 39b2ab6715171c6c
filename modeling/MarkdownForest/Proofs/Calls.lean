/-
# MarkdownForest.Proofs.Calls -- calls of a workspace and their answers

A host makes requests, which change a workspace, and asks about wrappers, which
does not.  Either is a call, and has an answer; the answers of a conversation are
those of its calls one after another (`Workspace.answers`).

* `Workspace.ready_converse`: every conversation leaves table, heap and forest in
  step;
* `Ready.parse_cases`, `Ready.newNode_cases`: a tree is made first, and then its
  root is wrapped;
* `Ready.stale`: a call that names a wrapper that is not live fails for the first
  such one, and changes nothing.
-/
import MarkdownForest.Proofs.Applying

namespace MarkdownForest

set_option autoImplicit false

/-- Reads a field. -/
def Field.read : Field → Content → Except FieldError FieldValue
  | literal, c => c.getLiteral.map .literal
  | url, c => c.getUrl.map .url
  | title, c => c.getTitle.map .title
  | headerLevel, c => c.getHeaderLevel.map fun level => .headerLevel level
  | listType, c => c.getListType.map .listType
  | listStart, c => c.getListStart.map fun start => .listStart start
  | listTight, c => c.getListTight.map .listTight
  | fenceInfo, c => c.getFenceInfo.map .fenceInfo

namespace Workspace

open Store (Paired Extends Collected)

/-! ## Calls -/

/-- What a host may ask about a wrapper. -/
inductive Query where
  | record | node | kind | ownership
  | field (field : Field)
  | html
  | htmlWith (options : Html.RenderOptions)
  | commonMark
  deriving DecidableEq, Repr

inductive Call where
  | request (request : Request)
  | ask (query : Query) (wrapper : WrapperId)

/-- What a call that succeeds answers. -/
inductive Answer where
  | done
  | wrapper (wrapper : WrapperId)
  | link (found : Option WrapperId)
  | transition (transition : Transition)
  | collected (stats : Option CollectStats)
  | violation (violation : Violation)
  | record (record : Wrapper)
  | node (node : NodeId)
  | kind (kind : Kind)
  | ownership (ownership : Ownership)
  | value (value : FieldValue)
  | text (text : String)
  deriving DecidableEq, Repr

def Request.wrappers : Request → List WrapperId
  | root w | unroot w | follow _ w | set _ w => [w]
  | apply m => m.wrappers
  | _ => []

namespace Call

/-- The wrappers that a call names, in the order in which they are looked up. -/
def wrappers : Call → List WrapperId
  | request r => r.wrappers
  | ask _ w => [w]

/-- The nodes that a call names. -/
def nodes : Call → List NodeId
  | request (.wrap x) => [x]
  | _ => []

/-- Whether a call may collect. -/
def collects : Call → Bool
  | request .collect | request .maybeCollect => true
  | _ => false

end Call

/-! ## Answers -/

/-- The answer to a question. -/
def ask (ws : Workspace) (q : Query) (w : WrapperId) : Except WorkspaceError Answer :=
  match q with
  | .record => (ws.wrapper w).map .record
  | .node => (ws.nodeOf w).map .node
  | .kind => (ws.kind w).map .kind
  | .ownership => (ws.ownership w).map .ownership
  | .field field => (ws.get field.read w).map .value
  | .html => (ws.html w).map .text
  | .htmlWith o => (ws.htmlWith o w).map .text
  | .commonMark => (ws.commonMark w).map .text

/-- The answer to a request. -/
def reply (ws : Workspace) : Request → Except WorkspaceError Answer
  | .parse source => (ws.parse source).1.map .wrapper
  | .newNode k => (ws.newNode k).map fun r => .wrapper r.1
  | .wrap x => (ws.wrap x).map fun r => .wrapper r.1
  | .root w => (ws.root w).map fun _ => .done
  | .unroot w => (ws.unroot w).map fun _ => .done
  | .follow link w => (ws.follow link.read w).map fun r => .link r.1
  | .set v w => (ws.set v.write w).map fun _ => .done
  | .apply m => (ws.apply m).map fun r => .transition r.1
  | .collect =>
    match ws.collect with
    | .ok (stats, _) => .ok (.collected (some stats))
    | .error violation => .ok (.violation violation)
  | .maybeCollect =>
    match ws.maybeCollect with
    | .ok (stats, _) => .ok (.collected stats)
    | .error violation => .ok (.violation violation)

def answer (ws : Workspace) : Call → Except WorkspaceError Answer
  | .request r => ws.reply r
  | .ask q w => ws.ask q w

/-- The workspace after a call. -/
def afterCall (ws : Workspace) : Call → Workspace
  | .request r => ws.after r
  | .ask .. => ws

/-- The workspace after calls. -/
def afterCalls (ws : Workspace) (cs : List Call) : Workspace :=
  cs.foldl afterCall ws

/-- The answers to calls made one after another. -/
def answers (ws : Workspace) : List Call → List (Except WorkspaceError Answer)
  | [] => []
  | c :: cs => ws.answer c :: (ws.afterCall c).answers cs

@[simp] theorem afterCalls_nil (ws : Workspace) : ws.afterCalls [] = ws := rfl

@[simp] theorem afterCalls_cons (ws : Workspace) (c : Call) (cs : List Call) :
    ws.afterCalls (c :: cs) = (ws.afterCall c).afterCalls cs := rfl

theorem afterCalls_append (ws : Workspace) (cs ds : List Call) :
    ws.afterCalls (cs ++ ds) = (ws.afterCalls cs).afterCalls ds :=
  List.foldl_append

/-- The number of calls at which something happens to the workspace. -/
def count (event : Workspace → Workspace → Bool) (ws : Workspace) : List Call → Nat
  | [] => 0
  | c :: cs => (event ws (ws.afterCall c)).toNat + (ws.afterCall c).count event cs

/-! ## Conversations -/

section Steps

variable {ws ws' : Workspace} {x : NodeId} {w : WrapperId} {c : Call}

theorem Ready.afterCall (h : Ready ws) (c : Call) : Ready (ws.afterCall c) := by
  cases c with
  | request r => exact h.after r
  | ask q w => exact h

theorem Ready.afterCalls (h : Ready ws) (cs : List Call) : Ready (ws.afterCalls cs) := by
  induction cs generalizing ws with
  | nil => exact h
  | cons c cs ih => exact ih (h.afterCall c)

theorem ready_converse (settings : Settings) (cs : List Call) :
    Ready (afterCalls { settings } cs) :=
  (ready_start settings).afterCalls cs

/-- A node that could be wrapped has its wrapper afterwards, and all others have theirs. -/
theorem wrap_extends (h : Paired ws.toStore) (e : ws.wrap x = .ok (w, ws')) :
    Extends ws.toStore ws'.toStore ∧ Paired ws'.toStore ∧ ws'.identity.lookup x = some w := by
  by_cases hx : ws.forest.contains x
  · obtain ⟨_, t, ht, paired, grown, found⟩ := wrap_ok h hx
    cases ht.symm.trans e
    exact ⟨grown, paired, found⟩
  · simp [wrap_stale h (by simpa using hx)] at e

/-- A source is read and the document is wrapped, or nothing but the forest has changed. -/
theorem Ready.parse_cases (h : Ready ws) (source : String) :
    (∃ e g, ws.forest.read ws.settings.parse source = (.error e, g) ∧
        ws.parse source = (.error (.parse e), { ws with forest := g })) ∨
      ∃ x g w ws', ws.forest.read ws.settings.parse source = (.ok x, g) ∧
        Paired { ws.toStore with forest := g } ∧
        Workspace.wrap { ws with forest := g } x = .ok (w, ws') ∧
        ws.parse source = (.ok w, ws') := by
  unfold Workspace.parse
  cases read : ws.forest.read ws.settings.parse source with
  | mk result g =>
    cases result with
    | error e => exact .inl ⟨e, g, rfl, rfl⟩
    | ok x =>
      obtain ⟨sound, grown⟩ := h.paired.sound.read_ok read
      have paired := h.paired.reforest sound grown.contains_of fun hy => (grown.kept hy).parent?
      obtain ⟨w, ws', wrapped, -⟩ := h.wrap_grown sound grown
      exact .inr ⟨x, g, w, ws', rfl, paired, wrapped, by simp only [wrapped]⟩

/-- A node is made and wrapped. -/
theorem Ready.newNode_cases (h : Ready ws) (k : Kind) :
    ∃ w ws', Paired { ws.toStore with forest := (ws.forest.newNode (.new k)).2 } ∧
      Workspace.wrap { ws with forest := (ws.forest.newNode (.new k)).2 }
        (ws.forest.newNode (.new k)).1 = .ok (w, ws') ∧
      ws.newNode k = .ok (w, ws') := by
  have sound := h.paired.sound.newNode (Content.inRange_new k)
  have grown := Forest.grown_newNode h.paired.sound.linked (.new k)
  obtain ⟨w, ws', wrapped, -⟩ := h.wrap_grown sound grown
  exact ⟨w, ws', h.paired.reforest sound grown.contains_of fun hy => (grown.kept hy).parent?,
    wrapped, wrapped⟩

/-- A link from a live wrapper is followed, to nothing or to a node that is wrapped then. -/
theorem follow_cases {link : Link} {found : Option WrapperId}
    (e : ws.follow link.read w = .ok (found, ws')) :
    ∃ x, ws.nodeOf w = .ok x ∧
      ((link.read ws.forest x = .ok none ∧ found = none ∧ ws' = ws) ∨
        ∃ y w', link.read ws.forest x = .ok (some y) ∧ found = some w' ∧
          ws.wrap y = .ok (w', ws')) := by
  obtain ⟨x, hx, e⟩ := bind_eq_ok.mp e
  obtain ⟨y, hy, e⟩ := bind_eq_ok.mp e
  have hy := mapError_eq_ok.mp hy
  refine ⟨x, hx, ?_⟩
  cases y with
  | none =>
    cases e
    exact .inl ⟨hy, rfl, rfl⟩
  | some y =>
    obtain ⟨⟨w', ws''⟩, wrapped, ⟨⟩⟩ := bind_eq_ok.mp e
    exact .inr ⟨y, w', hy, rfl, wrapped⟩

/-- A collection that is not due does nothing. -/
theorem Ready.collect_cases (h : Ready ws) {r : Request} (collects : (Call.request r).collects) :
    ws.after r = ws ∨ ∃ stats t,
      ws.after r = { ws.withStore t with collections := ws.collections + 1 } ∧
        Collected ws.toStore t stats := by
  obtain ⟨stats, t, e, collected, -⟩ := h.collect
  cases r with
  | collect => exact .inr ⟨stats, t, by rw [Workspace.after, e]; rfl, collected⟩
  | maybeCollect =>
    rw [Workspace.after, Workspace.maybeCollect]
    split
    · exact .inl rfl
    · exact .inr ⟨stats, t, by rw [e]; rfl, collected⟩
  | _ => simp [Call.collects] at collects

/-! ## Stale wrappers -/

theorem wrapper_stale (dead : ws.heap.contains w = false) :
    ws.wrapper w = .error (.staleWrapper w) := by
  unfold Store.wrapper
  split
  · rename_i v hv
    simp [Heap.contains, Arena.contains, show ws.heap.wrappers.get? w = some v from hv] at dead
  · rfl

theorem nodeOf_stale (dead : ws.heap.contains w = false) :
    ws.nodeOf w = .error (.staleWrapper w) := by
  simp [nodeOf, Store.wrappedNode, wrapper_stale dead]

theorem ask_stale (dead : ws.heap.contains w = false) (q : Query) :
    ws.ask q w = .error (.staleWrapper w) := by
  have wrapper := wrapper_stale dead
  have node := nodeOf_stale dead
  cases q <;> simp [ask, kind, ownership, Workspace.get, html, htmlWith, commonMark, wrapper, node,
    Except.map]

/-- A call that names a wrapper that is not live fails for the first such one, and changes
nothing. -/
theorem Ready.stale (h : Ready ws)
    (first : c.wrappers.find? (fun w => !ws.heap.contains w) = some w) :
    ws.answer c = .error (.staleWrapper w) ∧ ws.afterCall c = ws := by
  have dead : ws.heap.contains w = false := by simpa using List.find?_some first
  have mem := List.mem_of_find?_eq_some first
  have wrapper := wrapper_stale dead
  have node := nodeOf_stale dead
  cases c with
  | ask q u =>
    obtain rfl := List.mem_singleton.mp mem
    exact ⟨ask_stale dead q, rfl⟩
  | request r =>
    cases r with
    | apply m =>
      have failed : ws.toStore.edit m = .error (.staleWrapper w) := by
        rcases Store.edit_eq ws.toStore m with ⟨n, names, -⟩ | ⟨u, found, e⟩
        · simp [Store.contains_of_wrappedNode (names w mem)] at dead
        · rw [show u = w from Option.some.inj (found.symm.trans first)] at e
          exact e
      have failed := (h.paired.apply_error_iff).mpr failed
      simp [answer, reply, Workspace.afterCall, Workspace.after, orElse, Workspace.apply, failed,
        Except.map]
    | root u | unroot u | follow _ u | set _ u =>
      obtain rfl := List.mem_singleton.mp mem
      simp [answer, reply, Workspace.afterCall, Workspace.after, orElse, Workspace.root,
        Workspace.unroot, Workspace.follow, Workspace.set, wrapper, node, Except.map]
    | parse _ | newNode _ | wrap _ | collect | maybeCollect =>
      simp [Call.wrappers, Request.wrappers] at mem

end Steps

end Workspace

end MarkdownForest
