/-
# MarkdownForest.Proofs.Compiling -- sources compiled together

All sources of a project are compiled in one workspace, which is collected
between them when that is due.  None of this shows: every source is compiled as
it would be in a forest of its own (`compileAlone`).

* `Between`: what a workspace is between two sources; nothing is held, so a
  collection leaves nothing behind (`Between.clear`);
* `Between.compileSource`: the text or error of a source is the one it has alone;
* `Coupled`: two programs do the same, and what they give is related; a source in
  the workspace is coupled to the source alone (`coupled_compileOne`), and so are
  all of them (`coupled_foldlM`).

`compileAll_apart` compares the two as programs on any machine: files may be
missing, writes may fail, and a source may be the output of an earlier one.
-/
import Mathlib.Data.Bool.Count
import MarkdownForest.Command.Compile
import MarkdownForest.Command.Session
import MarkdownForest.Proofs.Calls
import MarkdownForest.Proofs.Isolation
import MarkdownForest.Proofs.Serializing

namespace MarkdownForest

set_option autoImplicit false

/-! ## Wrappers that nothing holds -/

namespace Store

/-- No wrapper is held. -/
def Unheld (s : Store) : Prop :=
  ∀ w v, s.heap.get? w = some v → v.roots = 0

section Unheld

variable {s t : Store} {x : NodeId} {w : WrapperId} {stats : CollectStats}

theorem Unheld.getOrCreate (h : Unheld s) (e : s.getOrCreate x = .ok (w, t)) : Unheld t := by
  unfold Store.getOrCreate at e
  split at e
  · cases e
    exact h
  · obtain ⟨o, -, e⟩ := bind_eq_ok.mp e
    cases e
    intro u v hu
    rcases get?_enter_iff.mp hu with ⟨-, rfl⟩ | hu
    · rfl
    · exact h u v hu

theorem Unheld.wrapAll {xs : List NodeId} (h : Unheld s)
    (e : (xs.foldlM (fun s y => return (← Store.getOrCreate s y).2) s :
      Except ForestError Store) = .ok t) : Unheld t := by
  induction xs generalizing s with
  | nil =>
    cases e
    exact h
  | cons y xs ih =>
    rw [List.foldlM_cons] at e
    obtain ⟨s', hs', e⟩ := bind_eq_ok.mp e
    obtain ⟨⟨w, u⟩, entered, ⟨⟩⟩ := bind_eq_ok.mp hs'
    exact ih (h.getOrCreate entered) e

/-- Wrapping makes wrappers that nothing holds. -/
theorem Unheld.materialize (h : Unheld s) (e : s.materialize x = .ok (w, t)) : Unheld t := by
  unfold Store.materialize at e
  split at e
  · cases e
    exact h
  · obtain ⟨_, -, e⟩ := bind_eq_ok.mp e
    obtain ⟨s', hs', e⟩ := bind_eq_ok.mp e
    exact (h.wrapAll hs').getOrCreate e

theorem Unheld.collected (h : Unheld s) (c : Collected s t stats) : Unheld t := fun w v hw =>
  h w v (c.wrappers.mp hw).1

/-- Nothing is kept for a wrapper that is not held. -/
theorem Unheld.not_kept (h : Unheld s) (x : NodeId) : ¬ Kept s x := by
  rintro ⟨-, w, v, hw, rooted, -⟩
  rw [Wrapper.isRooted, h w v hw] at rooted
  exact Bool.false_ne_true rooted

/-- A collection of a store that nothing is held in leaves neither nodes nor wrappers. -/
theorem Unheld.emptied (h : Unheld s) (c : Collected s t stats) :
    t.forest.live = 0 ∧ t.heap.size = 0 := by
  constructor
  · rw [Forest.live, ← Arena.length_keys, List.length_eq_zero_iff, List.eq_nil_iff_forall_not_mem]
    intro x hx
    rw [Arena.mem_keys, ← Forest.contains] at hx
    exact h.not_kept x (c.contains_iff.mp hx)
  · rw [Heap.size, ← Arena.length_keys, List.length_eq_zero_iff, List.eq_nil_iff_forall_not_mem]
    intro w hw
    obtain ⟨v, hv⟩ := Arena.contains_iff.mp (Arena.mem_keys.mp hw)
    exact h.not_kept v.node (c.wrappers.mp hv).2

end Unheld

end Store

namespace Command

/-! ## One source -/

/-- What a source is compiled to in a forest of its own. -/
def compileAlone (o : ParseOptions) (render : Html.RenderOptions) (target : Target) (name : String)
    (bytes : List UInt8) : Except CommandError String :=
  match Text.decode bytes with
  | .error position =>
    .error (.source (Report.render name (Text.decodeLossy bytes) (.invalidUtf8 position)))
  | .ok source =>
    match ({} : Forest).read o (String.ofList source), target with
    | (.error e, _), _ => .error (.source (Report.render name source e))
    | (.ok x, f), .html => (f.html render x).mapError fun e => .workspace (.forest e)
    | (.ok x, f), .markdown => (f.commonMark x).mapError fun e => .workspace (.forest e)

/-- A workspace between two sources. -/
structure Between (settings : Settings) (ws : Workspace) : Prop where
  ready : ws.Ready
  unheld : ws.toStore.Unheld
  settings : ws.settings = settings

section Sources

variable {settings : Settings} {ws ws' : Workspace} {x : NodeId} {w : WrapperId}

theorem between_start (settings : Settings) : Between settings { settings } where
  ready := Workspace.ready_start settings
  unheld w v h := by simp [Heap.get?] at h
  settings := rfl

/-- A wrapper of a live node leads to it. -/
theorem nodeOf_wrapped (h : Store.Paired ws.toStore) (found : ws.identity.lookup x = some w) :
    ws.nodeOf w = .ok x := by
  obtain ⟨v, hv, rfl⟩ := h.inverse.mp found
  have wrapped : ws.wrappedNode w = .ok v.node := by simp [Store.wrappedNode, Store.wrapper, hv]
  rw [Workspace.nodeOf, wrapped, ok_bind, if_pos (h.live hv)]
  rfl

/-- What is compiled of a wrapped document is what its node shows. -/
theorem compileDocument_eq (h : Store.Paired ws.toStore)
    (found : ws.identity.lookup x = some w) (top : ws.forest.parent x = .ok none)
    (target : Target) :
    compileDocument ws target w = .ok (match target with
      | .html => Html.render ws.settings.render (ws.forest.treeAt x)
      | .markdown => CommonMark.write (ws.forest.treeAt x)) := by
  have node := nodeOf_wrapped h found
  have written := h.sound.writtenAs top
  cases target with
  | html =>
    rw [compileDocument, Workspace.html, Workspace.htmlWith, node, ok_bind, written.html]
    rfl
  | markdown =>
    rw [compileDocument, Workspace.commonMark, node, ok_bind, written.commonMark]
    rfl

/-- A reading fails as the source does, whatever is in the forest. -/
theorem read_error_iff (f : Forest) {o : ParseOptions} {source : String} {e : ParseError} :
    (f.read o source).1 = .error e ↔ parse o source = .error e := by
  rw [Forest.read_result]
  cases parse o source with
  | ok t => simp [Except.map]
  | error e' => simp [Except.map]

/-- A source that is no document is reported alone as in any workspace. -/
theorem compileAlone_error {o : ParseOptions} {render : Html.RenderOptions} {target : Target}
    {name : String} {bytes : List UInt8} {source : List Char} {e : ParseError}
    (decoded : Text.decode bytes = .ok source)
    (failed : parse o (String.ofList source) = .error e) :
    compileAlone o render target name bytes = .error (.source (Report.render name source e)) := by
  rw [compileAlone, decoded]
  dsimp only
  cases read : ({} : Forest).read o (String.ofList source) with
  | mk result f =>
    have same : result = .error e := by
      rw [← read_error_iff {}, read] at failed
      exact failed
    rw [same]

/-- A source that is a document is compiled alone to what the document shows. -/
theorem compileAlone_eq {o : ParseOptions} {render : Html.RenderOptions} {target : Target}
    {name : String} {bytes : List UInt8} {source : List Char} {t : Tree}
    (decoded : Text.decode bytes = .ok source) (parsed : parse o (String.ofList source) = .ok t) :
    compileAlone o render target name bytes = .ok (match target with
      | .html => Html.render render t
      | .markdown => CommonMark.write t) := by
  have empty : Forest.Sound {} := Forest.sound_empty
  obtain ⟨x, g, read, shown⟩ := empty.read_of_parse parsed
  obtain ⟨sound, grown⟩ := empty.read_ok read
  have top : g.parent x = .ok none := by rw [Forest.parent_eq grown.contains_self, grown.top]
  have written := sound.writtenAs top
  have tree : g.treeAt x = t := (Forest.snapshot_ok.mp shown).2
  rw [compileAlone, decoded]
  cases target with
  | html =>
    dsimp only
    rw [read]
    dsimp only
    rw [written.html, tree]
    rfl
  | markdown =>
    dsimp only
    rw [read]
    dsimp only
    rw [written.commonMark, tree]
    rfl

/-- Reading a document into a workspace. -/
theorem Between.parse (h : Between settings ws) (source : String) :
    Between settings (ws.parse source).2 := by
  have ready := h.ready.parse source
  rcases h.ready.parse_cases source with ⟨e, g, -, parsed⟩ | ⟨x, g, w, ws', -, -, wrapped, parsed⟩
  · rw [parsed] at ready ⊢
    exact ⟨ready, h.unheld, h.settings⟩
  · rw [parsed] at ready ⊢
    obtain ⟨⟨_, t⟩, made, ⟨⟩⟩ := bind_eq_ok.mp wrapped
    have unheld : Store.Unheld { ws.toStore with forest := g } := h.unheld
    exact ⟨ready, unheld.materialize (mapError_eq_ok.mp made), h.settings⟩

/-- In a workspace a source is compiled to what it is compiled to alone. -/
theorem Between.compileSource (h : Between settings ws) (target : Target) (name : String)
    (bytes : List UInt8) :
    (compileSource ws target name bytes).1 =
        compileAlone settings.parse settings.render target name bytes ∧
      Between settings (Command.compileSource ws target name bytes).2 := by
  rw [Command.compileSource, readDocument]
  cases decoded : Text.decode bytes with
  | error position => exact ⟨by rw [compileAlone, decoded], h⟩
  | ok source =>
    have next := h.parse (String.ofList source)
    dsimp only
    rcases h.ready.parse_cases (String.ofList source) with
      ⟨e, g, read, parsed⟩ | ⟨x, g, w, ws', read, paired, wrapped, parsed⟩
    · rw [parsed] at next ⊢
      have failed : MarkdownForest.parse ws.settings.parse (String.ofList source) = .error e := by
        rw [← read_error_iff ws.forest, read]
      rw [h.settings] at failed
      exact ⟨(compileAlone_error decoded failed).symm, next⟩
    · rw [parsed] at next ⊢
      obtain ⟨grown, paired', found⟩ :=
        Workspace.wrap_extends paired wrapped
      obtain ⟨sound, new⟩ := h.ready.paired.sound.read_ok read
      obtain ⟨made, -⟩ := h.ready.paired.sound.read_snapshot read
      have forest : ws'.forest = g := grown.forest
      have top : ws'.forest.parent x = .ok none := by
        rw [forest, Forest.parent_eq new.contains_self, new.top]
      rw [h.settings] at made
      have document := compileDocument_eq paired' found top target
      rw [next.settings, forest] at document
      exact ⟨document.trans (compileAlone_eq decoded made).symm, next⟩

/-- Nothing is held, so a collection keeps to what holds between two sources. -/
theorem Between.tidy (h : Between settings ws) : Between settings (tidy ws) := by
  obtain ⟨stats, ws', done, ready⟩ := h.ready.maybeCollect
  rw [Command.tidy, done]
  unfold Workspace.maybeCollect at done
  split at done
  · cases done
    exact h
  · obtain ⟨stats', t, collect, collected, -⟩ := h.ready.collect
    rw [collect] at done
    cases done
    exact ⟨ready, h.unheld.collected collected, h.settings⟩

/-- The last collection leaves neither nodes nor wrappers. -/
theorem Between.clear (h : Between settings ws) :
    (clear ws).forest.live = 0 ∧ (clear ws).heap.size = 0 := by
  obtain ⟨stats, t, done, collected, -⟩ := h.ready.collect
  rw [Command.clear, done]
  exact h.unheld.emptied collected

end Sources

/-! ## Programs side by side -/

/-- Two programs do the same, and what they give is related. -/
def Coupled {m : Type → Type} [Monad m] {α β : Type} (R : α → β → Prop) (x : m α) (y : m β) :
    Prop :=
  ∃ z : m { r : α × β // R r.1 r.2 }, (·.1.1) <$> z = x ∧ (·.1.2) <$> z = y

namespace Coupled

variable {m : Type → Type} [Monad m] [LawfulMonad m] {α β γ δ : Type} {R : α → β → Prop}
  {S : γ → δ → Prop} {x : m α} {y : m β}

theorem pure {a : α} {b : β} (h : R a b) : Coupled R (pure a : m α) (Pure.pure b) :=
  ⟨Pure.pure ⟨(a, b), h⟩, map_pure _ _, map_pure _ _⟩

theorem refl (x : m α) : Coupled Eq x x :=
  ⟨(fun a => ⟨(a, a), rfl⟩) <$> x, by simp, by simp⟩

theorem bind {f : α → m γ} {g : β → m δ} (h : Coupled R x y)
    (next : ∀ a b, R a b → Coupled S (f a) (g b)) : Coupled S (x >>= f) (y >>= g) := by
  obtain ⟨z, rfl, rfl⟩ := h
  obtain ⟨w, hw⟩ := Classical.skolem.mp fun r : { r : α × β // R r.1 r.2 } =>
    next r.1.1 r.1.2 r.2
  refine ⟨z >>= w, ?_, ?_⟩
  · simp [map_bind, (hw _).1]
  · simp [map_bind, (hw _).2]

/-- A program, and the same program with something done to what it gives. -/
theorem map {R : β → α → Prop} (x : m α) (f : α → β) (h : ∀ a, R (f a) a) :
    Coupled R (f <$> x) x :=
  ⟨(fun a => ⟨(f a, a), h a⟩) <$> x, by simp, by simp⟩

theorem map_eq (h : Coupled R x y) {f : α → γ} {g : β → γ} (same : ∀ a b, R a b → f a = g b) :
    f <$> x = g <$> y := by
  obtain ⟨z, rfl, rfl⟩ := h
  rw [← comp_map, ← comp_map]
  congr 1
  funext r
  exact same _ _ r.2

/-- What is the same for all related results. -/
theorem map_const (h : Coupled R x y) {f : α → γ} {c : γ} (same : ∀ a b, R a b → f a = c) :
    f <$> x = (fun _ => c) <$> x := by
  obtain ⟨z, rfl, -⟩ := h
  rw [← comp_map, ← comp_map]
  congr 1
  funext r
  exact same _ _ r.2

end Coupled

/-! ## All sources -/

section Machines

variable {m : Type → Type} [Monad m] [Machine m]

/-- Tells what became of a source, and whether that is a success. -/
def tell (s : Source) : Except CommandError String → m Bool
  | .ok place => do
    Machine.print ("  ✓ " ++ s.shown ++ " → " ++ place ++ "\n")
    return true
  | .error e => do
    Machine.printError ("  ✗ " ++ s.shown ++ " - " ++ e.message ++ "\n")
    return false

/-- Compiles one source alone and brings it out. -/
def bringOut (plan : CompilePlan) (o : ParseOptions) (render : Html.RenderOptions) (s : Source) :
    m (Except CommandError String) := do
  match ← Machine.readFile (m := m) s.path with
  | .error e => return .error (.file e)
  | .ok bytes =>
    match compileAlone o render plan.target (Path.fileName s.path) bytes with
    | .error e => return .error e
    | .ok output => (deliver plan s output).run

/-- Compiles one source alone, and tells what became of it. -/
def compileApart (plan : CompilePlan) (o : ParseOptions) (render : Html.RenderOptions)
    (s : Source) : m Bool := do
  tell s (← bringOut plan o render s)

variable [LawfulMonad m] {plan : CompilePlan} {settings : Settings}

/-- A source in a workspace, and the source alone. -/
theorem coupled_compileOne {ws : Workspace} (h : Between settings ws) (s : Source) :
    Coupled (m := m) (fun r r' => r.1 = r' ∧ Between settings r.2) (compileOne plan ws s)
      (bringOut plan settings.parse settings.render s) := by
  rw [compileOne, bringOut]
  refine (Coupled.refl _).bind fun read _ same => ?_
  subst same
  cases read with
  | error e => exact .pure ⟨rfl, h⟩
  | ok bytes =>
    obtain ⟨alone, next⟩ := h.compileSource plan.target (Path.fileName s.path) bytes
    dsimp only
    rw [← alone]
    cases compiled : compileSource ws plan.target (Path.fileName s.path) bytes with
    | mk result ws =>
      rw [compiled] at next
      cases result with
      | error e => exact .pure ⟨rfl, next⟩
      | ok output =>
        dsimp only
        rw [← map_eq_pure_bind]
        exact .map _ (fun delivered => (delivered, ws)) fun delivered => ⟨rfl, next⟩

/-- One more source is counted. -/
def counted (t : CompileTally) (ws : Workspace) (ok : Bool) : CompileTally where
  workspace := tidy ws
  succeeded := t.succeeded + ok.toNat
  failed := t.failed + (!ok).toNat

theorem compileNext_eq (t : CompileTally) (s : Source) :
    compileNext (m := m) plan t s =
      compileOne plan t.workspace s >>= fun r => counted t r.2 <$> tell s r.1 := by
  rw [compileNext]
  congr 1
  funext ⟨result, ws⟩
  cases result with
  | error e => simp [tell, counted]
  | ok place => simp [tell, counted]

/-- One more source in the workspace, and the source alone. -/
theorem coupled_compileNext {t : CompileTally} (h : Between settings t.workspace) (s : Source) :
    Coupled (m := m)
      (fun t' ok => Between settings t'.workspace ∧ t'.succeeded = t.succeeded + ok.toNat ∧
        t'.failed = t.failed + (!ok).toNat)
      (compileNext plan t s) (compileApart plan settings.parse settings.render s) := by
  rw [compileNext_eq, compileApart]
  refine (coupled_compileOne h s).bind fun r r' ⟨same, between⟩ => ?_
  subst same
  exact .map _ _ fun ok => ⟨between.tidy, rfl, rfl⟩

/-- Sources one after the other in the workspace, and each of them alone. -/
theorem coupled_foldlM (sources : List Source) {t : CompileTally}
    (h : Between settings t.workspace) :
    Coupled (m := m)
      (fun t' oks => Between settings t'.workspace ∧ oks.length = sources.length ∧
        t'.succeeded = t.succeeded + oks.count true ∧ t'.failed = t.failed + oks.count false)
      (sources.foldlM (compileNext plan) t)
      (sources.mapM (compileApart plan settings.parse settings.render)) := by
  induction sources generalizing t with
  | nil => exact .pure ⟨h, rfl, rfl, rfl⟩
  | cons s sources ih =>
    rw [List.foldlM_cons, List.mapM_cons]
    refine (coupled_compileNext h s).bind fun t' ok ⟨next, succeeded, failed⟩ => ?_
    -- alone, what became of the sources is put together in the end; the tally is complete by then
    rw [← bind_pure (sources.foldlM (compileNext plan) t')]
    refine (ih next).bind fun t'' oks ⟨last, length, more, less⟩ => ?_
    refine .pure ⟨last, congrArg (· + 1) length, ?_, ?_⟩
    · rw [more, succeeded, List.count_cons]
      cases ok with
      | false => simp
      | true => simp; omega
    · rw [less, failed, List.count_cons]
      cases ok with
      | false => simp; omega
      | true => simp

/-- **Sources are compiled apart.**  On every machine, compiling sources in one workspace does what
compiling each of them in a forest of its own does: the same files are read, the same texts are
written and the same lines are printed, in the same order, and the counts are the same.  In the
end every source is counted, and neither nodes nor wrappers are left. -/
theorem compileAll_apart (plan : CompilePlan) (settings : Settings) (sources : List Source) :
    (fun t => (t.succeeded, t.failed)) <$> compileAll (m := m) plan settings sources =
        (fun oks => (oks.count true, oks.count false)) <$>
          sources.mapM (compileApart plan settings.parse settings.render) ∧
      (fun t => (t.succeeded + t.failed, t.workspace.forest.live, t.workspace.heap.size)) <$>
          compileAll (m := m) plan settings sources =
        (fun _ => (sources.length, 0, 0)) <$> compileAll plan settings sources := by
  have start : Between settings ({ workspace := { settings } } : CompileTally).workspace :=
    between_start settings
  have coupled : Coupled (m := m) _ (sources.foldlM (compileNext plan) _) _ :=
    coupled_foldlM sources start
  rw [compileAll, ← map_eq_pure_bind]
  simp only [← comp_map]
  constructor
  · refine coupled.map_eq fun t oks ⟨_, _, succeeded, failed⟩ => ?_
    rw [Nat.zero_add] at succeeded failed
    exact Prod.ext succeeded failed
  · refine coupled.map_const fun t oks ⟨last, length, succeeded, failed⟩ => ?_
    obtain ⟨nodes, wrappers⟩ := last.clear
    have all : t.succeeded + t.failed = sources.length := by
      rw [Nat.zero_add] at succeeded failed
      rw [succeeded, failed, List.count_true_add_count_false, length]
    show (t.succeeded + t.failed, _, _) = _
    rw [all, nodes, wrappers]

end Machines

/-- A session with a file that is no text and a file with a heading. -/
def twoFiles : Session where
  disk := .folder [("a.md", .file [255]), ("b.md", .file [35, 32, 98])]

/-- The file that is no text is reported; the heading after it is compiled, in a workspace that is
collected after every source. -/
theorem twoFiles_apart :
    let plan : CompilePlan := { target := .html, stdout := true, outputDir := "dist" }
    let sources : List Source := [⟨"a.md", "a.md"⟩, ⟨"b.md", "b.md"⟩]
    let compiled : CompileTally × Session := Id.run
      ((compileAll (m := StateM Session) plan { gcThreshold := 0 } sources).run twoFiles)
    LawfulMonad (StateM Session) ∧ compiled.1.succeeded = 1 ∧ compiled.1.failed = 1 ∧
      compiled.1.workspace.forest.live = 0 ∧ compiled.1.workspace.heap.size = 0 := by
  intro plan sources compiled
  obtain ⟨counts, rest⟩ := compileAll_apart (m := StateM Session) plan { gcThreshold := 0 } sources
  have apart : ∀ {α : Type} {x y : StateM Session α}, x = y →
      (Id.run (x.run twoFiles)).1 = (Id.run (y.run twoFiles)).1 := by
    intro α x y e
    rw [e]
  have one : (compiled.1.succeeded, compiled.1.failed) = (1, 1) := by
    refine (apart counts).trans ?_
    decide +kernel
  obtain ⟨succeeded, failed⟩ := Prod.mk.inj one
  obtain ⟨-, left⟩ := Prod.mk.inj (apart rest)
  obtain ⟨nodes, wrappers⟩ := Prod.mk.inj left
  exact ⟨inferInstance, succeeded, failed, nodes, wrappers⟩

end Command

end MarkdownForest
