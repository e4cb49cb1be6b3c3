import MonitorElision.Proofs.Fixpoint.Equations
import MonitorElision.Proofs.Oracle.Firing
import MonitorElision.Proofs.Propagation.Tracking

/-!
# Flows and verdicts

The flows of a finished analysis are exactly the runs, as long as it did not give up, and the
verdict tells exactly whether some run gives a reason to doubt the procedure. So neither depends on
how the worklist goes about the graph.
-/
namespace MonitorElision.Propagation.Setup

variable {S : Setup} {E : Environment} {g g' : FlowGraph}

theorem AnswersWithin.successors_shadows {r : Shadow.Registry} {procedure : String}
    (horacle : E.oracle = Oracle.shadows r procedure)
    (hinitial : S.initial = NodeSet.ofList E.tracematch.initialNodes) : S.AnswersWithin E := by
  rintro s x y hx ⟨next, hnext, hy⟩
  unfold successors at hnext
  rw [horacle] at hnext
  apply Oracle.mem_nodes_of_successors_shadows (c := S.context E) _ hx hnext hy
  intro k hk
  change k ∈ S.initial at hk
  rw [hinitial] at hk
  exact Tracematch.mem_nodes_of_mem_initialNodes (NodeSet.mem_of_mem_ofList hk)

theorem not_suspect_iff : ¬S.Suspect E g ↔ S.bindings.unresolved = false ∧
    (∀ s ∈ g.statements, E.mayTrigger s = false) ∧
    (∀ s x, S.Enters E g s x → ¬S.Redefines s) ∧
    ∀ s y, S.Leaves E g s y → y.isFinal = false := by
  constructor
  · intro h
    refine ⟨?_, ?_, ?_, ?_⟩
    · exact Bool.eq_false_iff.mpr fun hunresolved => h (Suspect.unresolved hunresolved)
    · intro s hs
      exact Bool.eq_false_iff.mpr fun htrigger => h (Suspect.triggers hs htrigger)
    · intro s x hx hredefines
      exact h (Suspect.redefines hx hredefines)
    · intro s y hy
      exact Bool.eq_false_iff.mpr fun hfinal => h (Suspect.final hy hfinal)
  · rintro ⟨hresolved, hquiet, hkept, hfinal⟩ (h | ⟨hs, h⟩ | ⟨hx, h⟩ | ⟨hy, h⟩)
    · rw [hresolved] at h
      cases h
    · rw [hquiet _ hs] at h
      cases h
    · exact hkept _ _ hx h
    · rw [hfinal _ _ hy] at h
      cases h

/-- No run gives a reason to doubt the procedure. -/
structure Harmless (S : Setup) (E : Environment) (g : FlowGraph) : Prop where
  trusted : ¬S.Suspect E g
  exits : ∀ t ∈ g.tails, ∀ y, S.Leaves E g (g.statement t) y → y.isInitial = true

/-- A graph with fewer edges but the same exits allows fewer runs. -/
theorem Harmless.subgraph (hg : g.Subgraph g')
    (htails : ∀ t : Fin g.size, t ∈ g.tails → t.cast hg.size_eq ∈ g'.tails)
    (h : S.Harmless E g') : S.Harmless E g where
  trusted hsuspect := h.trusted (hsuspect.subgraph hg)
  exits t ht y hy := by
    apply h.exits (t.cast hg.size_eq) (htails t ht) y
    rw [hg.statement_cast]
    exact hy.subgraph hg

theorem Harmless.reordered (hg : g.Reordered g') (h : S.Harmless E g') : S.Harmless E g :=
  h.subgraph hg.subgraph fun t ht => (hg.symm.mem_tails_cast t).mpr ht

end MonitorElision.Propagation.Setup

namespace MonitorElision.Propagator

open Propagation

variable {g g' : FlowGraph} {group : Shadow.Group} {sh : Shadow} {r : Shadow.Registry}
  {E : Environment} {p p' : Propagator}

/-- What is set up does not depend on the edges. -/
theorem setup_subgraph (hg : g.Subgraph g') (hp : (construct g group sh r E).value = .ok p)
    (hp' : (construct g' group sh r E).value = .ok p') : p'.setup = p.setup := by
  obtain ⟨hstart, hinitial, hbindings, -⟩ := construct_eq_ok hp
  obtain ⟨hstart', hinitial', hbindings', -⟩ := construct_eq_ok hp'
  have hstatements := hg.statements_eq
  have hsame : (Bindings.extract g' group sh).value = (Bindings.extract g group sh).value := by
    simp only [Bindings.extract, Bindings.findings, hstatements]
  rw [hstatements] at hstart'
  have hstarts : p'.setup.start = p.setup.start := Option.some.inj (hstart'.symm.trans hstart)
  have hinitials : p'.setup.initial = p.setup.initial := hinitial'.trans hinitial.symm
  have hbound : p'.setup.bindings = p.setup.bindings := by rw [hbindings', hbindings, hsame]
  calc p'.setup = ⟨p'.setup.start, p'.setup.initial, p'.setup.bindings⟩ := rfl
    _ = ⟨p.setup.start, p.setup.initial, p.setup.bindings⟩ := by
      rw [hstarts, hinitials, hbound]

theorem setup_reordered (hg : g.Reordered g') (hp : (construct g group sh r E).value = .ok p)
    (hp' : (construct g' group sh r E).value = .ok p') : p'.setup = p.setup :=
  setup_subgraph hg.subgraph hp hp'

theorem queue_finished (g : FlowGraph) (E : Environment) (S : Setup) :
    (finished g E S).queue = [] :=
  (S.analysis E).queue_run g _

section Construct

variable (hp : (construct g group sh r E).value = .ok p)
include hp

theorem start_mem_statements : p.setup.start ∈ g.statements :=
  List.mem_of_find?_eq_some (construct_eq_ok hp).1

theorem before?_construct (i : Fin g.size) :
    p.solution.before? (g.statement i) = some ((finished g E p.setup).before.get i) := by
  obtain ⟨-, -, -, -, -, hsolution⟩ := construct_eq_ok hp
  rw [hsolution, Fixpoint.Iteration.before?_solution]

theorem after?_construct (i : Fin g.size) :
    p.solution.after? (g.statement i) = some ((finished g E p.setup).after.get i) := by
  obtain ⟨-, -, -, -, -, hsolution⟩ := construct_eq_ok hp
  rw [hsolution, Fixpoint.Iteration.after?_solution]

theorem exitFlows_construct :
    p.exitFlows g = g.tails.map fun t => (finished g E p.setup).after.get t := by
  unfold exitFlows
  rw [← List.filterMap_eq_map]
  exact List.filterMap_congr fun t _ => after?_construct hp t

variable (hE : p.setup.AnswersWithin E)
include hE

theorem justified_construct : p.setup.Justified E g (finished g E p.setup) := by
  obtain ⟨-, hinitial, -, hfault, -, -⟩ := construct_eq_ok hp
  exact (Setup.justified_and_tracked_finished hinitial hE hfault).1

theorem tracked_construct (hopen : ¬p.latch.Closed) :
    p.setup.Tracked E g (finished g E p.setup) := by
  obtain ⟨-, hinitial, -, hfault, hlatch, -⟩ := construct_eq_ok hp
  rw [hlatch] at hopen
  exact (Setup.justified_and_tracked_finished hinitial hE hfault).2 hopen

theorem closed_construct : p.latch.Closed ↔ p.setup.Suspect E g := by
  constructor
  · intro hclosed
    obtain ⟨-, -, -, -, hlatch, -⟩ := construct_eq_ok hp
    rw [hlatch] at hclosed
    exact (justified_construct hp hE).closed hclosed
  · intro hsuspect
    by_contra hopen
    exact (tracked_construct hp hE hopen).not_suspect (queue_finished g E p.setup)
      (start_mem_statements hp) hsuspect

theorem mem_before_construct (hopen : ¬p.latch.Closed) (i : Fin g.size) (x : Node) :
    x ∈ (finished g E p.setup).before.get i ↔ p.setup.Enters E g (g.statement i) x := by
  constructor
  · exact (justified_construct hp hE).before i x
  · intro hx
    exact (tracked_construct hp hE hopen).mem_before_of_enters (queue_finished g E p.setup)
      (start_mem_statements hp) hx rfl

theorem mem_after_construct (hopen : ¬p.latch.Closed) (i : Fin g.size) (y : Node) :
    y ∈ (finished g E p.setup).after.get i ↔ p.setup.Leaves E g (g.statement i) y := by
  constructor
  · exact (justified_construct hp hE).after i y
  · intro hy
    exact ((tracked_construct hp hE hopen).passed_of_leaves (queue_finished g E p.setup)
      (start_mem_statements hp) hy).1

theorem safelyInvariant_iff_harmless : p.SafelyInvariant g ↔ p.setup.Harmless E g := by
  unfold SafelyInvariant
  rw [exitFlows_construct hp, closed_construct hp hE]
  constructor
  · rintro ⟨htrusted, hexits⟩
    have hopen : ¬p.latch.Closed := fun hclosed => htrusted ((closed_construct hp hE).mp hclosed)
    constructor
    · exact htrusted
    · intro t ht y hy
      apply hexits _ (List.mem_map_of_mem ht)
      exact (mem_after_construct hp hE hopen t y).mpr hy
  · rintro ⟨htrusted, hexits⟩
    constructor
    · exact htrusted
    · intro flow hflow y hy
      obtain ⟨t, ht, rfl⟩ := List.mem_map.mp hflow
      exact hexits t ht y ((justified_construct hp hE).after t y hy)

end Construct

/-- The flows around each statement are the runs through it, all of them unless the analysis gave
up. -/
theorem flows_iff_runs (hp : (construct g group sh r E).value = .ok p)
    (hE : p.setup.AnswersWithin E) : ∀ s ∈ g.statements, ∃ before after,
    p.flowBefore g s = .ok before ∧ p.flowAfter g s = .ok after ∧
    (¬p.latch.Closed → (∀ x, x ∈ before ↔ p.setup.Enters E g s x) ∧
      ∀ y, y ∈ after ↔ p.setup.Leaves E g s y) ∧
    (p.latch.Closed → (∀ x ∈ before, p.setup.Enters E g s x) ∧
      ∀ y ∈ after, p.setup.Leaves E g s y) := by
  intro s hs
  obtain ⟨i, rfl⟩ := FlowGraph.mem_statements.mp hs
  have hmem := FlowGraph.statement_mem i
  have hjust := justified_construct hp hE
  refine ⟨(finished g E p.setup).before.get i, (finished g E p.setup).after.get i, ?_, ?_, ?_, ?_⟩
  · simp only [flowBefore, hmem, if_true, before?_construct hp]
  · simp only [flowAfter, hmem, if_true, after?_construct hp]
  · intro hopen
    exact ⟨mem_before_construct hp hE hopen i, mem_after_construct hp hE hopen i⟩
  · exact fun _ => ⟨hjust.before i, hjust.after i⟩

/-- A result can be looked into. -/
instance {ε α : Type} {P : α → Prop} [DecidablePred P] (x : Except ε α) :
    Decidable (∃ a, x = .ok a ∧ P a) :=
  match x with
  | .ok a => decidable_of_iff (P a) (by simp)
  | .error _ => isFalse (by simp)

/-- What is opened is closed before it is opened again. -/
def toggle : Tracematch where
  signature := ⟨0, "toggle", [], .ofList ["open", "close"]⟩
  kinds := #[⟨true, false⟩, ⟨false, false⟩, ⟨false, true⟩]
  transitions := .ofList [⟨0, "open", 1⟩, ⟨1, "close", 0⟩, ⟨1, "open", 2⟩]
  within := by decide

def toggleShadow (i : Nat) (symbol : String) : Shadow :=
  ⟨0, i, toggle.signature, "loop", symbol, ∅⟩

/-- The statement of the initial shadow is on a loop. -/
def toggleLoop : FlowGraph where
  id := 0
  name := "loop"
  instrs := #[.nop "", .nop "", .nop "", .ret none]
  edges := .ofList [(0, 1), (1, 2), (2, 1), (2, 3)]

def toggleLoopReordered : FlowGraph :=
  { toggleLoop with edges := .ofList [(2, 3), (2, 1), (1, 2), (0, 1)] }

def toggleRegistry : Shadow.Registry where
  id := 0
  shadows := [toggleShadow 0 "open", toggleShadow 1 "close"]
  hosts := ⟨[(⟨0, 1, .nop ""⟩, [toggleShadow 0 "open"]),
    (⟨0, 2, .nop ""⟩, [toggleShadow 1 "close"])], by decide⟩
  disabled := []
  numbered := rfl
  owned := by simp [toggleShadow]
  attached := .refl _

def toggleEnvironment : Environment where
  tracematch := toggle
  oracle := .shadows toggleRegistry "loop"
  mayTrigger _ := false

def toggleGroup : Shadow.Group := ⟨"all", toggleRegistry.shadows⟩

def toggleAnalysis (g : FlowGraph) : Except Fault Propagator :=
  (construct g toggleGroup (toggleShadow 0 "open") toggleRegistry toggleEnvironment).value

theorem answersWithin_toggle {g : FlowGraph} {p : Propagator} (hp : toggleAnalysis g = .ok p) :
    p.setup.AnswersWithin toggleEnvironment :=
  Setup.AnswersWithin.successors_shadows rfl (construct_eq_ok hp).2.1

theorem flows_toggleLoop : ∃ p, toggleAnalysis toggleLoop = .ok p ∧
    (∀ x, p.setup.Enters toggleEnvironment toggleLoop ⟨0, 1, .nop ""⟩ x ↔
      x = ⟨0, 0, true, false⟩) ∧
    ∀ y, p.setup.Leaves toggleEnvironment toggleLoop ⟨0, 1, .nop ""⟩ y ↔
      y = ⟨0, 1, false, false⟩ := by
  have hrun : ∃ p, toggleAnalysis toggleLoop = .ok p ∧ ¬p.latch.Closed ∧
      (∃ before, p.flowBefore toggleLoop ⟨0, 1, .nop ""⟩ = .ok before ∧
        before = {⟨0, 0, true, false⟩}) ∧
      ∃ after, p.flowAfter toggleLoop ⟨0, 1, .nop ""⟩ = .ok after ∧
        after = {⟨0, 1, false, false⟩} := by
    decide +kernel
  obtain ⟨p, hp, hopen, ⟨_, hbefore, rfl⟩, ⟨_, hafter, rfl⟩⟩ := hrun
  obtain ⟨before, after, hb, ha, hexact, -⟩ :=
    flows_iff_runs hp (answersWithin_toggle hp) ⟨0, 1, .nop ""⟩ (by decide)
  obtain rfl := Except.ok.inj (hb.symm.trans hbefore)
  obtain rfl := Except.ok.inj (ha.symm.trans hafter)
  obtain ⟨henters, hleaves⟩ := hexact hopen
  refine ⟨p, hp, ?_, ?_⟩
  · intro x
    rw [← henters, NodeSet.mem_singleton]
  · intro y
    rw [← hleaves, NodeSet.mem_singleton]

/-- The verdict is positive just in case the bindings are resolved, no statement may trigger events
elsewhere, and every run keeps the trace locals, meets no final node and leaves each exit in an
initial node. It is the same whatever the order in which the edges were added. -/
theorem safelyInvariant_iff_runs (hp : (construct g group sh r E).value = .ok p)
    (hE : p.setup.AnswersWithin E) :
    (p.SafelyInvariant g ↔
      (Bindings.extract g group sh).value.unresolved = false ∧
      (∀ s ∈ g.statements, E.mayTrigger s = false) ∧
      (∀ s x, p.setup.Enters E g s x →
        ∀ l ∈ s.live.defs, ¬(Bindings.extract g group sh).value.IsTraceLocal l) ∧
      (∀ s y, p.setup.Leaves E g s y → y.isFinal = false) ∧
      ∀ t ∈ g.tails, ∀ y, p.setup.Leaves E g (g.statement t) y → y.isInitial = true) ∧
    ∀ g' p', g.Reordered g' → (construct g' group sh r E).value = .ok p' →
      (p'.SafelyInvariant g' ↔ p.SafelyInvariant g) := by
  obtain ⟨-, -, hbindings, -⟩ := construct_eq_ok hp
  constructor
  · have hkept : (∀ s x, p.setup.Enters E g s x → ¬p.setup.Redefines s) ↔
        ∀ s x, p.setup.Enters E g s x →
          ∀ l ∈ s.live.defs, ¬(Bindings.extract g group sh).value.IsTraceLocal l := by
      simp only [Setup.Redefines, hbindings, not_exists, not_and]
    rw [safelyInvariant_iff_harmless hp hE, ← hkept, ← hbindings]
    constructor
    · rintro ⟨htrusted, hexits⟩
      obtain ⟨hresolved, hquiet, hkept, hfinal⟩ := Setup.not_suspect_iff.mp htrusted
      exact ⟨hresolved, hquiet, hkept, hfinal, hexits⟩
    · rintro ⟨hresolved, hquiet, hkept, hfinal, hexits⟩
      exact ⟨Setup.not_suspect_iff.mpr ⟨hresolved, hquiet, hkept, hfinal⟩, hexits⟩
  · intro g' p' hg hp'
    have hsetup := setup_reordered hg hp hp'
    have hE' : p'.setup.AnswersWithin E := hsetup.symm ▸ hE
    rw [safelyInvariant_iff_harmless hp' hE', safelyInvariant_iff_harmless hp hE, hsetup]
    exact ⟨Setup.Harmless.reordered hg, Setup.Harmless.reordered hg.symm⟩

theorem safelyInvariant_toggleLoop : ∃ p p', toggleAnalysis toggleLoop = .ok p ∧
    toggleAnalysis toggleLoopReordered = .ok p' ∧ toggleLoop.Reordered toggleLoopReordered ∧
    (∀ s y, p.setup.Leaves toggleEnvironment toggleLoop s y → y.isFinal = false) ∧
    (∀ y, p.setup.Leaves toggleEnvironment toggleLoop ⟨0, 3, .ret none⟩ y → y.isInitial = true) ∧
    p'.SafelyInvariant toggleLoopReordered := by
  have hrun : ∃ p, toggleAnalysis toggleLoop = .ok p ∧ p.SafelyInvariant toggleLoop := by
    decide +kernel
  have hrun' : ∃ p', toggleAnalysis toggleLoopReordered = .ok p' ∧ True := by
    decide +kernel
  have hreordered : toggleLoop.Reordered toggleLoopReordered :=
    ⟨rfl, rfl, fun _ => Adjacency.mem_ofList_of_perm (by decide)⟩
  obtain ⟨p, hp, hsafe⟩ := hrun
  obtain ⟨p', hp', -⟩ := hrun'
  obtain ⟨hruns, horder⟩ := safelyInvariant_iff_runs hp (answersWithin_toggle hp)
  obtain ⟨-, -, -, hfinal, hexits⟩ := hruns.mp hsafe
  exact ⟨p, p', hp, hp', hreordered, hfinal, hexits ⟨3, by decide⟩ (by decide),
    (horder _ p' hreordered hp').mpr hsafe⟩

end MonitorElision.Propagator
