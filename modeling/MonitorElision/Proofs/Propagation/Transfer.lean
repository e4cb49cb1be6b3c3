import MonitorElision.Propagation
import MonitorElision.Proofs.NodeSet

/-!
# What a transfer does

A sweep collects exactly what the oracle answers, as far as it gets. A visit of an open latch either
closes it because of a side effect, or sweeps what enters, and then closes the latch just in case of
a redefinition or of a final node. A constructed analysis is a finished run without a fault.
-/
namespace MonitorElision.Propagation

section Sweep

variable {ask : Node → Narrated (Except Fault NodeSet)} {ns : List Node} {outgoing : NodeSet}

theorem mem_sweep {m : Node} (h : m ∈ (sweep ask ns outgoing).outgoing) :
    m ∈ outgoing ∨ ∃ n ∈ ns, ∃ next, (ask n).value = .ok next ∧ m ∈ next := by
  induction ns generalizing outgoing with
  | nil => exact Or.inl h
  | cons n ns ih =>
    unfold sweep at h
    dsimp only at h
    split at h
    · exact Or.inl h
    · rename_i next hnext
      split at h
      · exact Or.inl h
      · rcases ih h with h | ⟨k, hk, hm⟩
        · rcases NodeSet.mem_or_mem_of_mem_union h with h | h
          · exact Or.inl h
          · exact Or.inr ⟨n, List.mem_cons_self, next, hnext, h⟩
        · exact Or.inr ⟨k, List.mem_cons_of_mem n hk, hm⟩

theorem le_sweep : outgoing ≤ (sweep ask ns outgoing).outgoing := by
  induction ns generalizing outgoing with
  | nil => exact le_rfl
  | cons n ns ih =>
    unfold sweep
    dsimp only
    split
    · exact le_rfl
    · split
      · exact le_rfl
      · exact (NodeSet.le_union_left _ _).trans ih

/-- A sweep says what the oracle says. -/
theorem exists_ask_of_mem_events {e : Event} (h : e ∈ (sweep ask ns outgoing).events) :
    ∃ n ∈ ns, e ∈ (ask n).events := by
  induction ns generalizing outgoing with
  | nil => cases h
  | cons n ns ih =>
    unfold sweep at h
    dsimp only at h
    split at h
    · exact ⟨n, List.mem_cons_self, h⟩
    · split at h
      · exact ⟨n, List.mem_cons_self, h⟩
      · rcases List.mem_append.mp h with hn | hns
        · exact ⟨n, List.mem_cons_self, hn⟩
        · obtain ⟨k, hk, he⟩ := ih hns
          exact ⟨k, List.mem_cons_of_mem n hk, he⟩

/-- A sweep that is stopped has found a final node. -/
theorem exists_final_of_sweep (h : (sweep ask ns outgoing).ending = .final) :
    ∃ n ∈ ns, ∃ next, (ask n).value = .ok next ∧ ∃ m ∈ next, m.isFinal = true := by
  induction ns generalizing outgoing with
  | nil => cases h
  | cons n ns ih =>
    unfold sweep at h
    dsimp only at h
    split at h
    · cases h
    · rename_i next hnext
      split at h
      · rename_i hfinal
        exact ⟨n, List.mem_cons_self, next, hnext, List.any_eq_true.mp hfinal⟩
      · obtain ⟨k, hk, hm⟩ := ih h
        exact ⟨k, List.mem_cons_of_mem n hk, hm⟩

theorem isFinal_of_not_any {next : NodeSet} {m : Node} (h : ¬next.nodes.any (·.isFinal))
    (hm : m ∈ next) : m.isFinal = false :=
  Bool.eq_false_iff.mpr fun hfinal => h (List.any_eq_true.mpr ⟨m, hm, hfinal⟩)

/-- A sweep that is completed has collected every answer, and none of them is final. -/
theorem answer_of_sweep_completed (h : (sweep ask ns outgoing).ending = .completed) {n : Node}
    (hn : n ∈ ns) : ∃ next, (ask n).value = .ok next ∧
      next ≤ (sweep ask ns outgoing).outgoing ∧ ∀ m ∈ next, m.isFinal = false := by
  induction ns generalizing outgoing with
  | nil => cases hn
  | cons k ns ih =>
    unfold sweep at h ⊢
    dsimp only at h ⊢
    split at h
    · cases h
    · rename_i next hnext
      split at h
      · cases h
      · rename_i hfinal
        simp only [hfinal]
        rcases List.mem_cons.mp hn with rfl | hn
        · exact ⟨next, hnext, (NodeSet.le_union_right _ _).trans le_sweep,
            fun m hm => isFinal_of_not_any hfinal hm⟩
        · exact ih h hn

end Sweep

namespace Progress

@[simp] theorem closed_giveUp (p : Progress) (r : Reason) (s : Option Statement) :
    (p.giveUp r s).value.latch.Closed := Latch.closed_close _ _

end Progress

namespace Setup

variable {S : Setup} {E : Environment} {p : Progress} {s : Statement}
  {incoming outgoing : NodeSet} {flows : NodeSet × NodeSet}

theorem closed_enter : (S.enter p s incoming).1.latch = p.latch := by
  unfold enter
  split <;> rfl

theorem injected_watch : (S.watch p s incoming).value.injected = p.injected := by
  unfold watch
  split <;> rfl

theorem closed_watch (S : Setup) (s : Statement) (incoming : NodeSet) (h : ¬p.latch.Closed) :
    (S.watch p s incoming).value.latch.Closed ↔ incoming ≠ ∅ ∧ S.Redefines s := by
  unfold watch
  split
  · rename_i hw
    simp [hw]
  · rename_i hw
    exact iff_of_false h hw

/-- A visit that sweeps what enters, without a fault. -/
structure Swept (S : Setup) (E : Environment) (p : Progress) (s : Statement) (incoming : NodeSet)
    (next : Progress) (flows : NodeSet × NodeSet) : Prop where
  incoming_eq : flows.1 = (S.enter p s incoming).2
  outgoing_eq : flows.2 = (sweep (S.successors E s) flows.1.nodes ∅).outgoing
  injected_eq : next.injected = (S.enter p s incoming).1.injected
  closed_iff : next.latch.Closed ↔
    (flows.1 ≠ ∅ ∧ S.Redefines s) ∨ (sweep (S.successors E s) flows.1.nodes ∅).ending = .final
  ending : (sweep (S.successors E s) flows.1.nodes ∅).ending = .completed ∨
    (sweep (S.successors E s) flows.1.nodes ∅).ending = .final

theorem swept_pass (hopen : ¬p.latch.Closed)
    (h : (S.pass E (S.watch (S.enter p s incoming).1 s (S.enter p s incoming).2).value s
      (S.enter p s incoming).2).flows = .ok flows) :
    S.Swept E p s incoming (S.pass E
      (S.watch (S.enter p s incoming).1 s (S.enter p s incoming).2).value s
      (S.enter p s incoming).2).progress flows := by
  have hentered : ¬(S.enter p s incoming).1.latch.Closed := by rwa [closed_enter]
  have hwatched := S.closed_watch s (S.enter p s incoming).2 hentered
  unfold pass at h ⊢
  dsimp only at h ⊢
  split at h
  · rename_i hcompleted
    cases h
    refine ⟨rfl, rfl, injected_watch, ?_, Or.inl hcompleted⟩
    simp [hwatched, hcompleted]
  · rename_i hfinal
    cases h
    refine ⟨rfl, rfl, injected_watch, ?_, Or.inr hfinal⟩
    simp [hfinal]
  · cases h

/-- All that a visit without a fault can do. -/
theorem flow_cases (h : (S.flow E p s incoming outgoing).flows = .ok flows) :
    (p.latch.Closed ∧ (S.flow E p s incoming outgoing).progress = p ∧
      flows = (incoming, outgoing)) ∨
    (E.mayTrigger s = true ∧ (S.flow E p s incoming outgoing).progress.latch.Closed ∧
      flows = (incoming, outgoing)) ∨
    (¬p.latch.Closed ∧ E.mayTrigger s = false ∧
      S.Swept E p s incoming (S.flow E p s incoming outgoing).progress flows) := by
  unfold flow at h ⊢
  split at h
  · rename_i hclosed
    cases h
    simp [hclosed]
  · rename_i hopen
    split at h
    · rename_i htrigger
      cases h
      simp [hopen, htrigger]
    · rename_i hquiet
      rw [if_neg hopen, if_neg hquiet]
      exact Or.inr (Or.inr ⟨hopen, Bool.eq_false_iff.mpr hquiet, swept_pass hopen h⟩)

theorem enter_cases :
    (S.Injects p s ∧ S.enter p s incoming = ({ p with injected := true }, S.initial)) ∨
    (¬S.Injects p s ∧ S.enter p s incoming = (p, incoming)) := by
  unfold enter
  split
  · rename_i h
    exact Or.inl ⟨h, rfl⟩
  · rename_i h
    exact Or.inr ⟨h, rfl⟩

/-- The oracle lets the automaton pass the statement from `x` to `y`. -/
def Moves (S : Setup) (E : Environment) (s : Statement) (x y : Node) : Prop :=
  ∃ next, (S.successors E s x).value = .ok next ∧ y ∈ next

/-- A visit that leaves the latch open. -/
structure Passed (S : Setup) (E : Environment) (s : Statement) (flows : NodeSet × NodeSet) :
    Prop where
  quiet : E.mayTrigger s = false
  kept : ∀ x ∈ flows.1, ¬S.Redefines s
  sound : ∀ y ∈ flows.2, ∃ x ∈ flows.1, S.Moves E s x y
  complete : ∀ x ∈ flows.1, ∀ y, S.Moves E s x y → y.index ∈ flows.2.indexes ∧ y.isFinal = false

theorem Swept.passed {next : Progress} (h : S.Swept E p s incoming next flows)
    (hquiet : E.mayTrigger s = false) (hopen : ¬next.latch.Closed) : S.Passed E s flows := by
  rw [h.closed_iff, not_or] at hopen
  have hcompleted := h.ending.resolve_right hopen.2
  constructor
  · exact hquiet
  · intro x hx hredefines
    have hne : flows.1 ≠ ∅ := by
      intro hempty
      rw [hempty] at hx
      exact NodeSet.not_mem_empty x hx
    exact hopen.1 ⟨hne, hredefines⟩
  · intro y hy
    rw [h.outgoing_eq] at hy
    exact (mem_sweep hy).resolve_left (NodeSet.not_mem_empty y)
  · rintro x hx y ⟨next, hnext, hy⟩
    obtain ⟨answer, hanswer, hle, hfinal⟩ := answer_of_sweep_completed hcompleted hx
    obtain rfl : answer = next := Except.ok.inj (hanswer.symm.trans hnext)
    rw [h.outgoing_eq]
    exact ⟨NodeSet.le_iff_forall_mem.mp hle y hy, hfinal y hy⟩

theorem flow_open (h : (S.flow E p s incoming outgoing).flows = .ok flows)
    (hopen : ¬(S.flow E p s incoming outgoing).progress.latch.Closed) :
    ¬p.latch.Closed ∧ S.Passed E s flows ∧ flows.1 = (S.enter p s incoming).2 ∧
      (S.flow E p s incoming outgoing).progress.injected = (S.enter p s incoming).1.injected := by
  rcases flow_cases h with ⟨hclosed, heq, -⟩ | ⟨-, hclosed, -⟩ | ⟨hp, hquiet, hswept⟩
  · rw [heq] at hopen
    exact absurd hclosed hopen
  · exact absurd hclosed hopen
  · exact ⟨hp, hswept.passed hquiet hopen, hswept.incoming_eq, hswept.injected_eq⟩

/-- A step without a fault is a visit without a fault, and there was none before it. -/
theorem step_of_fault_eq_none {x : Account}
    (h : (S.step E x s incoming outgoing).state.fault = none) :
    x.fault = none ∧
      (S.step E x s incoming outgoing).state.progress =
        (S.flow E x.progress s incoming outgoing).progress ∧
      (S.flow E x.progress s incoming outgoing).flows = .ok
        ((S.step E x s incoming outgoing).incoming, (S.step E x s incoming outgoing).outgoing) := by
  unfold step at h ⊢
  split at h
  · rename_i hfault
    rw [hfault] at h
    cases h
  · rename_i hnone
    dsimp only at h ⊢
    split at h
    · cases h
    · rename_i flows hflows
      simp only [hflows]
      exact ⟨hnone, trivial, trivial⟩

section Prepare

variable {g : FlowGraph} {group : Shadow.Group} {sh : Shadow} {r : Shadow.Registry}
  {tm : Tracematch}

/-- The latch with which an analysis starts. -/
def outset (b : Bindings) : Progress :=
  if b.unresolved then (Progress.giveUp {} .unresolvedBinding none).value else {}

theorem value_prepare : (prepare g group sh r tm).value =
    match g.statements.find? (Hosts r sh ·) with
    | none => .error (.unhostedShadow g.name sh)
    | some start => .ok (⟨start, NodeSet.ofList tm.initialNodes,
        (Bindings.extract g group sh).value⟩, outset (Bindings.extract g group sh).value) := by
  simp only [prepare, Narrated.value_bind]
  cases g.statements.find? (Hosts r sh ·) with
  | none => rfl
  | some start =>
    simp only [Narrated.value_bind, launch, outset]
    split <;> rfl

@[simp] theorem injected_outset (b : Bindings) : (outset b).injected = false := by
  unfold outset
  split <;> rfl

theorem closed_outset {b : Bindings} : (outset b).latch.Closed ↔ b.unresolved = true := by
  unfold outset
  split
  · rename_i h
    simp [h]
  · rename_i h
    simp [h, Latch.Closed]

theorem prepare_eq_ok (h : (prepare g group sh r tm).value = .ok (S, p)) :
    g.statements.find? (Hosts r sh ·) = some S.start ∧
      S.initial = NodeSet.ofList tm.initialNodes ∧
      S.bindings = (Bindings.extract g group sh).value ∧ p = outset S.bindings := by
  rw [value_prepare] at h
  split at h
  · cases h
  · rename_i start hstart
    cases h
    exact ⟨hstart, rfl, rfl, rfl⟩

end Prepare

end Setup
end MonitorElision.Propagation

namespace MonitorElision.Propagator

open Propagation

variable {g : FlowGraph} {group : Shadow.Group} {sh : Shadow} {r : Shadow.Registry}
  {E : Environment} {S : Setup} {progress : Progress} {p : Propagator}

theorem run_eq_ok (h : (run g E S progress).value = .ok p) :
    ((S.analysis E).run g ⟨progress, none, []⟩).state.fault = none ∧
      p = ⟨S, ((S.analysis E).run g ⟨progress, none, []⟩).state.progress.latch,
        ((S.analysis E).run g ⟨progress, none, []⟩).solution⟩ := by
  unfold run at h
  simp only [Narrated.value_bind] at h
  split at h
  · cases h
  · rename_i hfault
    refine ⟨hfault, ?_⟩
    simp only [Narrated.value_bind, Narrated.value_pure] at h
    exact (Except.ok.inj h).symm

/-- The run behind an analysis that was set up. -/
def finished (g : FlowGraph) (E : Environment) (S : Setup) :
    Fixpoint.Iteration Account g.size :=
  (S.analysis E).run g ⟨Setup.outset S.bindings, none, []⟩

theorem construct_eq_ok (h : (construct g group sh r E).value = .ok p) :
    g.statements.find? (Setup.Hosts r sh ·) = some p.setup.start ∧
      p.setup.initial = NodeSet.ofList E.tracematch.initialNodes ∧
      p.setup.bindings = (Bindings.extract g group sh).value ∧
      (finished g E p.setup).state.fault = none ∧
      p.latch = (finished g E p.setup).state.progress.latch ∧
      p.solution = (finished g E p.setup).solution := by
  unfold construct at h
  simp only [Narrated.value_bind] at h
  split at h
  · cases h
  · rename_i S progress hprepare
    obtain ⟨hstart, hinitial, hbindings, rfl⟩ := Setup.prepare_eq_ok hprepare
    obtain ⟨hfault, rfl⟩ := run_eq_ok h
    exact ⟨hstart, hinitial, hbindings, hfault, rfl, rfl⟩

end MonitorElision.Propagator
