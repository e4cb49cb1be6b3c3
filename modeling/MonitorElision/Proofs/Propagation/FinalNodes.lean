import MonitorElision.Proofs.Propagation.GivingUp

/-!
# Final nodes

A sweep that meets a final node stops before it takes the answer in, and the latch closes. So no
final node flows out of a statement, and one enters a statement only where the initial nodes are
injected. What was collected before the final node was met still flows on.
-/
namespace MonitorElision

namespace Propagation

open Fixpoint

/-- A sweep takes in no answer with a final node. -/
theorem isFinal_of_mem_sweep {ask : Node → Narrated (Except Fault NodeSet)} {ns : List Node}
    {outgoing : NodeSet} {m : Node} (houtgoing : ∀ y ∈ outgoing, y.isFinal = false)
    (h : m ∈ (sweep ask ns outgoing).outgoing) : m.isFinal = false := by
  induction ns generalizing outgoing with
  | nil => exact houtgoing m h
  | cons n ns ih =>
    unfold sweep at h
    dsimp only at h
    split at h
    · exact houtgoing m h
    · rename_i next _
      split at h
      · exact houtgoing m h
      · rename_i hnone
        refine ih (fun y hy => ?_) h
        rcases NodeSet.mem_or_mem_of_mem_union hy with hy | hy
        · exact houtgoing y hy
        · exact isFinal_of_not_any hnone hy

namespace Setup

variable {S : Setup} {E : Environment} {g : FlowGraph} {p : Progress} {s : Statement}
  {incoming outgoing : NodeSet} {flows : NodeSet × NodeSet} {x y : Node}

section Visits

variable (hincoming : ∀ x ∈ incoming, x.isFinal = false)
include hincoming

/-- Only the injection brings a final node into a statement. -/
theorem injected_of_mem_enter (hx : x ∈ (S.enter p s incoming).2) (hfinal : x.isFinal = true) :
    s = S.start ∧ x ∈ S.initial := by
  rcases S.enter_cases with ⟨hinjects, henter⟩ | ⟨-, henter⟩
  · rw [henter] at hx
    exact ⟨hinjects.1, hx⟩
  · rw [henter] at hx
    rw [hincoming x hx] at hfinal
    cases hfinal

theorem isFinal_flow (houtgoing : ∀ y ∈ outgoing, y.isFinal = false)
    (h : (S.flow E p s incoming outgoing).flows = .ok flows) :
    (∀ y ∈ flows.2, y.isFinal = false) ∧
      ∀ x ∈ flows.1, x.isFinal = true → s = S.start ∧ x ∈ S.initial := by
  have hnone : ∀ x ∈ incoming, x.isFinal = true → s = S.start ∧ x ∈ S.initial := by
    intro x hx hfinal
    rw [hincoming x hx] at hfinal
    cases hfinal
  rcases flow_cases h with ⟨-, -, rfl⟩ | ⟨-, -, rfl⟩ | ⟨-, -, hswept⟩
  · exact ⟨houtgoing, hnone⟩
  · exact ⟨houtgoing, hnone⟩
  · constructor
    · intro y hy
      rw [hswept.outgoing_eq] at hy
      exact isFinal_of_mem_sweep (fun z hz => absurd hz (NodeSet.not_mem_empty z)) hy
    · intro x hx hfinal
      rw [hswept.incoming_eq] at hx
      exact injected_of_mem_enter hincoming hx hfinal

end Visits

/-- A visit whose sweep can meet a final node does not leave the latch open. -/
theorem closed_flow_of_isFinal (h : (S.flow E p s incoming outgoing).flows = .ok flows)
    (hx : x ∈ (S.enter p s incoming).2) (hmove : S.Moves E s x y) (hfinal : y.isFinal = true) :
    (S.flow E p s incoming outgoing).progress.latch.Closed := by
  by_contra hopen
  obtain ⟨-, hpassed, hincoming, -⟩ := flow_open h hopen
  rw [← hincoming] at hx
  rw [(hpassed.complete x hx y hmove).2] at hfinal
  cases hfinal

/-- Final nodes flow out of no statement, and into one only where the initial nodes are injected. -/
structure Contained (S : Setup) (g : FlowGraph) (it : Iteration Account g.size) : Prop where
  after : ∀ j : Fin g.size, ∀ y ∈ it.after.get j, y.isFinal = false
  before : ∀ j : Fin g.size, ∀ x ∈ it.before.get j, x.isFinal = true →
    g.statement j = S.start ∧ x ∈ S.initial

section Contained

variable {it : Iteration Account g.size} {i : Fin g.size}

theorem contained_start {progress : Progress} :
    S.Contained g ((S.analysis E).start g ⟨progress, none, []⟩) where
  after j y hy := by simp [Analysis.start, analysis] at hy
  before j x hx := by simp [Analysis.start, analysis] at hx

theorem Contained.isFinal_joined (h : S.Contained g it)
    (hx : x ∈ (S.analysis E).joined g it i) : x.isFinal = false := by
  rcases (S.analysis E).mem_joined g hx with hx | ⟨p, -, hx⟩
  · split at hx <;> exact absurd hx (NodeSet.not_mem_empty x)
  · exact h.after p x hx

theorem Contained.visit (h : S.Contained g it)
    (hfault : ((S.analysis E).visit g it i).state.fault = none) :
    S.Contained g ((S.analysis E).visit g it i) := by
  obtain ⟨-, -, hflow⟩ := flow_of_fault_visit_eq_none hfault
  obtain ⟨hout, hin⟩ := isFinal_flow (fun x hx => h.isFinal_joined hx) (h.after i) hflow
  constructor
  · intro j y hy
    by_cases hji : j = i
    · subst hji
      rcases (S.analysis E).mem_after_visit g hy with hy | hy
      · exact hout y hy
      · exact h.after j y hy
    · rw [Analysis.after_visit_of_ne _ g hji] at hy
      exact h.after j y hy
  · intro j x hx
    by_cases hji : j = i
    · subst hji
      rw [Analysis.before_visit_self] at hx
      rcases NodeSet.mem_or_mem_of_mem_union hx with hx | hx
      · exact hin x hx
      · exact h.before j x hx
    · rw [Analysis.before_visit_of_ne _ g hji] at hx
      exact h.before j x hx

/-- The invariant holds of every run without a fault, whether or not it gives up on the way. -/
theorem contained_finished (hfault : (Propagator.finished g E S).state.fault = none) :
    S.Contained g (Propagator.finished g E S) := by
  revert hfault
  apply (S.analysis E).run_induction g
    (P := fun it => it.state.fault = none → S.Contained g it)
  · exact fun _ => contained_start
  · intro it i rest _ ih hfault
    obtain ⟨hbefore, -, -⟩ := flow_of_fault_visit_eq_none hfault
    have hdequeued : S.Contained g { it with queue := rest } :=
      ⟨(ih hbefore).after, (ih hbefore).before⟩
    exact hdequeued.visit hfault

end Contained

section Turns

variable (hfault : (Propagator.finished g E S).state.fault = none) {n : Nat}
include hfault

/-- A fault stays, so a run without one has none at any turn. -/
theorem fault_turn_eq_none (hn : n ≤ (S.analysis E).budget g) :
    (S.turn E g n).state.fault = none := by
  by_contra h
  obtain ⟨f, hf⟩ := Option.ne_none_iff_exists'.mp h
  have hidle : (S.analysis E).Idle (S.turn E g n).state := idle_of_fault hf
  have hlast : (Propagator.finished g E S).state = (S.turn E g n).state := (hidle.run hn).1
  rw [hlast] at hfault
  exact h hfault

/-- Where the sweep of a turn can meet a final node, the analysis gives up. -/
theorem closed_finished_of_isFinal {i : Fin g.size} {rest : List (Fin g.size)}
    (hqueue : (S.turn E g n).queue = i :: rest) (hx : x ∈ S.entering E g (S.turn E g n) i)
    (hmove : S.Moves E (g.statement i) x y) (hfinal : y.isFinal = true) :
    (Propagator.finished g E S).state.progress.latch.Closed := by
  have hbudget : n + 1 ≤ (S.analysis E).budget g :=
    (S.analysis E).lt_budget_of_queue_ne_nil g _ (List.ne_nil_of_mem (hqueue ▸ List.mem_cons_self))
  have hturn : S.turn E g (n + 1) =
      (S.analysis E).visit g { S.turn E g n with queue := rest } i :=
    Analysis.drain_succ_of_queue_eq_cons hqueue
  have hclosed : (S.turn E g (n + 1)).state.progress.latch.Closed := by
    have hnone := fault_turn_eq_none hfault hbudget
    rw [hturn] at hnone ⊢
    obtain ⟨-, hprogress, hflow⟩ := flow_of_fault_visit_eq_none hnone
    rw [hprogress]
    exact closed_flow_of_isFinal hflow hx hmove hfinal
  have hlast : (Propagator.finished g E S).state = (S.turn E g (n + 1)).state :=
    ((idle_of_closed hclosed).run hbudget).1
  rwa [hlast]

end Turns

end Setup
end Propagation

namespace Propagator

open Propagation

variable {g : FlowGraph} {group : Shadow.Group} {sh : Shadow} {r : Shadow.Registry}
  {E : Environment} {p : Propagator}

/-- No final node flows out of a statement, and a final node flows into one only if it is an
initial node and the statement is that of the initial shadow, however the graph grows afterwards. If
a visit comes to a node from which the oracle leads to a final one, the analysis has given up and
its verdict is negative from then on. All this holds whatever the oracle answers. -/
theorem construct_isFinal (hp : (construct g group sh r E).value = .ok p) :
    (∀ g', g.Extends g' → ∀ s ∈ g.statements, ∃ before after,
      p.flowBefore g' s = .ok before ∧ p.flowAfter g' s = .ok after ∧
      (∀ y ∈ after, y.isFinal = false) ∧
      ∀ x ∈ before, x.isFinal = true → s = p.setup.start ∧ x ∈ p.setup.initial) ∧
    ∀ n i rest, (p.setup.turn E g n).queue = i :: rest →
      ∀ x ∈ p.setup.entering E g (p.setup.turn E g n) i, ∀ y,
        p.setup.Moves E (g.statement i) x y → y.isFinal = true →
        p.latch.Closed ∧ ∀ g', ¬p.SafelyInvariant g' := by
  obtain ⟨-, -, -, hfault, hlatch, -⟩ := construct_eq_ok hp
  constructor
  · intro g' hg s hs
    obtain ⟨i, rfl⟩ := FlowGraph.mem_statements.mp hs
    have hcontained := Setup.contained_finished hfault
    exact ⟨_, _, flowBefore_of_extends hp hg i, flowAfter_of_extends hp hg i,
      hcontained.after i, hcontained.before i⟩
  · intro n i rest hqueue x hx y hmove hfinal
    have hclosed : p.latch.Closed := by
      rw [hlatch]
      exact Setup.closed_finished_of_isFinal hfault hqueue hx hmove hfinal
    exact ⟨hclosed, fun g' hsafe => hsafe.1 hclosed⟩

/-- To have nothing open is an error as well. -/
def strict : Tracematch :=
  { toggle with
    kinds := #[⟨true, true⟩, ⟨false, false⟩, ⟨false, true⟩]
    within := by decide }

def strictEnvironment : Environment := { toggleEnvironment with tracematch := strict }

def strictAnalysis (g : FlowGraph) : Except Fault Propagator :=
  (construct g toggleGroup (toggleShadow 0 "open") toggleRegistry strictEnvironment).value

/-- The initial node is final. It enters the statement that opens, and the analysis gives up when it
would flow out of the one that closes. -/
theorem construct_isFinal_toggleLoop : ∃ p, strictAnalysis toggleLoop = .ok p ∧
    p.flowBefore toggleLoop ⟨0, 1, .nop ""⟩ = .ok {⟨0, 0, true, true⟩} ∧
    (∃ after, p.flowAfter toggleLoop ⟨0, 2, .nop ""⟩ = .ok after ∧
      ∀ y ∈ after, y.isFinal = false) ∧
    p.latch.Closed ∧ ∀ g', ¬p.SafelyInvariant g' := by
  have hrun : ∃ p, strictAnalysis toggleLoop = .ok p ∧
      (∃ before, p.flowBefore toggleLoop ⟨0, 1, .nop ""⟩ = .ok before ∧
        before = {⟨0, 0, true, true⟩}) ∧
      (p.setup.turn strictEnvironment toggleLoop 2).queue =
        [⟨2, by decide⟩, ⟨3, by decide⟩] ∧
      ⟨0, 1, false, false⟩ ∈ p.setup.entering strictEnvironment toggleLoop
        (p.setup.turn strictEnvironment toggleLoop 2) ⟨2, by decide⟩ ∧
      ∃ next, (p.setup.successors strictEnvironment ⟨0, 2, .nop ""⟩ ⟨0, 1, false, false⟩).value =
        .ok next ∧ ⟨0, 0, true, true⟩ ∈ next := by
    decide +kernel
  obtain ⟨p, hp, ⟨_, hbefore, rfl⟩, hqueue, hentering, hmove⟩ := hrun
  obtain ⟨hflows, hmet⟩ := construct_isFinal hp
  obtain ⟨_, after, -, hafter, hnone, -⟩ :=
    hflows toggleLoop (.refl _) ⟨0, 2, .nop ""⟩ (by decide)
  exact ⟨p, hp, hbefore, ⟨after, hafter, hnone⟩, hmet 2 _ _ hqueue _ hentering _ hmove rfl⟩

end Propagator
end MonitorElision
