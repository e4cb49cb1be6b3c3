import MonitorElision.Proofs.Fixpoint.Termination
import MonitorElision.Proofs.Propagation.Transfer

/-!
# Runs

A run of the automaton follows the edges of the graph from the statement of the initial shadow,
which it enters in an initial node. At every moment of the analysis each node in a table is
justified by a run, and a closed latch by a reason to give up.
-/
namespace MonitorElision.Propagation.Setup

open Fixpoint

variable (S : Setup) (E : Environment) (g : FlowGraph)

/-- Some run enters the statement in the node. -/
inductive Enters : Statement → Node → Prop
  | start {x} : x ∈ E.tracematch.initialNodes → Enters S.start x
  | step {i j : Fin g.size} {x y} : Enters (g.statement i) x → (i.val, j.val) ∈ g.edges →
      S.Moves E (g.statement i) x y → Enters (g.statement j) y

/-- Some run enters the statement in a node from which it may leave it in the node. -/
def Leaves (s : Statement) (y : Node) : Prop := ∃ x, S.Enters E g s x ∧ S.Moves E s x y

/-- The answers of the oracle are nodes of the machine. -/
def AnswersWithin : Prop :=
  ∀ s x y, x ∈ E.tracematch.nodes → S.Moves E s x y → y ∈ E.tracematch.nodes

/-- What makes an analysis give up. -/
inductive Suspect : Prop
  | unresolved : S.bindings.unresolved = true → Suspect
  | triggers {s} : s ∈ g.statements → E.mayTrigger s = true → Suspect
  | redefines {s x} : S.Enters E g s x → S.Redefines s → Suspect
  | final {s y} : S.Leaves E g s y → y.isFinal = true → Suspect

/-- Each node in a table is justified by a run, and a closed latch by a reason to give up. -/
structure Justified (it : Iteration Account g.size) : Prop where
  before : ∀ j : Fin g.size, ∀ x ∈ it.before.get j, S.Enters E g (g.statement j) x
  after : ∀ j : Fin g.size, ∀ y ∈ it.after.get j, S.Leaves E g (g.statement j) y
  closed : it.state.progress.latch.Closed → S.Suspect E g

variable {S E g}

section Walks

variable {s : Statement} {x y : Node}

theorem Enters.exists_statement (h : S.Enters E g s x) (hstart : S.start ∈ g.statements) :
    ∃ j, g.statement j = s := by
  cases h with
  | start _ => exact FlowGraph.mem_statements.mp hstart
  | @step _ j _ _ _ _ _ => exact ⟨j, rfl⟩

theorem Enters.mem_nodes (hE : S.AnswersWithin E) (h : S.Enters E g s x) :
    x ∈ E.tracematch.nodes := by
  induction h with
  | start hx => exact Tracematch.mem_nodes_of_mem_initialNodes hx
  | step _ _ hmove ih => exact hE _ _ _ ih hmove

theorem Leaves.mem_nodes (hE : S.AnswersWithin E) (h : S.Leaves E g s y) :
    y ∈ E.tracematch.nodes := by
  obtain ⟨x, hx, hmove⟩ := h
  exact hE _ _ _ (hx.mem_nodes hE) hmove

section Subgraph

variable {g' : FlowGraph} (hg : g.Subgraph g')
include hg

/-- More edges allow more runs. -/
theorem Enters.subgraph (h : S.Enters E g s x) : S.Enters E g' s x := by
  induction h with
  | start hx => exact Enters.start hx
  | @step i j x y _ hedge hmove ih =>
    rw [← hg.statement_cast i] at ih hmove
    rw [← hg.statement_cast j]
    exact Enters.step ih (hg.edges _ hedge) hmove

theorem Leaves.subgraph (h : S.Leaves E g s y) : S.Leaves E g' s y := by
  obtain ⟨x, hx, hmove⟩ := h
  exact ⟨x, hx.subgraph hg, hmove⟩

theorem Suspect.subgraph (h : S.Suspect E g) : S.Suspect E g' := by
  cases h with
  | unresolved h => exact Suspect.unresolved h
  | triggers hs h => exact Suspect.triggers (hg.statements_eq ▸ hs) h
  | redefines hx h => exact Suspect.redefines (hx.subgraph hg) h
  | final hy h => exact Suspect.final (hy.subgraph hg) h

end Subgraph

end Walks

section Justification

variable {it : Iteration Account g.size} {i : Fin g.size}

/-- What flows along an edge is on its way along a run. -/
theorem Justified.enters_of_mem_joined (h : S.Justified E g it) {x : Node}
    (hx : x ∈ (S.analysis E).joined g it i) : S.Enters E g (g.statement i) x := by
  rcases (S.analysis E).mem_joined g hx with hx | ⟨p, hp, hx⟩
  · split at hx <;> exact absurd hx (NodeSet.not_mem_empty x)
  · obtain ⟨w, hw, hmove⟩ := h.after p x hx
    exact Enters.step hw hp hmove

theorem enters_of_mem_enter {p : Progress} {s : Statement} {incoming : NodeSet}
    (hinitial : S.initial = NodeSet.ofList E.tracematch.initialNodes)
    (hincoming : ∀ x ∈ incoming, S.Enters E g s x) {x : Node}
    (hx : x ∈ (S.enter p s incoming).2) : S.Enters E g s x := by
  rcases S.enter_cases with ⟨hinjects, henter⟩ | ⟨-, henter⟩
  · rw [henter, hinitial] at hx
    rw [hinjects.1]
    exact Enters.start (NodeSet.mem_of_mem_ofList hx)
  · rw [henter] at hx
    exact hincoming x hx

theorem Swept.leaves {p next : Progress} {s : Statement} {incoming : NodeSet}
    {flows : NodeSet × NodeSet} (h : S.Swept E p s incoming next flows)
    (hin : ∀ x ∈ flows.1, S.Enters E g s x) {y : Node} (hy : y ∈ flows.2) :
    S.Leaves E g s y := by
  rw [h.outgoing_eq] at hy
  rcases mem_sweep hy with hy | ⟨x, hx, hmove⟩
  · exact absurd hy (NodeSet.not_mem_empty y)
  · exact ⟨x, hin x hx, hmove⟩

theorem Swept.suspect {p next : Progress} {s : Statement} {incoming : NodeSet}
    {flows : NodeSet × NodeSet} (h : S.Swept E p s incoming next flows)
    (hin : ∀ x ∈ flows.1, S.Enters E g s x) (hclosed : next.latch.Closed) : S.Suspect E g := by
  rcases h.closed_iff.mp hclosed with ⟨hne, hredefines⟩ | hfinal
  · obtain ⟨x, hx⟩ := NodeSet.exists_mem_of_ne_empty hne
    exact Suspect.redefines (hin x hx) hredefines
  · obtain ⟨x, hx, next, hnext, y, hy, hyfinal⟩ := exists_final_of_sweep hfinal
    exact Suspect.final ⟨x, hin x hx, next, hnext, hy⟩ hyfinal

/-- A visit without a fault turns justified flows into justified flows. -/
theorem justified_flow {p : Progress} {s : Statement} {incoming outgoing : NodeSet}
    {flows : NodeSet × NodeSet} (hinitial : S.initial = NodeSet.ofList E.tracematch.initialNodes)
    (hs : s ∈ g.statements) (hin : ∀ x ∈ incoming, S.Enters E g s x)
    (hout : ∀ y ∈ outgoing, S.Leaves E g s y) (hclosed : p.latch.Closed → S.Suspect E g)
    (h : (S.flow E p s incoming outgoing).flows = .ok flows) :
    (∀ x ∈ flows.1, S.Enters E g s x) ∧ (∀ y ∈ flows.2, S.Leaves E g s y) ∧
      ((S.flow E p s incoming outgoing).progress.latch.Closed → S.Suspect E g) := by
  rcases flow_cases h with ⟨hp, -, rfl⟩ | ⟨htrigger, -, rfl⟩ | ⟨-, -, hswept⟩
  · exact ⟨hin, hout, fun _ => hclosed hp⟩
  · exact ⟨hin, hout, fun _ => Suspect.triggers hs htrigger⟩
  · have hentered : ∀ x ∈ flows.1, S.Enters E g s x := by
      intro x hx
      rw [hswept.incoming_eq] at hx
      exact enters_of_mem_enter hinitial hin hx
    exact ⟨hentered, fun y hy => hswept.leaves hentered hy, hswept.suspect hentered⟩

theorem flow_of_fault_visit_eq_none
    (h : ((S.analysis E).visit g it i).state.fault = none) :
    it.state.fault = none ∧
      ((S.analysis E).visit g it i).state.progress =
        (S.flow E it.state.progress (g.statement i) ((S.analysis E).joined g it i)
          (it.after.get i)).progress ∧
      (S.flow E it.state.progress (g.statement i) ((S.analysis E).joined g it i)
        (it.after.get i)).flows = .ok (((S.analysis E).transfer g it i).incoming,
          ((S.analysis E).transfer g it i).outgoing) := by
  rw [Analysis.state_visit] at h ⊢
  exact step_of_fault_eq_none h

/-- The tables do not depend on the queue. -/
theorem Justified.dequeue (h : S.Justified E g it) (rest : List (Fin g.size)) :
    S.Justified E g { it with queue := rest } where
  before := h.before
  after := h.after
  closed := h.closed

theorem Justified.visit (hinitial : S.initial = NodeSet.ofList E.tracematch.initialNodes)
    (h : S.Justified E g it) (hfault : ((S.analysis E).visit g it i).state.fault = none) :
    S.Justified E g ((S.analysis E).visit g it i) := by
  obtain ⟨-, hprogress, hflow⟩ := flow_of_fault_visit_eq_none hfault
  have hs : g.statement i ∈ g.statements := FlowGraph.mem_statements.mpr ⟨i, rfl⟩
  obtain ⟨hin, hout, hclosed⟩ := justified_flow hinitial hs
    (fun x hx => h.enters_of_mem_joined hx) (h.after i) h.closed hflow
  constructor
  · intro j x hx
    by_cases hji : j = i
    · subst hji
      rw [Analysis.before_visit_self] at hx
      rcases NodeSet.mem_or_mem_of_mem_union hx with hx | hx
      · exact hin x hx
      · exact h.before j x hx
    · rw [Analysis.before_visit_of_ne _ g hji] at hx
      exact h.before j x hx
  · intro j y hy
    by_cases hji : j = i
    · subst hji
      rcases (S.analysis E).mem_after_visit g hy with hy | hy
      · exact hout y hy
      · exact h.after j y hy
    · rw [Analysis.after_visit_of_ne _ g hji] at hy
      exact h.after j y hy
  · rw [hprogress]
    exact hclosed

theorem justified_start : S.Justified E g
    ((S.analysis E).start g ⟨outset S.bindings, none, []⟩) where
  before j x hx := by simp [Analysis.start, analysis] at hx
  after j y hy := by simp [Analysis.start, analysis] at hy
  closed h := Suspect.unresolved (closed_outset.mp h)

end Justification

end MonitorElision.Propagation.Setup
