import MonitorElision.Proofs.Fixpoint.Equations

/-!
# Contributions of the first visit

A one-shot statement generates its nodes on its first visit only. Nothing is lost by that: the flow
out of a statement is joined with what was there before, so what the statement has generated once
flows out of it from then on. Two gen-kill analyses that differ in their one-shot statements only
go through the same visits, and their tables agree by number.
-/
namespace MonitorElision
namespace NodeSet

theorem indexes_eq_iff {a b : NodeSet} :
    a.indexes = b.indexes ↔ ∀ k, k ∈ a.indexes ↔ k ∈ b.indexes := by
  constructor
  · intro h k
    rw [h]
  · intro h
    exact (pairwise_indexes a).eq_of_mem_iff (pairwise_indexes b) h

/-- A monotone transfer looks at the numbers only. -/
theorem indexes_eq_of_monotone {f : NodeSet → NodeSet} (hf : Monotone f) {a b : NodeSet}
    (h : a.indexes = b.indexes) : (f a).indexes = (f b).indexes := by
  apply indexes_eq_of_le_of_le
  · exact hf (le_iff.mpr fun k hk => h ▸ hk)
  · exact hf (le_iff.mpr fun k hk => h ▸ hk)

end NodeSet

namespace Fixpoint

variable {σ σ' : Type}

/-- Two iterations after the same visits, with tables that agree by number. -/
structure Iteration.InStep {n : Nat} (it : Iteration σ n) (it' : Iteration σ' n) : Prop where
  before : ∀ j : Fin n, (it.before.get j).indexes = (it'.before.get j).indexes
  after : ∀ j : Fin n, (it.after.get j).indexes = (it'.after.get j).indexes
  queue : it.queue = it'.queue
  visits : it.visits = it'.visits

namespace Analysis

variable {a : Analysis σ} {a' : Analysis σ'} {g : FlowGraph}
  {it : Iteration σ g.size} {it' : Iteration σ' g.size}

/-- The same visit keeps two iterations in step if both make the same of what flows in. -/
theorem inStep_visit (h : it.InStep it') {i : Fin g.size}
    (hincoming : (a.transfer g it i).incoming.indexes = (a'.transfer g it' i).incoming.indexes)
    (hreleased : (a.released g it i).indexes = (a'.released g it' i).indexes) :
    (a.visit g it i).InStep (a'.visit g it' i) := by
  have hquiet : a.released g it i ≤ it.after.get i ↔ a'.released g it' i ≤ it'.after.get i := by
    rw [NodeSet.le_iff, NodeSet.le_iff, hreleased, h.after]
  have hbefore : ∀ j : Fin g.size,
      ((a.visit g it i).before.get j).indexes = ((a'.visit g it' i).before.get j).indexes := by
    intro j
    by_cases hji : j = i
    · subst hji
      rw [before_visit_self, before_visit_self, NodeSet.indexes_eq_iff]
      intro k
      rw [NodeSet.mem_indexes_union, NodeSet.mem_indexes_union, hincoming, h.before]
    · rw [a.before_visit_of_ne g hji, a'.before_visit_of_ne g hji]
      exact h.before j
  have hvisits : (a.visit g it i).visits = (a'.visit g it' i).visits := by
    rw [visits_visit, visits_visit, h.visits]
  rcases a.visit_cases g it i with ⟨hle, hafter, hqueue⟩ | ⟨hgrown, hafter, hqueue⟩
  · rcases a'.visit_cases g it' i with ⟨-, hafter', hqueue'⟩ | ⟨hgrown', -, -⟩
    · refine ⟨hbefore, ?_, ?_, hvisits⟩
      · rw [hafter, hafter']
        exact h.after
      · rw [hqueue, hqueue', h.queue]
    · exact absurd (hquiet.mp hle) hgrown'
  · rcases a'.visit_cases g it' i with ⟨hle', -, -⟩ | ⟨-, hafter', hqueue'⟩
    · exact absurd (hquiet.mpr hle') hgrown
    · refine ⟨hbefore, ?_, ?_, hvisits⟩
      · intro j
        rw [hafter, hafter']
        by_cases hji : j = i
        · subst hji
          rw [get_put_self, get_put_self, hreleased]
        · rw [get_put_of_ne hji, get_put_of_ne hji, h.after]
      · rw [hqueue, hqueue', h.queue]

/-- What the same visit preserves in two iterations at a time holds after both are done. -/
theorem drain_inStep {P : Iteration σ g.size → Iteration σ' g.size → Prop}
    (inStep : ∀ it it', P it it' → it.InStep it')
    (step : ∀ (it : Iteration σ g.size) (it' : Iteration σ' g.size) i rest,
      it.queue = i :: rest → P it it' →
        P (a.visit g { it with queue := rest } i) (a'.visit g { it' with queue := rest } i))
    (budget : Nat) (h : P it it') : P (a.drain g budget it) (a'.drain g budget it') := by
  induction budget generalizing it it' with
  | zero => exact h
  | succ budget ih =>
    have hsame := (inStep it it' h).queue
    cases hqueue : it.queue with
    | nil =>
      rw [a.drain_of_queue_eq_nil g hqueue, a'.drain_of_queue_eq_nil g (hsame ▸ hqueue)]
      exact h
    | cons i rest =>
      rw [a.drain_of_queue_eq_cons g hqueue, a'.drain_of_queue_eq_cons g (hsame ▸ hqueue)]
      exact ih (step it it' i rest hqueue h)

theorem indexes_joined_of_inStep (h : it.InStep it') (hentry : a.entry = a'.entry)
    (hinitial : a.initial = a'.initial) (j : Fin g.size) :
    (a.joined g it j).indexes = (a'.joined g it' j).indexes := by
  rw [NodeSet.indexes_eq_iff]
  intro k
  simp only [mem_indexes_joined, hentry, hinitial, h.after]

end Analysis
end Fixpoint

namespace GenKill

open Fixpoint

/-- The same analysis, but with these one-shot statements. -/
def generatingOnce (p : GenKill) (once : List Nat) : GenKill := { p with oneShot := once }

variable {p : GenKill} {g : FlowGraph}

section Visit

variable {it : Iteration (List Nat) g.size}

/-- Whatever a statement generates flows out of it once it has been visited. -/
def Generated (p : GenKill) (it : Iteration (List Nat) g.size) : Prop :=
  ∀ j : Fin g.size, j.val ∈ it.state → lookup p.gen j ≤ it.after.get j

/-- On a later visit of a one-shot statement nothing is missing from the flow out of it. -/
theorem mem_indexes_released (h : p.Generated it) {i : Fin g.size} {k : Nat} :
    k ∈ (p.analysis.released g it i).indexes ↔
      k ∈ (p.passed i (p.seeded i (p.analysis.joined g it i))).indexes ∨
        k ∈ (it.after.get i).indexes := by
  have houtgoing : (p.analysis.transfer g it i).outgoing =
      if i.val ∈ p.oneShot ∧ i.val ∈ it.state
      then without (p.seeded i (p.analysis.joined g it i)) (lookup p.kill i)
      else p.passed i (p.seeded i (p.analysis.joined g it i)) := rfl
  rw [Analysis.released, NodeSet.mem_indexes_union, houtgoing]
  split
  · rename_i hlater
    rw [passed, NodeSet.mem_indexes_union]
    have hgen : k ∈ (lookup p.gen i).indexes → k ∈ (it.after.get i).indexes :=
      NodeSet.le_iff.mp (h i hlater.2) k
    grind
  · rfl

theorem generated_start : p.Generated (p.analysis.start g []) := by
  intro j hj
  exact absurd hj List.not_mem_nil

theorem Generated.visit (h : p.Generated it) (i : Fin g.size) :
    p.Generated (p.analysis.visit g it i) := by
  intro j hj
  rw [Analysis.state_visit] at hj
  rcases List.mem_cons.mp hj with hji | hj
  · obtain rfl : j = i := Fin.ext hji
    refine le_trans ?_ (p.analysis.released_le_after_visit g)
    rw [NodeSet.le_iff]
    intro k hk
    apply (mem_indexes_released h).mpr
    exact Or.inl (NodeSet.mem_indexes_union.mpr (Or.inr hk))
  · exact (h j hj).trans (p.analysis.after_le_after_visit g it i j)

end Visit

section Runs

variable {once once' : List Nat} {it it' : Iteration (List Nat) g.size}

theorem inStep_visit_generatingOnce (h : it.InStep it')
    (hgen : (p.generatingOnce once).Generated it) (hgen' : (p.generatingOnce once').Generated it')
    (i : Fin g.size) : ((p.generatingOnce once).analysis.visit g it i).InStep
      ((p.generatingOnce once').analysis.visit g it' i) := by
  have hjoined : ((p.generatingOnce once).analysis.joined g it i).indexes =
      ((p.generatingOnce once').analysis.joined g it' i).indexes :=
    Analysis.indexes_joined_of_inStep h rfl rfl i
  have hseeded := NodeSet.indexes_eq_of_monotone (monotone_seeded (p := p) i) hjoined
  apply Analysis.inStep_visit h
  · exact hseeded
  · have hpassed := NodeSet.indexes_eq_of_monotone (monotone_passed (p := p) i) hseeded
    rw [NodeSet.indexes_eq_iff]
    intro k
    rw [mem_indexes_released hgen, mem_indexes_released hgen', h.after]
    exact or_congr (NodeSet.indexes_eq_iff.mp hpassed k) Iff.rfl

/-- One run with these one-shot statements, another with those: they stay in step. -/
theorem inStep_run (p : GenKill) (g : FlowGraph) (once once' : List Nat) :
    ((p.generatingOnce once).analysis.run g []).InStep
      ((p.generatingOnce once').analysis.run g []) := by
  let P (it it' : Iteration (List Nat) g.size) : Prop :=
    it.InStep it' ∧ (p.generatingOnce once).Generated it ∧ (p.generatingOnce once').Generated it'
  suffices hP : P ((p.generatingOnce once).analysis.run g [])
      ((p.generatingOnce once').analysis.run g []) from hP.1
  -- The budgets agree, because the pool of numbers does not depend on what is one-shot.
  apply Analysis.drain_inStep (P := P)
  · intro it it' h
    exact h.1
  · intro it it' i rest _ ⟨hstep, hgen, hgen'⟩
    have hdequeued : Iteration.InStep { it with queue := rest } { it' with queue := rest } :=
      ⟨hstep.before, hstep.after, rfl, hstep.visits⟩
    have hleft : (p.generatingOnce once).Generated { it with queue := rest } := hgen
    have hright : (p.generatingOnce once').Generated { it' with queue := rest } := hgen'
    exact ⟨inStep_visit_generatingOnce hdequeued hleft hright i, hleft.visit i, hright.visit i⟩
  · exact ⟨⟨fun _ => rfl, fun _ => rfl, rfl, rfl⟩, generated_start, generated_start⟩

end Runs

/-- Whether statements generate their nodes on every visit or on the first one only, an analysis
makes as many visits, reports the same, and finds the same numbers before and after each
statement. -/
theorem solve_generatingOnce (p : GenKill) (g : FlowGraph) (once : List Nat) :
    ((p.generatingOnce once).solve g).events = ((p.generatingOnce []).solve g).events ∧
    ((p.generatingOnce once).solve g).value.visits =
      ((p.generatingOnce []).solve g).value.visits ∧
    ∀ i : Fin g.size,
      (((p.generatingOnce once).solve g).value.before? (g.statement i)).map NodeSet.indexes =
        (((p.generatingOnce []).solve g).value.before? (g.statement i)).map NodeSet.indexes ∧
      (((p.generatingOnce once).solve g).value.after? (g.statement i)).map NodeSet.indexes =
        (((p.generatingOnce []).solve g).value.after? (g.statement i)).map NodeSet.indexes := by
  have h := inStep_run p g once []
  have hevents : ((p.generatingOnce once).solve g).events =
      ((p.generatingOnce []).solve g).events := by
    simp only [GenKill.solve, Fixpoint.solve, h.visits]
    rfl
  refine ⟨hevents, h.visits, ?_⟩
  intro i
  have hbefore (q : GenKill) : (q.solve g).value.before? (g.statement i) =
      some ((q.analysis.run g []).before.get i) := Iteration.before?_solution _ i
  have hafter (q : GenKill) : (q.solve g).value.after? (g.statement i) =
      some ((q.analysis.run g []).after.get i) := Iteration.after?_solution _ i
  rw [hbefore, hbefore, hafter, hafter]
  exact ⟨congrArg some (h.before i), congrArg some (h.after i)⟩

end GenKill
end MonitorElision
