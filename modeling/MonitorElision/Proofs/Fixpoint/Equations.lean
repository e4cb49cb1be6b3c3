import MonitorElision.Proofs.Fixpoint.GenKill
import MonitorElision.Proofs.Fixpoint.Termination
import Mathlib.Order.Bounds.Basic

/-!
# Flow equations

If the transfer function keeps no state and is monotone, the iteration solves the flow equations of
the graph, and its tables are the least solution. On the way every statement that is not queued
already satisfies its equations, and no table entry exceeds any solution.
-/
namespace MonitorElision.Fixpoint

variable {σ : Type}

/-- The transfer function first replaces the flow that comes in and then makes the flow out of the
replacement, both monotone and both regardless of the state and of earlier visits. -/
structure Analysis.Stateless (a : Analysis σ) (replace transform : Statement → NodeSet → NodeSet) :
    Prop where
  incoming : ∀ x s incoming outgoing,
    (a.flow x s incoming outgoing).incoming = replace s incoming
  outgoing : ∀ x s incoming outgoing,
    (a.flow x s incoming outgoing).outgoing = transform s (replace s incoming)
  monotone_replace : ∀ s, Monotone (replace s)
  monotone_transform : ∀ s, Monotone (transform s)

/-- The flow that enters each statement, and the flow that leaves it. -/
abbrev Tables (g : FlowGraph) := (Fin g.size → NodeSet) × (Fin g.size → NodeSet)

/-- The flow equations, number by number. -/
structure Analysis.Solves (a : Analysis σ) (g : FlowGraph)
    (replace transform : Statement → NodeSet → NodeSet) (t : Tables g) : Prop where
  entering : ∀ i k, k ∈ (t.1 i).indexes ↔
    k ∈ (if i ∈ g.heads then a.entry else a.initial).indexes ∨
      ∃ p : Fin g.size, (p.val, i.val) ∈ g.edges ∧ k ∈ (t.2 p).indexes
  leaving : ∀ i k, k ∈ (t.2 i).indexes ↔
    k ∈ a.initial.indexes ∨
      k ∈ (transform (g.statement i) (replace (g.statement i) (t.1 i))).indexes

/-- The tables for a graph with the same statements. -/
def Tables.along {g g' : FlowGraph} (h : g.Reordered g') (t : Tables g) : Tables g' :=
  (fun i => t.1 (i.cast h.size_eq), fun i => t.2 (i.cast h.size_eq))

theorem Iteration.before?_solution {g : FlowGraph} (it : Iteration σ g.size) (i : Fin g.size) :
    it.solution.before? (g.statement i) = some (it.before.get i) := by
  have hget : it.before.get i = it.before[i.val] := rfl
  simp [Solution.before?, solution, FlowGraph.statement, hget]

theorem Iteration.after?_solution {g : FlowGraph} (it : Iteration σ g.size) (i : Fin g.size) :
    it.solution.after? (g.statement i) = some (it.after.get i) := by
  have hget : it.after.get i = it.after[i.val] := rfl
  simp [Solution.after?, solution, FlowGraph.statement, hget]

namespace Analysis

variable {a : Analysis σ} {replace transform : Statement → NodeSet → NodeSet} {g : FlowGraph}

section Iteration

/-- Each table entry is accounted for by what flows in now, and all that flows into a statement that
is not queued is in its entries. -/
structure Consistent (a : Analysis σ) (g : FlowGraph)
    (replace transform : Statement → NodeSet → NodeSet) (it : Iteration σ g.size) : Prop where
  initial_before : ∀ j : Fin g.size, a.initial ≤ it.before.get j
  initial_after : ∀ j : Fin g.size, a.initial ≤ it.after.get j
  before_le : ∀ j : Fin g.size,
    it.before.get j ≤ a.initial ∪ replace (g.statement j) (a.joined g it j)
  after_le : ∀ j : Fin g.size, it.after.get j ≤
    a.initial ∪ transform (g.statement j) (replace (g.statement j) (a.joined g it j))
  le_before : ∀ j : Fin g.size, j ∉ it.queue →
    replace (g.statement j) (a.joined g it j) ≤ it.before.get j
  le_after : ∀ j : Fin g.size, j ∉ it.queue →
    transform (g.statement j) (replace (g.statement j) (a.joined g it j)) ≤ it.after.get j

theorem consistent_start (x : σ) :
    a.Consistent g replace transform (a.start g x) where
  initial_before j := by simp [start]
  initial_after j := by simp [start]
  before_le j := by simp [start, NodeSet.le_union_left]
  after_le j := by simp [start, NodeSet.le_union_left]
  le_before j hj := absurd (g.mem_order j) hj
  le_after j hj := absurd (g.mem_order j) hj

variable (h : a.Stateless replace transform)
include h

theorem Stateless.incoming_transfer (it : Iteration σ g.size) (i : Fin g.size) :
    (a.transfer g it i).incoming = replace (g.statement i) (a.joined g it i) :=
  h.incoming _ _ _ _

theorem Stateless.outgoing_transfer (it : Iteration σ g.size) (i : Fin g.size) :
    (a.transfer g it i).outgoing =
      transform (g.statement i) (replace (g.statement i) (a.joined g it i)) :=
  h.outgoing _ _ _ _

theorem Stateless.monotone (s : Statement) : Monotone fun ns => transform s (replace s ns) :=
  (h.monotone_transform s).comp (h.monotone_replace s)

theorem Stateless.consistent_visit {it : Iteration σ g.size} {i : Fin g.size}
    {rest : List (Fin g.size)} (hc : a.Consistent g replace transform it)
    (hqueue : it.queue = i :: rest) :
    a.Consistent g replace transform (a.visit g { it with queue := rest } i) where
  initial_before j :=
    (hc.initial_before j).trans (a.before_le_before_visit g { it with queue := rest } i j)
  initial_after j :=
    (hc.initial_after j).trans (a.after_le_after_visit g { it with queue := rest } i j)
  before_le j := by
    have hreplace := h.monotone_replace (g.statement j)
      (a.joined_le_joined_visit g { it with queue := rest } i j)
    have hold := (hc.before_le j).trans (NodeSet.union_le_union le_rfl hreplace)
    by_cases hji : j = i
    · subst hji
      rw [before_visit_self, h.incoming_transfer]
      exact NodeSet.union_le (hreplace.trans (NodeSet.le_union_right _ _)) hold
    · rw [a.before_visit_of_ne g hji]
      exact hold
  after_le j := by
    have htransform := h.monotone (g.statement j)
      (a.joined_le_joined_visit g { it with queue := rest } i j)
    have hold := (hc.after_le j).trans (NodeSet.union_le_union le_rfl htransform)
    by_cases hji : j = i
    · subst hji
      apply (a.after_visit_le_released g).trans
      rw [released, h.outgoing_transfer]
      exact NodeSet.union_le (htransform.trans (NodeSet.le_union_right _ _)) hold
    · rw [a.after_visit_of_ne g hji]
      exact hold
  le_before j hj := by
    rw [a.joined_visit_of_not_mem_queue g hj]
    by_cases hji : j = i
    · subst hji
      rw [before_visit_self, h.incoming_transfer]
      exact NodeSet.le_union_left _ _
    · rw [a.before_visit_of_ne g hji]
      exact hc.le_before j (a.not_mem_queue_of_visit g hqueue hji hj)
  le_after j hj := by
    rw [a.joined_visit_of_not_mem_queue g hj]
    by_cases hji : j = i
    · subst hji
      apply le_trans _ (a.released_le_after_visit g)
      rw [released, h.outgoing_transfer]
      exact NodeSet.le_union_left _ _
    · rw [a.after_visit_of_ne g hji]
      exact hc.le_after j (a.not_mem_queue_of_visit g hqueue hji hj)

theorem Stateless.consistent_run (x : σ) : a.Consistent g replace transform (a.run g x) :=
  a.run_induction g (consistent_start x) fun _ _ _ hqueue hc => h.consistent_visit hc hqueue

end Iteration

section Solutions

variable {t : Tables g} {it : Iteration σ g.size} {i : Fin g.size}

/-- Flows below a solution join to a flow below it. -/
theorem Solves.joined_le (ht : a.Solves g replace transform t)
    (hle : ∀ j : Fin g.size, it.after.get j ≤ t.2 j) (j : Fin g.size) :
    a.joined g it j ≤ t.1 j := by
  rw [NodeSet.le_iff]
  intro k hk
  apply (ht.entering j k).mpr
  rcases (a.mem_indexes_joined g).mp hk with hk | ⟨p, hp, hk⟩
  · exact Or.inl (by simpa only [FlowGraph.mem_heads] using hk)
  · exact Or.inr ⟨p, hp, NodeSet.le_iff.mp (hle p) k hk⟩

theorem Solves.after_visit_le (ht : a.Solves g replace transform t)
    (h : a.Stateless replace transform) (it : Iteration σ g.size) (i : Fin g.size)
    (hle : ∀ j : Fin g.size, it.after.get j ≤ t.2 j) (j : Fin g.size) :
    (a.visit g it i).after.get j ≤ t.2 j := by
  by_cases hji : j = i
  · subst hji
    have hjoined := h.monotone (g.statement j) (ht.joined_le hle j)
    have hleaving : transform (g.statement j) (replace (g.statement j) (t.1 j)) ≤ t.2 j :=
      NodeSet.le_iff.mpr fun k hk => (ht.leaving j k).mpr (Or.inr hk)
    apply (a.after_visit_le_released g).trans
    apply NodeSet.union_le _ (hle j)
    rw [h.outgoing_transfer]
    exact hjoined.trans hleaving
  · rw [a.after_visit_of_ne g hji]
    exact hle j

theorem Solves.after_run_le (ht : a.Solves g replace transform t)
    (h : a.Stateless replace transform) (x : σ) :
    ∀ j : Fin g.size, (a.run g x).after.get j ≤ t.2 j := by
  apply a.run_induction g (P := fun it => ∀ j : Fin g.size, it.after.get j ≤ t.2 j)
  · intro j
    rw [NodeSet.le_iff]
    intro k hk
    apply (ht.leaving j k).mpr
    exact Or.inl (by simpa [start] using hk)
  · intro it i rest _ hle
    exact ht.after_visit_le h { it with queue := rest } i hle

/-- What flows in at the end, with the flows out. -/
def finalTables (a : Analysis σ) (g : FlowGraph) (x : σ) : Tables g :=
  (a.joined g (a.run g x), fun j => (a.run g x).after.get j)

variable (h : a.Stateless replace transform)
include h

theorem Stateless.indexes_after_run (x : σ) (j : Fin g.size) :
    ((a.run g x).after.get j).indexes = (a.initial ∪ transform (g.statement j)
      (replace (g.statement j) (a.joined g (a.run g x) j))).indexes := by
  have hc := h.consistent_run (g := g) x
  apply NodeSet.indexes_eq_of_le_of_le (hc.after_le j)
  exact NodeSet.union_le (hc.initial_after j) (hc.le_after j (by simp [a.queue_run]))

theorem Stateless.indexes_before_run (x : σ) (j : Fin g.size) :
    ((a.run g x).before.get j).indexes =
      (a.initial ∪ replace (g.statement j) (a.joined g (a.run g x) j)).indexes := by
  have hc := h.consistent_run (g := g) x
  apply NodeSet.indexes_eq_of_le_of_le (hc.before_le j)
  exact NodeSet.union_le (hc.initial_before j) (hc.le_before j (by simp [a.queue_run]))

theorem Stateless.isLeast_finalTables (x : σ) :
    IsLeast {t | a.Solves g replace transform t} (a.finalTables g x) := by
  constructor
  · constructor <;> intro i k
    · simp only [finalTables, mem_indexes_joined, FlowGraph.mem_heads]
    · simp only [finalTables, h.indexes_after_run x i, NodeSet.mem_indexes_union]
  · intro t ht
    have hafter := Solves.after_run_le ht h x
    exact ⟨Solves.joined_le ht hafter, hafter⟩

end Solutions

section Order

variable {g' : FlowGraph}

/-- The equations read the edges as a relation. -/
theorem Solves.reordered (hg : g.Reordered g') {t : Tables g}
    (ht : a.Solves g replace transform t) :
    a.Solves g' replace transform (t.along hg) where
  entering i k := by
    have hheads : i ∈ g'.heads ↔ i.cast hg.size_eq ∈ g.heads := by
      rw [FlowGraph.mem_heads, FlowGraph.mem_heads, hg.isHead_cast]
    simp only [hheads]
    apply (ht.entering (i.cast hg.size_eq) k).trans
    apply or_congr Iff.rfl
    constructor
    · rintro ⟨p, hp, hk⟩
      exact ⟨p.cast hg.size_eq.symm, (hg.edges _).mpr hp, hk⟩
    · rintro ⟨p, hp, hk⟩
      exact ⟨p.cast hg.size_eq, (hg.edges _).mp hp, hk⟩
  leaving i k := by
    rw [← hg.statement_cast i]
    exact ht.leaving (i.cast hg.size_eq) k

variable (h : a.Stateless replace transform) (hg : g.Reordered g')
include h

theorem Stateless.finalTables_le (x y : σ) :
    a.finalTables g' y ≤ (a.finalTables g x).along hg :=
  (h.isLeast_finalTables y).2 ((h.isLeast_finalTables x).1.reordered hg)

theorem Stateless.indexes_after_reordered (x y : σ) (i : Fin g'.size) :
    ((a.run g' y).after.get i).indexes = ((a.run g x).after.get (i.cast hg.size_eq)).indexes :=
  NodeSet.indexes_eq_of_le_of_le ((h.finalTables_le hg x y).2 i)
    ((h.finalTables_le hg.symm y x).2 (i.cast hg.size_eq))

theorem Stateless.indexes_before_reordered (x y : σ) (i : Fin g'.size) :
    ((a.run g' y).before.get i).indexes = ((a.run g x).before.get (i.cast hg.size_eq)).indexes := by
  rw [h.indexes_before_run, h.indexes_before_run, hg.statement_cast]
  have hmono := h.monotone_replace (g'.statement i)
  apply NodeSet.indexes_eq_of_le_of_le
  · exact NodeSet.union_le_union le_rfl (hmono ((h.finalTables_le hg x y).1 i))
  · exact NodeSet.union_le_union le_rfl
      (hmono ((h.finalTables_le hg.symm y x).1 (i.cast hg.size_eq)))

end Order

theorem stateless_genKill {p : GenKill} (h : p.oneShot = []) :
    p.analysis.Stateless (fun s => p.seeded s.index) (fun s => p.passed s.index) where
  incoming _ _ _ _ := rfl
  outgoing visited s incoming outgoing := GenKill.outgoing_flow h visited s incoming outgoing
  monotone_replace s := GenKill.monotone_seeded s.index
  monotone_transform s := GenKill.monotone_passed s.index

/-- After a run the tables are the least solution of the flow equations, up to what the analysis
starts from, and they are the same whatever the order in which the edges were added. -/
theorem run_isLeast (h : a.Stateless replace transform) (g : FlowGraph) (x : σ) :
    (∃ t : Tables g, IsLeast {t | a.Solves g replace transform t} t ∧
      ∀ i : Fin g.size,
        ((a.run g x).solution.before? (g.statement i)).map NodeSet.indexes =
          some (a.initial ∪ replace (g.statement i) (t.1 i)).indexes ∧
        ((a.run g x).solution.after? (g.statement i)).map NodeSet.indexes =
          some (t.2 i).indexes) ∧
    ∀ g', g.Reordered g' → ∀ (y : σ) (i : Fin g.size),
      ((a.run g' y).solution.before? (g.statement i)).map NodeSet.indexes =
        ((a.run g x).solution.before? (g.statement i)).map NodeSet.indexes ∧
      ((a.run g' y).solution.after? (g.statement i)).map NodeSet.indexes =
        ((a.run g x).solution.after? (g.statement i)).map NodeSet.indexes := by
  constructor
  · refine ⟨a.finalTables g x, h.isLeast_finalTables x, ?_⟩
    intro i
    rw [Iteration.before?_solution, Iteration.after?_solution]
    exact ⟨congrArg some (h.indexes_before_run x i), rfl⟩
  · intro g' hg y i
    have hs : g.statement i = g'.statement (i.cast hg.size_eq.symm) :=
      (hg.statement_cast (i.cast hg.size_eq.symm)).symm ▸ rfl
    rw [Iteration.before?_solution, Iteration.after?_solution, hs, Iteration.before?_solution,
      Iteration.after?_solution]
    exact ⟨congrArg some (h.indexes_before_reordered hg x y (i.cast hg.size_eq.symm)),
      congrArg some (h.indexes_after_reordered hg x y (i.cast hg.size_eq.symm))⟩

section Loops

/-- A loop through the first statement, and a loop out of reach. -/
def loops : FlowGraph :=
  ⟨0, "loops", #[.nop "", .nop "", .nop ""], .ofList [(0, 1), (1, 0), (2, 2)]⟩

def loopsReordered : FlowGraph :=
  ⟨0, "loops", #[.nop "", .nop "", .nop ""], .ofList [(2, 2), (1, 0), (0, 1)]⟩

def gather : GenKill :=
  let node (i : Nat) : Node := ⟨0, i, false, false⟩
  { name := "gather"
    entry := {node 0}
    initial := {node 3}
    seed := .ofList [(2, {node 2})]
    kill := .ofList [(1, {node 0})]
    gen := .ofList [(1, {node 1})]
    oneShot := [] }

theorem gather_loops_isLeast :
    gather.analysis.Stateless (fun s => gather.seeded s.index) (fun s => gather.passed s.index) ∧
    loops.Reordered loopsReordered ∧
    (∃ t : Tables loops, IsLeast {t | gather.analysis.Solves loops (fun s => gather.seeded s.index)
        (fun s => gather.passed s.index) t} t ∧
      ∀ i : Fin loops.size, some (t.2 i).indexes = [[0, 1, 3], [1, 3], [2, 3]][i.val]?) ∧
    ∀ i : Fin loops.size,
      ((gather.analysis.run loopsReordered [1]).solution.after? (loops.statement i)).map
        NodeSet.indexes = [[0, 1, 3], [1, 3], [2, 3]][i.val]? := by
  have hstateless := stateless_genKill (p := gather) rfl
  have hreordered : loops.Reordered loopsReordered :=
    ⟨rfl, rfl, fun _ => Adjacency.mem_ofList_of_perm (by decide)⟩
  have hflows : ∀ i : Fin loops.size,
      ((gather.analysis.run loops []).solution.after? (loops.statement i)).map
        NodeSet.indexes = [[0, 1, 3], [1, 3], [2, 3]][i.val]? := by decide +kernel
  obtain ⟨⟨t, hleast, htables⟩, horder⟩ := run_isLeast hstateless loops []
  refine ⟨hstateless, hreordered, ⟨t, hleast, fun i => ?_⟩, fun i => ?_⟩
  · exact (htables i).2.symm.trans (hflows i)
  · exact (horder loopsReordered hreordered [1] i).2.trans (hflows i)

end Loops

end Analysis
end MonitorElision.Fixpoint
