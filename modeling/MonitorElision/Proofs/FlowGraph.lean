import MonitorElision.FlowGraph
import Mathlib.Algebra.BigOperators.Group.List.Basic
import Mathlib.Data.List.FinRange

/-!
# Edges as a relation

What the lists of successors, predecessors, heads and tails say about the edges, whatever the order
in which these were added.
-/
namespace MonitorElision.FlowGraph

/-- The edges as pairs of places. -/
def arcs (g : FlowGraph) : List (Fin g.size × Fin g.size) :=
  (List.finRange g.size).flatMap fun i => (g.succs i).map fun j => (i, j)

/-- The same statements and the same edges, but perhaps added in another order. -/
structure Reordered (g g' : FlowGraph) : Prop where
  id : g'.id = g.id
  instrs : g'.instrs = g.instrs
  edges : ∀ e, e ∈ g'.edges ↔ e ∈ g.edges

/-- The same statements, and perhaps fewer edges. -/
structure Subgraph (g g' : FlowGraph) : Prop where
  id : g'.id = g.id
  instrs : g'.instrs = g.instrs
  edges : ∀ e ∈ g.edges, e ∈ g'.edges

variable {g : FlowGraph}

theorem length_arcs (g : FlowGraph) : g.arcs.length = g.edges.size := by
  rw [Adjacency.size, Adjacency.toList, arcs, List.length_flatMap, List.length_flatMap]
  simp only [List.length_map]
  rfl

theorem length_succs (i : Fin g.size) : (g.succs i).length = g.arcs.countP (·.1 = i) := by
  rw [arcs, List.countP_flatMap, List.sum_map_eq_nsmul_single i, List.count_finRange,
    one_nsmul]
  · simp [List.countP_map, Function.comp_def]
  · intro k hk _
    simp [List.countP_map, Function.comp_def, hk]

theorem mem_heads {i : Fin g.size} : i ∈ g.heads ↔ g.IsHead i := by
  simp [heads]

theorem isHead_iff {i : Fin g.size} : g.IsHead i ↔ i.val = 0 ∨ ∀ p, (p, i.val) ∉ g.edges := by
  unfold IsHead
  rw [List.eq_nil_iff_forall_not_mem]
  apply or_congr Iff.rfl
  constructor
  · intro h p hp
    exact h ⟨p, (g.within _ hp).1⟩ (mem_preds.mpr hp)
  · intro h p hp
    exact h p.val (mem_preds.mp hp)

theorem mem_tails {i : Fin g.size} : i ∈ g.tails ↔ ∀ j, (i.val, j) ∉ g.edges := by
  simp only [tails, List.mem_filter, List.mem_finRange, decide_eq_true_eq, true_and]
  rw [List.eq_nil_iff_forall_not_mem]
  constructor
  · intro h j hj
    exact h ⟨j, (g.within _ hj).2⟩ (mem_succs.mpr hj)
  · intro h j hj
    exact h j.val (mem_succs.mp hj)

theorem statement_injective {i j : Fin g.size} (h : g.statement i = g.statement j) : i = j :=
  Fin.ext (congrArg Statement.index h)

theorem mem_statements {s : Statement} : s ∈ g.statements ↔ ∃ i, g.statement i = s := by
  simp [statements]

theorem find?_statement (i : Fin g.size) : g.find? (g.statement i) = some i := by
  simp [find?, statement]

theorem find_statement (g : FlowGraph) (i : Fin g.size) : g.find (g.statement i) = .ok i := by
  rw [find, find?_statement]

theorem next_statement (g : FlowGraph) (i : Fin g.size) :
    g.next (g.statement i) = .ok ((g.succs i).map g.statement) := by
  rw [next, find_statement]
  rfl

theorem previous_statement (g : FlowGraph) (i : Fin g.size) :
    g.previous (g.statement i) = .ok ((g.preds i).map g.statement) := by
  rw [previous, find_statement]
  rfl

theorem statement_mem (i : Fin g.size) : g.statement i ∈ g := by
  change (g.find? (g.statement i)).isSome = true
  rw [find?_statement]
  rfl

section Members

variable {s t : Statement}

theorem mem_iff : s ∈ g ↔ ∃ i, g.statement i = s := by
  constructor
  · intro hs
    change (g.find? s).isSome = true at hs
    unfold find? at hs
    split at hs
    · split at hs
      · exact ⟨_, ‹_›⟩
      · simp at hs
    · simp at hs
  · rintro ⟨i, rfl⟩
    exact g.statement_mem i

theorem find_of_not_mem (hs : s ∉ g) : g.find s = .error (.foreignStatement s g.name) := by
  have hnone : g.find? s = none := Option.not_isSome_iff_eq_none.mp hs
  rw [find, hnone]

theorem connect_statement (g : FlowGraph) (i j : Fin g.size) :
    g.connect (g.statement i) (g.statement j) = .ok (g.addEdge i j) := by
  rw [connect, find_statement, find_statement]
  rfl

theorem exists_error_connect (h : s ∉ g ∨ t ∉ g) : ∃ f, g.connect s t = .error f := by
  by_cases hs : s ∈ g
  · obtain ⟨i, rfl⟩ := mem_iff.mp hs
    refine ⟨.foreignStatement t g.name, ?_⟩
    rw [connect, find_statement, find_of_not_mem (h.resolve_left (not_not.mpr hs))]
    rfl
  · refine ⟨.foreignStatement s g.name, ?_⟩
    rw [connect, find_of_not_mem hs]
    rfl

/-- Two statements are connected, or one of them is not a statement of the graph. -/
theorem connect_cases (g : FlowGraph) (s t : Statement) :
    (∃ i j, g.statement i = s ∧ g.statement j = t ∧ g.connect s t = .ok (g.addEdge i j)) ∨
      (s ∉ g ∨ t ∉ g) ∧ ∃ f, g.connect s t = .error f := by
  by_cases h : s ∈ g ∧ t ∈ g
  · obtain ⟨i, rfl⟩ := mem_iff.mp h.1
    obtain ⟨j, rfl⟩ := mem_iff.mp h.2
    exact Or.inl ⟨i, j, rfl, rfl, g.connect_statement i j⟩
  · have hforeign := not_and_or.mp h
    exact Or.inr ⟨hforeign, exists_error_connect hforeign⟩

theorem addEdge_of_mem {i j : Fin g.size} (h : (i.val, j.val) ∈ g.edges) : g.addEdge i j = g := by
  rw [addEdge, Adjacency.link_of_mem h]

theorem size_append (g : FlowGraph) (a : Instr) : (g.append a).2.size = g.size + 1 :=
  Array.size_push a

end Members

namespace Subgraph

variable {g' : FlowGraph} (h : g.Subgraph g')
include h

theorem size_eq : g.size = g'.size := (congrArg Array.size h.instrs).symm

theorem statement_cast (i : Fin g.size) : g'.statement (i.cast h.size_eq) = g.statement i := by
  simp only [statement, instr, h.id, h.instrs]
  rfl

theorem statements_eq : g'.statements = g.statements := by
  obtain ⟨id, name, instrs, edges⟩ := g
  obtain ⟨id', name', instrs', edges'⟩ := g'
  obtain rfl : id' = id := h.id
  obtain rfl : instrs' = instrs := h.instrs
  rfl

end Subgraph

namespace Reordered

variable {g' : FlowGraph} (h : g.Reordered g')
include h

theorem symm : g'.Reordered g := ⟨h.id.symm, h.instrs.symm, fun e => (h.edges e).symm⟩

theorem subgraph : g.Subgraph g' := ⟨h.id, h.instrs, fun e => (h.edges e).mpr⟩

theorem size_eq : g'.size = g.size := h.symm.subgraph.size_eq

theorem statement_cast (i : Fin g'.size) : g.statement (i.cast h.size_eq) = g'.statement i :=
  h.symm.subgraph.statement_cast i

theorem isHead_cast (i : Fin g'.size) : g.IsHead (i.cast h.size_eq) ↔ g'.IsHead i := by
  simp only [isHead_iff, h.edges, Fin.val_cast]

theorem mem_tails_cast (i : Fin g'.size) : i.cast h.size_eq ∈ g.tails ↔ i ∈ g'.tails := by
  simp only [mem_tails, h.edges, Fin.val_cast]

end Reordered

end MonitorElision.FlowGraph
