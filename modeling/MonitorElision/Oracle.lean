import MonitorElision.Bindings
import MonitorElision.Tracematch

/-!
# Transition oracles

An oracle answers which nodes the automaton may be in after a statement that it enters in a given
node. The answers come from a known stock: the node asked about, the initial nodes, and the oracle's
reach.
-/
namespace MonitorElision

/-- What an oracle is told of the analysis that asks. -/
structure Oracle.Context where
  tracematch : Tracematch
  initial : NodeSet
  bindings : Bindings

structure Oracle where
  successors : Oracle.Context → Node → Statement → Narrated (Except Fault NodeSet)
  reach : Oracle.Context → List Nat
  within : ∀ c n s r, (successors c n s).value = .ok r →
    ∀ i ∈ r.indexes, i = n.index ∨ i ∈ c.initial.indexes ∨ i ∈ reach c

namespace Oracle

/-- A row answers for a node and a statement, both by number. -/
structure Row where
  node : Nat
  statement : Nat
  successors : NodeSet

/-- The last row that applies. -/
def findRow? (rows : List Row) (n : Node) (s : Statement) : Option Row :=
  rows.reverse.find? fun row => row.node = n.index ∧ row.statement = s.index

/-- Answers by table. Without a row the automaton stays where it is, so the empty table moves
nothing. -/
def table (rows : List Row) : Oracle where
  successors _ n s :=
    pure (.ok (match findRow? rows n s with
      | some row => row.successors
      | none => {n}))
  reach _ := rows.flatMap (·.successors.indexes)
  within c n s r h i hi := by
    simp only [Narrated.value_pure, Except.ok.injEq] at h
    subst h
    split at hi
    · rename_i row hrow
      refine Or.inr (Or.inr (List.mem_flatMap.2 ⟨row, ?_, hi⟩))
      exact List.mem_reverse.1 (List.mem_of_find?_eq_some hrow)
    · exact Or.inl (NodeSet.mem_indexes_singleton.1 hi)

end Oracle
end MonitorElision
