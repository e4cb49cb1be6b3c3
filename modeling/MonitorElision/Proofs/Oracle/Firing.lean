import MonitorElision.Oracle.Firing
import MonitorElision.Proofs.NodeSet

/-!
# Answers of the default oracle

Whatever shadows fire, the automaton stays among the nodes of its machine.
-/
namespace MonitorElision

namespace Tracematch

variable {tm : Tracematch} {n : Node} {i : Fin tm.size}

theorem node_mem_nodes (tm : Tracematch) (i : Fin tm.size) : tm.node i ∈ tm.nodes :=
  List.mem_map_of_mem (List.mem_finRange i)

theorem mem_nodes_of_mem_map_node {l : List (Fin tm.size)} (h : n ∈ l.map tm.node) :
    n ∈ tm.nodes := by
  obtain ⟨j, -, rfl⟩ := List.mem_map.mp h
  exact node_mem_nodes tm j

/-- A node of the machine is found at its number. -/
theorem find_of_mem_nodes (h : n ∈ tm.nodes) : ∃ i, tm.find n = .ok i ∧ tm.node i = n := by
  obtain ⟨i, -, rfl⟩ := List.mem_map.mp h
  have hplace : tm.Owns (tm.node i) ∧ (tm.node i).index < tm.size := ⟨rfl, i.isLt⟩
  refine ⟨i, ?_, rfl⟩
  unfold find
  rw [dif_pos hplace]
  rfl

theorem find_node (i : Fin tm.size) : tm.find (tm.node i) = .ok i := by
  obtain ⟨j, hfind, hj⟩ := find_of_mem_nodes (node_mem_nodes tm i)
  rw [hfind, Fin.ext (congrArg Node.index hj)]

end Tracematch

variable {c : Oracle.Context} {n : Node} {s : Statement} {next : NodeSet} {m : Node}

theorem Shadow.mem_nodes_of_mem_outcome {sh : Shadow} {i : Fin c.tracematch.size}
    (hinitial : ∀ k ∈ c.initial, k ∈ c.tracematch.nodes) (h : m ∈ sh.outcome c i) :
    m ∈ c.tracematch.nodes := by
  unfold outcome at h
  dsimp only at h
  split at h
  · split at h
    · exact hinitial m h
    · exact Tracematch.mem_nodes_of_mem_map_node (NodeSet.mem_of_mem_ofList h)
  · rcases NodeSet.mem_or_mem_of_mem_insertAll h with h | h
    · obtain rfl := NodeSet.mem_singleton.mp h
      exact Tracematch.node_mem_nodes c.tracematch i
    · exact Tracematch.mem_nodes_of_mem_map_node h

/-- The default oracle answers nodes of the machine with nodes of the machine. -/
theorem Oracle.mem_nodes_of_successors_shadows {r : Shadow.Registry} {procedure : String}
    (hinitial : ∀ k ∈ c.initial, k ∈ c.tracematch.nodes) (hn : n ∈ c.tracematch.nodes)
    (h : ((Oracle.shadows r procedure).successors c n s).value = .ok next) (hm : m ∈ next) :
    m ∈ c.tracematch.nodes := by
  obtain ⟨i, hfind, -⟩ := Tracematch.find_of_mem_nodes hn
  simp only [Oracle.shadows, hfind] at h
  split at h
  · simp only [Narrated.value_pure, Except.ok.injEq] at h
    subst h
    obtain rfl := NodeSet.mem_singleton.mp hm
    exact hn
  · obtain rfl := Except.ok.inj h
    rcases NodeSet.mem_or_mem_of_mem_foldl_union hm with hm | ⟨sh, -, hm⟩
    · exact absurd hm (NodeSet.not_mem_empty m)
    · exact Shadow.mem_nodes_of_mem_outcome hinitial hm

/-- A shadow that must refer to the tracked objects drives the automaton along its symbol, or back
to the initial nodes. -/
theorem Shadow.mem_indexes_outcome_of_mustRefer {sh : Shadow} {i : Fin c.tracematch.size} {k : Nat}
    (h : c.bindings.MustRefer sh) : k ∈ (sh.outcome c i).indexes ↔
      (∃ t ∈ c.tracematch.targets i sh.symbol, t.val = k) ∨
        c.tracematch.targets i sh.symbol = [] ∧ k ∈ c.initial.indexes := by
  unfold outcome
  cases htargets : c.tracematch.targets i sh.symbol with
  | nil => simp [h]
  | cons t ts => simp [h, Tracematch.node]

/-- A shadow that only may refer to them may also leave the automaton where it is. -/
theorem Shadow.mem_indexes_outcome_of_not_mustRefer {sh : Shadow} {i : Fin c.tracematch.size}
    {k : Nat} (h : ¬c.bindings.MustRefer sh) : k ∈ (sh.outcome c i).indexes ↔
      (∃ t ∈ c.tracematch.targets i sh.symbol, t.val = k) ∨ k = i.val := by
  simp [outcome, h, Tracematch.node, or_comm]

/-- The answer on a node of the machine joins the outcomes of the shadows. -/
theorem Oracle.exists_successors_shadows (r : Shadow.Registry) (procedure : String)
    (c : Oracle.Context) (i : Fin c.tracematch.size) (s : Statement) :
    ∃ next, ((Oracle.shadows r procedure).successors c (c.tracematch.node i) s).value = .ok next ∧
      ∀ k, k ∈ next.indexes ↔
        (relevant r procedure c.tracematch.signature s = [] ∧ k = i.val) ∨
          ∃ sh ∈ relevant r procedure c.tracematch.signature s, k ∈ (sh.outcome c i).indexes := by
  have hfind := Tracematch.find_node i
  cases hshadows : relevant r procedure c.tracematch.signature s with
  | nil =>
    refine ⟨{c.tracematch.node i}, ?_, ?_⟩
    · simp only [Oracle.shadows, hfind, hshadows, Narrated.value_pure]
    · simp [Tracematch.node]
  | cons sh rest =>
    refine ⟨Shadow.outcomes c i (sh :: rest), ?_, ?_⟩
    · simp only [Oracle.shadows, hfind, hshadows]
    · intro k
      rw [Shadow.outcomes, NodeSet.mem_indexes_foldl_union]
      simp

end MonitorElision
