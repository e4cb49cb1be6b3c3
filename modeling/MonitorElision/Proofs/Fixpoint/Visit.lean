import MonitorElision.Fixpoint
import MonitorElision.Proofs.FlowGraph
import MonitorElision.Proofs.NodeSet

/-!
# Visits

What a single visit does to the tables and to the queue, and how a property of one visit becomes a
property of a whole iteration. A visit either leaves the flow out of its statement as it is, or lets
it grow and queues the successors. So a statement that is not queued sees the same flow come in as
at its last visit.
-/
namespace MonitorElision.Fixpoint.Analysis

variable {σ : Type} (a : Analysis σ) (g : FlowGraph)

section Visit

variable (it : Iteration σ g.size) (i : Fin g.size)

/-- The flow out of a statement that a visit comes to. -/
def released : NodeSet := (a.transfer g it i).outgoing ∪ it.after.get i

/-- A visit is quiet if no number is new in the flow out, and otherwise lets that flow grow. -/
theorem visit_cases :
    (a.released g it i ≤ it.after.get i ∧ (a.visit g it i).after = it.after ∧
      (a.visit g it i).queue = it.queue) ∨
    (¬a.released g it i ≤ it.after.get i ∧
      (a.visit g it i).after = put it.after i (a.released g it i) ∧
      (a.visit g it i).queue = enqueue it.queue (g.succs i)) := by
  unfold visit released
  dsimp only
  split
  · rename_i hquiet
    exact Or.inl ⟨hquiet, rfl, rfl⟩
  · rename_i hgrown
    exact Or.inr ⟨hgrown, rfl, rfl⟩

@[simp] theorem visits_visit : (a.visit g it i).visits = it.visits + 1 := by
  unfold visit
  dsimp only
  split <;> rfl

@[simp] theorem state_visit : (a.visit g it i).state = (a.transfer g it i).state := by
  unfold visit
  dsimp only
  split <;> rfl

theorem before_visit : (a.visit g it i).before =
    put it.before i ((a.transfer g it i).incoming ∪ it.before.get i) := by
  unfold visit
  dsimp only
  split <;> rfl

theorem before_visit_self :
    (a.visit g it i).before.get i = (a.transfer g it i).incoming ∪ it.before.get i := by
  simp [before_visit]

variable {it i} {j : Fin g.size}

theorem before_visit_of_ne (h : j ≠ i) : (a.visit g it i).before.get j = it.before.get j := by
  rw [before_visit, get_put_of_ne h]

theorem after_visit_of_ne (h : j ≠ i) : (a.visit g it i).after.get j = it.after.get j := by
  rcases a.visit_cases g it i with ⟨-, hafter, -⟩ | ⟨-, hafter, -⟩
  · rw [hafter]
  · rw [hafter, get_put_of_ne h]

theorem released_le_after_visit : a.released g it i ≤ (a.visit g it i).after.get i := by
  rcases a.visit_cases g it i with ⟨hle, hafter, -⟩ | ⟨-, hafter, -⟩
  · rw [hafter]
    exact hle
  · simp [hafter]

theorem after_visit_le_released : (a.visit g it i).after.get i ≤ a.released g it i := by
  rcases a.visit_cases g it i with ⟨-, hafter, -⟩ | ⟨-, hafter, -⟩
  · rw [hafter]
    exact NodeSet.le_union_right _ _
  · simp [hafter]

theorem mem_after_visit {n : Node} (h : n ∈ (a.visit g it i).after.get i) :
    n ∈ (a.transfer g it i).outgoing ∨ n ∈ it.after.get i := by
  rcases a.visit_cases g it i with ⟨-, hafter, -⟩ | ⟨-, hafter, -⟩
  · rw [hafter] at h
    exact Or.inr h
  · rw [hafter, get_put_self] at h
    exact NodeSet.mem_or_mem_of_mem_union h

/-- No flow out of a statement loses a number. -/
theorem after_le_after_visit (it : Iteration σ g.size) (i j : Fin g.size) :
    it.after.get j ≤ (a.visit g it i).after.get j := by
  by_cases h : j = i
  · subst h
    exact (NodeSet.le_union_right _ _).trans (a.released_le_after_visit g)
  · rw [a.after_visit_of_ne g h]

theorem before_le_before_visit (it : Iteration σ g.size) (i j : Fin g.size) :
    it.before.get j ≤ (a.visit g it i).before.get j := by
  by_cases h : j = i
  · subst h
    rw [before_visit_self]
    exact NodeSet.le_union_right _ _
  · rw [a.before_visit_of_ne g h]

theorem mem_queue_visit (h : j ∈ it.queue) : j ∈ (a.visit g it i).queue := by
  rcases a.visit_cases g it i with ⟨-, -, hqueue⟩ | ⟨-, -, hqueue⟩
  · rwa [hqueue]
  · rw [hqueue, mem_enqueue]
    exact Or.inl h

/-- Only the statement that is visited leaves the queue. -/
theorem not_mem_queue_of_visit {rest : List (Fin g.size)} (hqueue : it.queue = i :: rest)
    (hji : j ≠ i) (h : j ∉ (a.visit g { it with queue := rest } i).queue) : j ∉ it.queue := by
  rw [hqueue]
  intro hj
  rcases List.mem_cons.mp hj with hj | hj
  · exact hji hj
  · exact h (a.mem_queue_visit g hj)

/-- A statement that is not queued has no predecessor whose flow has grown. -/
theorem after_visit_of_not_mem_queue {p : Fin g.size} (hp : (p.val, j.val) ∈ g.edges)
    (hj : j ∉ (a.visit g it i).queue) : (a.visit g it i).after.get p = it.after.get p := by
  rcases a.visit_cases g it i with ⟨-, hafter, -⟩ | ⟨-, -, hqueue⟩
  · rw [hafter]
  · by_cases hpi : p = i
    · subst hpi
      rw [hqueue, mem_enqueue] at hj
      exact absurd (Or.inr (FlowGraph.mem_succs.mpr hp)) hj
    · exact a.after_visit_of_ne g hpi

theorem mem_indexes_joined {k : Nat} : k ∈ (a.joined g it j).indexes ↔
    k ∈ (if g.IsHead j then a.entry else a.initial).indexes ∨
      ∃ p : Fin g.size, (p.val, j.val) ∈ g.edges ∧ k ∈ (it.after.get p).indexes := by
  rw [joined, NodeSet.mem_indexes_foldl_union]
  simp only [FlowGraph.mem_preds]

theorem mem_joined {n : Node} (h : n ∈ a.joined g it j) :
    n ∈ (if g.IsHead j then a.entry else a.initial) ∨
      ∃ p : Fin g.size, (p.val, j.val) ∈ g.edges ∧ n ∈ it.after.get p := by
  rcases NodeSet.mem_or_mem_of_mem_foldl_union h with h | ⟨p, hp, h⟩
  · exact Or.inl h
  · exact Or.inr ⟨p, FlowGraph.mem_preds.mp hp, h⟩

/-- A statement that is not queued sees the flow that came in at its last visit. -/
theorem joined_visit_of_not_mem_queue (hj : j ∉ (a.visit g it i).queue) :
    a.joined g (a.visit g it i) j = a.joined g it j := by
  unfold joined
  apply List.foldl_ext
  intro acc p hp
  rw [a.after_visit_of_not_mem_queue g (FlowGraph.mem_preds.mp hp) hj]

theorem joined_le_joined {it it' : Iteration σ g.size}
    (h : ∀ p : Fin g.size, it.after.get p ≤ it'.after.get p) :
    a.joined g it j ≤ a.joined g it' j := by
  rw [NodeSet.le_iff]
  intro k hk
  rw [mem_indexes_joined] at hk ⊢
  rcases hk with hk | ⟨p, hp, hk⟩
  · exact Or.inl hk
  · exact Or.inr ⟨p, hp, NodeSet.le_iff.mp (h p) k hk⟩

theorem joined_le_joined_visit (it : Iteration σ g.size) (i j : Fin g.size) :
    a.joined g it j ≤ a.joined g (a.visit g it i) j :=
  a.joined_le_joined g (a.after_le_after_visit g it i)

end Visit

section Drain

variable {it : Iteration σ g.size}

theorem drain_of_queue_eq_nil (h : it.queue = []) (budget : Nat) :
    a.drain g budget it = it := by
  cases budget with
  | zero => rfl
  | succ budget =>
    rw [drain, h]

theorem drain_of_queue_eq_cons {i : Fin g.size} {rest : List (Fin g.size)}
    (h : it.queue = i :: rest) (budget : Nat) :
    a.drain g (budget + 1) it = a.drain g budget (a.visit g { it with queue := rest } i) := by
  rw [drain, h]

theorem drain_add (m n : Nat) (it : Iteration σ g.size) :
    a.drain g (m + n) it = a.drain g n (a.drain g m it) := by
  induction m generalizing it with
  | zero => rw [Nat.zero_add, drain]
  | succ m ih =>
    cases h : it.queue with
    | nil => simp only [a.drain_of_queue_eq_nil g h]
    | cons i rest =>
      rw [Nat.succ_add, a.drain_of_queue_eq_cons g h, a.drain_of_queue_eq_cons g h]
      exact ih _

/-- What every visit preserves holds of the whole iteration. -/
theorem drain_induction {P : Iteration σ g.size → Prop}
    (step : ∀ (it : Iteration σ g.size) i rest, it.queue = i :: rest → P it →
      P (a.visit g { it with queue := rest } i))
    (budget : Nat) (h : P it) : P (a.drain g budget it) := by
  induction budget generalizing it with
  | zero => exact h
  | succ budget ih =>
    cases hqueue : it.queue with
    | nil =>
      rw [a.drain_of_queue_eq_nil g hqueue]
      exact h
    | cons i rest =>
      rw [a.drain_of_queue_eq_cons g hqueue]
      exact ih (step it i rest hqueue h)

theorem run_induction {P : Iteration σ g.size → Prop} {x : σ} (start : P (a.start g x))
    (step : ∀ (it : Iteration σ g.size) i rest, it.queue = i :: rest → P it →
      P (a.visit g { it with queue := rest } i)) : P (a.run g x) :=
  a.drain_induction g step _ start

/-- The tables grow from visit to visit. -/
theorem le_drain (budget : Nat) (it : Iteration σ g.size) (j : Fin g.size) :
    it.before.get j ≤ (a.drain g budget it).before.get j ∧
      it.after.get j ≤ (a.drain g budget it).after.get j := by
  apply a.drain_induction g (P := fun it' => it.before.get j ≤ it'.before.get j ∧
    it.after.get j ≤ it'.after.get j)
  · intro it' i rest _ ⟨hbefore, hafter⟩
    constructor
    · exact hbefore.trans (a.before_le_before_visit g { it' with queue := rest } i j)
    · exact hafter.trans (a.after_le_after_visit g { it' with queue := rest } i j)
  · exact ⟨le_rfl, le_rfl⟩

end Drain

end MonitorElision.Fixpoint.Analysis
