import MonitorElision.Proofs.Fixpoint.Visit
import MonitorElision.Proofs.FlowGraph.Order
import Mathlib.Algebra.Group.Action.Defs
import Mathlib.Algebra.Order.BigOperators.Group.List
import Mathlib.Algebra.Order.Ring.Nat

/-!
# Termination

Whatever the transfer function does, a statement returns to the queue only after a flow along one of
its incoming edges has grown. So the visits and the length of the queue together never exceed the
number of statements by more than the growth along all edges, and the iteration ends by itself
before its budget is used up.
-/
namespace MonitorElision.Fixpoint.Analysis

variable {σ : Type} (a : Analysis σ) (g : FlowGraph)

/-- How many numbers the flows along the edges have gained, each edge counted by itself. -/
def growth (it : Iteration σ g.size) : Nat :=
  (g.arcs.map fun e => (it.after.get e.1).size - a.initial.size).sum

/-- The visits made and the visits that are due, against what has grown. -/
structure Accounted (it : Iteration σ g.size) : Prop where
  initial : ∀ j : Fin g.size, a.initial ≤ it.after.get j
  atLeast : g.size ≤ it.visits + it.queue.length
  atMost : it.visits + it.queue.length ≤ g.size + a.growth g it

theorem sum_map_add_countP_le {α : Type} {f f' : α → Nat} {p : α → Bool} {l : List α}
    (h : ∀ e ∈ l, f e + (if p e then 1 else 0) ≤ f' e) :
    (l.map f).sum + l.countP p ≤ (l.map f').sum := by
  induction l with
  | nil => simp
  | cons e l ih =>
    have he := h e List.mem_cons_self
    have hl := ih fun e he => h e (List.mem_cons_of_mem _ he)
    simp only [List.map_cons, List.sum_cons, List.countP_cons]
    omega

section Visit

variable {g} {it : Iteration σ g.size} {i : Fin g.size}

theorem growth_congr {it it' : Iteration σ g.size} (h : it'.after = it.after) :
    a.growth g it' = a.growth g it := by
  unfold growth
  rw [h]

/-- Each edge out of a statement counts the growth of the flow out of it. -/
theorem growth_add_length_succs_le {it' : Iteration σ g.size}
    (hinitial : ∀ j : Fin g.size, a.initial ≤ it.after.get j)
    (hle : ∀ j : Fin g.size, it.after.get j ≤ it'.after.get j)
    (hgrown : ¬it'.after.get i ≤ it.after.get i) :
    a.growth g it + (g.succs i).length ≤ a.growth g it' := by
  rw [FlowGraph.length_succs]
  apply sum_map_add_countP_le
  intro e _
  have hbase := NodeSet.size_le_size (hinitial e.1)
  split
  · rename_i hei
    rw [decide_eq_true_eq] at hei
    subst hei
    have hlt := NodeSet.size_lt_size (hle e.1) hgrown
    omega
  · have hsize := NodeSet.size_le_size (hle e.1)
    omega

theorem Accounted.visit {rest : List (Fin g.size)} (h : a.Accounted g it)
    (hqueue : it.queue = i :: rest) :
    a.Accounted g (a.visit g { it with queue := rest } i) := by
  have hlen : it.queue.length = rest.length + 1 := by rw [hqueue, List.length_cons]
  have hleast := h.atLeast
  have hmost := h.atMost
  have hle : ∀ j : Fin g.size,
      it.after.get j ≤ (a.visit g { it with queue := rest } i).after.get j :=
    a.after_le_after_visit g { it with queue := rest } i
  have hinitial : ∀ j : Fin g.size,
      a.initial ≤ (a.visit g { it with queue := rest } i).after.get j :=
    fun j => (h.initial j).trans (hle j)
  rcases a.visit_cases g { it with queue := rest } i with
    ⟨-, hafter, hnext⟩ | ⟨hgrown, hafter, hnext⟩
  · have hgrowth : a.growth g _ = a.growth g it := a.growth_congr hafter
    constructor
    · exact hinitial
    · rw [visits_visit, hnext]
      dsimp only
      omega
    · rw [visits_visit, hnext, hgrowth]
      dsimp only
      omega
  · have hgrowth := a.growth_add_length_succs_le h.initial hle (i := i) (by
      rw [hafter]
      simpa using hgrown)
    have hkept := length_le_length_enqueue rest (g.succs i)
    have hpushed := length_enqueue_le rest (g.succs i)
    constructor
    · exact hinitial
    · rw [visits_visit, hnext]
      dsimp only
      omega
    · rw [visits_visit, hnext]
      dsimp only
      omega

theorem within_joined (hwithin : ∀ j : Fin g.size, (it.after.get j).Within a.pool) :
    (a.joined g it i).Within a.pool := by
  intro k hk
  rcases (a.mem_indexes_joined g).mp hk with hk | ⟨p, -, hk⟩
  · split at hk
    · exact a.entry_within k hk
    · exact a.initial_within k hk
  · exact hwithin p k hk

theorem within_visit (it : Iteration σ g.size) (i : Fin g.size)
    (hwithin : ∀ j : Fin g.size, (it.after.get j).Within a.pool) (j : Fin g.size) :
    ((a.visit g it i).after.get j).Within a.pool := by
  by_cases h : j = i
  · subst h
    have hjoined := a.within_joined (i := j) hwithin
    have hflow := a.flow_within it.state (g.statement j) _ _ hjoined (hwithin j)
    intro k hk
    exact hflow.2.union (hwithin j) k (NodeSet.le_iff.mp (a.after_visit_le_released g) k hk)
  · rw [a.after_visit_of_ne g h]
    exact hwithin j

theorem growth_le (hwithin : ∀ j : Fin g.size, (it.after.get j).Within a.pool) :
    a.growth g it ≤ g.edges.size * a.pool.toFinset.card := by
  have hgain : ∀ m ∈ g.arcs.map (fun e => (it.after.get e.1).size - a.initial.size),
      m ≤ a.pool.toFinset.card := by
    intro m hm
    obtain ⟨e, -, rfl⟩ := List.mem_map.mp hm
    have hsize := (hwithin e.1).size_le
    omega
  have hsum := List.sum_le_card_nsmul _ _ hgain
  rwa [List.length_map, FlowGraph.length_arcs, smul_eq_mul] at hsum

end Visit

section Run

variable (x : σ)

theorem accounted_start : a.Accounted g (a.start g x) where
  initial j := by simp [start]
  atLeast := by simp [start, FlowGraph.length_order]
  atMost := by simp [start, FlowGraph.length_order]

theorem accounted_run : a.Accounted g (a.run g x) :=
  a.run_induction g (a.accounted_start g x) fun _ _ _ hqueue h => h.visit a hqueue

theorem within_run : ∀ j : Fin g.size, ((a.run g x).after.get j).Within a.pool := by
  apply a.run_induction g (P := fun it => ∀ j : Fin g.size, (it.after.get j).Within a.pool)
  · intro j
    simpa [start] using a.initial_within
  · intro it i rest _ h
    exact a.within_visit { it with queue := rest } i h

variable {g} in
theorem visits_drain {it : Iteration σ g.size} {n : Nat} (h : (a.drain g n it).queue ≠ []) :
    (a.drain g n it).visits = it.visits + n := by
  induction n generalizing it with
  | zero => rfl
  | succ n ih =>
    cases hqueue : it.queue with
    | nil =>
      rw [a.drain_of_queue_eq_nil g hqueue] at h
      exact absurd hqueue h
    | cons i rest =>
      rw [a.drain_of_queue_eq_cons g hqueue] at h ⊢
      rw [ih h, visits_visit]
      dsimp only
      omega

/-- The iteration is not cut off by its budget. -/
theorem queue_run : (a.run g x).queue = [] := by
  by_contra hne
  have hvisits : (a.run g x).visits = 0 + a.budget g := a.visits_drain hne
  have hmost := (a.accounted_run g x).atMost
  have hgrowth := a.growth_le (a.within_run g x)
  have hpool := Nat.mul_le_mul_left g.edges.size (List.toFinset_card_le a.pool)
  have hpos := List.length_pos_iff.mpr hne
  unfold budget at hvisits
  omega

/-- As long as a statement is queued, there is budget left to visit it. -/
theorem lt_budget_of_queue_ne_nil {n : Nat} (h : (a.drain g n (a.start g x)).queue ≠ []) :
    n < a.budget g := by
  by_contra hle
  obtain ⟨more, rfl⟩ := Nat.exists_eq_add_of_le (Nat.le_of_not_lt hle)
  apply h
  rw [drain_add]
  change (a.drain g more (a.run g x)).queue = []
  rw [a.drain_of_queue_eq_nil g (a.queue_run g x), a.queue_run g x]

variable {g} in
theorem visits_le_drain (n : Nat) (it : Iteration σ g.size) :
    it.visits ≤ (a.drain g n it).visits := by
  apply a.drain_induction g (P := fun it' => it.visits ≤ it'.visits)
  · intro it' i rest _ h
    rw [visits_visit]
    exact Nat.le_succ_of_le h
  · exact le_rfl

variable {g} in
/-- An iteration is over after as many turns as it makes visits. -/
theorem drain_visits {it : Iteration σ g.size} {n k : Nat} (hk : it.visits + k =
    (a.drain g n it).visits) : a.drain g k it = a.drain g n it := by
  induction n generalizing it k with
  | zero =>
    have hzero : k = 0 := Nat.add_left_cancel (m := k) hk
    rw [hzero]
  | succ n ih =>
    cases hqueue : it.queue with
    | nil => simp only [a.drain_of_queue_eq_nil g hqueue]
    | cons i rest =>
      rw [a.drain_of_queue_eq_cons g hqueue] at hk ⊢
      have hle := a.visits_le_drain n (a.visit g { it with queue := rest } i)
      rw [visits_visit] at hle
      dsimp only at hle
      obtain ⟨k, rfl⟩ : ∃ m, k = m + 1 := ⟨k - 1, by omega⟩
      rw [a.drain_of_queue_eq_cons g hqueue]
      apply ih
      rw [visits_visit]
      dsimp only
      omega

theorem drain_visits_run (more : Nat) :
    a.drain g ((a.run g x).visits + more) (a.start g x) = a.run g x := by
  have hturns : a.drain g (a.run g x).visits (a.start g x) = a.run g x :=
    a.drain_visits (Nat.zero_add _)
  rw [drain_add, hturns]
  exact a.drain_of_queue_eq_nil g (a.queue_run g x) more

/-- Every statement is visited. -/
theorem size_le_visits_run : g.size ≤ (a.run g x).visits := by
  have h := (a.accounted_run g x).atLeast
  rwa [a.queue_run, List.length_nil, Nat.add_zero] at h

theorem visits_run_le_growth : (a.run g x).visits ≤ g.size + a.growth g (a.run g x) := by
  have h := (a.accounted_run g x).atMost
  rwa [a.queue_run, List.length_nil, Nat.add_zero] at h

/-- The iteration ends with an empty queue, after at least one visit for each statement, and at most
one more for each number that a flow gains along an edge. From turn to turn no table entry loses a
number. -/
theorem run_terminates :
    (a.run g x).queue = [] ∧
    (∀ more, a.drain g ((a.run g x).visits + more) (a.start g x) = a.run g x) ∧
    g.size ≤ (a.run g x).visits ∧
    (a.run g x).visits ≤ g.size +
      (g.arcs.map fun e => ((a.run g x).after.get e.1).size - a.initial.size).sum ∧
    (a.run g x).visits ≤ g.size + g.edges.size * a.pool.toFinset.card ∧
    ∀ (turns more : Nat) (i : Fin g.size),
      (a.drain g turns (a.start g x)).before.get i ≤
        (a.drain g (turns + more) (a.start g x)).before.get i ∧
      (a.drain g turns (a.start g x)).after.get i ≤
        (a.drain g (turns + more) (a.start g x)).after.get i := by
  have hgrowth := a.visits_run_le_growth g x
  have hpool := a.growth_le (a.within_run g x)
  refine ⟨a.queue_run g x, a.drain_visits_run g x, a.size_le_visits_run g x, hgrowth,
    hgrowth.trans (Nat.add_le_add_left hpool _), ?_⟩
  intro turns more i
  rw [drain_add]
  exact a.le_drain g more _ i

end Run

end MonitorElision.Fixpoint.Analysis
