import MonitorElision.Fixpoint.Operations
import MonitorElision.Proofs.Fixpoint.Visit
import MonitorElision.Proofs.FlowGraph.DepthFirst

/-!
# Graphs without cycles

In a graph without cycles every statement is queued until all its predecessors have been visited.
So whatever an analysis does, the growth of a flow finds all successors in the queue already, the
queue is gone through once, and the visits follow the order of the graph.
-/
namespace MonitorElision.Fixpoint

section Instance

variable {σ : Type} (a : Analysis σ) (g : FlowGraph)

theorem joined_operations (c : Course σ NodeSet g.size) (i : Fin g.size) :
    a.operations.joined g c.after i = pure (a.joined g c.iteration i) := by
  have houtside : a.operations.outside g i = pure (if g.IsHead i then a.entry else a.initial) := by
    unfold Operations.outside
    split <;> rfl
  rw [Operations.joined, houtside, pure_bind]
  exact List.foldlM_pure

theorem grown_operations (outgoing old : NodeSet) :
    a.operations.grown outgoing old = pure (if outgoing ≤ old then none else some outgoing) := by
  unfold Operations.grown
  by_cases h : outgoing ≤ old
  · simp [Analysis.operations, h]
  · simp [Analysis.operations, h]

theorem settle_operations (c : Course σ NodeSet g.size) (i : Fin g.size) :
    a.operations.settle g c.before c.after i c.state =
      (((a.transfer g c.iteration i).incoming ∪ c.before.get i,
        if a.released g c.iteration i ≤ c.after.get i then none
        else some (a.released g c.iteration i)), (a.transfer g c.iteration i).state) := by
  rw [Operations.settle, joined_operations, pure_bind]
  simp only [grown_operations]
  rfl

theorem iteration_visit (c : Course σ NodeSet g.size) (i : Fin g.size) :
    (a.operations.visit g c i).iteration = a.visit g c.iteration i := by
  unfold Operations.visit
  rw [settle_operations]
  have hlength : (c.trail ++ [i]).length = c.trail.length + 1 := List.length_append
  by_cases h : a.released g c.iteration i ≤ c.after.get i
  · have hvisit : a.visit g c.iteration i = _ := if_pos h
    rw [if_pos h, hvisit]
    simp only [Course.iteration, hlength]
  · have hvisit : a.visit g c.iteration i = _ := if_neg h
    rw [if_neg h, hvisit]
    simp only [Course.iteration, hlength]
    rfl

/-- An analysis over node sets iterates like any other. -/
theorem iteration_drain (budget : Nat) (c : Course σ NodeSet g.size) :
    (a.operations.drain g budget c).iteration = a.drain g budget c.iteration := by
  induction budget generalizing c with
  | zero => rfl
  | succ budget ih =>
    cases hqueue : c.queue with
    | nil =>
      have hdone : c.iteration.queue = [] := hqueue
      rw [Operations.drain, hqueue, a.drain_of_queue_eq_nil g hdone]
    | cons i rest =>
      have hnext : c.iteration.queue = i :: rest := hqueue
      rw [Operations.drain, hqueue, a.drain_of_queue_eq_cons g hnext]
      dsimp only
      rw [ih, iteration_visit]
      rfl

end Instance

theorem enqueue_eq_self {n : Nat} {queue next : List (Fin n)} (h : ∀ i ∈ next, i ∈ queue) :
    enqueue queue next = queue := by
  have hnone : next.filter (· ∉ queue) = [] := by
    rw [List.filter_eq_nil_iff]
    intro i hi
    simpa using h i hi
  rw [enqueue, hnone, List.append_nil]

namespace Operations

variable {σ D : Type} (ops : Operations σ D) {g : FlowGraph}

/-- Whatever a visit comes to, it is recorded, and only the successors may have been queued. -/
theorem visit_cases (c : Course σ D g.size) (i : Fin g.size) :
    (ops.visit g c i).trail = c.trail ++ [i] ∧
      ((ops.visit g c i).queue = c.queue ∨
        (ops.visit g c i).queue = enqueue c.queue (g.succs i)) := by
  obtain ⟨⟨⟨incoming, grown⟩, state⟩, hsettle⟩ :
    ∃ result : (D × Option D) × σ, ops.settle g c.before c.after i c.state = result := ⟨_, rfl⟩
  unfold visit
  rw [hsettle]
  cases grown with
  | none => exact ⟨rfl, Or.inl rfl⟩
  | some outgoing => exact ⟨rfl, Or.inr rfl⟩

/-- The statements visited and the statements to visit make up the order of the graph. -/
def InOrder (c : Course σ D g.size) : Prop := c.trail ++ c.queue = g.order

variable {ops} {c : Course σ D g.size} {i : Fin g.size} {rest : List (Fin g.size)}

/-- The successors of the statement at the front are queued behind it. -/
theorem InOrder.mem_rest (h : InOrder c) (hg : g.Acyclic) (hqueue : c.queue = i :: rest)
    {j : Fin g.size} (hedge : g.Edge i j) : j ∈ rest := by
  have hsorted := hg.pairwise_order
  have hmem := g.mem_order j
  rw [← h, hqueue] at hsorted hmem
  rcases List.mem_append.mp hmem with hvisited | hqueued
  · have hback := (List.pairwise_append.mp hsorted).2.2 j hvisited i List.mem_cons_self
    exact absurd hedge hback
  · rcases List.mem_cons.mp hqueued with rfl | hrest
    · exact absurd (Relation.TransGen.single hedge) (hg j)
    · exact hrest

/-- A visit takes its statement off the queue and puts none back. -/
theorem InOrder.queue_visit (h : InOrder c) (hg : g.Acyclic) (hqueue : c.queue = i :: rest) :
    (ops.visit g { c with queue := rest } i).queue = rest := by
  rcases (ops.visit_cases { c with queue := rest } i).2 with hrest | hrest
  · exact hrest
  · rw [hrest]
    apply enqueue_eq_self
    intro j hj
    exact h.mem_rest hg hqueue (FlowGraph.mem_succs_iff_edge.mp hj)

theorem InOrder.visit (h : InOrder c) (hg : g.Acyclic) (hqueue : c.queue = i :: rest) :
    InOrder (ops.visit g { c with queue := rest } i) := by
  unfold InOrder
  rw [h.queue_visit hg hqueue, (ops.visit_cases _ i).1, ← h, hqueue]
  simp

/-- One visit for each queued statement, and the iteration is over. -/
theorem InOrder.drain (h : InOrder c) (hg : g.Acyclic) {budget : Nat}
    (hbudget : c.queue.length ≤ budget) :
    (ops.drain g budget c).queue = [] ∧ (ops.drain g budget c).trail = g.order := by
  induction budget generalizing c with
  | zero =>
    have hdone := List.length_eq_zero_iff.mp (Nat.le_zero.mp hbudget)
    have htrail := h
    rw [InOrder, hdone, List.append_nil] at htrail
    exact ⟨hdone, htrail⟩
  | succ budget ih =>
    cases hqueue : c.queue with
    | nil =>
      have htrail := h
      rw [InOrder, hqueue, List.append_nil] at htrail
      rw [Operations.drain, hqueue]
      exact ⟨hqueue, htrail⟩
    | cons i rest =>
      rw [hqueue, List.length_cons] at hbudget
      rw [Operations.drain, hqueue]
      apply ih (h.visit hg hqueue)
      rw [h.queue_visit hg hqueue]
      omega

variable (ops)

/-- Whatever the analysis, its visits follow the order of the graph. -/
theorem drain_start (hg : g.Acyclic) (x : σ) (more : Nat) :
    (ops.drain g (g.size + more) (ops.start g x)).queue = [] ∧
      (ops.drain g (g.size + more) (ops.start g x)).trail = g.order := by
  have hstart : InOrder (ops.start g x) := List.nil_append _
  apply hstart.drain hg
  change g.order.length ≤ g.size + more
  rw [g.length_order]
  exact Nat.le_add_right _ _

end Operations

section Acyclic

variable {g : FlowGraph}

theorem visits_run_of_acyclic (hg : g.Acyclic) {σ : Type} (a : Analysis σ) (x : σ) :
    (a.run g x).visits = g.size := by
  have htrail := (a.operations.drain_start hg x (g.edges.size * a.pool.length)).2
  have hrun : (a.operations.drain g (a.budget g) (a.operations.start g x)).iteration =
      a.run g x := iteration_drain a g _ _
  calc
    (a.run g x).visits =
        (a.operations.drain g (a.budget g) (a.operations.start g x)).trail.length := by
      rw [← hrun]
      rfl
    _ = g.order.length := congrArg List.length htrail
    _ = g.size := g.length_order

/-- In a graph without cycles every analysis, whatever its flows and its transfer function, ends
after it has visited each statement once, each after all its predecessors. -/
theorem onePass_of_acyclic (hg : g.Acyclic) {σ D : Type} (ops : Operations σ D) (x : σ)
    (more : Nat) :
    let finished := ops.drain g (g.size + more) (ops.start g x)
    finished.queue = [] ∧
    (∀ i, finished.trail.count i = 1) ∧
    (∀ front i back, finished.trail = front ++ i :: back → ∀ p, g.Edge p i → p ∈ front) ∧
    finished.trail.length = g.size ∧
    ∀ {τ : Type} (a : Analysis τ) (y : τ), (a.run g y).visits = g.size := by
  obtain ⟨hqueue, htrail⟩ := ops.drain_start hg x more
  refine ⟨hqueue, ?_, ?_, ?_, ?_⟩
  · intro i
    rw [htrail]
    exact List.count_eq_one_of_mem g.nodup_order (g.mem_order i)
  · intro front i back hsplit p hedge
    have hsorted := hg.pairwise_order
    have hmem := g.mem_order p
    rw [← htrail, hsplit] at hsorted hmem
    rcases List.mem_append.mp hmem with hfront | hback
    · exact hfront
    · rcases List.mem_cons.mp hback with rfl | hback
      · exact absurd (Relation.TransGen.single hedge) (hg p)
      · have htail := (List.pairwise_append.mp hsorted).2.1
        exact absurd hedge (List.rel_of_pairwise_cons htail hback)
  · rw [htrail, g.length_order]
  · intro τ a y
    exact visits_run_of_acyclic hg a y

/-- Numbered against the edges, with three heads, of which the first statement has a predecessor. -/
def crossing : FlowGraph :=
  ⟨0, "crossing", #[.nop "", .nop "", .nop "", .nop "", .nop ""],
    .ofList [(2, 0), (0, 3), (2, 1), (1, 3), (4, 1)]⟩

/-- Flows that grow without bound, by more at each visit. -/
def tally : Operations Nat Nat where
  entry := pure 1
  initial := pure 0
  reset := set 0
  join m n := pure (m + n)
  copy n := pure n
  flow _ incoming outgoing := do
    modify (· + 1)
    return (incoming, incoming + outgoing + (← get))
  atMost m n := m ≤ n

theorem onePass_crossing : crossing.Acyclic ∧
    (tally.drain crossing (crossing.size + 3) (tally.start crossing 7)).queue = [] ∧
    (tally.drain crossing (crossing.size + 3) (tally.start crossing 7)).trail.length = 5 := by
  have hacyclic : crossing.Acyclic :=
    FlowGraph.acyclic_of_rank (fun i => [2, 1, 0, 3, 0].getD i.val 0) (by decide +kernel)
  have honce := onePass_of_acyclic hacyclic tally 7 3
  exact ⟨hacyclic, honce.1, honce.2.2.2.1⟩

end Acyclic

end MonitorElision.Fixpoint
