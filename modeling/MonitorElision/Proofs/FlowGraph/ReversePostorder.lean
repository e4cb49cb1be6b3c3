import MonitorElision.Proofs.FlowGraph.DepthFirst

/-!
# The visiting order is a reverse postorder

The statements that can be reached from a head come first, and among them an edge that does not lead
onwards closes a cycle. The other statements follow in the order of insertion. The same order comes
of a search without recursion, which keeps the way down to where it is.
-/
namespace MonitorElision.FlowGraph

variable {g : FlowGraph}

/-- A search on its way down. Each vertex on the way, the deepest first, has the place of the
successor to look at next. -/
structure Descent (g : FlowGraph) where
  search : Search g.size
  way : List (Fin g.size × Nat)

namespace Descent

/-- Looks at the next successor of the deepest vertex, or leaves the vertex if there is none. The
search is over if there is no vertex on the way. -/
def step (d : Descent g) : Option (Descent g) :=
  match d.way with
  | [] => none
  | (i, k) :: above =>
    match (g.succs i)[k]? with
    | none => some ⟨⟨d.search.met, i :: d.search.left⟩, above⟩
    | some j =>
      if d.search.met.contains j then some { d with way := (i, k + 1) :: above }
      else some ⟨⟨j :: d.search.met, d.search.left⟩, (j, 0) :: (i, k + 1) :: above⟩

/-- How many steps are left if no vertex is met on the way any more. -/
def pending (d : Descent g) : Nat :=
  d.way.foldr (fun e rest => (g.succs e.1).length - e.2 + 1 + rest) 0

section Step

variable {s : Search g.size} {i j : Fin g.size} {k : Nat} {above : List (Fin g.size × Nat)}

theorem step_of_none (h : (g.succs i)[k]? = none) :
    step ⟨s, (i, k) :: above⟩ = some ⟨⟨s.met, i :: s.left⟩, above⟩ := by
  simp only [step, h]

theorem step_of_met (h : (g.succs i)[k]? = some j) (hj : j ∈ s.met) :
    step ⟨s, (i, k) :: above⟩ = some ⟨s, (i, k + 1) :: above⟩ := by
  simp only [step, h, List.contains_iff_mem, if_pos hj]

theorem step_of_not_met (h : (g.succs i)[k]? = some j) (hj : j ∉ s.met) :
    step ⟨s, (i, k) :: above⟩ =
      some ⟨⟨j :: s.met, s.left⟩, (j, 0) :: (i, k + 1) :: above⟩ := by
  simp only [step, h, List.contains_iff_mem, if_neg hj]

/-- A step meets a vertex, or leaves one, or passes a successor. -/
theorem step_decreases {d d' : Descent g} (h : d.step = some d') :
    Prod.Lex (· < ·) (· < ·) (d'.search.unmet, d'.pending) (d.search.unmet, d.pending) := by
  obtain ⟨s, way⟩ := d
  cases way with
  | nil => cases h
  | cons e above =>
    obtain ⟨i, k⟩ := e
    cases hnext : (g.succs i)[k]? with
    | none =>
      obtain rfl := Option.some.inj ((step_of_none hnext).symm.trans h)
      apply Prod.Lex.right
      simp [pending]
    | some j =>
      by_cases hj : j ∈ s.met
      · obtain rfl := Option.some.inj ((step_of_met hnext hj).symm.trans h)
        have hk : k < (g.succs i).length := (List.getElem?_eq_some_iff.mp hnext).1
        apply Prod.Lex.right
        simp only [pending, List.foldr_cons]
        omega
      · obtain rfl := Option.some.inj ((step_of_not_met hnext hj).symm.trans h)
        exact Prod.Lex.left _ _ (Search.unmet_enter hj)

end Step

/-- Goes on until there is no vertex on the way. -/
def finish (d : Descent g) : Search g.size :=
  match _h : d.step with
  | none => d.search
  | some next => next.finish
termination_by (d.search.unmet, d.pending)
decreasing_by exact step_decreases _h

theorem finish_of_step {d d' : Descent g} (h : d.step = some d') : d.finish = d'.finish := by
  rw [finish]
  split
  · rename_i hnone
    rw [h] at hnone
    cases hnone
  · rename_i next hnext
    obtain rfl := Option.some.inj (hnext.symm.trans h)
    rfl

theorem finish_nil (s : Search g.size) : finish ⟨s, []⟩ = s := by
  rw [finish]
  rfl

end Descent

theorem Search.Orderly.explore {s : Search g.size} (h : s.Orderly) (depth : Nat) (i : Fin g.size) :
    (g.explore depth s i).Orderly :=
  (g.explore_extends depth s i h).orderly

theorem Search.Orderly.unmet_explore_le {s : Search g.size} (h : s.Orderly) (depth : Nat)
    (i : Fin g.size) : (g.explore depth s i).unmet ≤ s.unmet :=
  (g.explore_extends depth s i h).unmet_le

namespace Descent

/-- If going down to a vertex explores it, the deepest vertex on the way is left once the rest of
its successors have been explored. -/
theorem finish_cons {depth : Nat}
    (hdown : ∀ (j : Fin g.size) (s : Search g.size) (above : List (Fin g.size × Nat)), s.Orderly →
      j ∉ s.met → s.unmet ≤ depth →
      finish ⟨⟨j :: s.met, s.left⟩, (j, 0) :: above⟩ = finish ⟨g.explore depth s j, above⟩)
    (rest : List (Fin g.size)) {i : Fin g.size} {k : Nat} (hrest : (g.succs i).drop k = rest)
    {s : Search g.size} (hs : s.Orderly) (hdepth : s.unmet ≤ depth)
    (above : List (Fin g.size × Nat)) :
    finish ⟨s, (i, k) :: above⟩ =
      finish ⟨⟨(rest.foldl (g.explore depth) s).met,
        i :: (rest.foldl (g.explore depth) s).left⟩, above⟩ := by
  induction rest generalizing k s with
  | nil =>
    have hnone : (g.succs i)[k]? = none :=
      List.getElem?_eq_none (List.drop_eq_nil_iff.mp hrest)
    exact finish_of_step (step_of_none hnone)
  | cons j rest ih =>
    have hnext : (g.succs i)[k]? = some j := by
      rw [← List.head?_drop, hrest]
      rfl
    have hdrop : (g.succs i).drop (k + 1) = rest := by
      rw [← List.tail_drop, hrest]
      rfl
    rw [List.foldl_cons]
    by_cases hj : j ∈ s.met
    · rw [finish_of_step (step_of_met hnext hj), explore_of_met hj]
      exact ih hdrop hs hdepth
    · rw [finish_of_step (step_of_not_met hnext hj), hdown j s _ hs hj hdepth]
      exact ih hdrop (hs.explore depth j) ((hs.unmet_explore_le depth j).trans hdepth)

/-- Going down to a vertex that had not been met explores it. -/
theorem finish_enter (depth : Nat) (j : Fin g.size) (s : Search g.size)
    (above : List (Fin g.size × Nat)) (hs : s.Orderly) (hj : j ∉ s.met) (hdepth : s.unmet ≤ depth) :
    finish ⟨⟨j :: s.met, s.left⟩, (j, 0) :: above⟩ = finish ⟨g.explore depth s j, above⟩ := by
  induction depth generalizing j s above with
  | zero => exact absurd (Search.mem_met_of_unmet_eq_zero (Nat.le_zero.mp hdepth) j) hj
  | succ depth ih =>
    have hless := Search.unmet_enter hj
    rw [explore_of_not_met hj, finish_cons ih (g.succs j) rfl (hs.enter j) (by omega) above]

end Descent

/-- Goes down from a head, unless it has been met. -/
def descendFrom (s : Search g.size) (head : Fin g.size) : Search g.size :=
  if s.met.contains head then s else Descent.finish ⟨⟨head :: s.met, s.left⟩, [(head, 0)]⟩

/-- The order that comes of going down from the heads one after the other. -/
def descentOrder (g : FlowGraph) : List (Fin g.size) :=
  let found := g.heads.foldl descendFrom ⟨[], []⟩
  found.left ++ (List.finRange g.size).filter (!found.met.contains ·)

theorem descendFrom_eq {s : Search g.size} (hs : s.Orderly) (head : Fin g.size) :
    descendFrom s head = g.explore g.size s head := by
  by_cases h : head ∈ s.met
  · rw [descendFrom, if_pos (List.contains_iff_mem.mpr h), explore_of_met h]
  · rw [descendFrom, if_neg (mt List.contains_iff_mem.mp h),
      Descent.finish_enter g.size head s [] hs h s.unmet_le,
      Descent.finish_nil]

theorem foldl_descendFrom (heads : List (Fin g.size)) {s : Search g.size} (hs : s.Orderly) :
    heads.foldl descendFrom s = heads.foldl (g.explore g.size) s := by
  induction heads generalizing s with
  | nil => rfl
  | cons head heads ih =>
    rw [List.foldl_cons, List.foldl_cons, descendFrom_eq hs]
    exact ih (hs.explore g.size head)

/-- The search without recursion visits in the same order. -/
theorem descentOrder_eq (g : FlowGraph) : g.descentOrder = g.order := by
  have hsearch : g.heads.foldl descendFrom ⟨[], []⟩ = g.search :=
    foldl_descendFrom g.heads ⟨List.nodup_nil, by simp⟩
  have hrest : (List.finRange g.size).filter (!g.search.met.contains ·) =
      (List.finRange g.size).filter (· ∉ g.search.met) :=
    List.filter_congr fun i _ => by simp
  rw [descentOrder, hsearch, hrest]
  rfl

/-- What is reached from the heads. -/
def FromHead (g : FlowGraph) (i : Fin g.size) : Prop := ∃ head ∈ g.heads, g.Reaches head i

/-- A listing of the statements in which what is reached from the heads comes first, and there no
edge leads backwards unless it closes a cycle. -/
structure ReversePostorder (g : FlowGraph) (order : List (Fin g.size)) : Prop where
  once : ∀ i, order.count i = 1
  parts : ∃ reached others, order = reached ++ others ∧ (∀ i, i ∈ reached ↔ g.FromHead i) ∧
    (∀ i, i ∈ others ↔ ¬g.FromHead i) ∧ others.Pairwise (· < ·)
  backward : ∀ i j, g.Edge i j → g.FromHead i → ¬order.idxOf i < order.idxOf j → g.Reaches j i

theorem reaches_of_idxOf_le {i j : Fin g.size} (hedge : g.Edge i j) (hi : i ∈ g.search.left)
    (h : ¬g.search.left.idxOf i < g.search.left.idxOf j) : g.Reaches j i := by
  have hj := g.closed_search hi hedge
  rcases Nat.lt_or_eq_of_le (Nat.le_of_not_lt h) with hlt | heq
  · have hcycle := List.pairwise_iff_getElem.mp g.sorted_search _ _
      (List.idxOf_lt_length_iff.mpr hj) (List.idxOf_lt_length_iff.mpr hi) hlt
    rw [List.getElem_idxOf, List.getElem_idxOf] at hcycle
    exact hcycle hedge
  · obtain rfl : j = i := (List.idxOf_inj hj).mp heq
    exact Relation.ReflTransGen.refl

theorem mem_filter_not_met_iff {i : Fin g.size} :
    i ∈ (List.finRange g.size).filter (· ∉ g.search.met) ↔ ¬g.FromHead i := by
  rw [List.mem_filter, decide_eq_true_iff, ← g.mem_left_search_iff, mem_left_search_iff_reaches]
  exact and_iff_right (List.mem_finRange i)

theorem reversePostorder_order (g : FlowGraph) :
    g.ReversePostorder g.order ∧ g.descentOrder = g.order where
  left :=
    { once := fun i => List.count_eq_one_of_mem g.nodup_order (g.mem_order i)
      parts := ⟨_, _, rfl, fun _ => g.mem_left_search_iff_reaches, fun _ => mem_filter_not_met_iff,
        (List.pairwise_lt_finRange g.size).filter _⟩
      backward := by
        intro i j hedge hi h
        have hi' := g.mem_left_search_iff_reaches.mpr hi
        have hj' := g.closed_search hi' hedge
        rw [order, List.idxOf_append_of_mem hi', List.idxOf_append_of_mem hj'] at h
        exact reaches_of_idxOf_le hedge hi' h }
  right := g.descentOrder_eq

-- The loop of 1 and 2 is entered at both, and nothing leads to the loop of 3 and 4. The edge from 1
-- to 2 leads backwards, since 2 is on the way when 1 is met.
example : (FlowGraph.order ⟨0, "m", .replicate 5 (.nop ""),
    .ofList [(0, 2), (0, 1), (1, 2), (2, 1), (3, 4), (4, 3)]⟩).map Fin.val = [0, 2, 1, 3, 4] := by
  decide +kernel

end MonitorElision.FlowGraph
