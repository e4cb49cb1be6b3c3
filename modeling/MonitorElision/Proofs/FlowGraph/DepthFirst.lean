import MonitorElision.Proofs.FlowGraph
import MonitorElision.Proofs.FlowGraph.Order
import Mathlib.Data.Fintype.EquivFin
import Mathlib.Logic.Relation

/-!
# Depth-first search

The search from the heads leaves exactly the statements that can be reached from a head, and it
leaves a statement before its predecessors wherever no cycle is in the way: an edge that points
backwards in the order closes a cycle. So the order of a graph without cycles is topological.
-/
namespace MonitorElision.FlowGraph

variable (g : FlowGraph)

def Edge (i j : Fin g.size) : Prop := (i.val, j.val) ∈ g.edges

def Reaches : Fin g.size → Fin g.size → Prop := Relation.ReflTransGen g.Edge

/-- No statement can be reached from itself along edges. -/
def Acyclic : Prop := ∀ i, ¬Relation.TransGen g.Edge i i

instance (i j : Fin g.size) : Decidable (g.Edge i j) :=
  inferInstanceAs (Decidable ((i.val, j.val) ∈ g.edges))

theorem mem_succs_iff_edge {g : FlowGraph} {i j : Fin g.size} : j ∈ g.succs i ↔ g.Edge i j :=
  mem_succs

namespace Search

variable {g}

/-- How many vertices have not been met. -/
def unmet {n : Nat} (s : Search n) : Nat := (Finset.univ \ s.met.toFinset).card

/-- Of a vertex that was left all successors have been met, and an edge from a vertex left earlier
to one left later closes a cycle. -/
structure Settled (s : Search g.size) : Prop where
  closed : ∀ i ∈ s.left, ∀ j, g.Edge i j → j ∈ s.met
  sorted : s.left.Pairwise fun later earlier => g.Edge earlier later → g.Reaches later earlier

/-- `t` comes of `s` by exploring from the roots one after the other. -/
structure Explored (roots : List (Fin g.size)) (s t : Search g.size) : Prop where
  grown : s.Extends t
  settled : t.Settled
  met : ∀ i ∈ roots, i ∈ t.met
  reached : ∀ i ∈ t.left, i ∈ s.left ∨ ∃ root ∈ roots, g.Reaches root i

section Count

variable {n : Nat} {s t : Search n}

theorem unmet_le (s : Search n) : s.unmet ≤ n :=
  (Finset.card_le_univ _).trans (Fintype.card_fin n).le

theorem Extends.unmet_le (h : s.Extends t) : t.unmet ≤ s.unmet := by
  apply Finset.card_le_card
  intro i hi
  simp only [Finset.mem_sdiff, Finset.mem_univ, List.mem_toFinset, true_and] at hi ⊢
  exact fun his => hi ((h.met i).mpr (Or.inl his))

theorem unmet_enter {i : Fin n} (hi : i ∉ s.met) : unmet ⟨i :: s.met, s.left⟩ < s.unmet := by
  apply Finset.card_lt_card
  rw [Finset.ssubset_iff_of_subset]
  · exact ⟨i, by simpa using hi, by simp⟩
  · intro j hj
    simp only [Finset.mem_sdiff, Finset.mem_univ, List.mem_toFinset, true_and, List.mem_cons,
      not_or] at hj ⊢
    exact hj.2

theorem mem_met_of_unmet_eq_zero (h : s.unmet = 0) (i : Fin n) : i ∈ s.met := by
  rw [unmet, Finset.card_eq_zero, Finset.sdiff_eq_empty_iff_subset] at h
  exact List.mem_toFinset.mp (h (Finset.mem_univ i))

end Count

variable {roots : List (Fin g.size)} {s t u : Search g.size} {i : Fin g.size}

theorem Settled.explored_self (h : s.Settled) (hs : s.Orderly)
    (hmet : ∀ root ∈ roots, root ∈ s.met) : Explored roots s s where
  grown := hs.extends_self
  settled := h
  met := hmet
  reached _ hi := Or.inl hi

theorem Explored.cons (hst : Explored [i] s t) (htu : Explored roots t u) :
    Explored (i :: roots) s u where
  grown := hst.grown.trans htu.grown
  settled := htu.settled
  met j hj := by
    rcases List.mem_cons.mp hj with rfl | hj
    · exact (htu.grown.met j).mpr (Or.inl (hst.met j List.mem_cons_self))
    · exact htu.met j hj
  reached j hj := by
    rcases htu.reached j hj with hj | ⟨root, hroot, hreach⟩
    · rcases hst.reached j hj with hj | ⟨root, hroot, hreach⟩
      · exact Or.inl hj
      · obtain rfl := List.mem_singleton.mp hroot
        exact Or.inr ⟨root, List.mem_cons_self, hreach⟩
    · exact Or.inr ⟨root, List.mem_cons_of_mem i hroot, hreach⟩

/-- After its successors have been explored a vertex can be left. -/
theorem Settled.leave {below : Search g.size} (h : s.Settled) (hi : i ∉ s.met)
    (hbelow : Explored (g.succs i) ⟨i :: s.met, s.left⟩ below) :
    Settled ⟨below.met, i :: below.left⟩ where
  closed j hj k hk := by
    rcases List.mem_cons.mp hj with rfl | hj
    · exact hbelow.met k (mem_succs_iff_edge.mpr hk)
    · exact hbelow.settled.closed j hj k hk
  sorted := by
    refine List.pairwise_cons.mpr ⟨?_, hbelow.settled.sorted⟩
    intro j hj hedge
    rcases hbelow.reached j hj with hold | ⟨root, hroot, hreach⟩
    · -- A vertex left before has no edge to a vertex that had not been met.
      exact absurd (h.closed j hold i hedge) hi
    · exact Relation.ReflTransGen.head (mem_succs_iff_edge.mp hroot) hreach

/-- Exploring the successors of a vertex that had not been met explores the vertex. -/
theorem Settled.explored_leave {below : Search g.size} (h : s.Settled) (hs : s.Orderly)
    (hi : i ∉ s.met) (hbelow : Explored (g.succs i) ⟨i :: s.met, s.left⟩ below) :
    Explored [i] s ⟨below.met, i :: below.left⟩ where
  grown := hbelow.grown.enclose hs hi
  settled := h.leave hi hbelow
  met j hj := by
    obtain rfl := List.mem_singleton.mp hj
    exact (hbelow.grown.met j).mpr (Or.inl List.mem_cons_self)
  reached j hj := by
    rcases List.mem_cons.mp hj with rfl | hj
    · exact Or.inr ⟨j, List.mem_singleton_self j, Relation.ReflTransGen.refl⟩
    · rcases hbelow.reached j hj with hold | ⟨root, hroot, hreach⟩
      · exact Or.inl hold
      · exact Or.inr ⟨i, List.mem_singleton_self i,
          Relation.ReflTransGen.head (mem_succs_iff_edge.mp hroot) hreach⟩

/-- Exploring roots one after the other, each as far as there are vertices to meet. -/
theorem explored_foldl {visit : Search g.size → Fin g.size → Search g.size} {limit : Nat}
    (hvisit : ∀ (s : Search g.size) i, s.Orderly → s.Settled → s.unmet ≤ limit →
      Explored [i] s (visit s i))
    (roots : List (Fin g.size)) {s : Search g.size} (hs : s.Orderly) (h : s.Settled)
    (hlimit : s.unmet ≤ limit) : Explored roots s (roots.foldl visit s) := by
  induction roots generalizing s with
  | nil => exact h.explored_self hs fun root hroot => absurd hroot List.not_mem_nil
  | cons i roots ih =>
    have hi := hvisit s i hs h hlimit
    exact hi.cons (ih hi.grown.orderly hi.settled (hi.grown.unmet_le.trans hlimit))

/-- No exploration is cut off that may go as deep as there are vertices to meet. -/
theorem explored_explore (depth : Nat) (s : Search g.size) (i : Fin g.size) (hs : s.Orderly)
    (h : s.Settled) (hdepth : s.unmet ≤ depth) : Explored [i] s (g.explore depth s i) := by
  induction depth generalizing s i with
  | zero =>
    apply h.explored_self hs
    intro root _
    exact mem_met_of_unmet_eq_zero (Nat.le_zero.mp hdepth) root
  | succ depth ih =>
    rw [explore]
    split
    · rename_i hi
      exact h.explored_self hs fun root hroot => List.mem_singleton.mp hroot ▸ hi
    · rename_i hi
      have hsettled : Settled ⟨i :: s.met, s.left⟩ :=
        ⟨fun j hj k hk => List.mem_cons_of_mem i (h.closed j hj k hk), h.sorted⟩
      have hless := unmet_enter hi
      exact h.explored_leave hs hi (explored_foldl ih _ (hs.enter i) hsettled (by omega))

end Search

theorem Search.settled_nil (g : FlowGraph) : Search.Settled (⟨[], []⟩ : Search g.size) where
  closed _ hi := absurd hi List.not_mem_nil
  sorted := List.Pairwise.nil

theorem explored_search : Search.Explored g.heads ⟨[], []⟩ g.search := by
  exact Search.explored_foldl (Search.explored_explore g.size) g.heads ⟨List.nodup_nil, by simp⟩
    (Search.settled_nil g) (Search.unmet_le _)

theorem closed_search {i j : Fin g.size} (hi : i ∈ g.search.left) (hedge : g.Edge i j) :
    j ∈ g.search.left :=
  g.mem_left_search_iff.mpr (g.explored_search.settled.closed i hi j hedge)

/-- The search leaves what can be reached from a head. -/
theorem mem_left_search_iff_reaches {i : Fin g.size} :
    i ∈ g.search.left ↔ ∃ head ∈ g.heads, g.Reaches head i := by
  constructor
  · intro hi
    exact (g.explored_search.reached i hi).resolve_left List.not_mem_nil
  · intro ⟨head, hhead, hreach⟩
    induction hreach with
    | refl => exact g.mem_left_search_iff.mpr (g.explored_search.met head hhead)
    | tail _ hedge ih => exact g.closed_search ih hedge

/-- Along the statements that the search leaves, an edge that points backwards closes a cycle. -/
theorem sorted_search :
    g.search.left.Pairwise fun earlier later => g.Edge later earlier → g.Reaches earlier later :=
  g.explored_search.settled.sorted

section Acyclic

variable {g}

/-- Edges that lead upwards in some ranking close no cycle. -/
theorem acyclic_of_rank (rank : Fin g.size → Nat) (hrank : ∀ i j, g.Edge i j → rank i < rank j) :
    g.Acyclic := by
  intro i hcycle
  have hless : ∀ j, Relation.TransGen g.Edge i j → rank i < rank j := by
    intro j hj
    induction hj with
    | single hedge => exact hrank _ _ hedge
    | tail _ hedge ih => exact ih.trans (hrank _ _ hedge)
  exact Nat.lt_irrefl _ (hless i hcycle)

variable (h : g.Acyclic)
include h

theorem Acyclic.wellFounded : WellFounded (Relation.TransGen g.Edge) := by
  have htrans : IsTrans (Fin g.size) (Relation.TransGen g.Edge) :=
    ⟨fun _ _ _ => Relation.TransGen.trans⟩
  have hirrefl : Std.Irrefl (Relation.TransGen g.Edge) := ⟨h⟩
  exact Finite.wellFounded_of_trans_of_irrefl _

/-- Going back along edges leads to a head. -/
theorem Acyclic.mem_left_search (i : Fin g.size) : i ∈ g.search.left := by
  induction i using h.wellFounded.induction with
  | h i ih =>
    by_cases hhead : g.IsHead i
    · exact g.mem_left_search_iff.mpr (g.explored_search.met i (mem_heads.mpr hhead))
    · obtain ⟨p, hedge⟩ : ∃ p, g.Edge p i := by
        rw [isHead_iff, not_or, not_forall] at hhead
        obtain ⟨p, hp⟩ := hhead.2
        exact ⟨⟨p, (g.within _ (not_not.mp hp)).1⟩, not_not.mp hp⟩
      exact g.closed_search (ih p (Relation.TransGen.single hedge)) hedge

theorem Acyclic.order_eq : g.order = g.search.left := by
  have hrest : (List.finRange g.size).filter (· ∉ g.search.met) = [] := by
    rw [List.filter_eq_nil_iff]
    intro i _
    simpa using g.mem_left_search_iff.mp (h.mem_left_search i)
  rw [order, hrest, List.append_nil]

/-- No statement comes before one of its predecessors. -/
theorem Acyclic.pairwise_order : g.order.Pairwise fun earlier later => ¬g.Edge later earlier := by
  rw [h.order_eq]
  apply g.sorted_search.imp
  intro earlier later hcycle hedge
  exact h earlier (Relation.TransGen.tail' (hcycle hedge) hedge)

end Acyclic

end MonitorElision.FlowGraph
