import MonitorElision.FlowGraph.Order

/-!
# The visiting order is a listing of the statements

A depth-first search leaves every statement it meets, and leaves none twice. So the visiting order
lists each statement of the graph exactly once, however deep the search is allowed to go.
-/
namespace MonitorElision.FlowGraph

/-- Vertices are left at most once, and only after they were met. -/
structure Search.Orderly {n : Nat} (s : Search n) : Prop where
  nodup : s.left.Nodup
  met : ∀ i ∈ s.left, i ∈ s.met

/-- `t` has left every vertex that it met after `s`. -/
structure Search.Extends {n : Nat} (s t : Search n) : Prop where
  nodup : t.left.Nodup
  kept : ∀ i ∈ s.left, i ∈ t.left
  fresh : ∀ i ∈ t.left, i ∈ s.left ∨ i ∉ s.met
  met : ∀ i, i ∈ t.met ↔ i ∈ s.met ∨ i ∈ t.left

namespace Search

variable {n : Nat} {s t u : Search n}

theorem Orderly.extends_self (h : s.Orderly) : s.Extends s where
  nodup := h.nodup
  kept _ hi := hi
  fresh _ hi := Or.inl hi
  met i := ⟨Or.inl, fun hi => hi.elim (fun hi => hi) (h.met i)⟩

/-- A vertex may be met that is not left yet. -/
theorem Orderly.enter (h : s.Orderly) (i : Fin n) : Orderly ⟨i :: s.met, s.left⟩ where
  nodup := h.nodup
  met j hj := List.mem_cons_of_mem i (h.met j hj)

theorem Extends.orderly (h : s.Extends t) : t.Orderly where
  nodup := h.nodup
  met i hi := (h.met i).mpr (Or.inr hi)

theorem Extends.trans (hst : s.Extends t) (htu : t.Extends u) : s.Extends u where
  nodup := htu.nodup
  kept i hi := htu.kept i (hst.kept i hi)
  fresh i hi := by
    rcases htu.fresh i hi with hi | hi
    · exact hst.fresh i hi
    · exact Or.inr fun his => hi ((hst.met i).mpr (Or.inl his))
  met i := by
    rw [htu.met, hst.met, or_assoc]
    constructor
    · rintro (hi | hi | hi)
      · exact Or.inl hi
      · exact Or.inr (htu.kept i hi)
      · exact Or.inr hi
    · rintro (hi | hi)
      · exact Or.inl hi
      · exact Or.inr (Or.inr hi)

/-- Meeting `i` first and leaving it last extends a search that had not met it. -/
theorem Extends.enclose {i : Fin n} {below : Search n} (hs : s.Orderly) (hi : i ∉ s.met)
    (h : Extends ⟨i :: s.met, s.left⟩ below) : s.Extends ⟨below.met, i :: below.left⟩ where
  nodup := by
    refine List.nodup_cons.mpr ⟨fun hmem => ?_, h.nodup⟩
    rcases h.fresh i hmem with hleft | hmet
    · exact hi (hs.met i hleft)
    · exact hmet List.mem_cons_self
  kept j hj := List.mem_cons_of_mem i (h.kept j hj)
  fresh j hj := by
    rcases List.mem_cons.mp hj with rfl | hj
    · exact Or.inr hi
    · rcases h.fresh j hj with hj | hj
      · exact Or.inl hj
      · exact Or.inr fun hmet => hj (List.mem_cons_of_mem i hmet)
  met j := by
    rw [h.met]
    simp only [List.mem_cons]
    grind

end Search

variable (g : FlowGraph)

section Explore

variable {g} {s : Search g.size} {i : Fin g.size}

theorem explore_of_met (h : i ∈ s.met) (depth : Nat) : g.explore depth s i = s := by
  cases depth with
  | zero => rfl
  | succ depth => rw [explore, if_pos h]

theorem explore_of_not_met (h : i ∉ s.met) (depth : Nat) :
    g.explore (depth + 1) s i =
      ⟨((g.succs i).foldl (g.explore depth) ⟨i :: s.met, s.left⟩).met,
        i :: ((g.succs i).foldl (g.explore depth) ⟨i :: s.met, s.left⟩).left⟩ := by
  rw [explore, if_neg h]

end Explore

theorem foldl_extends {visit : Search g.size → Fin g.size → Search g.size}
    (hvisit : ∀ (s : Search g.size) i, s.Orderly → s.Extends (visit s i))
    (l : List (Fin g.size)) {s : Search g.size} (hs : s.Orderly) : s.Extends (l.foldl visit s) := by
  induction l generalizing s with
  | nil => exact hs.extends_self
  | cons i l ih =>
    have hi := hvisit s i hs
    exact hi.trans (ih hi.orderly)

theorem explore_extends (depth : Nat) (s : Search g.size) (i : Fin g.size) (hs : s.Orderly) :
    s.Extends (g.explore depth s i) := by
  induction depth generalizing s i with
  | zero => exact hs.extends_self
  | succ depth ih =>
    rw [explore]
    split
    · exact hs.extends_self
    · rename_i hi
      exact Search.Extends.enclose hs hi (g.foldl_extends (fun s i => ih s i) _ (hs.enter i))

theorem search_extends : Search.Extends ⟨[], []⟩ g.search :=
  g.foldl_extends (g.explore_extends g.size) g.heads ⟨List.nodup_nil, by simp⟩

theorem mem_left_search_iff {i : Fin g.size} : i ∈ g.search.left ↔ i ∈ g.search.met := by
  rw [g.search_extends.met i]
  simp

theorem mem_order (i : Fin g.size) : i ∈ g.order := by
  by_cases hi : i ∈ g.search.met
  · exact List.mem_append_left _ (g.mem_left_search_iff.mpr hi)
  · exact List.mem_append_right _ (List.mem_filter.mpr ⟨List.mem_finRange i, by simpa using hi⟩)

theorem nodup_order : g.order.Nodup := by
  refine List.nodup_append.mpr ⟨g.search_extends.nodup, (List.nodup_finRange _).filter _, ?_⟩
  rintro i hi j hj rfl
  have hmet := g.mem_left_search_iff.mp hi
  simp [hmet] at hj

theorem length_order : g.order.length = g.size := by
  have hperm : g.order.Perm (List.finRange g.size) :=
    (List.perm_ext_iff_of_nodup g.nodup_order (List.nodup_finRange _)).mpr fun i =>
      ⟨fun _ => List.mem_finRange i, fun _ => g.mem_order i⟩
  rw [hperm.length_eq, List.length_finRange]

end MonitorElision.FlowGraph
