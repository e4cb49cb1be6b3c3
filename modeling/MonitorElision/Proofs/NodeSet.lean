import MonitorElision.Tracematch
import Mathlib.Data.Finset.Card
import Mathlib.Data.List.Sort
import Mathlib.Order.Basic

/-!
# Inclusion of node sets

By node number, inclusion is a preorder with union as a least upper bound, and a set that properly
includes another is larger. For sets of nodes of one machine it is inclusion of the nodes
themselves.
-/
namespace MonitorElision
namespace NodeSet

variable {a b c : NodeSet}

instance : Preorder NodeSet where
  toLE := inferInstance
  le_refl _ := le_iff.mpr fun _ hi => hi
  le_trans _ _ _ hab hbc := le_iff.mpr fun i hi => le_iff.mp hbc i (le_iff.mp hab i hi)

theorem le_union_left (a b : NodeSet) : a ≤ a ∪ b :=
  le_iff.mpr fun _ hi => mem_indexes_union.mpr (Or.inl hi)

theorem le_union_right (a b : NodeSet) : b ≤ a ∪ b :=
  le_iff.mpr fun _ hi => mem_indexes_union.mpr (Or.inr hi)

theorem union_le (hac : a ≤ c) (hbc : b ≤ c) : a ∪ b ≤ c := by
  rw [le_iff]
  intro i hi
  rcases mem_indexes_union.mp hi with hi | hi
  · exact le_iff.mp hac i hi
  · exact le_iff.mp hbc i hi

theorem union_le_union {a' b' : NodeSet} (ha : a ≤ a') (hb : b ≤ b') : a ∪ b ≤ a' ∪ b' :=
  union_le (ha.trans (le_union_left a' b')) (hb.trans (le_union_right a' b'))

theorem pairwise_indexes (a : NodeSet) : a.indexes.Pairwise (· < ·) :=
  List.pairwise_map.mpr a.ascending

theorem nodup_indexes (a : NodeSet) : a.indexes.Nodup :=
  (pairwise_indexes a).imp fun h => Nat.ne_of_lt h

/-- Sets that include each other have the same numbers. -/
theorem indexes_eq_of_le_of_le (hab : a ≤ b) (hba : b ≤ a) : a.indexes = b.indexes :=
  (pairwise_indexes a).eq_of_mem_iff (pairwise_indexes b) fun i =>
    ⟨le_iff.mp hab i, le_iff.mp hba i⟩

/-- A set is known by its nodes. -/
theorem ext (h : ∀ n, n ∈ a ↔ n ∈ b) : a = b := by
  obtain ⟨nodes, ascending⟩ := a
  obtain ⟨nodes', ascending'⟩ := b
  have hnodup {l : List Node} (hl : l.Pairwise (·.index < ·.index)) : l.Nodup :=
    hl.imp fun hlt heq => Nat.ne_of_lt hlt (congrArg Node.index heq)
  have hperm : nodes.Perm nodes' :=
    (List.perm_ext_iff_of_nodup (hnodup ascending) (hnodup ascending')).mpr h
  obtain rfl : nodes = nodes' := hperm.eq_of_pairwise
    (fun _ _ _ _ hlt hgt => absurd hlt (Nat.lt_asymm hgt)) ascending ascending'
  rfl

theorem length_indexes (a : NodeSet) : a.indexes.length = a.size := List.length_map _

theorem size_le_size (h : a ≤ b) : a.size ≤ b.size := by
  rw [← length_indexes, ← length_indexes]
  exact (nodup_indexes a).length_le_of_subset (le_iff.mp h)

theorem size_lt_size (h : a ≤ b) (hne : ¬b ≤ a) : a.size < b.size := by
  obtain ⟨i, hib, hia⟩ : ∃ i ∈ b.indexes, i ∉ a.indexes := by
    by_contra hall
    exact hne (le_iff.mpr fun i hi => by_contra fun hia => hall ⟨i, hi, hia⟩)
  have hnodup : (i :: a.indexes).Nodup := List.nodup_cons.mpr ⟨hia, nodup_indexes a⟩
  have hsub : ∀ j ∈ i :: a.indexes, j ∈ b.indexes := by
    intro j hj
    rcases List.mem_cons.mp hj with rfl | hj
    · exact hib
    · exact le_iff.mp h j hj
  have hlen := hnodup.length_le_of_subset hsub
  rw [List.length_cons, length_indexes, length_indexes] at hlen
  omega

/-- A set drawn from a pool is no larger than the pool has numbers. -/
theorem Within.size_le {pool : List Nat} (h : a.Within pool) :
    a.size ≤ pool.toFinset.card := by
  rw [← length_indexes, ← List.toFinset_card_of_nodup (nodup_indexes a)]
  exact Finset.card_le_card fun i hi => by simpa using h i (by simpa using hi)

theorem mem_singleton {n m : Node} : m ∈ ({n} : NodeSet) ↔ m = n := by
  simp [Singleton.singleton]

theorem mem_or_mem_of_mem_insertAll {ns : List Node} {n : Node}
    (h : n ∈ a.insertAll ns) : n ∈ a ∨ n ∈ ns := by
  induction ns generalizing a with
  | nil => exact Or.inl h
  | cons m ns ih =>
    rcases ih (a := a.insert m) h with h | h
    · rcases mem_insert.mp h with h | ⟨rfl, -⟩
      · exact Or.inl h
      · exact Or.inr List.mem_cons_self
    · exact Or.inr (List.mem_cons_of_mem _ h)

theorem mem_or_mem_of_mem_union {n : Node} (h : n ∈ a ∪ b) : n ∈ a ∨ n ∈ b :=
  mem_or_mem_of_mem_insertAll h

theorem mem_of_mem_ofList {ns : List Node} {n : Node} (h : n ∈ ofList ns) : n ∈ ns :=
  (mem_or_mem_of_mem_insertAll h).resolve_left (not_mem_empty n)

theorem exists_mem_of_ne_empty (h : a ≠ ∅) : ∃ n, n ∈ a := by
  obtain ⟨nodes, ascending⟩ := a
  cases nodes with
  | nil => exact absurd rfl h
  | cons n rest => exact ⟨n, List.mem_cons_self⟩

section Join

variable {ι : Type} {f : ι → NodeSet} {l : List ι}

theorem mem_indexes_foldl_union {k : Nat} :
    k ∈ (l.foldl (fun acc i => acc ∪ f i) a).indexes ↔
      k ∈ a.indexes ∨ ∃ i ∈ l, k ∈ (f i).indexes := by
  induction l generalizing a with
  | nil => simp
  | cons i l ih => simp [ih, or_assoc]

theorem mem_or_mem_of_mem_foldl_union {n : Node}
    (h : n ∈ l.foldl (fun acc i => acc ∪ f i) a) : n ∈ a ∨ ∃ i ∈ l, n ∈ f i := by
  induction l generalizing a with
  | nil => exact Or.inl h
  | cons i l ih =>
    rcases ih h with h | ⟨j, hj, h⟩
    · rcases mem_or_mem_of_mem_union h with h | h
      · exact Or.inl h
      · exact Or.inr ⟨i, List.mem_cons_self, h⟩
    · exact Or.inr ⟨j, List.mem_cons_of_mem i hj, h⟩

end Join

end NodeSet

namespace Tracematch

variable {tm : Tracematch} {a b : NodeSet} {n m : Node}

/-- A node of a machine is known by its number. -/
theorem eq_of_index_eq (hn : n ∈ tm.nodes) (hm : m ∈ tm.nodes) (h : n.index = m.index) :
    n = m := by
  obtain ⟨i, -, rfl⟩ := List.mem_map.mp hn
  obtain ⟨j, -, rfl⟩ := List.mem_map.mp hm
  rw [Fin.ext (show i.val = j.val from h)]

theorem mem_of_mem_indexes (hn : n ∈ tm.nodes) (ha : ∀ m ∈ a, m ∈ tm.nodes)
    (h : n.index ∈ a.indexes) : n ∈ a := by
  obtain ⟨m, hm, hidx⟩ := NodeSet.mem_indexes.mp h
  exact eq_of_index_eq (ha m hm) hn hidx ▸ hm

theorem mem_of_le (ha : ∀ m ∈ a, m ∈ tm.nodes) (hb : ∀ m ∈ b, m ∈ tm.nodes) (h : a ≤ b)
    (hn : n ∈ a) : n ∈ b :=
  mem_of_mem_indexes (ha n hn) hb (NodeSet.le_iff_forall_mem.mp h n hn)

theorem mem_union (ha : ∀ m ∈ a, m ∈ tm.nodes) (hb : ∀ m ∈ b, m ∈ tm.nodes) :
    n ∈ a ∪ b ↔ n ∈ a ∨ n ∈ b := by
  have hab : ∀ m ∈ a ∪ b, m ∈ tm.nodes := by
    intro m hm
    rcases NodeSet.mem_or_mem_of_mem_union hm with hm | hm
    · exact ha m hm
    · exact hb m hm
  constructor
  · exact NodeSet.mem_or_mem_of_mem_union
  · rintro (hn | hn)
    · exact mem_of_le ha hab (NodeSet.le_union_left a b) hn
    · exact mem_of_le hb hab (NodeSet.le_union_right a b) hn

theorem mem_nodes_of_mem_initialNodes (h : n ∈ tm.initialNodes) : n ∈ tm.nodes :=
  (List.mem_filter.mp h).1

theorem mem_ofList_initialNodes : n ∈ NodeSet.ofList tm.initialNodes ↔ n ∈ tm.initialNodes := by
  constructor
  · exact NodeSet.mem_of_mem_ofList
  · intro h
    have hnodes : ∀ m ∈ NodeSet.ofList tm.initialNodes, m ∈ tm.nodes := fun m hm =>
      mem_nodes_of_mem_initialNodes (NodeSet.mem_of_mem_ofList hm)
    apply mem_of_mem_indexes (mem_nodes_of_mem_initialNodes h) hnodes
    exact NodeSet.mem_indexes_ofList.mpr ⟨n, h, rfl⟩

end Tracematch
end MonitorElision
