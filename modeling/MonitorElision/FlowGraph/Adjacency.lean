import MonitorElision.OrderedSet

/-!
# Adjacency tables

The edges between `n` statements are kept twice, as the successors and as the predecessors of each
statement. A new edge is looked up among the successors only, so the two tables must say the same
for it to be added to both once.
-/
namespace MonitorElision

/-- Adds to the end of a row of a table. -/
def addToRow {α : Type} {n : Nat} (table : Vector (List α) n) (i : Fin n) (x : α) :
    Vector (List α) n :=
  table.set i (table.get i ++ [x]) i.isLt

/-- The old rows, whose entries now stand for numbers below `m`, and one row with nothing in it. -/
def addRow {n m : Nat} (table : Vector (List (Fin n)) n) (h : m = n + 1) :
    Vector (List (Fin m)) m :=
  .ofFn fun k => if hk : k.val < n then (table.get ⟨k, hk⟩).map (Fin.castLE (by omega)) else []

/-- Row `i` of `succs` holds the targets of the edges from `i`, row `j` of `preds` the sources of
the edges to `j`, in the order in which they were added. -/
structure Adjacency (n : Nat) where
  succs : Vector (List (Fin n)) n
  preds : Vector (List (Fin n)) n
  linked : ∀ i j, j ∈ succs.get i ↔ i ∈ preds.get j
  nodup_succs : ∀ i, (succs.get i).Nodup
  nodup_preds : ∀ j, (preds.get j).Nodup

section Rows

variable {α : Type} {n : Nat} (table : Vector (List α) n) (i k : Fin n) (x : α)

theorem get_addToRow :
    (addToRow table i x).get k = if k = i then table.get i ++ [x] else table.get k := by
  change (table.set i (table.get i ++ [x]) i.isLt)[k.val] = if k = i then _ else table[k.val]
  simp only [Vector.getElem_set, Fin.ext_iff, eq_comm]

theorem get_replicate_nil : (Vector.replicate n ([] : List α)).get i = [] := by
  change (Vector.replicate n ([] : List α))[i.val] = []
  simp

variable {table i k x}

theorem mem_get_addToRow {y : α} :
    y ∈ (addToRow table i x).get k ↔ y ∈ table.get k ∨ k = i ∧ y = x := by
  rw [get_addToRow]
  by_cases h : k = i <;> simp [h]

theorem nodup_get_addToRow (htable : ∀ k, (table.get k).Nodup) (hx : x ∉ table.get i) :
    ((addToRow table i x).get k).Nodup := by
  rw [get_addToRow]
  by_cases h : k = i
  · rw [if_pos h]
    exact OrderedSet.nodup_concat (htable i) hx
  · rw [if_neg h]
    exact htable k

theorem get_addRow {m : Nat} (table : Vector (List (Fin n)) n) (h : m = n + 1) (k : Fin m) :
    (addRow table h).get k =
      if hk : k.val < n then (table.get ⟨k, hk⟩).map (Fin.castLE (by omega)) else [] := by
  change (addRow table h)[k.val] = _
  rw [addRow, Vector.getElem_ofFn]

theorem mem_get_addRow {m : Nat} {table : Vector (List (Fin n)) n} (h : m = n + 1) {k y : Fin m} :
    y ∈ (addRow table h).get k ↔
      ∃ i : Fin n, i.val = k.val ∧ ∃ x ∈ table.get i, x.val = y.val := by
  rw [get_addRow]
  by_cases hk : k.val < n
  · simp only [hk, dite_true, List.mem_map, Fin.ext_iff, Fin.val_castLE]
    constructor
    · exact fun hy => ⟨⟨k, hk⟩, rfl, hy⟩
    · rintro ⟨i, hi, hy⟩
      obtain rfl : i = ⟨k, hk⟩ := Fin.ext hi
      exact hy
  · have hnone : ¬∃ i : Fin n, i.val = k.val ∧ ∃ x ∈ table.get i, x.val = y.val :=
      fun ⟨i, hi, _⟩ => hk (hi ▸ i.isLt)
    simp [hk, hnone]

theorem nodup_get_addRow {m : Nat} {table : Vector (List (Fin n)) n} (h : m = n + 1) {k : Fin m}
    (htable : ∀ k, (table.get k).Nodup) : ((addRow table h).get k).Nodup := by
  rw [get_addRow]
  by_cases hk : k.val < n
  · rw [dif_pos hk]
    refine List.pairwise_map.mpr ((htable _).imp ?_)
    intro x y hxy heq
    rw [Fin.ext_iff, Fin.val_castLE, Fin.val_castLE] at heq
    exact hxy (Fin.ext heq)
  · rw [dif_neg hk]
    exact .nil

end Rows

namespace Adjacency

variable {n : Nat}

/-- No edges. -/
instance : EmptyCollection (Adjacency n) where
  emptyCollection :=
    { succs := Vector.replicate n []
      preds := Vector.replicate n []
      linked := fun i j => by
        rw [get_replicate_nil, get_replicate_nil]
        simp
      nodup_succs := fun i => by
        rw [get_replicate_nil]
        exact .nil
      nodup_preds := fun j => by
        rw [get_replicate_nil]
        exact .nil }

/-- An edge is looked up among the successors of its source. -/
instance : Membership (Nat × Nat) (Adjacency n) where
  mem a e := ∃ h : e.1 < n, ∃ j ∈ a.succs.get ⟨e.1, h⟩, j.val = e.2

instance (e : Nat × Nat) (a : Adjacency n) : Decidable (e ∈ a) :=
  @exists_prop_decidable _ _ _ fun _ => List.decidableBEx _ _

theorem mem_iff {a : Adjacency n} {i j : Fin n} :
    (i.val, j.val) ∈ a ↔ j ∈ a.succs.get i := by
  constructor
  · rintro ⟨_, k, hk, hval⟩
    obtain rfl : k = j := Fin.ext hval
    exact hk
  · exact fun h => ⟨i.isLt, j, h, rfl⟩

/-- The edges, by their sources. -/
def toList (a : Adjacency n) : List (Nat × Nat) :=
  (List.finRange n).flatMap fun i => (a.succs.get i).map fun j => (i.val, j.val)

def size (a : Adjacency n) : Nat := a.toList.length

/-- The tables of one statement more, which has no edges yet. -/
def extend (a : Adjacency n) {m : Nat} (h : m = n + 1) : Adjacency m where
  succs := addRow a.succs h
  preds := addRow a.preds h
  linked i j := by
    rw [mem_get_addRow h, mem_get_addRow h]
    constructor
    · rintro ⟨k, hk, l, hkl, hl⟩
      exact ⟨l, hl, k, (a.linked k l).mp hkl, hk⟩
    · rintro ⟨l, hl, k, hkl, hk⟩
      exact ⟨k, hk, l, (a.linked k l).mpr hkl, hl⟩
  nodup_succs _ := nodup_get_addRow h a.nodup_succs
  nodup_preds _ := nodup_get_addRow h a.nodup_preds

/-- Adds the edge from `i` to `j`, unless `j` is among the successors of `i`. -/
def link (a : Adjacency n) (i j : Fin n) : Adjacency n :=
  if h : (i.val, j.val) ∈ a then a
  else
    { succs := addToRow a.succs i j
      preds := addToRow a.preds j i
      linked := fun k l => by
        rw [mem_get_addToRow, mem_get_addToRow, a.linked, and_comm]
      nodup_succs := fun _ => nodup_get_addToRow a.nodup_succs (mt mem_iff.mpr h)
      nodup_preds := fun _ =>
        nodup_get_addToRow a.nodup_preds (mt (mem_iff.trans (a.linked i j)).mpr h) }

/-- Adds an edge given by two numbers, unless one is out of range. -/
def linkPair (a : Adjacency n) (e : Nat × Nat) : Adjacency n :=
  if h : e.1 < n ∧ e.2 < n then a.link ⟨e.1, h.1⟩ ⟨e.2, h.2⟩ else a

/-- The edges of a list, added one by one. -/
def ofList (edges : List (Nat × Nat)) : Adjacency n := edges.foldl linkPair ∅

variable {a : Adjacency n} {i j k l : Fin n} {e : Nat × Nat}

theorem mem_iff_preds : (i.val, j.val) ∈ a ↔ i ∈ a.preds.get j := mem_iff.trans (a.linked i j)

theorem mem_iff_exists : e ∈ a ↔ ∃ i j : Fin n, j ∈ a.succs.get i ∧ (i.val, j.val) = e := by
  constructor
  · rintro ⟨hlt, j, hj, hval⟩
    exact ⟨⟨e.1, hlt⟩, j, hj, Prod.ext rfl hval⟩
  · rintro ⟨i, j, hj, rfl⟩
    exact mem_iff.mpr hj

theorem within (h : e ∈ a) : e.1 < n ∧ e.2 < n := by
  obtain ⟨i, j, -, rfl⟩ := mem_iff_exists.mp h
  exact ⟨i.isLt, j.isLt⟩

@[simp] theorem mem_toList : e ∈ a.toList ↔ e ∈ a := by
  simp [toList, mem_iff_exists]

instance (a : Adjacency n) (P : Nat × Nat → Prop) [DecidablePred P] : Decidable (∀ e ∈ a, P e) :=
  decidable_of_iff (∀ e ∈ a.toList, P e) (by simp only [mem_toList])

@[simp] theorem not_mem_empty : e ∉ (∅ : Adjacency n) := by
  intro h
  obtain ⟨i, j, hj, rfl⟩ := mem_iff_exists.mp h
  have hnil : (∅ : Adjacency n).succs.get i = [] := get_replicate_nil i
  rw [hnil] at hj
  simp at hj

@[simp] theorem mem_extend {m : Nat} (h : m = n + 1) : e ∈ a.extend h ↔ e ∈ a := by
  constructor
  · intro he
    obtain ⟨k, l, hl, rfl⟩ := mem_iff_exists.mp he
    obtain ⟨i, hi, j, hj, hval⟩ := (mem_get_addRow h).mp hl
    rw [← hi, ← hval]
    exact mem_iff.mpr hj
  · intro he
    obtain ⟨i, j, hj, rfl⟩ := mem_iff_exists.mp he
    have hle : n ≤ m := h ▸ Nat.le_succ n
    exact mem_iff_exists.mpr
      ⟨i.castLE hle, j.castLE hle, (mem_get_addRow h).mpr ⟨i, rfl, j, hj, rfl⟩, rfl⟩

theorem link_of_mem (h : (i.val, j.val) ∈ a) : a.link i j = a := dif_pos h

theorem succs_link_of_not_mem (h : (i.val, j.val) ∉ a) :
    (a.link i j).succs = addToRow a.succs i j := by
  rw [link, dif_neg h]

theorem preds_link_of_not_mem (h : (i.val, j.val) ∉ a) :
    (a.link i j).preds = addToRow a.preds j i := by
  rw [link, dif_neg h]

@[simp] theorem mem_link : e ∈ a.link i j ↔ e ∈ a ∨ e = (i.val, j.val) := by
  by_cases h : (i.val, j.val) ∈ a
  · rw [link_of_mem h]
    constructor
    · exact Or.inl
    · rintro (he | rfl)
      · exact he
      · exact h
  · rw [mem_iff_exists, mem_iff_exists, succs_link_of_not_mem h]
    constructor
    · rintro ⟨k, l, hl, rfl⟩
      rcases mem_get_addToRow.mp hl with hold | ⟨rfl, rfl⟩
      · exact Or.inl ⟨k, l, hold, rfl⟩
      · exact Or.inr rfl
    · rintro (⟨k, l, hl, rfl⟩ | rfl)
      · exact ⟨k, l, mem_get_addToRow.mpr (Or.inl hl), rfl⟩
      · exact ⟨i, j, mem_get_addToRow.mpr (Or.inr ⟨rfl, rfl⟩), rfl⟩

theorem mem_linkPair {f : Nat × Nat} :
    e ∈ a.linkPair f ↔ e ∈ a ∨ e = f ∧ e.1 < n ∧ e.2 < n := by
  by_cases h : f.1 < n ∧ f.2 < n
  · rw [linkPair, dif_pos h, mem_link]
    exact or_congr Iff.rfl ⟨fun he => ⟨he, he ▸ h⟩, And.left⟩
  · rw [linkPair, dif_neg h]
    exact ⟨Or.inl, fun he => he.resolve_right fun ⟨hf, hlt⟩ => h (hf ▸ hlt)⟩

theorem mem_foldl_linkPair (edges : List (Nat × Nat)) (a : Adjacency n) :
    e ∈ edges.foldl linkPair a ↔ e ∈ a ∨ e ∈ edges ∧ e.1 < n ∧ e.2 < n := by
  induction edges generalizing a with
  | nil => simp
  | cons f edges ih => rw [List.foldl_cons, ih, mem_linkPair, List.mem_cons, or_and_right, or_assoc]

/-- Which edges there are does not depend on the order in which they were added. -/
theorem mem_ofList_of_perm {edges edges' : List (Nat × Nat)} (h : edges.Perm edges') :
    e ∈ (ofList edges : Adjacency n) ↔ e ∈ (ofList edges' : Adjacency n) := by
  rw [ofList, ofList, mem_foldl_linkPair, mem_foldl_linkPair, h.mem_iff]

end Adjacency
end MonitorElision
