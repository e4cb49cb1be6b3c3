/-!
# Sets in order of insertion

A duplicate-free list. A new element goes to the end, and inserting a present one changes nothing.
-/
namespace MonitorElision

structure OrderedSet (α : Type) where
  toList : List α
  nodup : toList.Nodup

namespace OrderedSet

variable {α : Type}

instance : EmptyCollection (OrderedSet α) := ⟨⟨[], .nil⟩⟩

instance : Membership α (OrderedSet α) := ⟨fun s a => a ∈ s.toList⟩

instance [DecidableEq α] (a : α) (s : OrderedSet α) : Decidable (a ∈ s) :=
  inferInstanceAs (Decidable (a ∈ s.toList))

def size (s : OrderedSet α) : Nat := s.toList.length

theorem nodup_concat {l : List α} {a : α} (hl : l.Nodup) (ha : a ∉ l) : (l ++ [a]).Nodup := by
  rw [List.nodup_append]
  refine ⟨hl, by simp, ?_⟩
  rintro x hx y hy rfl
  exact ha (List.mem_singleton.1 hy ▸ hx)

def insert [DecidableEq α] (s : OrderedSet α) (a : α) : OrderedSet α :=
  if h : a ∈ s then s else ⟨s.toList ++ [a], nodup_concat s.nodup h⟩

@[simp] theorem toList_empty : (∅ : OrderedSet α).toList = [] := rfl

@[simp] theorem mem_toList {s : OrderedSet α} {a : α} : a ∈ s.toList ↔ a ∈ s := Iff.rfl

@[simp] theorem not_mem_empty (a : α) : a ∉ (∅ : OrderedSet α) := List.not_mem_nil

variable [DecidableEq α] {s : OrderedSet α} {a b : α}

theorem insert_of_mem (h : a ∈ s) : s.insert a = s := by simp [insert, h]

theorem toList_insert_of_not_mem (h : a ∉ s) : (s.insert a).toList = s.toList ++ [a] := by
  simp [insert, h]

theorem size_insert (s : OrderedSet α) (a : α) :
    (s.insert a).size = if a ∈ s then s.size else s.size + 1 := by
  by_cases h : a ∈ s
  · rw [insert_of_mem h, if_pos h]
  · rw [if_neg h, size, toList_insert_of_not_mem h, List.length_append]
    rfl

@[simp] theorem mem_insert : b ∈ s.insert a ↔ b ∈ s ∨ b = a := by
  by_cases h : a ∈ s
  · rw [insert_of_mem h]
    constructor
    · exact Or.inl
    · rintro (hb | rfl)
      · exact hb
      · exact h
  · rw [← mem_toList, toList_insert_of_not_mem h]
    simp

/-- The elements of a list in the order in which they first occur. -/
def ofList (l : List α) : OrderedSet α := l.foldl insert ∅

theorem ofList_concat (l : List α) (a : α) : ofList (l ++ [a]) = (ofList l).insert a :=
  List.foldl_append

@[simp] theorem mem_ofList {l : List α} : a ∈ ofList l ↔ a ∈ l := by
  have hfold : ∀ s : OrderedSet α, a ∈ l.foldl insert s ↔ a ∈ s ∨ a ∈ l := by
    induction l with
    | nil => simp
    | cons b l ih => exact fun s => by rw [List.foldl_cons, ih, mem_insert, List.mem_cons, or_assoc]
  simp [ofList, hfold]

end OrderedSet
end MonitorElision
