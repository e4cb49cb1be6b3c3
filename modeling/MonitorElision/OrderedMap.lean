import MonitorElision.OrderedSet

/-!
# Maps in order of insertion

A list of entries with distinct keys. A new key goes to the end, and one that is there keeps its
place.
-/
namespace MonitorElision

structure OrderedMap (κ α : Type) where
  entries : List (κ × α)
  distinct : (entries.map (·.1)).Nodup

namespace OrderedMap

variable {κ α β : Type}

instance : EmptyCollection (OrderedMap κ α) := ⟨⟨[], List.nodup_nil⟩⟩

variable [DecidableEq κ]

def get? (m : OrderedMap κ α) (k : κ) : Option α := (m.entries.find? (·.1 = k)).map (·.2)

/-- Changes the entry of the key in its place, or makes one at the end. -/
def updated (k : κ) (f : Option α → α) : List (κ × α) → List (κ × α)
  | [] => [(k, f none)]
  | e :: rest => if e.1 = k then (k, f (some e.2)) :: rest else e :: updated k f rest

variable (k : κ) (f : Option α → α)

theorem map_fst_updated (entries : List (κ × α)) : (updated k f entries).map (·.1) =
    if k ∈ entries.map (·.1) then entries.map (·.1) else entries.map (·.1) ++ [k] := by
  induction entries with
  | nil => rfl
  | cons e rest ih =>
    by_cases he : e.1 = k
    · simp [updated, he]
    · have hne : k ≠ e.1 := Ne.symm he
      simp only [updated, he, if_false, List.map_cons, ih, List.mem_cons, hne, false_or]
      split <;> simp

theorem find?_updated (entries : List (κ × α)) (j : κ) :
    ((updated k f entries).find? (·.1 = j)).map (·.2) =
      if j = k then some (f ((entries.find? (·.1 = k)).map (·.2)))
      else (entries.find? (·.1 = j)).map (·.2) := by
  induction entries with
  | nil =>
    by_cases hj : j = k
    · simp [updated, hj]
    · simp [updated, hj, Ne.symm hj]
  | cons e rest ih =>
    by_cases he : e.1 = k
    · by_cases hj : j = k
      · simp [updated, he, hj]
      · simp [updated, he, hj, Ne.symm hj]
    · by_cases hej : e.1 = j
      · have hj : j ≠ k := hej ▸ he
        simp [updated, hej, hj]
      · simp only [updated, he, if_false, List.find?_cons, hej, decide_false, ih]

variable {k f}

/-- The entry of the key becomes what `f` makes of it. -/
def update (m : OrderedMap κ α) (k : κ) (f : Option α → α) : OrderedMap κ α where
  entries := updated k f m.entries
  distinct := by
    rw [map_fst_updated]
    split
    · exact m.distinct
    · rename_i hk
      exact OrderedSet.nodup_concat m.distinct hk

def insert (m : OrderedMap κ α) (k : κ) (a : α) : OrderedMap κ α := m.update k fun _ => a

variable {m : OrderedMap κ α} {j : κ} {a : α}

@[simp] theorem get?_empty : (∅ : OrderedMap κ α).get? k = none := rfl

theorem get?_update : (m.update k f).get? j = if j = k then some (f (m.get? k)) else m.get? j :=
  find?_updated k f m.entries j

theorem get?_insert : (m.insert k a).get? j = if j = k then some a else m.get? j := get?_update

/-- A new key has the new value, and the others have what they had. -/
theorem get?_insert_eq_some_iff {b : α} (hk : m.get? k = none) :
    (m.insert k a).get? j = some b ↔ m.get? j = some b ∨ b = a ∧ j = k := by
  rw [get?_insert]
  by_cases hj : j = k
  · subst hj
    simp [hk, eq_comm]
  · simp [hj]

theorem mem_entries_iff : (k, a) ∈ m.entries ↔ m.get? k = some a := by
  simp only [get?, Option.map_eq_some_iff, List.find?_eq_some_iff_append, decide_eq_true_eq]
  constructor
  · intro h
    obtain ⟨before, after, hsplit⟩ := List.append_of_mem h
    refine ⟨(k, a), ⟨rfl, before, after, hsplit, ?_⟩, rfl⟩
    have hdistinct := m.distinct
    rw [hsplit, List.map_append, List.nodup_append] at hdistinct
    intro e he
    have hne : e.1 ≠ k :=
      hdistinct.2.2 e.1 (List.mem_map_of_mem he) k (List.mem_map_of_mem List.mem_cons_self)
    simpa using hne
  · rintro ⟨e, ⟨rfl, before, after, hsplit, -⟩, rfl⟩
    rw [hsplit]
    exact List.mem_append_right _ List.mem_cons_self

/-- If an entry gains something, then so do the entries altogether. -/
theorem flatMap_update {g : κ × α → List β} {gained : List β}
    (h : (g (k, f (m.get? k))).Perm (((m.get? k).elim [] fun a => g (k, a)) ++ gained)) :
    ((m.update k f).entries.flatMap g).Perm (m.entries.flatMap g ++ gained) := by
  obtain ⟨entries, distinct⟩ := m
  change (g (k, f ((entries.find? (·.1 = k)).map (·.2)))).Perm
    ((((entries.find? (·.1 = k)).map (·.2)).elim [] fun a => g (k, a)) ++ gained) at h
  change ((updated k f entries).flatMap g).Perm (entries.flatMap g ++ gained)
  clear distinct
  induction entries with
  | nil => simpa [updated] using h
  | cons e rest ih =>
    by_cases he : e.1 = k
    · obtain ⟨j, a⟩ := e
      obtain rfl : j = k := he
      simp only [List.find?_cons, decide_true, Option.map_some, Option.elim_some] at h
      simp only [updated, if_true, List.flatMap_cons, List.append_assoc]
      refine (h.append_right _).trans ?_
      rw [List.append_assoc]
      exact List.perm_append_comm.append_left _
    · simp only [List.find?_cons, he, decide_false] at h
      simp only [updated, he, if_false, List.flatMap_cons, List.append_assoc]
      exact (ih h).append_left _

end OrderedMap
end MonitorElision
