import MonitorElision.OrderedMap

/-!
# Transition tables

A machine keeps the targets of its transitions in rows, one for each node and symbol from which
there is a transition.
-/
namespace MonitorElision

/-- A transition leads from one node to another by a symbol; nodes are given by number. -/
structure Transition where
  source : Nat
  symbol : String
  target : Nat
  deriving DecidableEq, Repr

/-- The targets by source and symbol, in the order of first acceptance. -/
structure Transitions where
  rows : OrderedMap (Nat × String) (OrderedSet Nat)

namespace Transitions

instance : EmptyCollection Transitions := ⟨⟨∅⟩⟩

def targets (ts : Transitions) (source : Nat) (symbol : String) : List Nat :=
  match ts.rows.get? (source, symbol) with
  | some row => row.toList
  | none => []

instance : Membership Transition Transitions :=
  ⟨fun ts t => t.target ∈ ts.targets t.source t.symbol⟩

instance (t : Transition) (ts : Transitions) : Decidable (t ∈ ts) :=
  inferInstanceAs (Decidable (t.target ∈ ts.targets t.source t.symbol))

/-- Adds the target to its row, which is made for its first target. -/
def insert (ts : Transitions) (t : Transition) : Transitions :=
  ⟨ts.rows.update (t.source, t.symbol) fun row => (row.getD ∅).insert t.target⟩

def ofList (l : List Transition) : Transitions := l.foldl insert ∅

/-- The transitions of one row of the table. -/
def ofRow (e : (Nat × String) × OrderedSet Nat) : List Transition :=
  e.2.toList.map fun target => ⟨e.1.1, e.1.2, target⟩

/-- The transitions, row by row. -/
def toList (ts : Transitions) : List Transition := ts.rows.entries.flatMap ofRow

def size (ts : Transitions) : Nat := ts.rows.entries.foldl (fun n e => n + e.2.size) 0

variable {ts : Transitions} {t u : Transition}

theorem mem_iff : t ∈ ts ↔ t.target ∈ ts.targets t.source t.symbol := Iff.rfl

@[simp] theorem not_mem_empty (t : Transition) : t ∉ (∅ : Transitions) := List.not_mem_nil

theorem nodup_targets (ts : Transitions) (source : Nat) (symbol : String) :
    (ts.targets source symbol).Nodup := by
  rw [targets]
  cases ts.rows.get? (source, symbol) with
  | none => exact List.nodup_nil
  | some row => exact row.nodup

theorem length_toList (ts : Transitions) : ts.toList.length = ts.size := by
  have hfold : ∀ (l : List ((Nat × String) × OrderedSet Nat)) (n : Nat),
      l.foldl (fun n e => n + e.2.size) n = n + (l.flatMap ofRow).length := by
    intro l
    induction l with
    | nil => exact fun n => rfl
    | cons e l ih =>
      intro n
      rw [List.foldl_cons, ih, List.flatMap_cons, List.length_append, ofRow, List.length_map,
        OrderedSet.size, Nat.add_assoc]
  rw [size, hfold, Nat.zero_add, toList]

theorem mem_iff_exists_row : t ∈ ts ↔
    ∃ row, ts.rows.get? (t.source, t.symbol) = some row ∧ t.target ∈ row := by
  rw [mem_iff, targets]
  cases ts.rows.get? (t.source, t.symbol) <;> simp

@[simp] theorem mem_toList : t ∈ ts.toList ↔ t ∈ ts := by
  simp only [toList, ofRow, List.mem_flatMap, List.mem_map, Prod.exists,
    OrderedMap.mem_entries_iff, mem_iff_exists_row]
  constructor
  · rintro ⟨source, symbol, row, hrow, target, htarget, rfl⟩
    exact ⟨row, hrow, htarget⟩
  · rintro ⟨row, hrow, htarget⟩
    exact ⟨_, _, row, hrow, _, htarget, rfl⟩

/-- An accepted transition is added at the end of its row, unless it is there. -/
theorem targets_insert (source : Nat) (symbol : String) : (ts.insert t).targets source symbol =
    if source = t.source ∧ symbol = t.symbol ∧ t ∉ ts then ts.targets source symbol ++ [t.target]
    else ts.targets source symbol := by
  by_cases hkey : (source, symbol) = (t.source, t.symbol)
  · obtain ⟨rfl, rfl⟩ := Prod.mk.inj hkey
    have hrow : ((ts.rows.get? (t.source, t.symbol)).getD ∅).toList =
        ts.targets t.source t.symbol := by
      rw [targets]
      cases ts.rows.get? (t.source, t.symbol) <;> rfl
    have hafter : (ts.insert t).targets t.source t.symbol =
        (((ts.rows.get? (t.source, t.symbol)).getD ∅).insert t.target).toList := by
      rw [targets, insert, OrderedMap.get?_update, if_pos rfl]
    have hmem : t ∈ ts ↔ t.target ∈ (ts.rows.get? (t.source, t.symbol)).getD ∅ := by
      rw [mem_iff, ← hrow, OrderedSet.mem_toList]
    by_cases ht : t ∈ ts
    · rw [if_neg (by simp [ht]), hafter, OrderedSet.insert_of_mem (hmem.mp ht), hrow]
    · rw [if_pos ⟨rfl, rfl, ht⟩, hafter, OrderedSet.toList_insert_of_not_mem (mt hmem.mpr ht), hrow]
  · have hother : ¬(source = t.source ∧ symbol = t.symbol ∧ t ∉ ts) :=
      fun h => hkey (Prod.ext h.1 h.2.1)
    rw [if_neg hother, targets, insert, OrderedMap.get?_update, if_neg hkey, targets]

@[simp] theorem mem_insert : u ∈ ts.insert t ↔ u ∈ ts ∨ u = t := by
  rw [mem_iff, targets_insert]
  split
  · rename_i h
    rw [List.mem_append, List.mem_singleton, mem_iff]
    refine or_congr_right ⟨fun htarget => ?_, congrArg Transition.target⟩
    cases u
    cases t
    simp_all
  · rename_i h
    rw [← mem_iff]
    refine ⟨Or.inl, ?_⟩
    rintro (hu | rfl)
    · exact hu
    · exact Decidable.not_not.mp fun hnew => h ⟨rfl, rfl, hnew⟩

instance (ts : Transitions) (P : Transition → Prop) [DecidablePred P] :
    Decidable (∀ t ∈ ts, P t) :=
  decidable_of_iff (∀ t ∈ ts.toList, P t) (by simp only [mem_toList])

end Transitions
end MonitorElision
