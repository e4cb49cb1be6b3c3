import MonitorElision.Proofs.NodeSet
import Mathlib.Order.Bounds.Basic

/-!
# The lattice of node sets

A node set gives each number at most one node, and every operation acts on each number by itself, so
what a set holds after any history can be told number by number. By number the sets form a lattice
with union and intersection, whatever machines the nodes come from. Sets of nodes of one machine are
equal once they include each other.
-/
namespace MonitorElision
namespace NodeSet

/-- The node of that number. -/
def at? (s : NodeSet) (i : Nat) : Option Node := s.nodes.find? (·.index = i)

/-- What can be done to a set. -/
inductive Step where
  | add (n : Node)
  | addAll (ns : List Node)
  | remove (n : Node)
  | join (t : NodeSet)
  | meet (t : NodeSet)
  | clear

def perform (s : NodeSet) : Step → NodeSet
  | .add n => s.insert n
  | .addAll ns => s.insertAll ns
  | .remove n => s.erase n
  | .join t => s ∪ t
  | .meet t => s ∩ t
  | .clear => ∅

def performAll (s : NodeSet) (steps : List Step) : NodeSet := steps.foldl perform s

/-- What a step makes of the node of that number, if there is one. A node that is there is never
displaced. -/
def Step.effect (i : Nat) (held : Option Node) : Step → Option Node
  | .add n => held.or (if n.index = i then some n else none)
  | .addAll ns => held.or (ns.find? (·.index = i))
  | .remove n => if n.index = i then none else held
  | .join t => held.or (t.at? i)
  | .meet t => if i ∈ t.indexes then held else none
  | .clear => none

variable {a b s t : NodeSet} {n m : Node} {i : Nat}

section Lookup

/-- A set has one node per number. -/
theorem eq_of_mem_of_index_eq (hn : n ∈ s) (hm : m ∈ s) (h : n.index = m.index) : n = m :=
  List.inj_on_of_nodup_map (nodup_indexes s) hn hm h

theorem mem_of_at?_eq_some (h : s.at? i = some n) : n ∈ s ∧ n.index = i := by
  have hidx := List.find?_some h
  exact ⟨List.mem_of_find?_eq_some h, by simpa using hidx⟩

theorem at?_eq_none_iff : s.at? i = none ↔ i ∉ s.indexes := by
  simp [at?, mem_indexes]

theorem at?_eq_some_iff : s.at? i = some n ↔ n ∈ s ∧ n.index = i := by
  constructor
  · exact mem_of_at?_eq_some
  · intro ⟨hn, hi⟩
    cases hat : s.at? i with
    | none => exact absurd (mem_indexes.mpr ⟨n, hn, hi⟩) (at?_eq_none_iff.mp hat)
    | some m =>
      obtain ⟨hm, hidx⟩ := mem_of_at?_eq_some hat
      rw [eq_of_mem_of_index_eq hn hm (hi.trans hidx.symm)]

@[simp] theorem at?_empty : (∅ : NodeSet).at? i = none := rfl

/-- A set is known by its nodes, number by number. -/
theorem eq_iff_at?_eq : a = b ↔ ∀ i, a.at? i = b.at? i := by
  constructor
  · intro h i
    rw [h]
  · intro h
    apply ext
    intro n
    have hn := congrArg (· = some n) (h n.index)
    simpa [at?_eq_some_iff] using hn

theorem at?_insert : (s.insert n).at? i = (s.at? i).or (if n.index = i then some n else none) := by
  apply Option.ext
  intro m
  rw [at?_eq_some_iff, mem_insert, Option.or_eq_some_iff, at?_eq_some_iff, at?_eq_none_iff]
  grind

theorem at?_insertAll {ns : List Node} :
    (s.insertAll ns).at? i = (s.at? i).or (ns.find? (·.index = i)) := by
  induction ns generalizing s with
  | nil => simp [insertAll]
  | cons n ns ih =>
    have hfirst : s.insertAll (n :: ns) = (s.insert n).insertAll ns := rfl
    rw [hfirst, ih, at?_insert, Option.or_assoc, List.find?_cons]
    by_cases h : n.index = i <;> simp [h]

theorem at?_union : (a ∪ b).at? i = (a.at? i).or (b.at? i) := at?_insertAll

theorem at?_inter : (a ∩ b).at? i = if i ∈ b.indexes then a.at? i else none := by
  apply Option.ext
  intro n
  rw [at?_eq_some_iff, mem_inter]
  split
  · rw [at?_eq_some_iff]
    grind
  · grind

theorem at?_erase : (s.erase n).at? i = if n.index = i then none else s.at? i := by
  apply Option.ext
  intro m
  rw [at?_eq_some_iff, mem_erase]
  split
  · grind
  · rw [at?_eq_some_iff]
    grind

/-- Each step acts on every number by itself. -/
theorem at?_perform (step : Step) : (s.perform step).at? i = step.effect i (s.at? i) := by
  cases step with
  | add n => exact at?_insert
  | addAll ns => exact at?_insertAll
  | remove n => exact at?_erase
  | join t => exact at?_union
  | meet t => exact at?_inter
  | clear => rfl

theorem at?_performAll (steps : List Step) : (s.performAll steps).at? i =
    steps.foldl (fun held step => step.effect i held) (s.at? i) := by
  induction steps generalizing s with
  | nil => rfl
  | cons step steps ih =>
    rw [performAll, List.foldl_cons, List.foldl_cons, ← at?_perform]
    exact ih

end Lookup

section Lattice

theorem mem_indexes_inter : i ∈ (a ∩ b).indexes ↔ i ∈ a.indexes ∧ i ∈ b.indexes := by
  simp only [mem_indexes, mem_inter]
  grind

theorem isLUB_union (a b : NodeSet) : IsLUB {a, b} (a ∪ b) := by
  constructor
  · rintro c (rfl | rfl)
    · exact le_union_left _ _
    · exact le_union_right _ _
  · intro c hc
    exact union_le (hc (Set.mem_insert a {b})) (hc (Set.mem_insert_of_mem a rfl))

theorem isGLB_inter (a b : NodeSet) : IsGLB {a, b} (a ∩ b) := by
  constructor
  · rintro c (rfl | rfl)
    · exact le_iff.mpr fun i hi => (mem_indexes_inter.mp hi).1
    · exact le_iff.mpr fun i hi => (mem_indexes_inter.mp hi).2
  · intro c hc
    have ha : c ≤ a := hc (Set.mem_insert a {b})
    have hb : c ≤ b := hc (Set.mem_insert_of_mem a rfl)
    rw [le_iff]
    intro i hi
    exact mem_indexes_inter.mpr ⟨le_iff.mp ha i hi, le_iff.mp hb i hi⟩

theorem empty_le (a : NodeSet) : ∅ ≤ a := le_iff.mpr fun _ hi => absurd hi List.not_mem_nil

/-- Nodes of one machine are known by their numbers, and so are sets of them. -/
theorem eq_iff_le_and_le {tm : Tracematch} (ha : ∀ n ∈ a, n ∈ tm.nodes)
    (hb : ∀ n ∈ b, n ∈ tm.nodes) : a = b ↔ a ≤ b ∧ b ≤ a := by
  constructor
  · intro h
    rw [h]
    exact ⟨le_rfl, le_rfl⟩
  · intro ⟨hab, hba⟩
    apply ext
    intro n
    exact ⟨Tracematch.mem_of_le ha hb hab, Tracematch.mem_of_le hb ha hba⟩

/-- Whatever was done to a set, its nodes stand in the order of their numbers, one node per number,
and each number is held as the steps tell for it alone. Inclusion, union, intersection and removal
go by number, also where the nodes come from several machines, and by number the sets form a
lattice. For sets of nodes of one machine it is a lattice under equality. -/
theorem lattice_of_indexes (steps : List Step) (a b : NodeSet) :
    ((∅ : NodeSet).performAll steps).nodes.Pairwise (·.index < ·.index) ∧
    (∀ i, ((∅ : NodeSet).performAll steps).at? i =
      steps.foldl (fun held step => step.effect i held) none) ∧
    (a = b ↔ ∀ i, a.at? i = b.at? i) ∧
    (a ≤ b ↔ ∀ i ∈ a.indexes, i ∈ b.indexes) ∧
    (∀ i, (a ∪ b).at? i = (a.at? i).or (b.at? i)) ∧
    (∀ i, (a ∩ b).at? i = if i ∈ b.indexes then a.at? i else none) ∧
    (∀ n i, (a.erase n).at? i = if n.index = i then none else a.at? i) ∧
    (a ≤ a ∧ ∀ c, a ≤ b → b ≤ c → a ≤ c) ∧
    IsLUB {a, b} (a ∪ b) ∧ IsGLB {a, b} (a ∩ b) ∧ ∅ ≤ a ∧
    ∀ tm : Tracematch, (∀ n ∈ a, n ∈ tm.nodes) → (∀ n ∈ b, n ∈ tm.nodes) →
      (a = b ↔ a ≤ b ∧ b ≤ a) := by
  refine ⟨NodeSet.ascending _, fun i => at?_performAll steps, eq_iff_at?_eq, le_iff,
    fun i => at?_union, fun i => at?_inter, fun n i => at?_erase, ⟨le_rfl, fun c => le_trans⟩,
    isLUB_union a b, isGLB_inter a b, empty_le a, ?_⟩
  intro tm ha hb
  exact eq_iff_le_and_le ha hb

def pair : Tracematch :=
  ⟨⟨0, "pair", [], ∅⟩, #[⟨true, false⟩, ⟨false, true⟩], ∅, by simp⟩

/-- The second set loses a node to the removal of another machine's node, and gets it back. -/
theorem lattice_of_indexes_pair :
    let start : Node := ⟨0, 0, true, false⟩
    let stop : Node := ⟨0, 1, false, true⟩
    let a := ofList [stop, start]
    let b := performAll ∅ [.addAll [start, stop], .remove ⟨1, 1, false, false⟩, .join {stop}]
    (∀ n ∈ a, n ∈ pair.nodes) ∧ (∀ n ∈ b, n ∈ pair.nodes) ∧ a ≤ b ∧ b ≤ a ∧ a = b := by
  intro start stop a b
  have ha : ∀ n ∈ a.nodes, n ∈ pair.nodes := by decide
  have hb : ∀ n ∈ b.nodes, n ∈ pair.nodes := by decide
  have hab : a ≤ b ∧ b ≤ a := by decide
  obtain ⟨-, -, -, -, -, -, -, -, -, -, -, hmachine⟩ := lattice_of_indexes [] a b
  exact ⟨ha, hb, hab.1, hab.2, (hmachine pair ha hb).mpr hab⟩

/-- With nodes of two machines a union keeps the node of its first set. -/
example : ({⟨0, 0, true, false⟩} ∪ {⟨1, 0, true, false⟩} : NodeSet) ≠
    {⟨1, 0, true, false⟩} ∪ {⟨0, 0, true, false⟩} := by decide

end Lattice

end NodeSet
end MonitorElision
