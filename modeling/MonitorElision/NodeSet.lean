import MonitorElision.Tracematch.Node

/-!
# Sets of automaton nodes

The flow values of the analyses. A set is ordered by node number and holds one node per number; a
node already present is not displaced by another of the same number. Inclusion and intersection look
at the numbers only, equality at the nodes.
-/
namespace MonitorElision

structure NodeSet where
  nodes : List Node
  ascending : nodes.Pairwise (·.index < ·.index)
  deriving DecidableEq

namespace NodeSet

instance : EmptyCollection NodeSet := ⟨⟨[], .nil⟩⟩

instance : Inhabited NodeSet := ⟨∅⟩

instance : Membership Node NodeSet := ⟨fun s n => n ∈ s.nodes⟩

instance (n : Node) (s : NodeSet) : Decidable (n ∈ s) :=
  inferInstanceAs (Decidable (n ∈ s.nodes))

def indexes (s : NodeSet) : List Nat := s.nodes.map (·.index)

def size (s : NodeSet) : Nat := s.nodes.length

/-- Whether the number of `n` occurs, be it as the number of another machine's node. -/
def Contains (s : NodeSet) (n : Node) : Prop := n.index ∈ s.indexes

instance (s : NodeSet) (n : Node) : Decidable (s.Contains n) :=
  inferInstanceAs (Decidable (n.index ∈ s.indexes))

/-- Whether all numbers in the second list occur in the first, by one walk along both. The lists are
taken to be ascending. -/
def covers : List Node → List Node → Bool
  | _, [] => true
  | [], _ :: _ => false
  | m :: ms, n :: ns =>
    if n.index < m.index then false
    else if m.index < n.index then covers ms (n :: ns)
    else covers ms ns

instance : LE NodeSet := ⟨fun a b => covers b.nodes a.nodes = true⟩

instance (a b : NodeSet) : Decidable (a ≤ b) :=
  inferInstanceAs (Decidable (covers b.nodes a.nodes = true))

/-- All node numbers come from `pool`. -/
def Within (s : NodeSet) (pool : List Nat) : Prop := ∀ i ∈ s.indexes, i ∈ pool

def place (n : Node) : List Node → List Node
  | [] => [n]
  | m :: rest =>
    if n.index < m.index then n :: m :: rest
    else if n.index = m.index then m :: rest
    else m :: place n rest

theorem mem_place {n m : Node} : ∀ {l : List Node}, l.Pairwise (·.index < ·.index) →
    (m ∈ place n l ↔ m ∈ l ∨ m = n ∧ n.index ∉ l.map (·.index))
  | [], _ => by simp [place]
  | k :: rest, h => by
    have ih := mem_place (n := n) (m := m) h.of_cons
    have hk : ∀ a ∈ rest, k.index < a.index := fun _ => List.rel_of_pairwise_cons h
    unfold place
    split
    · have : n.index ∉ (k :: rest).map (·.index) := by
        simp only [List.map_cons, List.mem_cons, List.mem_map, not_or, not_exists, not_and]
        refine ⟨by omega, fun a ha => ?_⟩
        have := hk a ha
        omega
      simp only [this]
      simp [or_comm]
    · split
      · simp_all
      · simp only [List.mem_cons, ih, List.map_cons]
        grind

theorem pairwise_place (n : Node) : ∀ {l : List Node}, l.Pairwise (·.index < ·.index) →
    (place n l).Pairwise (·.index < ·.index)
  | [], _ => by simp [place]
  | k :: rest, h => by
    have hk : ∀ a ∈ rest, k.index < a.index := fun _ => List.rel_of_pairwise_cons h
    unfold place
    split
    · refine List.pairwise_cons.2 ⟨fun a ha => ?_, h⟩
      rcases List.mem_cons.1 ha with rfl | ha
      · assumption
      · have := hk a ha
        omega
    · split
      · exact h
      · refine List.pairwise_cons.2 ⟨fun a ha => ?_, pairwise_place n h.of_cons⟩
        rcases (mem_place h.of_cons).1 ha with ha | ⟨rfl, -⟩
        · exact hk a ha
        · omega

def insert (s : NodeSet) (n : Node) : NodeSet := ⟨place n s.nodes, pairwise_place n s.ascending⟩

def insertAll (s : NodeSet) (ns : List Node) : NodeSet := ns.foldl insert s

def ofList (ns : List Node) : NodeSet := insertAll ∅ ns

instance : Singleton Node NodeSet := ⟨fun n => insert ∅ n⟩

instance : Union NodeSet := ⟨fun a b => a.insertAll b.nodes⟩

/-- The nodes of the first list whose numbers occur in the second, by one walk along both. The lists
are taken to be ascending. -/
def shared : List Node → List Node → List Node
  | [], _ => []
  | m :: ms, ns =>
    match ns.dropWhile (·.index < m.index) with
    | [] => []
    | n :: rest => if m.index < n.index then shared ms (n :: rest) else m :: shared ms rest

theorem shared_sublist : ∀ ms ns : List Node, (shared ms ns).Sublist ms
  | [], _ => List.Sublist.refl _
  | m :: ms, ns => by
    unfold shared
    split
    · exact List.nil_sublist _
    · split
      · exact (shared_sublist ms _).cons m
      · exact (shared_sublist ms _).cons_cons m

instance : Inter NodeSet :=
  ⟨fun a b => ⟨shared a.nodes b.nodes, a.ascending.sublist (shared_sublist _ _)⟩⟩

/-- Removes the node numbered like `n`. -/
def erase (s : NodeSet) (n : Node) : NodeSet :=
  ⟨s.nodes.filter (·.index ≠ n.index), s.ascending.filter _⟩

def text (s : NodeSet) : String := Text.braced (s.nodes.map (·.text))

@[simp] theorem mem_nodes {s : NodeSet} {n : Node} : n ∈ s.nodes ↔ n ∈ s := Iff.rfl

@[simp] theorem not_mem_empty (n : Node) : n ∉ (∅ : NodeSet) := List.not_mem_nil

@[simp] theorem indexes_empty : (∅ : NodeSet).indexes = [] := rfl

theorem mem_indexes {s : NodeSet} {i : Nat} : i ∈ s.indexes ↔ ∃ n ∈ s, n.index = i := by
  simp [indexes]

theorem index_lt_of_mem_map {n : Node} {ns : List Node}
    (h : (n :: ns).Pairwise (·.index < ·.index)) {i : Nat} (hi : i ∈ ns.map (·.index)) :
    n.index < i := by
  obtain ⟨k, hk, rfl⟩ := List.mem_map.1 hi
  exact List.rel_of_pairwise_cons h hk

/-- On ascending lists the walk finds every number there is to find. -/
theorem covers_eq_true_iff {ms ns : List Node} (hm : ms.Pairwise (·.index < ·.index))
    (hn : ns.Pairwise (·.index < ·.index)) :
    covers ms ns = true ↔ ∀ i ∈ ns.map (·.index), i ∈ ms.map (·.index) := by
  induction ms generalizing ns with
  | nil =>
    cases ns with
    | nil => simp [covers]
    | cons n ns => simp only [covers, List.map_cons, List.forall_mem_cons, List.map_nil,
        List.not_mem_nil, false_and, Bool.false_eq_true]
  | cons m ms ih =>
    cases ns with
    | nil => simp [covers]
    | cons n ns =>
      have hms {i : Nat} (hi : i ∈ ms.map (·.index)) : m.index < i := index_lt_of_mem_map hm hi
      have hns {i : Nat} (hi : i ∈ ns.map (·.index)) : n.index < i := index_lt_of_mem_map hn hi
      rw [List.map_cons, List.map_cons, List.forall_mem_cons, covers]
      split
      · rename_i hlt
        -- All numbers that are left are above the one that is looked for.
        have hmissing : n.index ∉ m.index :: ms.map (·.index) := by
          intro hmem
          rcases List.mem_cons.1 hmem with heq | hmem
          · omega
          · have := hms hmem
            omega
        simp only [hmissing, false_and, Bool.false_eq_true]
      · have hrest : (∀ i ∈ ns.map (·.index), i ∈ m.index :: ms.map (·.index)) ↔
            ∀ i ∈ ns.map (·.index), i ∈ ms.map (·.index) := by
          refine forall₂_congr fun i hi => ?_
          have hne : i ≠ m.index := by
            have := hns hi
            omega
          rw [List.mem_cons, or_iff_right hne]
        rw [hrest]
        split
        · rename_i hlt
          have hne : n.index ≠ m.index := by omega
          rw [ih hm.of_cons hn, List.map_cons, List.forall_mem_cons, List.mem_cons,
            or_iff_right hne]
        · have heq : n.index = m.index := by omega
          rw [ih hm.of_cons hn.of_cons, heq]
          exact (and_iff_right List.mem_cons_self).symm

theorem le_iff {a b : NodeSet} : a ≤ b ↔ ∀ i ∈ a.indexes, i ∈ b.indexes :=
  covers_eq_true_iff b.ascending a.ascending

theorem le_iff_forall_mem {a b : NodeSet} : a ≤ b ↔ ∀ n ∈ a, n.index ∈ b.indexes := by
  rw [le_iff]
  exact List.forall_mem_map

@[simp] theorem mem_insert {s : NodeSet} {n m : Node} :
    m ∈ s.insert n ↔ m ∈ s ∨ m = n ∧ n.index ∉ s.indexes :=
  mem_place s.ascending

@[simp] theorem mem_indexes_insert {s : NodeSet} {n : Node} {i : Nat} :
    i ∈ (s.insert n).indexes ↔ i ∈ s.indexes ∨ i = n.index := by
  simp only [mem_indexes, mem_insert]
  grind [mem_indexes]

@[simp] theorem mem_indexes_insertAll {ns : List Node} {s : NodeSet} {i : Nat} :
    i ∈ (s.insertAll ns).indexes ↔ i ∈ s.indexes ∨ ∃ n ∈ ns, n.index = i := by
  induction ns generalizing s with
  | nil => simp [insertAll]
  | cons n ns ih =>
    have : s.insertAll (n :: ns) = (s.insert n).insertAll ns := rfl
    rw [this, ih]
    simp [or_assoc, eq_comm]

@[simp] theorem mem_indexes_ofList {ns : List Node} {i : Nat} :
    i ∈ (ofList ns).indexes ↔ ∃ n ∈ ns, n.index = i := by
  simp [ofList]

@[simp] theorem mem_indexes_singleton {n : Node} {i : Nat} :
    i ∈ ({n} : NodeSet).indexes ↔ i = n.index := by
  simp [Singleton.singleton]

@[simp] theorem mem_indexes_union {a b : NodeSet} {i : Nat} :
    i ∈ (a ∪ b).indexes ↔ i ∈ a.indexes ∨ i ∈ b.indexes := by
  have : a ∪ b = a.insertAll b.nodes := rfl
  rw [this, mem_indexes_insertAll]
  simp [mem_indexes]

theorem mem_map_dropWhile {ns : List Node} {bound i : Nat} (hi : bound ≤ i) :
    i ∈ (ns.dropWhile (·.index < bound)).map (·.index) ↔ i ∈ ns.map (·.index) := by
  induction ns with
  | nil => rfl
  | cons n ns ih =>
    rw [List.dropWhile_cons]
    split
    · rename_i hlt
      have hne : i ≠ n.index := by
        have := of_decide_eq_true hlt
        omega
      rw [ih, List.map_cons, List.mem_cons]
      exact ⟨Or.inr, fun h => h.resolve_left hne⟩
    · rfl

/-- On ascending lists the walk meets every number that both have. -/
theorem mem_shared {ms ns : List Node} {k : Node} (hm : ms.Pairwise (·.index < ·.index))
    (hn : ns.Pairwise (·.index < ·.index)) :
    k ∈ shared ms ns ↔ k ∈ ms ∧ k.index ∈ ns.map (·.index) := by
  induction ms generalizing ns with
  | nil => simp [shared]
  | cons m ms ih =>
    have hms : ∀ k ∈ ms, m.index < k.index := fun _ => List.rel_of_pairwise_cons hm
    have hdropped : (ns.dropWhile (·.index < m.index)).Pairwise (·.index < ·.index) :=
      hn.sublist (List.dropWhile_sublist _)
    -- What is dropped is below all that is left of the first list.
    have hkept : k ∈ m :: ms → (k.index ∈ ns.map (·.index) ↔
        k.index ∈ (ns.dropWhile (·.index < m.index)).map (·.index)) := by
      intro hk
      refine (mem_map_dropWhile ?_).symm
      rcases List.mem_cons.1 hk with rfl | hk
      · exact Nat.le_refl _
      · exact Nat.le_of_lt (hms k hk)
    rw [and_congr_right hkept]
    unfold shared
    split
    · rename_i hnil
      simp [hnil]
    · rename_i n rest hcons
      rw [hcons] at hdropped ⊢
      have hle : m.index ≤ n.index := by
        have hhead := List.head_dropWhile_not (fun k : Node => decide (k.index < m.index))
          (l := ns) (by simp [hcons])
        simpa [hcons] using hhead
      have hrest {i : Nat} (hi : i ∈ rest.map (·.index)) : n.index < i :=
        index_lt_of_mem_map hdropped hi
      split
      · rw [ih hm.of_cons hdropped]
        grind
      · rw [List.mem_cons, ih hm.of_cons hdropped.of_cons]
        grind

@[simp] theorem mem_inter {a b : NodeSet} {n : Node} :
    n ∈ a ∩ b ↔ n ∈ a ∧ n.index ∈ b.indexes :=
  mem_shared a.ascending b.ascending

@[simp] theorem mem_erase {s : NodeSet} {n m : Node} :
    m ∈ s.erase n ↔ m ∈ s ∧ m.index ≠ n.index := by
  change m ∈ s.nodes.filter (·.index ≠ n.index) ↔ _
  simp

theorem mem_indexes_of_mem_erase {s : NodeSet} {n : Node} {i : Nat}
    (h : i ∈ (s.erase n).indexes) : i ∈ s.indexes := by
  obtain ⟨m, hm, rfl⟩ := mem_indexes.1 h
  exact mem_indexes.2 ⟨m, (mem_erase.1 hm).1, rfl⟩

theorem Within.union {a b : NodeSet} {u : List Nat} (ha : a.Within u) (hb : b.Within u) :
    (a ∪ b).Within u := by
  intro i hi
  rcases mem_indexes_union.1 hi with hi | hi
  · exact ha i hi
  · exact hb i hi

@[simp] theorem within_empty (u : List Nat) : (∅ : NodeSet).Within u := by
  simp [Within]

end NodeSet
end MonitorElision
