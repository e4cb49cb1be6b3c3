import MonitorElision.Proofs.FlowGraph
import MonitorElision.Proofs.Shadow

/-!
# Copies into advice locals

An advice local may be copied into at several statements. The last of these copies is the one that
counts, and it is found by going through the statements backwards.
-/
namespace MonitorElision

section Last

variable {α β γ : Type} {f : α → Option β} {l l' : List α} {b : β}

/-- The last result of a partial function along a list. -/
def lastSome? (f : α → Option β) (l : List α) : Option β := l.reverse.findSome? f

@[simp] theorem lastSome?_nil : lastSome? f [] = none := rfl

theorem lastSome?_append : lastSome? f (l ++ l') = (lastSome? f l').or (lastSome? f l) := by
  simp [lastSome?]

@[simp] theorem lastSome?_cons {a : α} : lastSome? f (a :: l) = (lastSome? f l).or (f a) := by
  simp [lastSome?]

theorem lastSome?_map {g : γ → α} {l : List γ} : lastSome? f (l.map g) = lastSome? (f ∘ g) l := by
  induction l with
  | nil => rfl
  | cons c l ih => simp [ih]

theorem map_lastSome? {h : β → γ} :
    (lastSome? f l).map h = lastSome? (fun a => (f a).map h) l := by
  induction l with
  | nil => rfl
  | cons a l ih => rw [lastSome?_cons, lastSome?_cons, ← ih, Option.map_or]

theorem lastSome?_flatMap {g : γ → List α} {l : List γ} :
    lastSome? f (l.flatMap g) = lastSome? (fun c => lastSome? f (g c)) l := by
  induction l with
  | nil => rfl
  | cons c l ih => rw [List.flatMap_cons, lastSome?_append, lastSome?_cons, ih]

/-- A result that does not depend on the element is found if any element gives it. -/
theorem lastSome?_ite {p : α → Prop} [DecidablePred p] {r : Option β} :
    lastSome? (fun a => if p a then r else none) l = if ∃ a ∈ l, p a then r else none := by
  induction l with
  | nil => simp
  | cons a l ih =>
    rw [lastSome?_cons, ih]
    by_cases hl : ∃ a ∈ l, p a <;> by_cases ha : p a <;> simp [hl, ha]

theorem lastSome?_none : lastSome? (fun _ : α => (none : Option β)) l = none := by
  induction l with
  | nil => rfl
  | cons a l ih => rw [lastSome?_cons, ih, Option.or_none]

theorem isSome_lastSome?_iff : (lastSome? f l).isSome ↔ ∃ a ∈ l, (f a).isSome := by
  simp [lastSome?]

theorem lastSome?_eq_some_iff : lastSome? f l = some b ↔
    ∃ before a after, l = before ++ a :: after ∧ f a = some b ∧ ∀ x ∈ after, f x = none := by
  unfold lastSome?
  rw [List.findSome?_eq_some_iff]
  constructor
  · rintro ⟨after, a, before, hsplit, ha, hafter⟩
    refine ⟨before.reverse, a, after.reverse, ?_, ha, fun x hx => hafter x (List.mem_reverse.mp hx)⟩
    rw [← l.reverse_reverse, hsplit]
    simp
  · rintro ⟨before, a, after, rfl, ha, hafter⟩
    refine ⟨after.reverse, a, before.reverse, ?_, ha, fun x hx => hafter x (List.mem_reverse.mp hx)⟩
    simp

theorem exists_mem_of_lastSome? (h : lastSome? f l = some b) : ∃ a ∈ l, f a = some b := by
  obtain ⟨before, a, after, rfl, ha, -⟩ := lastSome?_eq_some_iff.mp h
  exact ⟨a, List.mem_append_right _ List.mem_cons_self, ha⟩

/-- If all results agree, the order of the elements does not matter. -/
theorem lastSome?_eq_of_mem_iff (hmem : ∀ a, a ∈ l ↔ a ∈ l')
    (hagree : ∀ a ∈ l, ∀ a' ∈ l, ∀ b b', f a = some b → f a' = some b' → b = b') :
    lastSome? f l = lastSome? f l' := by
  cases hl : lastSome? f l with
  | none =>
    rw [eq_comm, ← Option.not_isSome_iff_eq_none, isSome_lastSome?_iff]
    rintro ⟨a, ha, hsome⟩
    have hfound := isSome_lastSome?_iff.mpr ⟨a, (hmem a).mpr ha, hsome⟩
    rw [hl] at hfound
    cases hfound
  | some b =>
    obtain ⟨a, ha, hb⟩ := exists_mem_of_lastSome? hl
    have hfound : (lastSome? f l').isSome :=
      isSome_lastSome?_iff.mpr ⟨a, (hmem a).mp ha, Option.isSome_of_eq_some hb⟩
    obtain ⟨b', hb'⟩ := Option.isSome_iff_exists.mp hfound
    obtain ⟨a', ha', hfa'⟩ := exists_mem_of_lastSome? hb'
    rw [hb', hagree a ha a' ((hmem a').mpr ha') b b' hb hfa']

/-- Along all numbers below `n`, the last result belongs to the greatest that has one. -/
theorem lastSome?_finRange_eq_some_iff {n : Nat} {f : Fin n → Option β} :
    lastSome? f (List.finRange n) = some b ↔ ∃ i, f i = some b ∧ ∀ j, i < j → f j = none := by
  have hascending : (List.finRange n).Pairwise (· < ·) := List.pairwise_lt_finRange n
  rw [lastSome?_eq_some_iff]
  constructor
  · rintro ⟨before, i, after, hsplit, hi, hafter⟩
    refine ⟨i, hi, fun j hij => hafter j ?_⟩
    rw [hsplit] at hascending
    have hj : j ∈ before ++ i :: after := hsplit ▸ List.mem_finRange j
    rcases List.mem_append.mp hj with hj | hj
    · have hji := (List.pairwise_append.mp hascending).2.2 j hj i List.mem_cons_self
      omega
    · rcases List.mem_cons.mp hj with rfl | hj
      · omega
      · exact hj
  · rintro ⟨i, hi, hafter⟩
    obtain ⟨before, after, hsplit⟩ := List.append_of_mem (List.mem_finRange i)
    refine ⟨before, i, after, hsplit, hi, fun j hj => hafter j ?_⟩
    rw [hsplit] at hascending
    exact List.rel_of_pairwise_cons (List.pairwise_append.mp hascending).2.1 hj

end Last

theorem Value.source?_eq_some_iff {v : Value} {l : Local} : v.source? = some l ↔ v = .var l := by
  cases v <;> simp [Value.source?]

namespace Statement

/-- The statement copies the local `source` into the advice local. -/
def Copies (s : Statement) (advice source : Local) : Prop :=
  ∃ target, target.Same advice ∧ s.instr = .assign target (.var source)

/-- The statement defines the advice local, and not by copying a local. -/
def Spoils (s : Statement) (advice : Local) : Prop :=
  ∃ target ∈ s.live.defs, target.Same advice ∧ ∀ l, s.instr ≠ .assign target (.var l)

/-- The local defined by a copy into the advice local, with the local copied. -/
def copyInto? (s : Statement) (advice : Local) : Option (Local × Local) :=
  match s.instr with
  | .assign target value => if target.Same advice then value.source?.map (target, ·) else none
  | _ => none

variable {s : Statement} {advice target source : Local} {value : Value}

theorem assign_or_not (s : Statement) : (∃ target value, s.instr = .assign target value) ∨
    ∀ target value, s.instr ≠ .assign target value := by
  simpa only [ne_eq, ← not_exists] using Classical.em _

theorem live_defs_of_assign (h : s.instr = .assign target value) : s.live.defs = [target] := by
  simp [live, Instr.live, Live.ofLists, Local.distinct, h, Instr.defs]

theorem live_defs_of_not_assign (h : ∀ target value, s.instr ≠ .assign target value) :
    s.live.defs = [] := by
  cases hinstr : s.instr with
  | assign target value => exact absurd hinstr (h target value)
  | _ => simp [live, Instr.live, Live.ofLists, Local.distinct, hinstr, Instr.defs]

theorem spoils_of_assign (h : s.instr = .assign target value) :
    s.Spoils advice ↔ target.Same advice ∧ ∀ l, value ≠ .var l := by
  simp [Spoils, live_defs_of_assign h, h]

theorem Spoils.exists_assign (h : s.Spoils advice) :
    ∃ target value, s.instr = .assign target value := by
  rcases s.assign_or_not with hassign | hnone
  · exact hassign
  · obtain ⟨target, htarget, -⟩ := h
    rw [live_defs_of_not_assign hnone] at htarget
    cases htarget

theorem copyInto?_of_assign (h : s.instr = .assign target value) : s.copyInto? advice =
    if target.Same advice then value.source?.map (target, ·) else none := by
  rw [copyInto?, h]

theorem copyInto?_of_not_assign (h : ∀ target value, s.instr ≠ .assign target value) :
    s.copyInto? advice = none := by
  unfold copyInto?
  split
  · rename_i hinstr
    exact absurd hinstr (h _ _)
  · rfl

theorem copyInto?_eq_some_iff : s.copyInto? advice = some (target, source) ↔
    target.Same advice ∧ s.instr = .assign target (.var source) := by
  cases hinstr : s.instr with
  | assign t v =>
    rw [copyInto?_of_assign hinstr, Option.ite_none_right_eq_some]
    simp only [Option.map_eq_some_iff, Value.source?_eq_some_iff, Prod.mk.injEq, Instr.assign.injEq]
    constructor
    · rintro ⟨hsame, _, hv, rfl, rfl⟩
      exact ⟨hsame, rfl, hv⟩
    · rintro ⟨hsame, rfl, hv⟩
      exact ⟨hsame, source, hv, rfl, rfl⟩
  | _ => simp [copyInto?, hinstr]

theorem copies_iff : s.Copies advice source ↔ (s.copyInto? advice).map (·.2) = some source := by
  simp only [Copies, Option.map_eq_some_iff, Prod.exists, copyInto?_eq_some_iff]
  constructor
  · rintro ⟨target, h⟩
    exact ⟨target, source, h, rfl⟩
  · rintro ⟨target, _, h, rfl⟩
    exact ⟨target, h⟩

end Statement

namespace FlowGraph

/-- The last copy into the advice local. -/
def lastCopy? (g : FlowGraph) (advice : Local) : Option (Local × Local) :=
  lastSome? (·.copyInto? advice) g.statements

/-- The copy of `source` is the last one into the advice local. -/
def LastCopy (g : FlowGraph) (advice source : Local) : Prop :=
  ∃ i, (g.statement i).Copies advice source ∧ ∀ j, i < j → ∀ l, ¬(g.statement j).Copies advice l

variable {g : FlowGraph} {advice source : Local}

theorem lastCopy?_eq_some_iff :
    (g.lastCopy? advice).map (·.2) = some source ↔ g.LastCopy advice source := by
  rw [lastCopy?, statements, lastSome?_map, map_lastSome?, lastSome?_finRange_eq_some_iff]
  simp only [Function.comp_apply, LastCopy, Statement.copies_iff, Option.eq_none_iff_forall_ne_some,
    ne_eq]

theorem isSome_lastCopy?_iff :
    (g.lastCopy? advice).isSome ↔ ∃ s ∈ g.statements, ∃ l, s.Copies advice l := by
  rw [lastCopy?, isSome_lastSome?_iff]
  simp only [Statement.copies_iff, Option.isSome_iff_exists, Option.map_eq_some_iff]
  constructor
  · rintro ⟨s, hs, copy, hcopy⟩
    exact ⟨s, hs, copy.2, copy, hcopy, rfl⟩
  · rintro ⟨s, hs, l, copy, hcopy, -⟩
    exact ⟨s, hs, copy, hcopy⟩

end FlowGraph
end MonitorElision
