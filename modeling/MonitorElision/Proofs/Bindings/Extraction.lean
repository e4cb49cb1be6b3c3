import MonitorElision.Bindings
import MonitorElision.Proofs.Bindings.Copies

/-!
# What the findings amount to

The maps are filled finding by finding, and a later finding replaces an earlier one, so an entry is
told by the last finding for its key. For an advice local that is the last copy into it, whichever
shadow binds it. For a formal it comes from the last related shadow that calls a copied local by it.
-/
namespace MonitorElision.Bindings

namespace Finding

/-- The local that the finding records for the formal. -/
def sourceOf? (formal : String) : Finding → Option Local
  | bound f _ source _ _ => if f = formal then some source else none
  | unresolved _ _ _ => none

/-- The entry that the finding makes for the advice local. -/
def copyInto? (advice : Local) : Finding → Option (Local × Local)
  | bound _ target source _ _ => if target.Same advice then some (target, source) else none
  | unresolved _ _ _ => none

def isUnresolved : Finding → Bool
  | bound _ _ _ _ _ => false
  | unresolved _ _ _ => true

/-- What an assignment says about a shadow that calls its target by the formal. -/
def ofAssign (sh : Shadow) (s : Statement) (target : Local) (value : Value) (formal : String) :
    Finding :=
  match value.source? with
  | some source => .bound formal target source s sh
  | none => .unresolved target s sh

end Finding

section Note

variable (b : Bindings) (x : Finding) (fs : List Finding) (formal : String) (advice : Local)

theorem formals_note :
    (b.note x).formals[formal]? = (x.sourceOf? formal).or b.formals[formal]? := by
  cases x with
  | bound f target source s sh =>
    by_cases h : f = formal <;> simp [note, Finding.sourceOf?, Std.ExtTreeMap.getElem?_insert, h]
  | unresolved target s sh => rfl

theorem actuals_note :
    (b.note x).actuals[advice.id]? = (x.copyInto? advice).or b.actuals[advice.id]? := by
  cases x with
  | bound f target source s sh =>
    by_cases h : target.id = advice.id <;>
      simp [note, Finding.copyInto?, Std.ExtTreeMap.getElem?_insert, Local.Same, h]
  | unresolved target s sh => rfl

theorem unresolved_note : (b.note x).unresolved = (b.unresolved || x.isUnresolved) := by
  cases x <;> simp [note, Finding.isUnresolved]

theorem formals_foldl_note : (fs.foldl note b).formals[formal]? =
    (lastSome? (·.sourceOf? formal) fs).or b.formals[formal]? := by
  induction fs generalizing b with
  | nil => rfl
  | cons x fs ih => rw [List.foldl_cons, ih, formals_note, lastSome?_cons, Option.or_assoc]

theorem actuals_foldl_note : (fs.foldl note b).actuals[advice.id]? =
    (lastSome? (·.copyInto? advice) fs).or b.actuals[advice.id]? := by
  induction fs generalizing b with
  | nil => rfl
  | cons x fs ih => rw [List.foldl_cons, ih, actuals_note, lastSome?_cons, Option.or_assoc]

theorem unresolved_foldl_note :
    (fs.foldl note b).unresolved = (b.unresolved || fs.any (·.isUnresolved)) := by
  induction fs generalizing b with
  | nil => simp
  | cons x fs ih => rw [List.foldl_cons, ih, unresolved_note, List.any_cons, Bool.or_assoc]

end Note

section FindingsAt

variable {sh : Shadow} {s : Statement} {target advice : Local} {value : Value} {formal f : String}

theorem copyInto?_ofAssign (h : s.instr = .assign target value) :
    (Finding.ofAssign sh s target value f).copyInto? advice = s.copyInto? advice := by
  rw [Statement.copyInto?_of_assign h, Finding.ofAssign]
  cases value.source? <;> simp [Finding.copyInto?]

theorem sourceOf?_ofAssign : (Finding.ofAssign sh s target value f).sourceOf? formal =
    if f = formal then value.source? else none := by
  rw [Finding.ofAssign]
  cases value.source? <;> simp [Finding.sourceOf?]

theorem isUnresolved_ofAssign :
    (Finding.ofAssign sh s target value f).isUnresolved ↔ ∀ l, value ≠ .var l := by
  cases value <;> simp [Finding.ofAssign, Value.source?, Finding.isUnresolved]

theorem findingsAt_of_assign (h : s.instr = .assign target value) :
    findingsAt sh s =
      ((sh.formalOf? target).map (Finding.ofAssign sh s target value)).toList := by
  have hcopied : s.instr.copied? = value.source? := by rw [h]; rfl
  rw [findingsAt, Statement.live_defs_of_assign h, hcopied]
  unfold Finding.ofAssign
  cases hformal : sh.formalOf? target with
  | none => simp [hformal]
  | some f => cases value.source? <;> simp [hformal]

theorem findingsAt_of_not_assign (h : ∀ target value, s.instr ≠ .assign target value) :
    findingsAt sh s = [] := by
  rw [findingsAt, Statement.live_defs_of_not_assign h]
  rfl

/-- All the findings at a statement are on the local it assigns, if the shadow binds it. -/
theorem lastSome?_findingsAt {β : Type} (r : Finding → Option β)
    (h : s.instr = .assign target value) : lastSome? r (findingsAt sh s) =
      (sh.formalOf? target).bind fun f => r (.ofAssign sh s target value f) := by
  rw [findingsAt_of_assign h]
  cases sh.formalOf? target <;> simp

theorem copyInto?_findingsAt : lastSome? (·.copyInto? advice) (findingsAt sh s) =
    if sh.Binds advice then s.copyInto? advice else none := by
  rcases s.assign_or_not with ⟨target, value, hinstr⟩ | hnone
  · simp only [lastSome?_findingsAt _ hinstr, copyInto?_ofAssign hinstr]
    by_cases hsame : target.Same advice
    · have hbinds : sh.Binds advice ↔ ∃ f, sh.formalOf? target = some f := by
        rw [Shadow.exists_formalOf?_iff]
        exact ⟨fun h => h.same hsame.symm, fun h => h.same hsame⟩
      cases hformal : sh.formalOf? target <;> simp [hbinds, hformal]
    · have hother : s.copyInto? advice = none := by
        rw [Statement.copyInto?_of_assign hinstr, if_neg hsame]
      simp [hother]
  · rw [findingsAt_of_not_assign hnone, Statement.copyInto?_of_not_assign hnone]
    simp

/-- A shadow records for a formal what is copied into the local it calls by the formal. -/
theorem sourceOf?_findingsAt : lastSome? (·.sourceOf? formal) (findingsAt sh s) =
    (sh.named? formal).bind fun l => (s.copyInto? l).map (·.2) := by
  rcases s.assign_or_not with ⟨target, value, hinstr⟩ | hnone
  · simp only [lastSome?_findingsAt _ hinstr, sourceOf?_ofAssign,
      Statement.copyInto?_of_assign hinstr]
    calc (sh.formalOf? target).bind (fun f => if f = formal then value.source? else none)
        = if sh.formalOf? target = some formal then value.source? else none := by
          cases sh.formalOf? target <;> simp
      _ = if ∃ l ∈ sh.named? formal, target.Same l then value.source? else none := by
          simp only [Shadow.formalOf?_eq_some_iff_named?]
      _ = _ := by
          cases sh.named? formal with
          | none => simp
          | some l => by_cases hsame : target.Same l <;> cases value.source? <;> simp [hsame]
  · simp only [findingsAt_of_not_assign hnone, Statement.copyInto?_of_not_assign hnone]
    cases sh.named? formal <;> rfl

/-- A shadow has an unresolved finding where a local that it binds is spoiled. -/
theorem exists_isUnresolved_findingsAt :
    (∃ x ∈ findingsAt sh s, x.isUnresolved) ↔ ∃ advice, sh.Binds advice ∧ s.Spoils advice := by
  constructor
  · rintro ⟨x, hx, hunresolved⟩
    rcases s.assign_or_not with ⟨target, value, hinstr⟩ | hnone
    · rw [findingsAt_of_assign hinstr, Option.mem_toList] at hx
      obtain ⟨f, hformal, rfl⟩ := Option.map_eq_some_iff.mp hx
      exact ⟨target, Shadow.exists_formalOf?_iff.mp ⟨f, hformal⟩,
        (Statement.spoils_of_assign hinstr).mpr
          ⟨Local.Same.refl target, isUnresolved_ofAssign.mp hunresolved⟩⟩
    · rw [findingsAt_of_not_assign hnone] at hx
      cases hx
  · rintro ⟨advice, hbinds, hspoils⟩
    obtain ⟨target, value, hinstr⟩ := hspoils.exists_assign
    obtain ⟨hsame, hvalue⟩ := (Statement.spoils_of_assign hinstr).mp hspoils
    obtain ⟨f, hformal⟩ := Shadow.exists_formalOf?_iff.mpr (hbinds.same hsame.symm)
    refine ⟨.ofAssign sh s target value f, ?_, isUnresolved_ofAssign.mpr hvalue⟩
    rw [findingsAt_of_assign hinstr, hformal]
    simp

end FindingsAt

section Extract

variable (g : FlowGraph) (group : Shadow.Group) (initial : Shadow) (formal : String)
  (advice : Local)

/-- The local that a shadow has the formal stand for: the one copied last into the local it calls
by the formal. -/
def recorded? (sh : Shadow) : Option Local :=
  (sh.named? formal).bind fun l => (g.lastCopy? l).map (·.2)

theorem lastSome?_findings {β : Type} (r : Finding → Option β) :
    lastSome? r (findings g group initial) =
      lastSome? (fun sh => lastSome? (fun s => lastSome? r (findingsAt sh s)) g.statements)
        (group.related initial) := by
  rw [findings, lastSome?_flatMap]
  simp only [lastSome?_flatMap]
  rfl

/-- A formal stands for what the last related shadow records for it. -/
theorem formals_extract : (extract g group initial).value.formals[formal]? =
    lastSome? (recorded? g formal) (group.related initial) := by
  have hshadow : ∀ sh, lastSome? (fun s => lastSome? (·.sourceOf? formal) (findingsAt sh s))
      g.statements = recorded? g formal sh := by
    intro sh
    simp only [sourceOf?_findingsAt, recorded?]
    cases sh.named? formal with
    | none => exact lastSome?_none
    | some l => exact map_lastSome?.symm
  change ((findings g group initial).foldl note {}).formals[formal]? = _
  rw [formals_foldl_note, lastSome?_findings]
  simp [hshadow]

/-- An advice local of a related shadow has the last copy into it, whichever the shadow. -/
theorem actuals_extract : (extract g group initial).value.actuals[advice.id]? =
    if ∃ sh ∈ group.related initial, sh.Binds advice then g.lastCopy? advice else none := by
  have hshadow : ∀ sh, lastSome? (fun s => lastSome? (·.copyInto? advice) (findingsAt sh s))
      g.statements = if sh.Binds advice then g.lastCopy? advice else none := by
    intro sh
    simp only [copyInto?_findingsAt]
    split
    · rfl
    · exact lastSome?_none
  change ((findings g group initial).foldl note {}).actuals[advice.id]? = _
  rw [actuals_foldl_note, lastSome?_findings]
  simp only [hshadow, lastSome?_ite]
  simp

theorem unresolved_extract : (extract g group initial).value.unresolved = true ↔
    ∃ sh ∈ group.related initial, ∃ advice, sh.Binds advice ∧
      ∃ s ∈ g.statements, s.Spoils advice := by
  change ((findings g group initial).foldl note {}).unresolved = true ↔ _
  rw [unresolved_foldl_note, Bool.false_or, List.any_eq_true]
  simp only [findings, List.mem_flatMap]
  constructor
  · rintro ⟨x, ⟨sh, hsh, s, hs, hx⟩, hunresolved⟩
    obtain ⟨advice, hbinds, hspoils⟩ := exists_isUnresolved_findingsAt.mp ⟨x, hx, hunresolved⟩
    exact ⟨sh, hsh, advice, hbinds, s, hs, hspoils⟩
  · rintro ⟨sh, hsh, advice, hbinds, s, hs, hspoils⟩
    obtain ⟨x, hx, hunresolved⟩ := exists_isUnresolved_findingsAt.mpr ⟨advice, hbinds, hspoils⟩
    exact ⟨x, ⟨sh, hsh, s, hs, hx⟩, hunresolved⟩

end Extract

section Lookups

variable {g : FlowGraph} {group : Shadow.Group} {initial sh : Shadow} {formal : String}
  {advice source : Local}

theorem recorded?_eq_some_iff : recorded? g formal sh = some source ↔
    ∃ l, sh.Names formal l ∧ g.LastCopy l source := by
  simp only [recorded?, Option.bind_eq_some_iff, Shadow.named?_eq_some_iff,
    FlowGraph.lastCopy?_eq_some_iff]

theorem isSome_recorded?_iff : (recorded? g formal sh).isSome ↔
    ∃ l, sh.Names formal l ∧ ∃ s ∈ g.statements, ∃ y, s.Copies l y := by
  simp only [← FlowGraph.isSome_lastCopy?_iff, ← Shadow.named?_eq_some_iff]
  unfold recorded?
  cases sh.named? formal <;> simp

theorem recorded?_eq_none_iff : recorded? g formal sh = none ↔
    ∀ l, sh.Names formal l → ∀ s ∈ g.statements, ∀ y, ¬s.Copies l y := by
  rw [← Option.not_isSome_iff_eq_none, isSome_recorded?_iff]
  simp only [not_exists, not_and]

theorem actualOf?_extract : (extract g group initial).value.actualOf? advice = some source ↔
    (∃ sh ∈ group.related initial, sh.Binds advice) ∧ g.LastCopy advice source := by
  rw [actualOf?, actuals_extract, ← FlowGraph.lastCopy?_eq_some_iff]
  split <;> simp [*]

theorem mem_actuals_extract : advice.id ∈ (extract g group initial).value.actuals ↔
    (∃ sh ∈ group.related initial, sh.Binds advice) ∧
      ∃ s ∈ g.statements, ∃ l, s.Copies advice l := by
  rw [Std.ExtTreeMap.mem_iff_isSome_getElem?, actuals_extract, ← FlowGraph.isSome_lastCopy?_iff]
  split <;> simp [*]

theorem mem_formals_extract : formal ∈ (extract g group initial).value.formals ↔
    ∃ sh ∈ group.related initial, ∃ l, sh.Names formal l ∧
      ∃ s ∈ g.statements, ∃ y, s.Copies l y := by
  rw [Std.ExtTreeMap.mem_iff_isSome_getElem?, formals_extract, isSome_lastSome?_iff]
  simp only [isSome_recorded?_iff]

/-- A formal stands for the actual of the local that the last related shadow with a copied local
calls by it. -/
theorem formals_extract_eq_some_iff :
    (extract g group initial).value.formals[formal]? = some source ↔
      ∃ before sh after l, group.related initial = before ++ sh :: after ∧ sh.Names formal l ∧
        (extract g group initial).value.actualOf? l = some source ∧
        ∀ later ∈ after, ∀ k, later.Names formal k → ∀ s ∈ g.statements, ∀ y, ¬s.Copies k y := by
  simp only [formals_extract, lastSome?_eq_some_iff, recorded?_eq_some_iff, recorded?_eq_none_iff]
  constructor
  · rintro ⟨before, sh, after, hsplit, ⟨l, hnames, hlast⟩, hafter⟩
    have hsh : sh ∈ group.related initial := by simp [hsplit]
    exact ⟨before, sh, after, l, hsplit, hnames,
      actualOf?_extract.mpr ⟨⟨sh, hsh, hnames.binds⟩, hlast⟩, hafter⟩
  · rintro ⟨before, sh, after, l, hsplit, hnames, hactual, hafter⟩
    exact ⟨before, sh, after, hsplit, ⟨l, hnames, (actualOf?_extract.mp hactual).2⟩, hafter⟩

/-- The maps stay in step: what a formal stands for is an actual. -/
theorem exists_actualOf?_of_formals
    (h : (extract g group initial).value.formals[formal]? = some source) :
    ∃ advice, (extract g group initial).value.actualOf? advice = some source := by
  obtain ⟨-, -, -, l, -, -, hactual, -⟩ := formals_extract_eq_some_iff.mp h
  exact ⟨l, hactual⟩

end Lookups

theorem isTraceLocal_of_actualOf? {b : Bindings} {advice source l : Local}
    (h : b.actualOf? advice = some source) (hsame : l.Same source) : b.IsTraceLocal l := by
  obtain ⟨entry, hentry, rfl⟩ := Option.map_eq_some_iff.mp h
  exact ⟨(advice.id, entry), Std.ExtTreeMap.mem_toList_iff_getElem?_eq_some.mpr hentry, hsame.symm⟩

end MonitorElision.Bindings
