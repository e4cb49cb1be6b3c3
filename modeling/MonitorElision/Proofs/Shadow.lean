import MonitorElision.Shadow.Group
import Mathlib.Data.List.Basic

/-!
# Formals of a local

A shadow may bind one local to several formals. It calls the local by the least of them, and so
calls at most one local by a formal.
-/
namespace MonitorElision.Shadow

/-- The formal is the least one bound to the local. -/
structure Names (sh : Shadow) (formal : String) (l : Local) : Prop where
  bound : sh.localOf? formal = some l
  least : ∀ other k, sh.localOf? other = some k → k.Same l → formal ≤ other

/-- The local that is called by the formal. -/
def named? (sh : Shadow) (formal : String) : Option Local :=
  (sh.localOf? formal).filter fun l => sh.formalOf? l = some formal

/-- The shadows of the group that are related to the initial one, in the order of the group. -/
def Group.related (group : Shadow.Group) (initial : Shadow) : List Shadow :=
  group.shadows.filter (·.Related initial)

variable {sh : Shadow} {formal : String} {l k : Local}

theorem mem_toList_bindings : (formal, l) ∈ sh.bindings.toList ↔ sh.localOf? formal = some l :=
  Std.ExtTreeMap.mem_toList_iff_getElem?_eq_some

theorem binds_iff : sh.Binds l ↔ ∃ formal k, sh.localOf? formal = some k ∧ k.Same l := by
  simp only [Binds, Prod.exists, mem_toList_bindings]

theorem Binds.same (h : sh.Binds l) (hlk : l.Same k) : sh.Binds k := by
  obtain ⟨e, he, hel⟩ := h
  exact ⟨e, he, hel.trans hlk⟩

theorem formalOf?_eq_none_iff : sh.formalOf? l = none ↔ ¬sh.Binds l := by
  simp [formalOf?, Binds]

theorem exists_formalOf?_iff : (∃ formal, sh.formalOf? l = some formal) ↔ sh.Binds l := by
  rw [← Option.ne_none_iff_exists', ne_eq, formalOf?_eq_none_iff, not_not]

theorem names_of_formalOf? (h : sh.formalOf? l = some formal) :
    ∃ k, k.Same l ∧ sh.Names formal k := by
  -- The bindings are listed by formal, so the first one found is the least.
  have hordered : sh.bindings.toList.Pairwise fun a b => compare a.1 b.1 = .lt :=
    Std.ExtTreeMap.ordered_keys_toList
  obtain ⟨⟨first, k⟩, hfind, rfl⟩ := Option.map_eq_some_iff.mp h
  obtain ⟨hsame, before, after, hsplit, hbefore⟩ := List.find?_eq_some_iff_append.mp hfind
  have hk : k.Same l := of_decide_eq_true hsame
  rw [hsplit] at hordered
  refine ⟨k, hk, ?_, ?_⟩
  · rw [← mem_toList_bindings, hsplit]
    simp
  · intro other k' hother hk'
    rw [← mem_toList_bindings, hsplit] at hother
    rcases List.mem_append.mp hother with hother | hother
    · have hmissed := hbefore _ hother
      simp [hk'.trans hk] at hmissed
    · rcases List.mem_cons.mp hother with heq | hother
      · cases heq
        exact Std.le_refl _
      · have hlt := List.rel_of_pairwise_cons (List.pairwise_append.mp hordered).2.1 hother
        exact Std.le_of_lt (compareOfLessAndEq_eq_lt.mp hlt)

/-- A bound local is called by the least formal bound to it. -/
theorem formalOf?_eq_some_iff :
    sh.formalOf? l = some formal ↔ ∃ k, k.Same l ∧ sh.Names formal k := by
  constructor
  · exact names_of_formalOf?
  · rintro ⟨k, hk, hnames⟩
    obtain ⟨found, hfound⟩ :=
      exists_formalOf?_iff.mpr (binds_iff.mpr ⟨formal, k, hnames.bound, hk⟩)
    obtain ⟨k', hk', hnames'⟩ := names_of_formalOf? hfound
    have hle := hnames.least found k' hnames'.bound (hk'.trans hk.symm)
    have hge := hnames'.least formal k hnames.bound (hk.trans hk'.symm)
    rw [hfound, Std.le_antisymm hge hle]

theorem Names.formalOf?_eq_some_iff (h : sh.Names formal k) :
    sh.formalOf? l = some formal ↔ l.Same k := by
  rw [Shadow.formalOf?_eq_some_iff]
  constructor
  · rintro ⟨k', hk', hnames'⟩
    obtain rfl := Option.some.inj (hnames'.bound.symm.trans h.bound)
    exact hk'.symm
  · exact fun hl => ⟨k, hl.symm, h⟩

theorem Names.binds (h : sh.Names formal l) : sh.Binds l :=
  binds_iff.mpr ⟨formal, l, h.bound, Local.Same.refl l⟩

theorem named?_eq_some_iff : sh.named? formal = some l ↔ sh.Names formal l := by
  rw [named?, Option.filter_eq_some_iff, decide_eq_true_eq]
  constructor
  · rintro ⟨hbound, hformal⟩
    obtain ⟨k, -, hnames⟩ := formalOf?_eq_some_iff.mp hformal
    obtain rfl := Option.some.inj (hnames.bound.symm.trans hbound)
    exact hnames
  · exact fun h => ⟨h.bound, h.formalOf?_eq_some_iff.mpr (Local.Same.refl l)⟩

theorem formalOf?_eq_some_iff_named? :
    sh.formalOf? l = some formal ↔ ∃ k ∈ sh.named? formal, l.Same k := by
  simp only [formalOf?_eq_some_iff, Option.mem_def, named?_eq_some_iff]
  constructor
  · rintro ⟨k, hk, hnames⟩
    exact ⟨k, hnames, hk.symm⟩
  · rintro ⟨k, hnames, hk⟩
    exact ⟨k, hk.symm, hnames⟩

end MonitorElision.Shadow
