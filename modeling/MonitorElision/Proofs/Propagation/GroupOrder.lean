import MonitorElision.Proofs.Propagation.Bindings
import MonitorElision.Proofs.Propagation.Verdict

/-!
# The order of a group

In which order the shadows of a group were added matters only for the formals, and there only if two
related shadows record different locals for one formal: then the later shadow has its way. If all
agree, an analysis does not depend on the order.
-/
namespace MonitorElision

namespace Bindings

/-- No two related shadows record different locals for one formal. -/
def Agree (g : FlowGraph) (group : Shadow.Group) (initial : Shadow) : Prop :=
  ∀ formal, ∀ sh ∈ group.related initial, ∀ sh' ∈ group.related initial, ∀ k k' l l',
    sh.Names formal k → g.LastCopy k l → sh'.Names formal k' → g.LastCopy k' l' → l = l'

variable {g : FlowGraph} {group group' : Shadow.Group} {initial sh : Shadow} {formal : String}
  {l : Local} {b b' : Bindings}

theorem ext_iff : b = b' ↔
    b.formals = b'.formals ∧ b.actuals = b'.actuals ∧ b.unresolved = b'.unresolved := by
  cases b
  cases b'
  exact Bindings.mk.injEq _ _ _ _ _ _ |>.to_iff

section Perm

variable (h : group'.shadows.Perm group.shadows)
include h

theorem mem_related_of_perm : sh ∈ group'.related initial ↔ sh ∈ group.related initial := by
  simp only [Shadow.Group.related, List.mem_filter, h.mem_iff]

theorem actuals_extract_of_perm :
    (extract g group' initial).value.actuals = (extract g group initial).value.actuals := by
  apply Std.ExtTreeMap.ext_getElem?
  intro k
  have hadvice : (⟨k, ""⟩ : Local).id = k := rfl
  rw [← hadvice, actuals_extract, actuals_extract]
  simp only [mem_related_of_perm h]

theorem unresolved_extract_of_perm :
    (extract g group' initial).value.unresolved = (extract g group initial).value.unresolved := by
  rw [Bool.eq_iff_iff, unresolved_extract, unresolved_extract]
  simp only [mem_related_of_perm h]

theorem mem_formals_extract_of_perm : formal ∈ (extract g group' initial).value.formals ↔
    formal ∈ (extract g group initial).value.formals := by
  rw [mem_formals_extract, mem_formals_extract]
  simp only [mem_related_of_perm h]

theorem extract_of_perm (hagree : Agree g group initial) :
    (extract g group' initial).value = (extract g group initial).value := by
  refine ext_iff.mpr ⟨?_, actuals_extract_of_perm h, unresolved_extract_of_perm h⟩
  apply Std.ExtTreeMap.ext_getElem?
  intro formal
  rw [formals_extract, formals_extract, eq_comm]
  apply lastSome?_eq_of_mem_iff
  · exact fun sh => (mem_related_of_perm h).symm
  · intro sh hsh sh' hsh' l l' hl hl'
    obtain ⟨k, hk, hlast⟩ := recorded?_eq_some_iff.mp hl
    obtain ⟨k', hk', hlast'⟩ := recorded?_eq_some_iff.mp hl'
    exact hagree formal sh hsh sh' hsh' k k' l l' hk hlast hk' hlast'

end Perm

/-- In some order of the group the shadow comes last and has its way. -/
theorem exists_perm_formals (hsh : sh ∈ group.related initial)
    (hl : recorded? g formal sh = some l) : ∃ group', group'.shadows.Perm group.shadows ∧
      (extract g group' initial).value.formals[formal]? = some l := by
  obtain ⟨hmem, hrelated⟩ := List.mem_filter.mp hsh
  obtain ⟨before, after, hsplit⟩ := List.append_of_mem hmem
  refine ⟨{ group with shadows := before ++ after ++ [sh] }, ?_, ?_⟩
  · rw [hsplit]
    exact (List.perm_append_singleton sh (before ++ after)).trans List.perm_middle.symm
  · rw [formals_extract, Shadow.Group.related, List.filter_append, lastSome?_append]
    simp [hrelated, hl]

theorem agree_of_forall_perm (h : ∀ group', group'.shadows.Perm group.shadows →
    (extract g group' initial).value = (extract g group initial).value) :
    Agree g group initial := by
  intro formal sh hsh sh' hsh' k k' l l' hk hlast hk' hlast'
  obtain ⟨last, hperm, hl⟩ :=
    exists_perm_formals hsh (recorded?_eq_some_iff.mpr ⟨k, hk, hlast⟩)
  obtain ⟨last', hperm', hl'⟩ :=
    exists_perm_formals hsh' (recorded?_eq_some_iff.mpr ⟨k', hk', hlast'⟩)
  rw [h last hperm] at hl
  rw [h last' hperm', hl] at hl'
  exact Option.some.inj hl'

end Bindings

namespace Propagator

open Propagation

variable {g : FlowGraph} {group group' : Shadow.Group} {sh : Shadow} {r : Shadow.Registry}
  {E : Environment}

/-- An analysis sees of a group only the bindings. -/
theorem value_construct_congr
    (h : (Bindings.extract g group' sh).value = (Bindings.extract g group sh).value) :
    (construct g group' sh r E).value = (construct g group sh r E).value := by
  have hprepare : (Setup.prepare g group' sh r E.tracematch).value =
      (Setup.prepare g group sh r E.tracematch).value := by
    rw [Setup.value_prepare, Setup.value_prepare, h]
  simp only [construct, Narrated.value_bind, hprepare]

/-- Whatever the order of a group, the actuals, the formals that are bound and whether the bindings
are resolved are the same. The bindings as a whole are the same in every order just in case the
related shadows agree on the formals, and then so is the analysis. -/
theorem construct_perm (g : FlowGraph) (group : Shadow.Group) (sh : Shadow) (r : Shadow.Registry)
    (E : Environment) :
    (∀ group' : Shadow.Group, group'.shadows.Perm group.shadows →
      (Bindings.extract g group' sh).value.actuals = (Bindings.extract g group sh).value.actuals ∧
      (Bindings.extract g group' sh).value.unresolved =
        (Bindings.extract g group sh).value.unresolved ∧
      ∀ formal, formal ∈ (Bindings.extract g group' sh).value.formals ↔
        formal ∈ (Bindings.extract g group sh).value.formals) ∧
    (Bindings.Agree g group sh ↔ ∀ group' : Shadow.Group, group'.shadows.Perm group.shadows →
      (Bindings.extract g group' sh).value = (Bindings.extract g group sh).value) ∧
    (Bindings.Agree g group sh → ∀ group' : Shadow.Group, group'.shadows.Perm group.shadows →
      (construct g group' sh r E).value = (construct g group sh r E).value) := by
  refine ⟨?_, ?_, ?_⟩
  · intro group' h
    exact ⟨Bindings.actuals_extract_of_perm h, Bindings.unresolved_extract_of_perm h,
      fun formal => Bindings.mem_formals_extract_of_perm h⟩
  · exact ⟨fun hagree group' h => Bindings.extract_of_perm h hagree,
      Bindings.agree_of_forall_perm⟩
  · exact fun hagree group' h => value_construct_congr (Bindings.extract_of_perm h hagree)

/-- If two lamps are turned and reset under one formal, the shadow added last decides which of them
is tracked, and with it the verdict. -/
theorem safelyInvariant_depends_on_order :
    Lamp.resetThenTurn.shadows.Perm Lamp.turnThenReset.shadows ∧
    (∃ p, Lamp.analysis Lamp.y Lamp.turnThenReset = .ok p ∧
      p.setup.bindings.formals["v"]? = some Lamp.y ∧
      ¬p.latch.Closed ∧ ¬p.SafelyInvariant (Lamp.procedure Lamp.y)) ∧
    ∃ p, Lamp.analysis Lamp.y Lamp.resetThenTurn = .ok p ∧
      p.setup.bindings.formals["v"]? = some Lamp.x ∧
      ¬p.latch.Closed ∧ p.SafelyInvariant (Lamp.procedure Lamp.y) := by
  refine ⟨List.Perm.swap _ _ _, ?_, ?_⟩ <;> decide +kernel

theorem construct_perm_lamp :
    Bindings.Agree (Lamp.procedure Lamp.x) Lamp.turnThenReset Lamp.turn ∧
      Lamp.analysis Lamp.x Lamp.resetThenTurn = Lamp.analysis Lamp.x Lamp.turnThenReset := by
  obtain ⟨-, -, hanalysis⟩ := construct_perm (Lamp.procedure Lamp.x) Lamp.turnThenReset Lamp.turn
    Lamp.registry Lamp.environment
  have hcopied : ∀ i, ((Lamp.procedure Lamp.x).instr i).copied? ∈ [none, some Lamp.x] := by decide
  have hlast : ∀ k l, (Lamp.procedure Lamp.x).LastCopy k l → l = Lamp.x := by
    rintro k l ⟨i, ⟨target, -, hinstr⟩, -⟩
    have hi := hcopied i
    change (Lamp.procedure Lamp.x).instr i = _ at hinstr
    rw [hinstr] at hi
    simpa [Instr.copied?, Value.source?] using hi
  have hagree : Bindings.Agree (Lamp.procedure Lamp.x) Lamp.turnThenReset Lamp.turn :=
    fun _ _ _ _ _ _ _ _ _ _ hl _ hl' => (hlast _ _ hl).trans (hlast _ _ hl').symm
  exact ⟨hagree, hanalysis hagree Lamp.resetThenTurn (List.Perm.swap _ _ _)⟩

end Propagator
end MonitorElision
