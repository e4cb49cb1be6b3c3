import MonitorElision.Proofs.Oracle.Firing
import MonitorElision.Proofs.Propagation.Bindings
import MonitorElision.Proofs.Propagation.Verdict

/-!
# Knowing less of the bindings

With fewer bindings known, fewer shadows must refer to the tracked objects. A shadow that only may
refer to them lets the automaton stay, but it does not discard the match where its symbol leads
nowhere. So the answers for fewer bindings can lack initial nodes, and nothing else.
-/
namespace MonitorElision

namespace Bindings

/-- Whatever the smaller bindings know of a formal or an advice local, the larger ones know too. -/
def Submap (b' b : Bindings) : Prop :=
  (∀ e ∈ b'.formals.toList, ∃ l ∈ b.formals[e.1]?, l.Same e.2) ∧
    ∀ e ∈ b'.actuals.toList, ∃ kept ∈ b.actuals[e.1]?, kept.2.Same e.2.2

instance (b' b : Bindings) : Decidable (b'.Submap b) :=
  inferInstanceAs (Decidable ((∀ e ∈ b'.formals.toList, ∃ l ∈ b.formals[e.1]?, l.Same e.2) ∧
    ∀ e ∈ b'.actuals.toList, ∃ kept ∈ b.actuals[e.1]?, kept.2.Same e.2.2))

namespace Submap

variable {b b' : Bindings} (h : b'.Submap b)
include h

theorem formals {formal : String} {l : Local} (hl : b'.formals[formal]? = some l) :
    ∃ k, b.formals[formal]? = some k ∧ k.Same l :=
  h.1 (formal, l) (Std.ExtTreeMap.mem_toList_iff_getElem?_eq_some.mpr hl)

theorem actualOf? {advice l : Local} (hl : b'.actualOf? advice = some l) :
    ∃ k, b.actualOf? advice = some k ∧ k.Same l := by
  obtain ⟨⟨kept, _⟩, hentry, rfl⟩ := Option.map_eq_some_iff.mp hl
  obtain ⟨entry, hmem, hsame⟩ :=
    h.2 (advice.id, kept, _) (Std.ExtTreeMap.mem_toList_iff_getElem?_eq_some.mpr hentry)
  exact ⟨entry.2, Option.map_eq_some_iff.mpr ⟨entry, hmem, rfl⟩, hsame⟩

/-- What must be the tracked object by the smaller bindings must be so by the larger ones. -/
theorem mustRefer {sh : Shadow} (hsh : b'.MustRefer sh) : b.MustRefer sh := by
  intro e he
  obtain ⟨tracked', htracked', hrefers⟩ := hsh e he
  obtain ⟨tracked, htracked, hsame⟩ := h.formals htracked'
  refine ⟨tracked, htracked, ?_⟩
  rcases hrefers with hdirect | ⟨actual', hactual', hcopied⟩
  · exact Or.inl (hdirect.trans hsame.symm)
  · obtain ⟨actual, hactual, hsame'⟩ := h.actualOf? hactual'
    exact Or.inr ⟨actual, hactual, (hsame'.trans hcopied).trans hsame.symm⟩

end Submap
end Bindings

section Demotion

variable {tm : Tracematch} {initial : NodeSet} {b b' : Bindings} {i : Fin tm.size} {sh : Shadow}
  {k : Nat}

/-- The shadow must refer to the tracked objects by the larger bindings only. -/
def Bindings.Demotes (b b' : Bindings) (sh : Shadow) : Prop := b.MustRefer sh ∧ ¬b'.MustRefer sh

/-- With fewer bindings a shadow may leave the automaton where it is, but leads nowhere else. -/
theorem Shadow.mem_indexes_outcome_of_submap (h : b'.Submap b)
    (hk : k ∈ (sh.outcome ⟨tm, initial, b'⟩ i).indexes) :
    k ∈ (sh.outcome ⟨tm, initial, b⟩ i).indexes ∨ k = i.val := by
  by_cases hless : b'.MustRefer sh
  · rw [mem_indexes_outcome_of_mustRefer hless] at hk
    rw [mem_indexes_outcome_of_mustRefer (h.mustRefer hless)]
    exact Or.inl hk
  · rw [mem_indexes_outcome_of_not_mustRefer hless] at hk
    rcases hk with htarget | hstays
    · left
      by_cases hmore : b.MustRefer sh
      · exact (mem_indexes_outcome_of_mustRefer hmore).mpr (Or.inl htarget)
      · exact (mem_indexes_outcome_of_not_mustRefer hmore).mpr (Or.inl htarget)
    · exact Or.inr hstays

/-- With fewer bindings no outcome is lost, except the initial nodes where the shadow is demoted and
its symbol leads nowhere. -/
theorem Shadow.mem_indexes_outcome_or_demotes (h : b'.Submap b)
    (hk : k ∈ (sh.outcome ⟨tm, initial, b⟩ i).indexes) :
    k ∈ (sh.outcome ⟨tm, initial, b'⟩ i).indexes ∨
      b.Demotes b' sh ∧ tm.targets i sh.symbol = [] ∧ k ∈ initial.indexes := by
  by_cases hmore : b.MustRefer sh
  · rw [mem_indexes_outcome_of_mustRefer hmore] at hk
    by_cases hless : b'.MustRefer sh
    · rw [mem_indexes_outcome_of_mustRefer hless]
      exact Or.inl hk
    · rw [mem_indexes_outcome_of_not_mustRefer hless]
      rcases hk with htarget | ⟨hnowhere, hinitial⟩
      · exact Or.inl (Or.inl htarget)
      · exact Or.inr ⟨⟨hmore, hless⟩, hnowhere, hinitial⟩
  · have hless : ¬b'.MustRefer sh := fun hless => hmore (h.mustRefer hless)
    rw [mem_indexes_outcome_of_not_mustRefer hmore] at hk
    rw [mem_indexes_outcome_of_not_mustRefer hless]
    exact Or.inl hk

end Demotion

namespace Oracle

/-- To know less of the bindings adds at most that the automaton stays, and takes away at most
initial nodes. It takes none away just in case the answer still holds the initial nodes wherever a
demoted shadow fires a symbol that leads nowhere. -/
theorem successors_shadows_of_submap (r : Shadow.Registry) (procedure : String) (tm : Tracematch)
    (initial : NodeSet) {b b' : Bindings} (h : b'.Submap b) (i : Fin tm.size) (s : Statement) :
    ∃ more less,
      ((shadows r procedure).successors ⟨tm, initial, b⟩ (tm.node i) s).value = .ok more ∧
      ((shadows r procedure).successors ⟨tm, initial, b'⟩ (tm.node i) s).value = .ok less ∧
      less ≤ more ∪ {tm.node i} ∧ more ≤ less ∪ initial ∧
      (more ≤ less ↔ ∀ sh ∈ relevant r procedure tm.signature s, b.Demotes b' sh →
        tm.targets i sh.symbol = [] → initial ≤ less) := by
  obtain ⟨more, hmore, hmem⟩ := exists_successors_shadows r procedure ⟨tm, initial, b⟩ i s
  obtain ⟨less, hless, hmem'⟩ := exists_successors_shadows r procedure ⟨tm, initial, b'⟩ i s
  -- Only a demoted shadow loses an outcome, and then it loses the initial nodes.
  have hlost : ∀ k ∈ more.indexes, k ∈ less.indexes ∨
      ∃ sh ∈ relevant r procedure tm.signature s, b.Demotes b' sh ∧
        tm.targets i sh.symbol = [] ∧ k ∈ initial.indexes := by
    intro k hk
    rcases (hmem k).mp hk with hidle | ⟨sh, hsh, hk⟩
    · exact Or.inl ((hmem' k).mpr (Or.inl hidle))
    · rcases Shadow.mem_indexes_outcome_or_demotes h hk with hk | hdemoted
      · exact Or.inl ((hmem' k).mpr (Or.inr ⟨sh, hsh, hk⟩))
      · exact Or.inr ⟨sh, hsh, hdemoted⟩
  refine ⟨more, less, hmore, hless, ?_, ?_, ?_, ?_⟩
  · refine NodeSet.le_iff.mpr fun k hk => NodeSet.mem_indexes_union.mpr ?_
    rcases (hmem' k).mp hk with hidle | ⟨sh, hsh, hk⟩
    · exact Or.inl ((hmem k).mpr (Or.inl hidle))
    · rcases Shadow.mem_indexes_outcome_of_submap h hk with hk | rfl
      · exact Or.inl ((hmem k).mpr (Or.inr ⟨sh, hsh, hk⟩))
      · exact Or.inr (NodeSet.mem_indexes_singleton.mpr rfl)
  · refine NodeSet.le_iff.mpr fun k hk => NodeSet.mem_indexes_union.mpr ?_
    rcases hlost k hk with hk | ⟨_, -, -, -, hk⟩
    · exact Or.inl hk
    · exact Or.inr hk
  · rintro hle sh hsh ⟨hmust, -⟩ hnowhere
    refine NodeSet.le_iff.mpr fun k hk => NodeSet.le_iff.mp hle k ?_
    refine (hmem k).mpr (Or.inr ⟨sh, hsh, ?_⟩)
    exact (Shadow.mem_indexes_outcome_of_mustRefer hmust).mpr (Or.inr ⟨hnowhere, hk⟩)
  · intro hkept
    refine NodeSet.le_iff.mpr fun k hk => ?_
    rcases hlost k hk with hk | ⟨sh, hsh, hdemoted, hnowhere, hk⟩
    · exact hk
    · exact NodeSet.le_iff.mp (hkept sh hsh hdemoted hnowhere) k hk

end Oracle

namespace Lamp

/-- Without the reset in the group, nothing is known of its advice local. -/
def turnOnly : Shadow.Group := ⟨"m", [turn]⟩

/-- What the automaton may do at the reset if the lamp is lit. -/
def reset? (group : Shadow.Group) : Except Fault NodeSet :=
  ((Oracle.shadows registry "m").successors
    ⟨machine, .ofList machine.initialNodes, (setup x group).bindings⟩ (machine.node ⟨1, by decide⟩)
    ⟨0, 3, .nop ""⟩).value

/-- If the reset lamp is known to be the lit one, the match is discarded, and the last turn lights
the lamp again. If it is not, the lamp stays lit, and the last turn puts it out. -/
theorem reset_unknown :
    (setup x turnOnly).bindings.Submap (setup x turnThenReset).bindings ∧
    (∃ more, reset? turnThenReset = .ok more ∧ ∃ less, reset? turnOnly = .ok less ∧
      more = {⟨0, 0, true, false⟩} ∧ less = {⟨0, 1, false, false⟩} ∧ ¬more ≤ less) ∧
    (∃ p, analysis x turnThenReset = .ok p ∧ ¬p.SafelyInvariant (procedure x)) ∧
    ∃ p, analysis x turnOnly = .ok p ∧ p.SafelyInvariant (procedure x) := by
  refine ⟨?_, ?_, ?_, ?_⟩ <;> decide +kernel

theorem reset_turnOnly : ∃ more less, reset? turnThenReset = .ok more ∧
    reset? turnOnly = .ok less ∧ less ≤ more ∪ {machine.node ⟨1, by decide⟩} ∧
    more ≤ less ∪ .ofList machine.initialNodes := by
  have hsub : (setup x turnOnly).bindings.Submap (setup x turnThenReset).bindings := by
    decide +kernel
  obtain ⟨more, less, hmore, hless, hstays, hinitial, -⟩ :=
    Oracle.successors_shadows_of_submap registry "m" machine (.ofList machine.initialNodes) hsub
      ⟨1, by decide⟩ ⟨0, 3, .nop ""⟩
  exact ⟨more, less, hmore, hless, hstays, hinitial⟩

end Lamp

end MonitorElision
