import MonitorElision.Proofs.Shadow.Registry
import Mathlib.Data.List.Induction

/-!
# Live shadows

A registry owns its shadows in one list, attaches them in rows by statement, and knows of those that
are disabled only the numbers. After every history the three fit together: what is active at a
statement are the shadows that were made there, in the order in which they were made, without those
whose number was ever disabled.
-/
namespace MonitorElision.Shadow.Registry

/-- The symbol is one of the tracematch, and so is every bound formal. -/
def Known (tm : Signature) (symbol : String) (bindings : Std.ExtTreeMap String Local) : Prop :=
  symbol ∈ tm.alphabet ∧ ∀ formal ∈ bindings.keys, formal ∈ tm.formals

instance (tm : Signature) (symbol : String) (bindings : Std.ExtTreeMap String Local) :
    Decidable (Known tm symbol bindings) :=
  inferInstanceAs (Decidable (_ ∧ _))

/-- The shadow that a change asks for and gets, if it is to have that number. -/
def Change.made? (registry number : Nat) : Change → Option (Statement × Shadow)
  | .attach host tm container symbol bindings =>
    if Known tm symbol bindings then
      some (host, ⟨registry, number, tm, container, symbol, bindings⟩)
    else none
  | .disable _ => none

/-- The shadows that a history makes in a new registry, with their hosts, numbered from 0. -/
def log (registry : Nat) (changes : List Change) : List (Statement × Shadow) :=
  changes.foldl (fun made c => made ++ (c.made? registry made.length).toList) []

/-- The numbers that a history disables. -/
def withdrawn (changes : List Change) : List Nat :=
  changes.filterMap fun c =>
    match c with
    | .attach _ _ _ _ _ => none
    | .disable sh => some sh.id

variable {r : Registry} {made : List (Statement × Shadow)} {numbers : List Nat} {c : Change}
  {changes : List Change} {id : Nat} {tm : Signature} {symbol : String}
  {bindings : Std.ExtTreeMap String Local}

theorem mem_withdrawn {i : Nat} :
    i ∈ withdrawn changes ↔ ∃ sh, .disable sh ∈ changes ∧ sh.id = i := by
  rw [withdrawn, List.mem_filterMap]
  constructor
  · rintro ⟨_ | sh, hmem, heq⟩
    · cases heq
    · exact ⟨sh, hmem, Option.some.inj heq⟩
  · rintro ⟨sh, hmem, rfl⟩
    exact ⟨_, hmem, rfl⟩

theorem refusal?_eq_none_iff : refusal? tm symbol bindings = none ↔ Known tm symbol bindings := by
  unfold refusal? Known
  by_cases h : symbol ∈ tm.alphabet
  · simp [h]
  · simp [h]

theorem attach_known (r : Registry) (host : Statement) (container : String)
    (h : Known tm symbol bindings) : ∃ r', r.attach host tm container symbol bindings =
      .ok (⟨r.id, r.size, tm, container, symbol, bindings⟩, r') :=
  r.exists_attach_eq_ok host container (by rw [refusal?_eq_none_iff.mpr h]; rfl)

theorem attach_unknown (r : Registry) (host : Statement) (container : String)
    (h : ¬Known tm symbol bindings) :
    ∃ f, r.attach host tm container symbol bindings = .error f := by
  cases hrefusal : refusal? tm symbol bindings with
  | none => exact absurd (refusal?_eq_none_iff.mp hrefusal) h
  | some f => exact ⟨f, by rw [attach, hrefusal]⟩

/-- A change adds just the shadow that it asks for and gets. -/
theorem adds_iff {host : Statement} {sh : Shadow} :
    r.Adds c host sh ↔ c.made? r.id r.size = some (host, sh) := by
  constructor
  · rintro ⟨tm, container, symbol, bindings, r', rfl, hattach⟩
    have hknown : Known tm symbol bindings := by
      by_contra hunknown
      obtain ⟨f, hf⟩ := r.attach_unknown host container hunknown
      rw [hattach] at hf
      cases hf
    obtain ⟨rfl, -⟩ := attach_eq_ok hattach
    rw [Change.made?, if_pos hknown]
  · intro h
    cases c with
    | attach at_ tm container symbol bindings =>
      rw [Change.made?, Option.ite_none_right_eq_some] at h
      obtain ⟨hknown, heq⟩ := h
      cases heq
      obtain ⟨r', hattach⟩ := r.attach_known host container hknown
      exact ⟨tm, container, symbol, bindings, r', rfl, hattach⟩
    | disable sh => cases h

theorem log_concat (id : Nat) (changes : List Change) (c : Change) :
    log id (changes ++ [c]) = log id changes ++ (c.made? id (log id changes).length).toList :=
  List.foldl_append

/-- The three parts of a registry after shadows were made and numbers disabled. -/
structure Holds (r : Registry) (made : List (Statement × Shadow)) (numbers : List Nat) : Prop where
  shadows : r.shadows = made.map (·.2)
  row : ∀ s, r.row s = (made.filter (·.1 = s)).map (·.2)
  disabled : ∀ i, i ∈ r.disabled ↔ i ∈ numbers

theorem holds_empty (id : Nat) : (empty id).Holds [] [] where
  shadows := rfl
  row _ := rfl
  disabled _ := Iff.rfl

theorem Holds.size_eq (h : r.Holds made numbers) : r.size = made.length := by
  rw [size, h.shadows, List.length_map]

/-- A change makes a shadow or disables a number, or it is a refused one and does nothing. -/
theorem Holds.change (h : r.Holds made numbers) (c : Change) :
    (r.change c).Holds (made ++ (c.made? r.id made.length).toList) (numbers ++ withdrawn [c]) := by
  rw [← h.size_eq]
  rcases r.change_cases c with ⟨host, sh, hadds, -, hshadows, hrow, hdisabled⟩ |
    ⟨host, tm, container, symbol, bindings, rfl, hrefused, hsame⟩ | ⟨k, rfl, hdisable⟩
  · have hmade := adds_iff.mp hadds
    obtain ⟨tm, container, symbol, bindings, r', rfl, -⟩ := hadds
    rw [hmade]
    refine ⟨?_, fun s => ?_, fun i => ?_⟩
    · rw [hshadows, h.shadows, List.map_append]
      rfl
    · rw [hrow, h.row, List.filter_append, List.map_append]
      by_cases hs : s = host
      · simp [hs]
      · simp [hs, Ne.symm hs]
    · rw [hdisabled, h.disabled]
      simp [withdrawn]
  · have hnone : (Change.attach host tm container symbol bindings).made? r.id r.size = none := by
      rw [Option.eq_none_iff_forall_not_mem]
      rintro ⟨s, sh⟩ hmade
      exact hrefused s sh (adds_iff.mpr hmade)
    rw [hsame, hnone]
    simpa [withdrawn] using h
  · rw [hdisable]
    refine ⟨?_, fun s => ?_, fun i => ?_⟩
    · exact h.shadows.trans (by simp [Change.made?])
    · exact (h.row s).trans (by simp [Change.made?])
    · simp [disable, withdrawn, h.disabled, or_comm]

theorem holds_changeAll (id : Nat) (changes : List Change) :
    ((empty id).changeAll changes).Holds (log id changes) (withdrawn changes) := by
  induction changes using List.reverseRecOn with
  | nil => exact holds_empty id
  | append_singleton changes c ih =>
    have hstep := ih.change c
    rw [id_changeAll] at hstep
    rw [log_concat, withdrawn, List.filterMap_append, changeAll, List.foldl_append]
    exact hstep

/-- What a registry answers, if these shadows were made and these numbers disabled. A shadow is
refused just in case it is unknown to its tracematch, and then nothing changes. -/
structure Live (r : Registry) (made : List (Statement × Shadow)) (numbers : List Nat) : Prop where
  size : r.size = made.length
  numbered : made.map (·.2.id) = List.range made.length
  owned : r.shadows = made.map (·.2)
  attach_fails : ∀ host tm container symbol bindings,
    (∃ f, r.attach host tm container symbol bindings = .error f) ↔ ¬Known tm symbol bindings
  attach_failed : ∀ host tm container symbol bindings, ¬Known tm symbol bindings →
    r.change (.attach host tm container symbol bindings) = r
  attach_made : ∀ host tm container symbol bindings, Known tm symbol bindings →
    ∃ r', r.attach host tm container symbol bindings =
      .ok (⟨r.id, made.length, tm, container, symbol, bindings⟩, r')
  active : ∀ s container, r.active s container = (made.filter fun e =>
    e.1 = s ∧ e.2.container = container ∧ e.2.id ∉ numbers).map (·.2)
  ordered : ∀ s container, (r.active s container).Pairwise (· < ·)

theorem Holds.active_eq (h : r.Holds made numbers) (s : Statement) (container : String) :
    r.active s container = (made.filter fun e =>
      e.1 = s ∧ e.2.container = container ∧ e.2.id ∉ numbers).map (·.2) := by
  rw [Registry.active, h.row, List.filter_map, List.filter_filter]
  refine congrArg _ (List.filter_congr fun e _ => ?_)
  rw [Bool.eq_iff_iff]
  simp only [Function.comp_apply, Bool.and_eq_true, decide_eq_true_eq, Enabled, h.disabled]
  exact and_comm

theorem Holds.numbered_eq (h : r.Holds made numbers) :
    made.map (·.2.id) = List.range made.length := by
  have hnumbered := r.numbered
  rw [h.shadows, List.map_map, List.length_map] at hnumbered
  exact hnumbered

/-- The shadows are made with growing numbers, so what is left of them is in that order. -/
theorem Holds.pairwise_active (h : r.Holds made numbers) (s : Statement) (container : String) :
    (r.active s container).Pairwise (· < ·) := by
  have hgrowing : made.Pairwise fun a b => a.2.id < b.2.id := by
    rw [← List.pairwise_map (f := fun e : Statement × Shadow => e.2.id), h.numbered_eq]
    exact List.pairwise_lt_range
  rw [h.active_eq]
  exact List.pairwise_map.mpr (hgrowing.filter _)

theorem Holds.live (h : r.Holds made numbers) : r.Live made numbers where
  size := h.size_eq
  numbered := h.numbered_eq
  owned := h.shadows
  attach_fails host tm container symbol bindings := by
    refine Fault.exists_error_iff (fun hknown => ?_) (r.attach_unknown host container)
    obtain ⟨r', hattach⟩ := r.attach_known host container hknown
    exact ⟨_, hattach⟩
  attach_failed host tm container symbol bindings hunknown := by
    obtain ⟨f, hf⟩ := r.attach_unknown host container hunknown
    simp only [Registry.change, hf]
  attach_made host tm container symbol bindings hknown := by
    rw [← h.size_eq]
    exact r.attach_known host container hknown
  active := h.active_eq
  ordered := h.pairwise_active

/-- After every history a registry reports just the live shadows, whatever of the history failed.
Once a number is disabled, no shadow of that number is active again, whatever happens later. -/
theorem live_history (id : Nat) (changes : List Change) :
    ((empty id).changeAll changes).Live (log id changes) (withdrawn changes) ∧
    ∀ k, .disable k ∈ changes → ∀ later s container,
      ∀ sh ∈ ((empty id).changeAll (changes ++ later)).active s container, ¬k.Same sh := by
  refine ⟨(holds_changeAll id changes).live, ?_⟩
  intro k hk later s container sh hsh hsame
  have hwithdrawn : sh.id ∈ withdrawn (changes ++ later) :=
    mem_withdrawn.mpr ⟨k, List.mem_append_left _ hk, hsame⟩
  rw [(holds_changeAll id (changes ++ later)).active_eq] at hsh
  simp only [List.mem_map, List.mem_filter, decide_eq_true_eq] at hsh
  obtain ⟨e, ⟨-, -, -, hkept⟩, rfl⟩ := hsh
  exact hkept hwithdrawn

-- A shadow of another registry disables a number that is not given yet. The shadow that is refused
-- takes no number, so the second one made is the one that is never active.
example :
    let tm : Signature := ⟨0, "lamp", [], .ofList ["turn"]⟩
    let s : Statement := ⟨0, 0, .nop ""⟩
    let r := (empty 0).changeAll [.disable ⟨1, 1, tm, "m", "turn", ∅⟩, .attach s tm "m" "turn" ∅,
      .attach s tm "m" "break" ∅, .attach s tm "m" "turn" ∅, .attach s tm "n" "turn" ∅]
    r.size = 3 ∧ (r.active s "m").map (·.id) = [0] ∧ (r.active s "n").map (·.id) = [2] := by
  decide +kernel

end MonitorElision.Shadow.Registry
