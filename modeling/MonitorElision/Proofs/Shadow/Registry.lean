import MonitorElision.Shadow.Registry
import Mathlib.Data.List.Nodup

/-!
# Histories of a registry

A registry changes when a shadow is attached or disabled, and a refused shadow changes nothing. What
it hosts after a history are the shadows made on the way, each under one number and so on one
statement.
-/
namespace MonitorElision.Shadow.Registry

/-- What can be asked of a registry. -/
inductive Change where
  | attach (host : Statement) (tm : Signature) (container symbol : String)
      (bindings : Std.ExtTreeMap String Local)
  | disable (sh : Shadow)

def change (r : Registry) : Change → Registry
  | .attach host tm container symbol bindings =>
    match r.attach host tm container symbol bindings with
    | .ok (_, r') => r'
    | .error _ => r
  | .disable sh => r.disable sh

def changeAll (r : Registry) (changes : List Change) : Registry := changes.foldl change r

/-- The shadows with the statements that host them. -/
def hosted (r : Registry) : List (Statement × Shadow) :=
  r.hosts.entries.flatMap fun e => e.2.map fun sh => (e.1, sh)

/-- The change attaches the shadow to the host, and the shadow is not refused. -/
def Adds (r : Registry) (c : Change) (host : Statement) (sh : Shadow) : Prop :=
  ∃ tm container symbol bindings r', c = .attach host tm container symbol bindings ∧
    r.attach host tm container symbol bindings = .ok (sh, r')

/-- At some point of the history the shadow is attached to the host. -/
def Makes (r : Registry) (changes : List Change) (host : Statement) (sh : Shadow) : Prop :=
  ∃ before c after, changes = before ++ c :: after ∧ (r.changeAll before).Adds c host sh

variable {r r' : Registry} {c : Change} {changes : List Change} {host : Statement} {sh : Shadow}
  {tm : Signature} {container symbol : String} {bindings : Std.ExtTreeMap String Local}

theorem mem_row_iff : sh ∈ r.row host ↔ ∃ shs, r.hosts.get? host = some shs ∧ sh ∈ shs := by
  rw [row]
  cases r.hosts.get? host <;> simp

theorem mem_hosted : (host, sh) ∈ r.hosted ↔ sh ∈ r.row host := by
  simp only [hosted, List.mem_flatMap, List.mem_map, Prod.exists, Prod.mk.injEq,
    OrderedMap.mem_entries_iff, mem_row_iff]
  constructor
  · rintro ⟨_, shs, hrow, _, hsh, rfl, rfl⟩
    exact ⟨shs, hrow, hsh⟩
  · rintro ⟨shs, hrow, hsh⟩
    exact ⟨host, shs, hrow, sh, hsh, rfl, rfl⟩

/-- What comes of a shadow that is not refused. -/
theorem attach_eq_ok (h : r.attach host tm container symbol bindings = .ok (sh, r')) :
    sh = ⟨r.id, r.size, tm, container, symbol, bindings⟩ ∧ r'.id = r.id ∧
      r'.shadows = r.shadows ++ [sh] ∧
      (∀ s, r'.row s = if s = host then r.row s ++ [sh] else r.row s) ∧
      r'.disabled = r.disabled := by
  unfold attach at h
  split at h
  · cases h
  · cases h
    refine ⟨rfl, rfl, rfl, fun s => ?_, rfl⟩
    simp only [row, OrderedMap.get?_update]
    by_cases hs : s = host
    · subst hs
      simp only [if_true]
      cases r.hosts.get? s <;> rfl
    · simp only [hs, if_false]

/-- A shadow that there is no reason to refuse is made, under the next number. -/
theorem exists_attach_eq_ok (r : Registry) (host : Statement) (container : String)
    (h : (refusal? tm symbol bindings).isNone) :
    ∃ r', r.attach host tm container symbol bindings =
      .ok (⟨r.id, r.size, tm, container, symbol, bindings⟩, r') := by
  rw [Option.isNone_iff_eq_none] at h
  unfold attach
  rw [h]
  exact ⟨_, rfl⟩

/-- A change adds a shadow, or is a refused one, or disables. -/
theorem change_cases (r : Registry) (c : Change) :
    (∃ host sh, r.Adds c host sh ∧ (r.change c).id = r.id ∧
      (r.change c).shadows = r.shadows ++ [sh] ∧
      (∀ s, (r.change c).row s = if s = host then r.row s ++ [sh] else r.row s) ∧
      (r.change c).disabled = r.disabled) ∨
    (∃ host tm container symbol bindings, c = .attach host tm container symbol bindings ∧
      (∀ host sh, ¬r.Adds c host sh) ∧ r.change c = r) ∨
    ∃ sh, c = .disable sh ∧ r.change c = r.disable sh := by
  cases c with
  | attach host tm container symbol bindings =>
    cases hattach : r.attach host tm container symbol bindings with
    | error f =>
      refine Or.inr (Or.inl ⟨host, tm, container, symbol, bindings, rfl, ?_, ?_⟩)
      · rintro host' sh ⟨_, _, _, _, r', heq, hadds⟩
        cases heq
        rw [hattach] at hadds
        cases hadds
      · simp only [change, hattach]
    | ok made =>
      obtain ⟨sh, r'⟩ := made
      have hchange : r.change (.attach host tm container symbol bindings) = r' := by
        simp only [change, hattach]
      obtain ⟨-, hmade⟩ := attach_eq_ok hattach
      rw [hchange]
      exact Or.inl ⟨host, sh, ⟨tm, container, symbol, bindings, r', rfl, hattach⟩, hmade⟩
  | disable sh => exact Or.inr (Or.inr ⟨sh, rfl, rfl⟩)

theorem Adds.unique {host' : Statement} {sh' : Shadow} (h : r.Adds c host sh)
    (h' : r.Adds c host' sh') : host' = host ∧ sh' = sh := by
  obtain ⟨_, _, _, _, _, rfl, hattach⟩ := h
  obtain ⟨_, _, _, _, _, heq, hattach'⟩ := h'
  cases heq
  rw [hattach] at hattach'
  cases hattach'
  exact ⟨rfl, rfl⟩

theorem mem_hosted_change :
    (host, sh) ∈ (r.change c).hosted ↔ (host, sh) ∈ r.hosted ∨ r.Adds c host sh := by
  rw [mem_hosted, mem_hosted]
  rcases r.change_cases c with ⟨host', sh', hadds, -, -, hrow, -⟩ |
    ⟨_, _, _, _, _, -, hrefused, hsame⟩ | ⟨k, rfl, hdisable⟩
  · have hnew : r.Adds c host sh ↔ host = host' ∧ sh = sh' := by
      constructor
      · exact hadds.unique
      · rintro ⟨rfl, rfl⟩
        exact hadds
    rw [hrow, hnew]
    by_cases hhost : host = host' <;> simp [hhost]
  · rw [hsame]
    exact (or_iff_left (hrefused host sh)).symm
  · rw [hdisable]
    refine (or_iff_left ?_).symm
    rintro ⟨_, _, _, _, _, heq, -⟩
    cases heq

@[simp] theorem id_change (r : Registry) (c : Change) : (r.change c).id = r.id := by
  rcases r.change_cases c with ⟨-, -, -, hid, -⟩ | ⟨_, _, _, _, _, -, -, hsame⟩ | ⟨_, -, hdisable⟩
  · exact hid
  · rw [hsame]
  · rw [hdisable]
    rfl

theorem mem_disabled_change {i : Nat} :
    i ∈ (r.change c).disabled ↔ i ∈ r.disabled ∨ ∃ sh, c = .disable sh ∧ sh.id = i := by
  rcases r.change_cases c with ⟨_, _, hadds, -, -, -, hdisabled⟩ |
    ⟨_, _, _, _, _, rfl, -, hsame⟩ | ⟨k, rfl, hdisable⟩
  · obtain ⟨_, _, _, _, _, rfl, -⟩ := hadds
    simp [hdisabled]
  · simp [hsame]
  · rw [hdisable, disable, List.mem_cons, or_comm]
    simp [eq_comm]

theorem makes_cons :
    r.Makes (c :: changes) host sh ↔ r.Adds c host sh ∨ (r.change c).Makes changes host sh := by
  constructor
  · rintro ⟨before, d, after, hsplit, hadds⟩
    cases before with
    | nil =>
      cases hsplit
      exact Or.inl hadds
    | cons b before =>
      cases hsplit
      exact Or.inr ⟨before, d, after, rfl, hadds⟩
  · rintro (hadds | ⟨before, d, after, rfl, hadds⟩)
    · exact ⟨[], c, changes, rfl, hadds⟩
    · exact ⟨c :: before, d, after, rfl, hadds⟩

theorem not_makes_nil : ¬r.Makes [] host sh := by
  rintro ⟨before, c, after, hsplit, -⟩
  simp at hsplit

section History

variable (r : Registry) (changes : List Change)

@[simp] theorem id_changeAll : (r.changeAll changes).id = r.id := by
  induction changes generalizing r with
  | nil => rfl
  | cons c changes ih => exact (ih (r.change c)).trans (id_change r c)

/-- What is hosted was hosted before or is made along the history. -/
theorem mem_hosted_changeAll : (host, sh) ∈ (r.changeAll changes).hosted ↔
    (host, sh) ∈ r.hosted ∨ r.Makes changes host sh := by
  induction changes generalizing r with
  | nil => exact (or_iff_left not_makes_nil).symm
  | cons c changes ih =>
    change (host, sh) ∈ ((r.change c).changeAll changes).hosted ↔ _
    rw [ih, mem_hosted_change, makes_cons, or_assoc]

theorem mem_disabled_changeAll {i : Nat} : i ∈ (r.changeAll changes).disabled ↔
    i ∈ r.disabled ∨ ∃ sh, .disable sh ∈ changes ∧ sh.id = i := by
  induction changes generalizing r with
  | nil => simp [changeAll]
  | cons c changes ih =>
    change i ∈ ((r.change c).changeAll changes).disabled ↔ _
    rw [ih, mem_disabled_change, or_assoc, ← exists_or]
    refine or_congr_right (exists_congr fun sh => ?_)
    rw [← or_and_right, List.mem_cons, eq_comm]

end History

section Numbers

variable (r)

theorem map_snd_hosted : (r.hosted.map (·.2)).Perm r.shadows := by
  have hrows : r.hosted.map (·.2) = r.hosts.entries.flatMap (·.2) := by
    simp [hosted, List.map_flatMap, Function.comp_def]
  exact hrows ▸ r.attached

theorem nodup_ids : (r.hosted.map (·.2.id)).Nodup := by
  have hids := r.map_snd_hosted.map Shadow.id
  rw [List.map_map, r.numbered] at hids
  exact hids.nodup_iff.mpr List.nodup_range

variable {r}

theorem mem_shadows_of_mem_hosted (h : (host, sh) ∈ r.hosted) : sh ∈ r.shadows :=
  r.map_snd_hosted.mem_iff.mp (List.mem_map_of_mem (f := Prod.snd) h)

theorem registry_eq_of_mem_hosted (h : (host, sh) ∈ r.hosted) : sh.registry = r.id :=
  r.owned sh (mem_shadows_of_mem_hosted h)

/-- A shadow is known by its number, and so is the statement that hosts it. -/
theorem eq_of_id_eq {h h' : Statement × Shadow} (hh : h ∈ r.hosted) (hh' : h' ∈ r.hosted)
    (hid : h.2.id = h'.2.id) : h = h' :=
  List.inj_on_of_nodup_map r.nodup_ids hh hh' hid

theorem mem_active {active : Shadow} : active ∈ r.active host container ↔
    (host, active) ∈ r.hosted ∧ active.container = container ∧ r.Enabled active := by
  rw [Registry.active, List.mem_filter, decide_eq_true_eq, mem_hosted]

end Numbers

end MonitorElision.Shadow.Registry
