import MonitorElision.Proofs.Propagation.Bindings
import MonitorElision.Proofs.Propagation.Verdict
import MonitorElision.Proofs.Shadow.Registry

/-!
# Unrelated shadows

A shadow of another tracematch or of another procedure is passed over three times: when the
statement of the initial shadow is looked for, when the bindings are extracted, and when the
automaton moves. So an analysis that asks the shadows where it may move is the same with and without
it.
-/
namespace MonitorElision

namespace Shadow

/-- The second list is the first one with shadows put in that are not related to `sh`. -/
inductive Padded (sh : Shadow) : List Shadow → List Shadow → Prop
  | nil : Padded sh [] []
  | keep {k l l'} : Padded sh l l' → Padded sh (k :: l) (k :: l')
  | pad {k l l'} : ¬k.Related sh → Padded sh l l' → Padded sh l (k :: l')

theorem Padded.filter_related {sh : Shadow} {l l' : List Shadow} (h : Padded sh l l') :
    l'.filter (·.Related sh) = l.filter (·.Related sh) := by
  induction h with
  | nil => rfl
  | keep _ ih => rw [List.filter_cons, List.filter_cons, ih]
  | pad hk _ ih => rw [List.filter_cons, if_neg (by simpa using hk), ih]

end Shadow

namespace Shadow.Registry

/-- The change attaches a shadow, or tries to, that is not related to `sh`. -/
def Change.Unrelated (sh : Shadow) : Change → Prop
  | .attach _ tm container _ _ => tm.id ≠ sh.tracematch.id ∨ container ≠ sh.container
  | .disable _ => False

/-- More is hosted, under new numbers and not related to `sh`. -/
structure Joined (sh : Shadow) (r r' : Registry) : Prop where
  id : r'.id = r.id
  disabled : r'.disabled = r.disabled
  size_le : r.size ≤ r'.size
  row : ∀ s, ∃ more, r'.row s = r.row s ++ more ∧ ∀ k ∈ more, r.size ≤ k.id ∧ ¬k.Related sh

variable {sh : Shadow} {r r' r'' : Registry} {s : Statement} {tm : Signature}

namespace Joined

theorem refl (sh : Shadow) (r : Registry) : r.Joined sh r :=
  ⟨rfl, rfl, le_rfl, fun _ => ⟨[], (List.append_nil _).symm, by simp⟩⟩

theorem trans (h : r.Joined sh r') (h' : r'.Joined sh r'') : r.Joined sh r'' := by
  refine ⟨h'.id.trans h.id, h'.disabled.trans h.disabled, h.size_le.trans h'.size_le, fun s => ?_⟩
  obtain ⟨more, hrow, hmore⟩ := h.row s
  obtain ⟨more', hrow', hmore'⟩ := h'.row s
  refine ⟨more ++ more', ?_, ?_⟩
  · rw [hrow', hrow, List.append_assoc]
  · intro k hk
    rcases List.mem_append.mp hk with hk | hk
    · exact hmore k hk
    · obtain ⟨hnumber, hunrelated⟩ := hmore' k hk
      exact ⟨h.size_le.trans hnumber, hunrelated⟩

theorem change {c : Change} (hc : c.Unrelated sh) : r.Joined sh (r.change c) := by
  rcases r.change_cases c with ⟨host, k, hadds, hid, hshadows, hrow, hdisabled⟩ |
    ⟨_, _, _, _, _, -, -, hsame⟩ | ⟨_, rfl, -⟩
  · obtain ⟨tm, container, symbol, bindings, _, rfl, hattach⟩ := hadds
    obtain ⟨rfl, -⟩ := attach_eq_ok hattach
    refine ⟨hid, hdisabled, ?_, fun s => ?_⟩
    · simp [size, hshadows]
    · by_cases hs : s = host
      · refine ⟨_, (hrow s).trans (if_pos hs), ?_⟩
        intro k hk
        obtain rfl := List.mem_singleton.mp hk
        refine ⟨le_rfl, ?_⟩
        rintro ⟨htm, hcontainer⟩
        exact hc.elim (· htm) (· hcontainer)
      · exact ⟨[], by rw [hrow, if_neg hs, List.append_nil], by simp⟩
  · rw [hsame]
    exact refl sh r
  · exact hc.elim

theorem changeAll {changes : List Change} (h : ∀ c ∈ changes, c.Unrelated sh) :
    r.Joined sh (r.changeAll changes) := by
  induction changes generalizing r with
  | nil => exact refl sh r
  | cons c changes ih =>
    have hrest : ∀ d ∈ changes, d.Unrelated sh := fun d hd => h d (List.mem_cons_of_mem c hd)
    exact (change (h c List.mem_cons_self)).trans (ih hrest)

variable (h : r.Joined sh r')
include h

/-- What is active besides is new and belongs to another tracematch. -/
theorem active (s : Statement) : ∃ more,
    r'.active s sh.container = r.active s sh.container ++ more ∧
      ∀ k ∈ more, r.size ≤ k.id ∧ k.tracematch.id ≠ sh.tracematch.id := by
  obtain ⟨more, hrow, hmore⟩ := h.row s
  refine ⟨more.filter fun k => k.container = sh.container ∧ r.Enabled k, ?_, ?_⟩
  · have henabled : r'.Enabled = r.Enabled := by
      funext k
      rw [Enabled, h.disabled]
      rfl
    rw [Registry.active, Registry.active, hrow, ← List.filter_append]
    simp only [henabled]
  · intro k hk
    simp only [List.mem_filter, decide_eq_true_eq] at hk
    obtain ⟨hmem, hcontainer, -⟩ := hk
    obtain ⟨hnumber, hunrelated⟩ := hmore k hmem
    exact ⟨hnumber, fun htm => hunrelated ⟨htm, hcontainer⟩⟩

/-- The statement of a shadow that exists is found as before. -/
theorem hosts_iff (hsh : sh.registry = r.id → sh.id < r.size) :
    Propagation.Setup.Hosts r' sh s ↔ Propagation.Setup.Hosts r sh s := by
  obtain ⟨more, hactive, hmore⟩ := h.active s
  have hothers : ∀ k ∈ more, ¬k.Is sh := by
    rintro k hk ⟨hregistry, hid⟩
    have hmem : k ∈ r'.active s sh.container := by
      rw [hactive]
      exact List.mem_append_right _ hk
    have howned : k.registry = r'.id := registry_eq_of_mem_hosted (mem_active.mp hmem).1
    have hlt := hsh (hregistry.symm.trans (howned.trans h.id))
    have hle := (hmore k hk).1
    omega
  unfold Propagation.Setup.Hosts
  rw [hactive]
  constructor
  · rintro ⟨k, hk, his⟩
    rcases List.mem_append.mp hk with hk | hk
    · exact ⟨k, hk, his⟩
    · exact absurd his (hothers k hk)
  · rintro ⟨k, hk, his⟩
    exact ⟨k, List.mem_append_left _ hk, his⟩

/-- The automaton is moved by the same shadows as before. -/
theorem relevant_eq (htm : sh.tracematch = tm) :
    Oracle.relevant r' sh.container tm s = Oracle.relevant r sh.container tm s := by
  obtain ⟨more, hactive, hmore⟩ := h.active s
  have hnone : more.filter (·.tracematch.id = tm.id) = [] := by
    rw [List.filter_eq_nil_iff]
    intro k hk
    rw [← htm]
    simpa using (hmore k hk).2
  rw [Oracle.relevant, hactive, List.filter_append, hnone, List.append_nil]
  rfl

end Joined
end Shadow.Registry

namespace Propagation.Setup

/-- An analysis knows of the program what the oracles answer, and from which stock. -/
theorem analysis_congr {S : Setup} {E E' : Environment}
    (hsuccessors : S.successors E' = S.successors E) (hpool : S.pool E' = S.pool E)
    (htriggers : E'.mayTrigger = E.mayTrigger) : S.analysis E' = S.analysis E := by
  have hpass : S.pass E' = S.pass E := by
    funext p s incoming
    simp only [pass, hsuccessors]
  have hflow : S.flow E' = S.flow E := by
    funext p s incoming outgoing
    simp only [flow, htriggers, hpass]
  have hstep : S.step E' = S.step E := by
    funext x s incoming outgoing
    simp only [step, hflow]
  simp only [analysis, hstep, hpool]

end Propagation.Setup

namespace Propagator

open Propagation

variable {g : FlowGraph} {group group' : Shadow.Group} {sh : Shadow} {r r' : Shadow.Registry}
  {tm : Tracematch}

theorem extract_padded (h : Shadow.Padded sh group.shadows group'.shadows) :
    Bindings.extract g group' sh = Bindings.extract g group sh := by
  simp only [Bindings.extract, Bindings.findings, h.filter_related]

theorem prepare_joined (h : r.Joined sh r') (hsh : sh.registry = r.id → sh.id < r.size)
    (hgroup : Shadow.Padded sh group.shadows group'.shadows) :
    Setup.prepare g group' sh r' tm = Setup.prepare g group sh r tm := by
  have hstart : g.statements.find? (Setup.Hosts r' sh ·) =
      g.statements.find? (Setup.Hosts r sh ·) := by
    simp only [h.hosts_iff hsh]
  simp only [Setup.prepare, hstart, extract_padded hgroup]

theorem run_joined (h : r.Joined sh r') (htm : sh.tracematch = tm.signature)
    (triggers : Statement → Bool) (S : Setup) (progress : Progress) :
    run g ⟨tm, .shadows r' sh.container, triggers⟩ S progress =
      run g ⟨tm, .shadows r sh.container, triggers⟩ S progress := by
  have hanalysis : S.analysis ⟨tm, .shadows r' sh.container, triggers⟩ =
      S.analysis ⟨tm, .shadows r sh.container, triggers⟩ := by
    apply Setup.analysis_congr
    · funext s x
      simp only [Setup.successors, Setup.context, Oracle.shadows, h.relevant_eq htm]
    · rfl
    · rfl
  unfold run
  rw [hanalysis]

/-- Shadows of other tracematches or other procedures change nothing, wherever they are attached,
refused or not, and wherever they stand in the group. -/
theorem construct_unrelated (g : FlowGraph) (triggers : Statement → Bool)
    (htm : sh.tracematch = tm.signature) (hsh : sh.registry = r.id → sh.id < r.size)
    {changes : List Shadow.Registry.Change} (hchanges : ∀ c ∈ changes, c.Unrelated sh)
    (hgroup : Shadow.Padded sh group.shadows group'.shadows) :
    construct g group' sh (r.changeAll changes)
        ⟨tm, .shadows (r.changeAll changes) sh.container, triggers⟩ =
      construct g group sh r ⟨tm, .shadows r sh.container, triggers⟩ := by
  have h : r.Joined sh (r.changeAll changes) := .changeAll hchanges
  unfold construct
  rw [prepare_joined h hsh hgroup]
  simp only [run_joined h htm]

end Propagator

namespace Lamp

/-- Another tracematch, of the same name. -/
def double : Signature := { machine.signature with id := 1 }

/-- A turn of the lamp that is reset, at the same statement and by the same formal, but of another
tracematch or in another procedure. -/
def stranger (i : Nat) (tm : Signature) (container : String) : Shadow :=
  ⟨0, i, tm, container, "turn", .ofList [("v", reset)]⟩

def strangers : List Shadow.Registry.Change :=
  [.attach ⟨0, 3, .nop ""⟩ double "m" "turn" (.ofList [("v", reset)]),
    .attach ⟨0, 3, .nop ""⟩ double "m" "break" ∅,
    .attach ⟨0, 3, .nop ""⟩ machine.signature "n" "turn" (.ofList [("v", reset)])]

/-- The strangers stand before, between and behind the others. -/
def crowd : Shadow.Group :=
  ⟨"m", [stranger 3 double "m", turn, stranger 4 machine.signature "n", shadow 1 "reset" reset,
    stranger 3 double "m"]⟩

def crowdedAnalysis : Except Fault Propagator :=
  (Propagator.construct (procedure x) crowd turn (registry.changeAll strangers)
    { environment with oracle := .shadows (registry.changeAll strangers) "m" }).value

end Lamp

namespace Propagator

theorem construct_unrelated_lamp :
    (Lamp.registry.changeAll Lamp.strangers).shadows.map (·.id) = [0, 1, 2, 3, 4] ∧
    ∃ p, Lamp.analysis Lamp.x Lamp.turnThenReset = .ok p ∧ Lamp.crowdedAnalysis = .ok p ∧
      ¬p.SafelyInvariant (Lamp.procedure Lamp.x) := by
  have hrun : ∃ p, Lamp.analysis Lamp.x Lamp.turnThenReset = .ok p ∧
      ¬p.SafelyInvariant (Lamp.procedure Lamp.x) := by decide +kernel
  obtain ⟨p, hp, hunsafe⟩ := hrun
  have hchanges : ∀ c ∈ Lamp.strangers, c.Unrelated Lamp.turn := by
    intro c hc
    simp only [Lamp.strangers, List.mem_cons, List.not_mem_nil, or_false] at hc
    rcases hc with rfl | rfl | rfl
    · exact Or.inl (by decide)
    · exact Or.inl (by decide)
    · exact Or.inr (by decide)
  have hgroup : Shadow.Padded Lamp.turn Lamp.turnThenReset.shadows Lamp.crowd.shadows :=
    .pad (by decide) (.keep (.pad (by decide) (.keep (.pad (by decide) .nil))))
  have htm : Lamp.turn.tracematch = Lamp.machine.signature := rfl
  have hnumber : Lamp.turn.registry = Lamp.registry.id → Lamp.turn.id < Lamp.registry.size :=
    fun _ => by decide
  have hsame := construct_unrelated (Lamp.procedure Lamp.x) (fun _ => false) htm hnumber hchanges
    hgroup
  refine ⟨by decide +kernel, p, hp, ?_, hunsafe⟩
  exact (congrArg Narrated.value hsame).trans hp

end Propagator
end MonitorElision
