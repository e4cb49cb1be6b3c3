import MonitorElision.Proofs.Propagation.Faults

/-!
# Joining what enters

Each ground for giving up at a statement is found at a single node that enters it, or at none at
all, and what leaves the statement is what the oracle answers node by node. So a visit treats the
union of two sets as it treats the two one by one: it gives up where it gives up for one of them,
for the same reason, and otherwise lets the union of the outcomes leave.
-/
namespace MonitorElision

theorem Latch.eq_of_not_closed {ρ : Type} {l l' : Latch ρ} (h : ¬l.Closed) (h' : ¬l'.Closed) :
    l = l' := by
  obtain ⟨reason⟩ := l
  obtain ⟨reason'⟩ := l'
  cases reason <;> cases reason' <;> simp_all [Closed]

namespace Propagation.Setup

variable {S : Setup} {E : Environment} {p : Progress} {s : Statement} {a b : NodeSet}
  {reason reason' : Reason}

section Grounds

theorem Ground.unique (h : S.Ground E s a reason) (h' : S.Ground E s a reason') :
    reason = reason' := by
  cases h with
  | sideEffect htrigger =>
    cases h' with
    | sideEffect _ => rfl
    | redefined hquiet _ _ | final hquiet _ _ _ _ => simp [htrigger] at hquiet
  | redefined hquiet _ hredefines =>
    cases h' with
    | sideEffect htrigger => simp [hquiet] at htrigger
    | redefined _ _ _ => rfl
    | final _ hkept _ _ _ => exact absurd hredefines hkept
  | final hquiet hkept _ _ _ =>
    cases h' with
    | sideEffect htrigger => simp [hquiet] at htrigger
    | redefined _ _ hredefines => exact absurd hredefines hkept
    | final _ _ _ _ _ => rfl

/-- What is a ground for some nodes is one for more of them. -/
theorem Ground.mono (h : S.Ground E s a reason) (hab : ∀ x ∈ a, x ∈ b) :
    S.Ground E s b reason := by
  cases h with
  | sideEffect htrigger => exact .sideEffect htrigger
  | redefined hquiet hx hredefines => exact .redefined hquiet (hab _ hx) hredefines
  | final hquiet hkept hx hmove hfinal => exact .final hquiet hkept (hab _ hx) hmove hfinal

/-- A ground is found at a single node. -/
theorem ground_union_iff (hab : ∀ x, x ∈ a ∪ b ↔ x ∈ a ∨ x ∈ b) :
    S.Ground E s (a ∪ b) reason ↔ S.Ground E s a reason ∨ S.Ground E s b reason := by
  constructor
  · intro h
    cases h with
    | sideEffect htrigger => exact Or.inl (.sideEffect htrigger)
    | redefined hquiet hx hredefines =>
      exact ((hab _).mp hx).imp (.redefined hquiet · hredefines) (.redefined hquiet · hredefines)
    | final hquiet hkept hx hmove hfinal =>
      exact ((hab _).mp hx).imp (.final hquiet hkept · hmove hfinal)
        (.final hquiet hkept · hmove hfinal)
  · rintro (h | h)
    · exact h.mono fun x hx => (hab x).mpr (Or.inl hx)
    · exact h.mono fun x hx => (hab x).mpr (Or.inr hx)

end Grounds

section Flow

variable {incoming outgoing : NodeSet} {flows : NodeSet × NodeSet}

/-- A visit with a ground for giving up does not leave the latch open. -/
theorem closed_flow_of_ground (h : (S.flow E p s incoming outgoing).flows = .ok flows)
    (hground : S.Ground E s (S.enter p s incoming).2 reason) :
    (S.flow E p s incoming outgoing).progress.latch.Closed := by
  by_contra hopen
  obtain ⟨-, hpassed, hincoming, -⟩ := flow_open h hopen
  rw [← hincoming] at hground
  cases hground with
  | sideEffect htrigger =>
    rw [hpassed.quiet] at htrigger
    cases htrigger
  | redefined _ hx hredefines => exact hpassed.kept _ hx hredefines
  | final _ _ hx hmove hfinal =>
    rw [(hpassed.complete _ hx _ hmove).2] at hfinal
    cases hfinal

/-- A visit gives up just for its ground. -/
theorem reason_flow_iff (hopen : ¬p.latch.Closed)
    (h : (S.flow E p s incoming outgoing).flows = .ok flows) :
    (S.flow E p s incoming outgoing).progress.latch.reason = some reason ↔
      S.Ground E s (S.enter p s incoming).2 reason := by
  constructor
  · exact ground_of_flow hopen
  · intro hground
    obtain ⟨reason', hreason⟩ := Option.isSome_iff_exists.mp (closed_flow_of_ground h hground)
    rw [hground.unique (ground_of_flow hopen hreason), hreason]

theorem AnswersWithin.mem_nodes_of_moves {after : NodeSet} (hE : S.AnswersWithin E)
    (ha : ∀ x ∈ a, x ∈ E.tracematch.nodes) (h : ∀ y ∈ after, ∃ x ∈ a, S.Moves E s x y) :
    ∀ y ∈ after, y ∈ E.tracematch.nodes := by
  intro y hy
  obtain ⟨x, hx, hmove⟩ := h y hy
  exact hE s x y (ha x hx) hmove

/-- What leaves a statement is what the oracle answers for the nodes that enter. -/
theorem Passed.mem_outgoing (h : S.Passed E s flows) (hE : S.AnswersWithin E)
    (hnodes : ∀ x ∈ flows.1, x ∈ E.tracematch.nodes) {y : Node} :
    y ∈ flows.2 ↔ ∃ x ∈ flows.1, S.Moves E s x y := by
  constructor
  · exact h.sound y
  · rintro ⟨x, hx, hmove⟩
    exact Tracematch.mem_of_mem_indexes (hE s x y (hnodes x hx) hmove)
      (hE.mem_nodes_of_moves hnodes h.sound) (h.complete x hx y hmove).1

/-- The visit lets `after` leave the statement and changes neither its own state nor what enters. -/
structure Releases (S : Setup) (E : Environment) (p : Progress) (s : Statement)
    (incoming outgoing after : NodeSet) : Prop where
  flows : (S.flow E p s incoming outgoing).flows = .ok (incoming, after)
  progress : (S.flow E p s incoming outgoing).progress = p

variable (hinjects : ¬S.Injects p s) (hanswers : S.Answers E)
  (hnodes : ∀ x ∈ incoming, x ∈ E.tracematch.nodes)
include hinjects hanswers hnodes

theorem reason_flow_iff_ground (hopen : ¬p.latch.Closed) :
    (S.flow E p s incoming outgoing).progress.latch.reason = some reason ↔
      S.Ground E s incoming reason := by
  have henter : (S.enter p s incoming).2 = incoming := by rw [enter, if_neg hinjects]
  obtain ⟨flows, hflows⟩ : ∃ flows, (S.flow E p s incoming outgoing).flows = .ok flows :=
    exists_flows_of_answers outgoing fun x hx => hanswers s x (hnodes x (henter ▸ hx))
  rw [reason_flow_iff hopen hflows, henter]

/-- A visit that injects nothing and leaves the latch open changes neither its state nor what
enters. -/
theorem exists_releases (hE : S.AnswersWithin E)
    (hstays : ¬(S.flow E p s incoming outgoing).progress.latch.Closed) :
    ∃ after, S.Releases E p s incoming outgoing after ∧
      ∀ y, y ∈ after ↔ ∃ x ∈ incoming, S.Moves E s x y := by
  have henter : S.enter p s incoming = (p, incoming) := if_neg hinjects
  have hentered : (S.enter p s incoming).2 = incoming := congrArg Prod.snd henter
  obtain ⟨⟨before, after⟩, hflows⟩ : ∃ flows, (S.flow E p s incoming outgoing).flows = .ok flows :=
    exists_flows_of_answers outgoing fun x hx => hanswers s x (hnodes x (hentered ▸ hx))
  obtain ⟨hopen, hpassed, hbefore, hinjected⟩ := flow_open hflows hstays
  rw [henter] at hbefore hinjected
  obtain rfl : before = incoming := hbefore
  refine ⟨after, ⟨hflows, ?_⟩, fun y => hpassed.mem_outgoing hE hnodes⟩
  have hlatch := Latch.eq_of_not_closed hstays hopen
  calc (S.flow E p s before outgoing).progress
      = ⟨(S.flow E p s before outgoing).progress.latch,
          (S.flow E p s before outgoing).progress.injected⟩ := rfl
    _ = p := by rw [hlatch, hinjected]

end Flow

section Union

variable (hopen : ¬p.latch.Closed) (hinjects : ¬S.Injects p s) (hanswers : S.Answers E)
  (ha : ∀ x ∈ a, x ∈ E.tracematch.nodes) (hb : ∀ x ∈ b, x ∈ E.tracematch.nodes)
  {o o₁ o₂ : NodeSet}
include hopen hinjects hanswers ha hb

theorem reason_flow_union : (S.flow E p s (a ∪ b) o).progress.latch.reason = some reason ↔
    (S.flow E p s a o₁).progress.latch.reason = some reason ∨
      (S.flow E p s b o₂).progress.latch.reason = some reason := by
  have hab : ∀ x, x ∈ a ∪ b ↔ x ∈ a ∨ x ∈ b := fun x => Tracematch.mem_union ha hb
  have hnodes : ∀ x ∈ a ∪ b, x ∈ E.tracematch.nodes := fun x hx =>
    ((hab x).mp hx).elim (ha x) (hb x)
  rw [reason_flow_iff_ground hinjects hanswers hnodes hopen,
    reason_flow_iff_ground hinjects hanswers ha hopen,
    reason_flow_iff_ground hinjects hanswers hb hopen, ground_union_iff hab]

theorem closed_flow_union : (S.flow E p s (a ∪ b) o).progress.latch.Closed ↔
    (S.flow E p s a o₁).progress.latch.Closed ∨ (S.flow E p s b o₂).progress.latch.Closed := by
  simp only [Latch.Closed, Option.isSome_iff_exists, ← exists_or]
  exact exists_congr fun reason => reason_flow_union hopen hinjects hanswers ha hb

theorem exists_releases_union (hE : S.AnswersWithin E)
    (hopen₁ : ¬(S.flow E p s a o₁).progress.latch.Closed)
    (hopen₂ : ¬(S.flow E p s b o₂).progress.latch.Closed) : ∃ after₁ after₂,
      S.Releases E p s a o₁ after₁ ∧ S.Releases E p s b o₂ after₂ ∧
      S.Releases E p s (a ∪ b) o (after₁ ∪ after₂) := by
  have hab : ∀ x, x ∈ a ∪ b ↔ x ∈ a ∨ x ∈ b := fun x => Tracematch.mem_union ha hb
  have hnodes : ∀ x ∈ a ∪ b, x ∈ E.tracematch.nodes := fun x hx =>
    ((hab x).mp hx).elim (ha x) (hb x)
  have hopen₃ : ¬(S.flow E p s (a ∪ b) o).progress.latch.Closed := fun hclosed =>
    ((closed_flow_union hopen hinjects hanswers ha hb).mp hclosed).elim hopen₁ hopen₂
  obtain ⟨after₁, hrel₁, hmem₁⟩ := exists_releases hinjects hanswers ha hE hopen₁
  obtain ⟨after₂, hrel₂, hmem₂⟩ := exists_releases hinjects hanswers hb hE hopen₂
  obtain ⟨after₃, hrel₃, hmem₃⟩ := exists_releases hinjects hanswers hnodes hE hopen₃
  have hwithin₁ := hE.mem_nodes_of_moves ha fun y => (hmem₁ y).mp
  have hwithin₂ := hE.mem_nodes_of_moves hb fun y => (hmem₂ y).mp
  have hunion : after₃ = after₁ ∪ after₂ := by
    apply NodeSet.ext
    intro y
    rw [Tracematch.mem_union hwithin₁ hwithin₂, hmem₁, hmem₂, hmem₃]
    simp only [hab, or_and_right, exists_or]
  exact ⟨after₁, after₂, hrel₁, hrel₂, hunion ▸ hrel₃⟩

section Mono

variable (hsub : ∀ x ∈ a, x ∈ b)
include hsub

theorem closed_flow_mono (hclosed : (S.flow E p s a o₁).progress.latch.Closed) :
    (S.flow E p s b o₂).progress.latch.Closed := by
  obtain ⟨reason, hreason⟩ := Option.isSome_iff_exists.mp hclosed
  rw [reason_flow_iff_ground hinjects hanswers ha hopen] at hreason
  have hreason' : (S.flow E p s b o₂).progress.latch.reason = some reason :=
    (reason_flow_iff_ground hinjects hanswers hb hopen).mpr (hreason.mono hsub)
  exact Option.isSome_of_eq_some hreason'

theorem exists_releases_mono (hE : S.AnswersWithin E)
    (hopen₂ : ¬(S.flow E p s b o₂).progress.latch.Closed) : ∃ after₁ after₂,
      S.Releases E p s a o₁ after₁ ∧ S.Releases E p s b o₂ after₂ ∧ after₁ ≤ after₂ := by
  have hopen₁ : ¬(S.flow E p s a o₁).progress.latch.Closed := fun hclosed =>
    hopen₂ (closed_flow_mono hopen hinjects hanswers ha hb hsub hclosed)
  obtain ⟨after₁, hrel₁, hmem₁⟩ := exists_releases hinjects hanswers ha hE hopen₁
  obtain ⟨after₂, hrel₂, hmem₂⟩ := exists_releases hinjects hanswers hb hE hopen₂
  refine ⟨after₁, after₂, hrel₁, hrel₂, NodeSet.le_iff_forall_mem.mpr fun y hy => ?_⟩
  obtain ⟨x, hx, hmove⟩ := (hmem₁ y).mp hy
  exact NodeSet.mem_indexes.mpr ⟨y, (hmem₂ y).mpr ⟨x, hsub x hx, hmove⟩, rfl⟩

end Mono

/-- If the oracle answers the nodes of the machine, and with such nodes, a visit that injects
nothing distributes over union, whatever left the statement before. On a union it gives up just in
case it gives up on one of the two sets, for the same reason. If it does not, the union of what
leaves for the two sets leaves, and nothing else changes. So with more entering, no less leaves, and
the visit gives up all the more. -/
theorem flow_union (hE : S.AnswersWithin E) (o o₁ o₂ : NodeSet) :
    (∀ reason, (S.flow E p s (a ∪ b) o).progress.latch.reason = some reason ↔
      (S.flow E p s a o₁).progress.latch.reason = some reason ∨
        (S.flow E p s b o₂).progress.latch.reason = some reason) ∧
    (¬(S.flow E p s a o₁).progress.latch.Closed → ¬(S.flow E p s b o₂).progress.latch.Closed →
      ∃ after₁ after₂, S.Releases E p s a o₁ after₁ ∧ S.Releases E p s b o₂ after₂ ∧
        S.Releases E p s (a ∪ b) o (after₁ ∪ after₂)) ∧
    (a ≤ b →
      ((S.flow E p s a o₁).progress.latch.Closed → (S.flow E p s b o₂).progress.latch.Closed) ∧
      (¬(S.flow E p s b o₂).progress.latch.Closed → ∃ after₁ after₂,
        S.Releases E p s a o₁ after₁ ∧ S.Releases E p s b o₂ after₂ ∧ after₁ ≤ after₂)) := by
  refine ⟨fun reason => reason_flow_union hopen hinjects hanswers ha hb,
    exists_releases_union hopen hinjects hanswers ha hb hE, fun hle => ?_⟩
  have hsub : ∀ x ∈ a, x ∈ b := fun x => Tracematch.mem_of_le ha hb hle
  exact ⟨closed_flow_mono hopen hinjects hanswers ha hb hsub,
    exists_releases_mono hopen hinjects hanswers ha hb hsub hE⟩

end Union

/-- To turn the lamp lights it or puts it out, and where it may be either, both. To open what may be
open already makes the analysis give up. -/
theorem flow_union_lamp :
    (∃ after₁ after₂,
      (Lamp.setup Lamp.x Lamp.turnThenReset).Releases Lamp.environment ⟨{}, true⟩
        ⟨0, 2, .nop ""⟩ {⟨0, 0, true, false⟩} {⟨0, 0, true, false⟩} after₁ ∧
      (Lamp.setup Lamp.x Lamp.turnThenReset).Releases Lamp.environment ⟨{}, true⟩
        ⟨0, 2, .nop ""⟩ {⟨0, 1, false, false⟩} ∅ after₂ ∧
      (Lamp.setup Lamp.x Lamp.turnThenReset).Releases Lamp.environment ⟨{}, true⟩
        ⟨0, 2, .nop ""⟩ ({⟨0, 0, true, false⟩} ∪ {⟨0, 1, false, false⟩}) ∅ (after₁ ∪ after₂)) ∧
    (flow ⟨⟨0, 1, .nop ""⟩, .ofList Propagator.toggle.initialNodes, {}⟩ Propagator.toggleEnvironment
      ⟨{}, true⟩ ⟨0, 1, .nop ""⟩ ({⟨0, 0, true, false⟩} ∪ {⟨0, 1, false, false⟩})
      ∅).progress.latch.reason = some .finalState := by
  have hnode : ∀ (tm : Tracematch) (n : Node), n ∈ tm.nodes →
      ∀ x ∈ ({n} : NodeSet), x ∈ tm.nodes := by
    intro tm n hn x hx
    rwa [NodeSet.mem_singleton.mp hx]
  constructor
  · obtain ⟨-, hreleases, -⟩ := flow_union (S := Lamp.setup Lamp.x Lamp.turnThenReset)
      (E := Lamp.environment) (p := ⟨{}, true⟩) (s := ⟨0, 2, .nop ""⟩)
      (by decide) (fun h => nomatch h.2) (.successors_shadows rfl)
      (hnode Lamp.machine ⟨0, 0, true, false⟩ (by decide))
      (hnode Lamp.machine ⟨0, 1, false, false⟩ (by decide)) (.successors_shadows rfl rfl)
      ∅ {⟨0, 0, true, false⟩} ∅
    exact hreleases (by decide +kernel) (by decide +kernel)
  · obtain ⟨hreasons, -⟩ := flow_union
      (S := ⟨⟨0, 1, .nop ""⟩, .ofList Propagator.toggle.initialNodes, {}⟩)
      (E := Propagator.toggleEnvironment) (p := ⟨{}, true⟩) (s := ⟨0, 1, .nop ""⟩)
      (by decide) (fun h => nomatch h.2) (.successors_shadows rfl)
      (hnode Propagator.toggle ⟨0, 0, true, false⟩ (by decide))
      (hnode Propagator.toggle ⟨0, 1, false, false⟩ (by decide)) (.successors_shadows rfl rfl)
      ∅ ∅ ∅
    exact (hreasons .finalState).mpr (Or.inr (by decide +kernel))

end Propagation.Setup
end MonitorElision
