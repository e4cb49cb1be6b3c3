import MonitorElision.Proofs.Diagnostics.Counters
import MonitorElision.Proofs.Propagation.GivingUp

/-!
# What is counted of giving up

An analysis counts that it gives up in the very visit in which its latch closes, once in total and
once for the reason that the latch keeps. A closed latch is not counted again, whatever else the
analysis comes across, and nothing else is counted under these names.
-/
namespace MonitorElision

namespace Propagation

/-- The names under which giving up is counted. -/
inductive GiveUpCounter : String → Prop
  | total : GiveUpCounter Progress.gaveUpCounter
  | reason (r : Reason) : GiveUpCounter (Progress.reasonCounter r)

theorem Progress.reasonCounter_ne_gaveUpCounter (r : Reason) :
    reasonCounter r ≠ gaveUpCounter := by
  cases r <;> decide

theorem Progress.reasonCounter_inj {r r' : Reason} :
    reasonCounter r = reasonCounter r' ↔ r = r' := by
  cases r <;> cases r' <;> decide

theorem not_giveUpCounter {name : String} (htotal : name ≠ Progress.gaveUpCounter)
    (hreason : ∀ r, name ≠ Progress.reasonCounter r) : ¬GiveUpCounter name
  | .total => htotal rfl
  | .reason r => hreason r rfl

end Propagation

open Propagation

/-- The event does not bear on the counters of giving up. -/
def Event.SparesGiveUps (e : Event) : Prop :=
  ∀ name, GiveUpCounter name → e.counted? ≠ some name ∧ e.raised? ≠ some name

namespace Event

variable {e : Event}

theorem sparesGiveUps_of_none (hcounted : e.counted? = none) (hraised : e.raised? = none) :
    e.SparesGiveUps := by
  intro name _
  simp [hcounted, hraised]

theorem IsMessage.sparesGiveUps (h : e.IsMessage) : e.SparesGiveUps :=
  sparesGiveUps_of_none h.counted?_eq h.raised?_eq

theorem sparesGiveUps_count {counter : String} (h : ¬GiveUpCounter counter) :
    (count counter).SparesGiveUps := by
  intro name hname
  have hne : counter ≠ name := fun heq => h (heq ▸ hname)
  simpa [counted?, raised?] using hne

theorem sparesGiveUps_countMax {counter : String} (h : ¬GiveUpCounter counter) (value : Nat) :
    (countMax counter value).SparesGiveUps := by
  intro name hname
  have hne : counter ≠ name := fun heq => h (heq ▸ hname)
  simpa [counted?, raised?] using hne

end Event

/-- The events count what becomes of a latch: nothing if it stays as it is, and if it closes, that
it does and the reason it keeps. -/
structure Latch.Tallied (before after : Latch Reason) (events : List Event) : Prop where
  kept : before.Closed → after = before
  total : tally Progress.gaveUpCounter events = if ¬before.Closed ∧ after.Closed then 1 else 0
  reason : ∀ r, tally (Progress.reasonCounter r) events =
    if ¬before.Closed ∧ after.reason = some r then 1 else 0
  raised : ∀ name, GiveUpCounter name → ∀ e ∈ events, e.raised? ≠ some name

namespace Latch

variable {a b c : Latch Reason} {events events' : List Event}

theorem closed_of_reason_eq {l : Latch Reason} {r : Reason} (h : l.reason = some r) : l.Closed :=
  Option.isSome_of_eq_some h

theorem Tallied.of_spared (h : ∀ e ∈ events, e.SparesGiveUps) : a.Tallied a events where
  kept _ := rfl
  total := by
    rw [tally_eq_zero fun e he => (h e he _ .total).1, if_neg (fun hc => hc.1 hc.2)]
  reason r := by
    rw [tally_eq_zero fun e he => (h e he _ (.reason r)).1,
      if_neg (fun hc => hc.1 (closed_of_reason_eq hc.2))]
  raised name hname e he := (h e he name hname).2

theorem Tallied.tally_eq_zero (h : a.Tallied a events) {name : String}
    (hname : GiveUpCounter name) : tally name events = 0 := by
  cases hname with
  | total => rw [h.total, if_neg (fun hc => hc.1 hc.2)]
  | reason r => rw [h.reason, if_neg (fun hc => hc.1 (closed_of_reason_eq hc.2))]

theorem Tallied.nil : a.Tallied a [] := .of_spared (List.forall_mem_nil _)

theorem Tallied.perm (h : a.Tallied b events) (hperm : events.Perm events') :
    a.Tallied b events' where
  kept := h.kept
  total := (tally_eq_of_perm hperm).symm.trans h.total
  reason r := (tally_eq_of_perm hperm).symm.trans (h.reason r)
  raised name hname e he := h.raised name hname e (hperm.mem_iff.mpr he)

theorem Tallied.append (h : a.Tallied b events) (h' : b.Tallied c events') :
    a.Tallied c (events ++ events') where
  kept ha := by
    obtain rfl := h.kept ha
    exact h'.kept ha
  total := by
    rw [tally_append, h.total, h'.total]
    by_cases ha : a.Closed
    · obtain rfl := h.kept ha
      simp [ha]
    · by_cases hb : b.Closed
      · obtain rfl := h'.kept hb
        simp [ha, hb]
      · simp [ha, hb]
  reason r := by
    rw [tally_append, h.reason, h'.reason]
    by_cases ha : a.Closed
    · obtain rfl := h.kept ha
      simp [ha]
    · by_cases hb : b.Closed
      · obtain rfl := h'.kept hb
        simp [ha, hb]
      · have hr : b.reason ≠ some r := fun hr => hb (closed_of_reason_eq hr)
        simp [ha, hb, hr]
  raised name hname := List.forall_mem_append.mpr ⟨h.raised name hname, h'.raised name hname⟩

end Latch

namespace Propagation

open Fixpoint

/-- Only a latch that is open is counted. -/
theorem Progress.tallied_giveUp (p : Progress) (r : Reason) (s : Option Statement) :
    p.latch.Tallied (p.giveUp r s).value.latch (p.giveUp r s).events := by
  by_cases hclosed : p.latch.Closed
  · rw [Setup.latch_giveUp hclosed]
    apply Latch.Tallied.of_spared
    obtain ⟨first, hfirst⟩ := Option.isSome_iff_exists.mp hclosed
    simp only [giveUp, hfirst]
    exact List.forall_mem_singleton.mpr (Event.sparesGiveUps_of_none rfl rfl)
  · have hreason : (p.giveUp r s).value.latch.reason = some r := Setup.reason_giveUp hclosed s
    have hnone : p.latch.reason = none := Option.not_isSome_iff_eq_none.mp hclosed
    have hcounted : (p.giveUp r s).events.filterMap Event.counted? =
        [gaveUpCounter, reasonCounter r] := by
      simp only [giveUp, hnone]
      rfl
    constructor
    · exact fun h => absurd h hclosed
    · rw [tally, hcounted]
      simp [hclosed, (reasonCounter_ne_gaveUpCounter r)]
    · intro r'
      rw [tally, hcounted, hreason]
      simp [hclosed, (reasonCounter_ne_gaveUpCounter r').symm, List.count_singleton,
        reasonCounter_inj]
    · intro name _
      simp only [giveUp, hnone]
      simp [Event.raised?]

namespace Setup

theorem tallied_watch (S : Setup) (p : Progress) (s : Statement) (incoming : NodeSet) :
    p.latch.Tallied (S.watch p s incoming).value.latch (S.watch p s incoming).events := by
  unfold watch
  split
  · exact p.tallied_giveUp .redefinedBinding (some s)
  · exact .nil

section Visits

variable {E : Environment} (hE : E.oracle.Messages)
include hE

theorem tallied_pass (S : Setup) (p : Progress) (s : Statement) (incoming : NodeSet) :
    p.latch.Tallied (S.pass E p s incoming).progress.latch (S.pass E p s incoming).events := by
  have hswept : ∀ e ∈ (sweep (S.successors E s) incoming.nodes ∅).events, e.SparesGiveUps := by
    intro e he
    obtain ⟨n, -, hn⟩ := exists_ask_of_mem_events he
    exact (hE (S.context E) n s e hn).sparesGiveUps
  unfold pass
  dsimp only
  split
  · exact .of_spared (List.forall_mem_append.mpr ⟨hswept,
      List.forall_mem_singleton.mpr (Event.isMessage_log_ok _).sparesGiveUps⟩)
  · exact (Latch.Tallied.of_spared hswept).append (p.tallied_giveUp .finalState (some s))
  · exact .of_spared hswept

/-- A visit may come across two grounds. If it notices a redefinition, the latch is closed by the
time a final node is met. -/
theorem tallied_flow (S : Setup) (p : Progress) (s : Statement) (incoming outgoing : NodeSet) :
    p.latch.Tallied (S.flow E p s incoming outgoing).progress.latch
      (S.flow E p s incoming outgoing).events := by
  unfold flow
  split
  · exact .nil
  · split
    · exact p.tallied_giveUp .sideEffect (some s)
    · have hwatched := tallied_watch S (S.enter p s incoming).1 s (S.enter p s incoming).2
      rw [closed_enter] at hwatched
      exact hwatched.append (tallied_pass hE _ _ _ _)

/-- What is counted up to a visit and what is counted in it. -/
theorem tallied_step {S : Setup} {x : Account} {start : Latch Reason}
    (h : start.Tallied x.progress.latch x.history) (s : Statement) (incoming outgoing : NodeSet) :
    start.Tallied (S.step E x s incoming outgoing).state.progress.latch
      (S.step E x s incoming outgoing).state.history := by
  -- A history lists what was said last first, but a tally does not depend on the order.
  have hvisit : start.Tallied (S.flow E x.progress s incoming outgoing).progress.latch
      ((S.flow E x.progress s incoming outgoing).events.reverse ++ x.history) :=
    (h.append (tallied_flow hE S x.progress s incoming outgoing)).perm
      (List.perm_append_comm.trans ((List.reverse_perm _).symm.append_right _))
  unfold step
  split
  · exact h
  · dsimp only
    split
    · exact hvisit
    · exact hvisit

theorem tallied_run (S : Setup) (g : FlowGraph) (progress : Progress) :
    progress.latch.Tallied ((S.analysis E).run g ⟨progress, none, []⟩).state.progress.latch
      ((S.analysis E).run g ⟨progress, none, []⟩).state.history := by
  apply (S.analysis E).run_induction g
    (P := fun it => progress.latch.Tallied it.state.progress.latch it.state.history)
  · exact Latch.Tallied.nil
  · intro it i rest _ h
    rw [Analysis.state_visit]
    exact tallied_step hE h _ _ _

end Visits

theorem tallied_launch (b : Bindings) :
    Latch.Tallied {} (launch b).value.latch (launch b).events := by
  unfold launch
  split
  · exact Progress.tallied_giveUp {} .unresolvedBinding none
  · exact .nil

/-- The latch an analysis is set up with, if it is. -/
def latch? (prepared : Except Fault (Setup × Progress)) : Option (Latch Reason) :=
  match prepared with
  | .error _ => none
  | .ok (_, progress) => some progress.latch

theorem tallied_prepare (g : FlowGraph) (group : Shadow.Group) (sh : Shadow) (r : Shadow.Registry)
    (tm : Tracematch) :
    Latch.Tallied {} ((latch? (prepare g group sh r tm).value).getD {})
      (prepare g group sh r tm).events := by
  have hwarning : ∀ e ∈ (if NodeSet.ofList tm.initialNodes = ∅ then
      [Event.warning ("tracematch " ++ tm.signature.name ++ " has no initial state")] else []),
      e.SparesGiveUps := by
    split
    · exact List.forall_mem_singleton.mpr (Event.sparesGiveUps_of_none rfl rfl)
    · exact List.forall_mem_nil _
  have hextracted : ∀ e ∈ (Bindings.extract g group sh).events, e.SparesGiveUps := fun e he =>
    (Bindings.messages_extract g group sh e he).sparesGiveUps
  simp only [prepare, Narrated.value_bind, Narrated.events_bind]
  refine (Latch.Tallied.of_spared hwarning).append ?_
  cases g.statements.find? (Hosts r sh ·) with
  | none => exact .nil
  | some start =>
    refine (Latch.Tallied.of_spared hextracted).append ?_
    refine (tallied_launch _).append (.of_spared ?_)
    exact List.forall_mem_singleton.mpr (Event.isMessage_log_ok _).sparesGiveUps

end Setup
end Propagation

namespace Fixpoint

theorem sparesGiveUps_opening : ∀ e ∈ opening, e.SparesGiveUps := by
  refine List.forall_mem_cons.mpr ⟨?_, ?_⟩
  · apply Event.sparesGiveUps_count
    exact not_giveUpCounter (by decide) fun r => by cases r <;> decide
  · exact List.forall_mem_singleton.mpr (Event.sparesGiveUps_of_none rfl rfl)

theorem sparesGiveUps_closing : ∀ e ∈ closing, e.SparesGiveUps :=
  List.forall_mem_singleton.mpr (Event.sparesGiveUps_of_none rfl rfl)

theorem sparesGiveUps_summary (name : String) (g : FlowGraph) (visits : Nat) :
    ∀ e ∈ summary name g visits, e.SparesGiveUps :=
  List.forall_mem_cons.mpr ⟨(Event.isMessage_log_ok _).sparesGiveUps,
    List.forall_mem_singleton.mpr (Event.isMessage_log_ok _).sparesGiveUps⟩

end Fixpoint

theorem GenKill.sparesGiveUps_solve (p : GenKill) (g : FlowGraph) :
    ∀ e ∈ (p.solve g).events, e.SparesGiveUps :=
  List.forall_mem_append.mpr ⟨List.forall_mem_append.mpr
    ⟨Fixpoint.sparesGiveUps_opening, Fixpoint.sparesGiveUps_summary _ _ _⟩,
    Fixpoint.sparesGiveUps_closing⟩

namespace Propagator

variable {g : FlowGraph} {E : Environment}

theorem sparesGiveUps_conclusion (p : Propagator) (g : FlowGraph) :
    ∀ e ∈ p.conclusion g, e.SparesGiveUps := by
  refine List.forall_mem_cons.mpr ⟨?_, List.forall_mem_cons.mpr ⟨?_, ?_⟩⟩
  · apply Event.sparesGiveUps_countMax
    exact not_giveUpCounter (by decide) fun r => by cases r <;> decide
  · exact (Event.isMessage_log_ok _).sparesGiveUps
  · exact List.forall_mem_singleton.mpr (Event.sparesGiveUps_of_none rfl rfl)

/-- The latch that an analysis ends with that was set up, whether or not it completes. -/
def endLatch (g : FlowGraph) (E : Environment) (S : Setup) (progress : Progress) : Latch Reason :=
  ((S.analysis E).run g ⟨progress, none, []⟩).state.progress.latch

theorem tallied_run (hE : E.oracle.Messages) (g : FlowGraph) (S : Setup) (progress : Progress) :
    progress.latch.Tallied (endLatch g E S progress) (run g E S progress).events := by
  have hcount : (Event.count analyses).SparesGiveUps := Event.sparesGiveUps_count
    (not_giveUpCounter (by decide) fun r => by cases r <;> decide)
  have hhistory := (Setup.tallied_run hE S g progress).perm (List.reverse_perm _).symm
  simp only [run, Narrated.events_bind]
  refine (Latch.Tallied.of_spared ?_).append
    (((Latch.Tallied.of_spared Fixpoint.sparesGiveUps_opening).append hhistory).append
      (.of_spared ?_))
  · refine List.forall_mem_cons.mpr ⟨hcount, ?_⟩
    exact List.forall_mem_singleton.mpr (Event.isMessage_log_ok _).sparesGiveUps
  · split
    · exact List.forall_mem_append.mpr ⟨Fixpoint.sparesGiveUps_closing, List.forall_mem_nil _⟩
    · refine List.forall_mem_append.mpr ⟨List.forall_mem_append.mpr
        ⟨Fixpoint.sparesGiveUps_summary _ _ _, Fixpoint.sparesGiveUps_closing⟩, ?_⟩
      exact List.forall_mem_append.mpr ⟨sparesGiveUps_conclusion _ g, List.forall_mem_nil _⟩

/-- The latch an analysis ends with, whether or not it completes. There is none if the analysis is
not set up. -/
def endLatch? (g : FlowGraph) (group : Shadow.Group) (sh : Shadow) (r : Shadow.Registry)
    (E : Environment) : Option (Latch Reason) :=
  match (Setup.prepare g group sh r E.tracematch).value with
  | .error _ => none
  | .ok (S, progress) => some (endLatch g E S progress)

theorem endLatch?_of_construct {group : Shadow.Group} {sh : Shadow} {r : Shadow.Registry}
    {p : Propagator} (h : (construct g group sh r E).value = .ok p) :
    endLatch? g group sh r E = some p.latch := by
  simp only [construct, Narrated.value_bind] at h
  unfold endLatch?
  cases hvalue : (Setup.prepare g group sh r E.tracematch).value with
  | error f =>
    rw [hvalue] at h
    cases h
  | ok prepared =>
    rw [hvalue] at h
    obtain ⟨-, rfl⟩ := run_eq_ok h
    rfl

theorem tallied_construct (hE : E.oracle.Messages) (g : FlowGraph) (group : Shadow.Group)
    (sh : Shadow) (r : Shadow.Registry) :
    Latch.Tallied {} ((endLatch? g group sh r E).getD {}) (construct g group sh r E).events := by
  have hprepared := Setup.tallied_prepare g group sh r E.tracematch
  simp only [construct, Narrated.events_bind]
  unfold endLatch?
  cases hvalue : (Setup.prepare g group sh r E.tracematch).value with
  | error f =>
    rw [hvalue] at hprepared
    exact hprepared.append .nil
  | ok prepared =>
    rw [hvalue] at hprepared
    exact hprepared.append (tallied_run hE g prepared.1 prepared.2)

end Propagator
end MonitorElision
