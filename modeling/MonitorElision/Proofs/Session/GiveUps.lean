import Mathlib.Data.Finset.Card
import MonitorElision.Proofs.Session.Latches

/-!
# Giving up is counted once

In a session analyses are made and applied, fail to be made, and come across any number of grounds
for giving up, while the statistics are switched on and off. Each analysis is counted at most once,
when its latch closes, and then for one reason. So the counter of giving up is the number of
analyses that gave up while the statistics were on, and it is the sum of the counters of the
reasons.
-/
namespace MonitorElision

open Propagation

/-- What a command does that makes or applies an analysis: what becomes of the latch, whether the
statistics are on, and what is said. -/
structure Episode extends Change where
  statistics : Bool
  events : List Event

namespace Episode

/-- The latch closes while the statistics are on. -/
def Counted (e : Episode) : Prop := e.statistics = true ∧ ¬e.before.Closed ∧ e.after.Closed

instance : DecidablePred Counted := fun e =>
  inferInstanceAs (Decidable (e.statistics = true ∧ ¬e.before.Closed ∧ e.after.Closed))

/-- What the episode adds to a counter. -/
def share (name : String) (e : Episode) : Nat := tallyIf e.statistics name e.events

/-- What the episodes add to a counter together. -/
def shares (name : String) (episodes : List Episode) : Nat :=
  episodes.foldr (fun e rest => e.share name + rest) 0

/-- The episodes of an analysis. -/
def concerning (a : AnalysisId) (episodes : List Episode) : List Episode :=
  episodes.filter fun e => e.analysis = a

/-- The analyses whose latch closed while the statistics were on. -/
def counted (episodes : List Episode) : Finset AnalysisId :=
  ((episodes.filter fun e => e.Counted).map fun e => e.analysis).toFinset

/-- What is said counts what becomes of the latches, and a latch that closed stays closed. -/
structure Consistent (episodes : List Episode) : Prop where
  tallied : ∀ e ∈ episodes, e.before.Tallied e.after e.events
  kept : episodes.Pairwise fun e e' => e.analysis = e'.analysis → e.after.Closed → e'.before.Closed

end Episode

namespace Session

variable {G : Type} [GraphLibrary CallGraph.Vertex G]

/-- The session after a command. Nothing happens if the command refers to an object that was never
made. -/
def next (s : Session G) (c : Command) : Session G := (s.run c).elim s (·.2)

/-- The episode of a command, if it makes or applies an analysis. -/
def episode? (s : Session G) (number : Nat) : Command → Option Episode
  | .perform operation => do
    let step ← s.objects.perform s.diagnostics operation
    let change ← s.objects.change? step.objects number operation
    return ⟨change, s.diagnostics.statistics.enabled, step.events⟩
  | _ => none

/-- The episodes of the commands, which are numbered from `number` on. -/
def episodes (s : Session G) (number : Nat) : List Command → List Episode
  | [] => []
  | c :: commands => (s.episode? number c).toList ++ (s.next c).episodes (number + 1) commands

/-- The analysis has given up, or it ran through before. -/
def Spent (s : Session G) (number : Nat) : AnalysisId → Prop
  | .propagator command => command < number
  | .transfer id => s.objects.GaveUp id

abbrev counter (s : Session G) (name : String) : UInt32 := s.diagnostics.statistics.counter name

/-- The counters of giving up show, up to a multiple of their range, how many analyses gave up while
the statistics were on. The episodes are those of the objects: a transfer function has given up if
an episode closed its latch, and the analyses that completed ended as their episodes did. -/
structure CountedOnce (s : Session G) (episodes : List Episode) : Prop where
  reasons : s.counter Progress.gaveUpCounter =
    s.counter (Progress.reasonCounter .unresolvedBinding) +
      s.counter (Progress.reasonCounter .sideEffect) +
      s.counter (Progress.reasonCounter .redefinedBinding) +
      s.counter (Progress.reasonCounter .finalState)
  number : s.counter Progress.gaveUpCounter = UInt32.ofNat (Episode.counted episodes).card
  gaveUp : ∀ id, s.objects.GaveUp id ↔ ∃ e ∈ episodes, e.analysis = .transfer id ∧ e.after.Closed
  completed : s.objects.completed.Sublist (episodes.filterMap fun e => e.ended?)
  shares : ∀ name, GiveUpCounter name →
    s.counter name = UInt32.ofNat (Episode.shares name episodes)
  once : ∀ a, Episode.shares Progress.gaveUpCounter (Episode.concerning a episodes) =
    if a ∈ Episode.counted episodes then 1 else 0
  reason : ∀ a, ∃ r, ∀ r',
    Episode.shares (Progress.reasonCounter r') (Episode.concerning a episodes) =
      if r' = r then Episode.shares Progress.gaveUpCounter (Episode.concerning a episodes) else 0

end Session

theorem Reason.exists_only_of_sum_le_one {n : Nat} {f : Reason → Nat}
    (hsum : n = f .unresolvedBinding + f .sideEffect + f .redefinedBinding + f .finalState)
    (hle : n ≤ 1) : ∃ r, ∀ r', f r' = if r' = r then n else 0 := by
  by_cases h : ∃ r, f r ≠ 0
  · obtain ⟨r, hr⟩ := h
    refine ⟨r, fun r' => ?_⟩
    cases r <;> cases r' <;> simp <;> omega
  · push Not at h
    refine ⟨.unresolvedBinding, fun r' => ?_⟩
    simp [hsum, h]

namespace Episode

variable {e : Episode} {episodes episodes' : List Episode} {name : String} {a : AnalysisId}

section Share

variable (h : e.before.Tallied e.after e.events)
include h

theorem share_gaveUpCounter : e.share Progress.gaveUpCounter = if e.Counted then 1 else 0 := by
  unfold share tallyIf Counted
  rw [h.total]
  by_cases hon : e.statistics = true <;> simp [hon]

theorem share_reasonCounter (r : Reason) : e.share (Progress.reasonCounter r) =
    if e.Counted ∧ e.after.reason = some r then 1 else 0 := by
  have hclosed : e.after.reason = some r → e.after.Closed := Latch.closed_of_reason_eq
  unfold share tallyIf Counted
  rw [h.reason]
  by_cases hon : e.statistics = true <;> by_cases hr : e.after.reason = some r <;>
    simp [hon, hr, hclosed]

theorem share_eq_sum : e.share Progress.gaveUpCounter =
    e.share (Progress.reasonCounter .unresolvedBinding) +
      e.share (Progress.reasonCounter .sideEffect) +
      e.share (Progress.reasonCounter .redefinedBinding) +
      e.share (Progress.reasonCounter .finalState) := by
  simp only [share_gaveUpCounter h, share_reasonCounter h]
  by_cases hcounted : e.Counted
  · obtain ⟨r, hr⟩ := Option.isSome_iff_exists.mp hcounted.2.2
    cases r <;> simp [hcounted, hr]
  · simp [hcounted]

end Share

@[simp] theorem shares_nil : shares name [] = 0 := rfl

@[simp] theorem shares_cons :
    shares name (e :: episodes) = e.share name + shares name episodes := rfl

theorem shares_append : shares name (episodes ++ episodes') =
    shares name episodes + shares name episodes' := by
  induction episodes with
  | nil => simp
  | cons e episodes ih => simp [ih, Nat.add_assoc]

section Shares

variable (h : ∀ e ∈ episodes, e.before.Tallied e.after e.events)
include h

theorem shares_eq_sum : shares Progress.gaveUpCounter episodes =
    shares (Progress.reasonCounter .unresolvedBinding) episodes +
      shares (Progress.reasonCounter .sideEffect) episodes +
      shares (Progress.reasonCounter .redefinedBinding) episodes +
      shares (Progress.reasonCounter .finalState) episodes := by
  induction episodes with
  | nil => rfl
  | cons e episodes ih =>
    rw [List.forall_mem_cons] at h
    have he := share_eq_sum h.1
    have hepisodes := ih h.2
    simp only [shares_cons]
    omega

theorem shares_eq_length :
    shares Progress.gaveUpCounter episodes = (episodes.filter fun e => e.Counted).length := by
  induction episodes with
  | nil => rfl
  | cons e episodes ih =>
    rw [List.forall_mem_cons] at h
    rw [shares_cons, ih h.2, share_gaveUpCounter h.1]
    by_cases he : e.Counted
    · simp [he, Nat.add_comm]
    · simp [he]

end Shares

namespace Consistent

variable (h : Consistent episodes)
include h

theorem concerning (a : AnalysisId) : Consistent (concerning a episodes) where
  tallied e he := h.tallied e (List.mem_filter.mp he).1
  kept := h.kept.filter _

/-- No analysis is counted twice, since its latch is closed the second time. -/
theorem nodup_counted : ((episodes.filter fun e => e.Counted).map fun e => e.analysis).Nodup := by
  rw [List.Nodup, List.pairwise_map, List.pairwise_filter]
  refine h.kept.imp fun hkept he he' heq => ?_
  have hfirst := of_decide_eq_true he
  have hsecond := of_decide_eq_true he'
  exact hsecond.2.1 (hkept heq hfirst.2.2)

theorem shares_eq_card : shares Progress.gaveUpCounter episodes = (counted episodes).card := by
  rw [shares_eq_length h.tallied, counted, List.toFinset_card_of_nodup h.nodup_counted,
    List.length_map]

theorem shares_concerning (a : AnalysisId) :
    shares Progress.gaveUpCounter (Episode.concerning a episodes) =
      if a ∈ counted episodes then 1 else 0 := by
  have hcounted : counted (Episode.concerning a episodes) =
      (counted episodes).filter fun b => b = a := by
    ext b
    simp only [counted, Episode.concerning, Finset.mem_filter, List.mem_toFinset, List.mem_map,
      List.mem_filter, decide_eq_true_eq]
    grind
  rw [(h.concerning a).shares_eq_card, hcounted, Finset.filter_eq']
  split <;> rfl

theorem exists_reason (a : AnalysisId) : ∃ r, ∀ r',
    shares (Progress.reasonCounter r') (Episode.concerning a episodes) =
      if r' = r then shares Progress.gaveUpCounter (Episode.concerning a episodes) else 0 := by
  -- The shares of the reasons add up to the total share, which is at most one.
  apply Reason.exists_only_of_sum_le_one (shares_eq_sum (h.concerning a).tallied)
  rw [h.shares_concerning a]
  split <;> decide

end Consistent

end Episode

namespace Session

variable {G : Type} [GraphLibrary CallGraph.Vertex G] {s : Session G} {c : Command}
  {commands : List Command} {number id : Nat} {name : String} {a : AnalysisId}
  {operation : Operation} {step : Step G} {e : Episode}

section Perform

theorem next_of_none (h : s.objects.perform s.diagnostics operation = none) :
    s.next (.perform operation) = s := by
  simp [next, run, h]

theorem next_of_some (h : s.objects.perform s.diagnostics operation = some step) :
    s.next (.perform operation) =
      ⟨step.objects, (s.diagnostics.hear step.events).diagnostics⟩ := by
  simp [next, run, h]

theorem episode?_of_none (h : s.objects.perform s.diagnostics operation = none) :
    s.episode? number (.perform operation) = none := by
  simp [episode?, h]

theorem episode?_of_some (h : s.objects.perform s.diagnostics operation = some step) :
    s.episode? number (.perform operation) =
      (s.objects.change? step.objects number operation).map fun change =>
        ⟨change, s.diagnostics.statistics.enabled, step.events⟩ := by
  cases hchange : s.objects.change? step.objects number operation <;>
    simp [episode?, h, hchange]

/-- An episode comes from what an operation does. -/
theorem exists_of_episode (h : e ∈ s.episode? number c) : ∃ operation step,
    c = .perform operation ∧ s.objects.perform s.diagnostics operation = some step ∧
      e.toChange ∈ s.objects.change? step.objects number operation ∧ e.events = step.events := by
  cases c with
  | flip switch => cases h
  | emit events => cases h
  | perform operation =>
    cases hstep : s.objects.perform s.diagnostics operation with
    | none =>
      rw [episode?_of_none hstep] at h
      cases h
    | some step =>
      rw [episode?_of_some hstep] at h
      obtain ⟨change, hchange, rfl⟩ := Option.map_eq_some_iff.mp h
      exact ⟨operation, step, rfl, hstep, hchange, rfl⟩

end Perform

section Step

theorem tallied_episode (h : e ∈ s.episode? number c) :
    e.before.Tallied e.after e.events := by
  obtain ⟨operation, step, rfl, hstep, hchange, hevents⟩ := exists_of_episode h
  have htallied := (Objects.accounted_perform hstep number).tallied
  rw [Option.mem_def.mp hchange] at htallied
  rwa [hevents]

theorem counter_next (hname : GiveUpCounter name)
    (hspared : ∀ events, c = .emit events → ∀ e ∈ events, e.SparesGiveUps) (number : Nat) :
    (s.next c).counter name =
      s.counter name + UInt32.ofNat (Episode.shares name (s.episode? number c).toList) := by
  cases c with
  | flip switch =>
    exact (s.diagnostics.counter_flip switch name).trans (UInt32.add_zero _).symm
  | emit events =>
    have hkept := s.diagnostics.counter_hear_of_spared
      (fun e he => (hspared events rfl e he name hname).1)
      (fun e he => (hspared events rfl e he name hname).2)
    exact hkept.trans (UInt32.add_zero _).symm
  | perform operation =>
    cases hstep : s.objects.perform s.diagnostics operation with
    | none => simp [next_of_none hstep, episode?_of_none hstep]
    | some step =>
      have haccounted := Objects.accounted_perform hstep number
      have hheard := s.diagnostics.counter_hear haccounted.printable
        (haccounted.tallied.raised name hname)
      rw [next_of_some hstep, episode?_of_some hstep]
      refine hheard.trans ?_
      cases hchange : s.objects.change? step.objects number operation with
      | some change => rfl
      | none =>
        have htallied := haccounted.tallied
        rw [hchange] at htallied
        simp [tallyIf, htallied.tally_eq_zero hname]

theorem gaveUp_next (number : Nat) : (s.next c).objects.GaveUp id ↔ s.objects.GaveUp id ∨
    ∃ e ∈ s.episode? number c, e.analysis = .transfer id ∧ e.after.Closed := by
  cases c with
  | flip switch => simp [next, run, episode?]
  | emit events => simp [next, run, episode?]
  | perform operation =>
    cases hstep : s.objects.perform s.diagnostics operation with
    | none => simp [next_of_none hstep, episode?_of_none hstep]
    | some step =>
      rw [next_of_some hstep, episode?_of_some hstep]
      simpa using (Objects.accounted_perform hstep number).gaveUp id

theorem completed_next (s : Session G) (c : Command) (number : Nat) :
    (s.next c).objects.completed.Sublist
      (s.objects.completed ++ (s.episode? number c).toList.filterMap fun e => e.ended?) := by
  cases c with
  | flip switch | emit events => exact List.sublist_append_left _ _
  | perform operation =>
    cases hstep : s.objects.perform s.diagnostics operation with
    | none =>
      rw [next_of_none hstep]
      exact List.sublist_append_left _ _
    | some step =>
      have hcompleted := (Objects.accounted_perform hstep number).completed
      rw [next_of_some hstep, episode?_of_some hstep]
      cases hchange : s.objects.change? step.objects number operation with
      | none => simpa [hchange] using hcompleted
      | some change =>
        cases hended : change.ended? <;> simpa [hchange, hended] using hcompleted

theorem spent_next (h : s.Spent number a) (c : Command) : (s.next c).Spent (number + 1) a := by
  cases a with
  | propagator command => exact Nat.lt_succ_of_lt h
  | transfer id => exact (gaveUp_next number).mpr (Or.inl h)

theorem spent_of_closed (h : e ∈ s.episode? number c) (hclosed : e.after.Closed) :
    (s.next c).Spent (number + 1) e.analysis := by
  cases hanalysis : e.analysis with
  | propagator command =>
    obtain ⟨operation, step, -, -, hchange, -⟩ := exists_of_episode h
    obtain rfl := Objects.eq_of_analysis_eq_propagator hchange hanalysis
    exact Nat.lt_succ_self command
  | transfer id => exact (gaveUp_next number).mpr (Or.inr ⟨e, h, hanalysis, hclosed⟩)

theorem closed_of_spent_episode (h : e ∈ s.episode? number c) (hspent : s.Spent number e.analysis) :
    e.before.Closed := by
  obtain ⟨operation, step, -, -, hchange, -⟩ := exists_of_episode h
  cases hanalysis : e.analysis with
  | propagator command =>
    rw [hanalysis] at hspent
    exact absurd (Objects.eq_of_analysis_eq_propagator hchange hanalysis) hspent.ne
  | transfer id =>
    rw [hanalysis] at hspent
    exact (Objects.before_closed_iff hchange hanalysis).mpr hspent

end Step

section Commands

theorem counter_foldl_next (hname : GiveUpCounter name)
    (hspared : ∀ events, Command.emit events ∈ commands → ∀ e ∈ events, e.SparesGiveUps)
    (s : Session G) (number : Nat) : (commands.foldl next s).counter name =
      s.counter name + UInt32.ofNat (Episode.shares name (s.episodes number commands)) := by
  induction commands generalizing s number with
  | nil => simp [episodes]
  | cons c commands ih =>
    have hfirst := counter_next (s := s) hname
      (fun events hc => hspared events (hc ▸ List.mem_cons_self)) number
    have hrest := ih (fun events hc => hspared events (List.mem_cons_of_mem c hc)) (s.next c)
      (number + 1)
    rw [List.foldl_cons, hrest, hfirst, UInt32.add_assoc, ← UInt32.ofNat_add, episodes,
      Episode.shares_append]

theorem gaveUp_foldl_next (s : Session G) (number : Nat) :
    (commands.foldl next s).objects.GaveUp id ↔ s.objects.GaveUp id ∨
      ∃ e ∈ s.episodes number commands, e.analysis = .transfer id ∧ e.after.Closed := by
  induction commands generalizing s number with
  | nil => simp [episodes]
  | cons c commands ih =>
    rw [List.foldl_cons, ih (s.next c) (number + 1), gaveUp_next number, or_assoc]
    simp only [episodes, List.mem_append, Option.mem_toList, Option.mem_def, or_and_right,
      exists_or]

theorem completed_foldl_next (s : Session G) (number : Nat) (commands : List Command) :
    (commands.foldl next s).objects.completed.Sublist
      (s.objects.completed ++ (s.episodes number commands).filterMap fun e => e.ended?) := by
  induction commands generalizing s number with
  | nil => exact List.sublist_append_left _ _
  | cons c commands ih =>
    rw [List.foldl_cons, episodes, List.filterMap_append, ← List.append_assoc]
    exact (ih (s.next c) (number + 1)).trans ((completed_next s c number).append_right _)

theorem closed_of_spent (hspent : s.Spent number e.analysis)
    (h : e ∈ s.episodes number commands) : e.before.Closed := by
  induction commands generalizing s number with
  | nil => cases h
  | cons c commands ih =>
    rcases List.mem_append.mp h with hfirst | hrest
    · exact closed_of_spent_episode (Option.mem_toList.mp hfirst) hspent
    · exact ih (spent_next hspent c) hrest

theorem consistent_episodes (s : Session G) (number : Nat) (commands : List Command) :
    Episode.Consistent (s.episodes number commands) := by
  induction commands generalizing s number with
  | nil => exact ⟨List.forall_mem_nil _, List.Pairwise.nil⟩
  | cons c commands ih =>
    have hrest := ih (s.next c) (number + 1)
    constructor
    · refine List.forall_mem_append.mpr ⟨fun e he => ?_, hrest.tallied⟩
      exact tallied_episode (Option.mem_toList.mp he)
    · refine List.pairwise_append.mpr ⟨?_, hrest.kept, fun e he e' he' hanalysis hclosed => ?_⟩
      · cases s.episode? number c <;> simp
      · have hspent := spent_of_closed (Option.mem_toList.mp he) hclosed
        rw [hanalysis] at hspent
        exact closed_of_spent hspent he'

/-- At every point of a session, whatever it did so far, the counters of giving up count each
analysis once, as long as nothing else is counted under their names. -/
theorem giveUps_countedOnce (G : Type) [GraphLibrary CallGraph.Vertex G] (commands : List Command)
    (hspared : ∀ events, Command.emit events ∈ commands → ∀ e ∈ events, e.SparesGiveUps) :
    CountedOnce (commands.foldl next ({} : Session G)) (episodes ({} : Session G) 0 commands) := by
  have hconsistent := consistent_episodes ({} : Session G) 0 commands
  have hshares : ∀ name, GiveUpCounter name →
      (commands.foldl next ({} : Session G)).counter name =
        UInt32.ofNat (Episode.shares name (episodes ({} : Session G) 0 commands)) := by
    intro name hname
    rw [counter_foldl_next hname hspared {} 0]
    exact UInt32.zero_add _
  constructor
  · rw [hshares _ .total, Episode.shares_eq_sum hconsistent.tallied]
    simp only [UInt32.ofNat_add, hshares _ (.reason _)]
  · rw [hshares _ .total, hconsistent.shares_eq_card]
  · intro id
    rw [gaveUp_foldl_next {} 0]
    simp [Objects.GaveUp, Objects.latch?]
  · exact completed_foldl_next {} 0 commands
  · exact hshares
  · exact hconsistent.shares_concerning
  · exact hconsistent.exists_reason

end Commands

/-- The only statement of the errand may trigger events, so an analysis that runs through gives up,
and so does one that is applied twice. A third gives up while the statistics are off, and a fourth
has no statement to start from. -/
def disputedErrand : List Command :=
  let tm : Signature := ⟨0, "done", [], .ofList ["end"]⟩
  let sh : Shadow := ⟨0, 0, tm, "m", "end", ∅⟩
  let site : Statement := ⟨0, 0, .ret none⟩
  let inputs : PropagationInputs := ⟨0, 0, sh, 0, .statements [site], .shadows 0 "m"⟩
  quiet ++ [.flip (.statistics true), .emit [.count "errands"], .perform (.propagate inputs),
    .perform (.setUp inputs), .perform (.flow 0 site ∅ ∅), .perform (.flow 0 site ∅ ∅),
    .perform (.setUp inputs), .flip (.statistics false), .perform (.flow 1 site ∅ ∅),
    .flip (.statistics true), .perform (.flow 1 site ∅ ∅),
    .perform (.setUp { inputs with shadow := { sh with id := 1 } })]

theorem giveUps_countedOnce_errand :
    (∀ events, Command.emit events ∈ disputedErrand → ∀ e ∈ events, e.SparesGiveUps) ∧
    (disputedErrand.foldl next ({} : Session)).counter Progress.gaveUpCounter = 2 ∧
    (disputedErrand.foldl next ({} : Session)).counter (Progress.reasonCounter .sideEffect) = 2 ∧
    (disputedErrand.foldl next ({} : Session)).objects.GaveUp 1 := by
  have hspared : ∀ events, Command.emit events ∈ disputedErrand →
      ∀ e ∈ events, e.SparesGiveUps := by
    intro events h
    have hevents : events = [.count "errands"] := by
      simpa [disputedErrand, quiet, errand] using h
    rw [hevents]
    refine List.forall_mem_singleton.mpr (Event.sparesGiveUps_count ?_)
    exact not_giveUpCounter (by decide) fun r => by cases r <;> decide
  have hcounted := giveUps_countedOnce (LabelledGraph CallGraph.Vertex) disputedErrand hspared
  refine ⟨hspared, ?_, ?_, ?_⟩
  · have hcard : (Episode.counted (episodes ({} : Session) 0 disputedErrand)).card = 2 := by
      decide +kernel
    rw [hcounted.number, hcard]
    rfl
  · have hshares : Episode.shares (Progress.reasonCounter .sideEffect)
        (episodes ({} : Session) 0 disputedErrand) = 2 := by decide +kernel
    rw [hcounted.shares _ (.reason _), hshares]
    rfl
  · exact (hcounted.gaveUp 1).mpr (by decide +kernel)

end Session
end MonitorElision
