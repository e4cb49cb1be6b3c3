import MonitorElision.Proofs.Diagnostics

/-!
# What is counted

A counter goes up by one with each event that counts under its name, as long as the statistics are
on, and nothing else changes it but a maximum under that name. Counters wrap around, so they show
how often something was counted up to a multiple of their range.
-/
namespace MonitorElision

namespace Event

/-- The name under which an event counts. -/
def counted? : Event → Option String
  | count counter => some counter
  | _ => none

/-- The name under which an event takes a maximum. -/
def raised? : Event → Option String
  | countMax counter _ => some counter
  | _ => none

theorem IsMessage.counted?_eq {e : Event} (h : e.IsMessage) : e.counted? = none := by
  obtain ⟨topic, made, rfl⟩ := h
  rfl

theorem IsMessage.raised?_eq {e : Event} (h : e.IsMessage) : e.raised? = none := by
  obtain ⟨topic, made, rfl⟩ := h
  rfl

end Event

/-- How often the events count under the name. -/
def tally (name : String) (events : List Event) : Nat :=
  (events.filterMap Event.counted?).count name

/-- How often the events count under the name if the statistics are on or off. -/
def tallyIf (on : Bool) (name : String) (events : List Event) : Nat :=
  if on then tally name events else 0

section Tally

variable {on : Bool} {name : String} {e : Event} {events events' : List Event}

@[simp] theorem tally_nil : tally name [] = 0 := rfl

theorem tally_append : tally name (events ++ events') = tally name events + tally name events' := by
  rw [tally, List.filterMap_append, List.count_append]
  rfl

theorem tally_eq_of_perm (h : events.Perm events') : tally name events = tally name events' :=
  (h.filterMap Event.counted?).count_eq name

theorem tally_eq_zero (h : ∀ e ∈ events, e.counted? ≠ some name) : tally name events = 0 := by
  rw [tally, List.count_eq_zero, List.mem_filterMap]
  exact fun ⟨e, he, hname⟩ => h e he hname

theorem tally_count (counter : String) :
    tally name [.count counter] = if counter = name then 1 else 0 := by
  simp [tally, Event.counted?, List.count_singleton]

theorem tallyIf_cons :
    tallyIf on name (e :: events) = tallyIf on name [e] + tallyIf on name events := by
  cases on with
  | false => rfl
  | true =>
    change tally name ([e] ++ events) = _
    exact tally_append

theorem tallyIf_eq_zero (h : ∀ e ∈ events, e.counted? ≠ some name) :
    tallyIf on name events = 0 := by
  rw [tallyIf, tally_eq_zero h, ite_self]

end Tally

namespace Statistics

variable {s : Statistics} {name other : String}

theorem counter_count : (s.count other).counter name =
    s.counter name + UInt32.ofNat (tallyIf s.enabled name [.count other]) := by
  by_cases hon : s.enabled = true
  · by_cases hname : other = name
    · simp [count, record, counter, tallyIf, tally_count, hon, hname]
    · simp [count, record, counter, tallyIf, tally_count, hon, hname, Std.ExtTreeMap.getD_insert]
  · simp [count, record, tallyIf, hon]

theorem counter_countMax (h : other ≠ name) (value : Nat) :
    (s.countMax other value).counter name = s.counter name := by
  by_cases hon : s.enabled = true
  · simp [countMax, record, counter, hon, h, Std.ExtTreeMap.getD_insert]
  · simp [countMax, record, hon]

theorem counter_touch (timer : String) : (s.touch timer).counter name = s.counter name := by
  unfold touch record
  split <;> rfl

theorem enabled_record (s : Statistics) (change : Statistics → Statistics)
    (h : (change s).enabled = s.enabled) : (s.record change).enabled = s.enabled := by
  unfold record
  split
  · exact h
  · rfl

end Statistics

namespace Diagnostics

variable {d : Diagnostics} {name : String} {e : Event} {events : List Event}

theorem counter_note (h : e.raised? ≠ some name) :
    (d.note e).statistics.counter name =
      d.statistics.counter name + UInt32.ofNat (tallyIf d.statistics.enabled name [e]) := by
  cases e with
  | count counter => exact Statistics.counter_count
  | countMax counter value =>
    have hname : counter ≠ name := fun heq => h (congrArg some heq)
    rw [tallyIf_eq_zero (by simp [Event.counted?])]
    exact (Statistics.counter_countMax hname value).trans (UInt32.add_zero _).symm
  | resume timer | stop timer =>
    rw [tallyIf_eq_zero (by simp [Event.counted?])]
    exact (Statistics.counter_touch timer).trans (UInt32.add_zero _).symm
  | _ =>
    rw [tallyIf_eq_zero (by simp [Event.counted?])]
    exact (UInt32.add_zero _).symm

theorem enabled_note (d : Diagnostics) (e : Event) :
    (d.note e).statistics.enabled = d.statistics.enabled := by
  cases e <;> first | rfl | exact Statistics.enabled_record _ _ rfl

end Diagnostics

namespace Hearing

variable {h : Hearing} {name : String} {e : Event} {events : List Event}

/-- As long as what is heard can be printed, all of it is noted. -/
theorem counter_foldl_next (hnone : h.fault = none) (hprintable : ∀ e ∈ events, e.Printable)
    (hraised : ∀ e ∈ events, e.raised? ≠ some name) :
    (events.foldl next h).diagnostics.statistics.counter name =
      h.diagnostics.statistics.counter name +
        UInt32.ofNat (tallyIf h.diagnostics.statistics.enabled name events) := by
  induction events generalizing h with
  | nil => simp [tallyIf]
  | cons e events ih =>
    rw [List.forall_mem_cons] at hprintable hraised
    obtain ⟨text, htext⟩ := hprintable.1 h.diagnostics
    have hnext : h.next e = { h with
        diagnostics := h.diagnostics.note e, printed := h.printed ++ text } := by
      simp only [next, hnone, htext]
    rw [List.foldl_cons, tallyIf_cons, UInt32.ofNat_add, ← UInt32.add_assoc,
      ← Diagnostics.counter_note hraised.1, ← Diagnostics.enabled_note h.diagnostics e, hnext]
    exact ih hnone hprintable.2 hraised.2

theorem counter_next_of_spared (hcounted : e.counted? ≠ some name)
    (hraised : e.raised? ≠ some name) :
    (h.next e).diagnostics.statistics.counter name = h.diagnostics.statistics.counter name := by
  unfold next
  split
  · rfl
  · split
    · dsimp only
      rw [Diagnostics.counter_note hraised,
        tallyIf_eq_zero (List.forall_mem_singleton.mpr hcounted)]
      exact UInt32.add_zero _
    · rfl

end Hearing

namespace Diagnostics

variable {d : Diagnostics} {name : String} {events : List Event}

theorem counter_hear (hprintable : ∀ e ∈ events, e.Printable)
    (hraised : ∀ e ∈ events, e.raised? ≠ some name) :
    (d.hear events).diagnostics.statistics.counter name =
      d.statistics.counter name + UInt32.ofNat (tallyIf d.statistics.enabled name events) :=
  Hearing.counter_foldl_next rfl hprintable hraised

theorem counter_flip (d : Diagnostics) (switch : Switch) (name : String) :
    (d.flip switch).statistics.counter name = d.statistics.counter name := by
  cases switch with
  | enableLog tag =>
    simp only [flip]
    split <;> rfl
  | verbosity _ | warnings _ | statistics _ => rfl

/-- Events that spare a counter leave it as it is, even if one of them cannot be printed. -/
theorem counter_hear_of_spared (hcounted : ∀ e ∈ events, e.counted? ≠ some name)
    (hraised : ∀ e ∈ events, e.raised? ≠ some name) :
    (d.hear events).diagnostics.statistics.counter name = d.statistics.counter name := by
  apply List.foldlRecOn events Hearing.next
    (motive := fun h => h.diagnostics.statistics.counter name = d.statistics.counter name) rfl
  intro h hkept e he
  exact (Hearing.counter_next_of_spared (hcounted e he) (hraised e he)).trans hkept

end Diagnostics
end MonitorElision
