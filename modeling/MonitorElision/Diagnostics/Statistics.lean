import Std.Data.ExtTreeMap
import Std.Data.ExtTreeSet

/-!
# Statistics

Named counters and timers, listed by name. Counters are 32 bits wide and wrap around. How long a
timer ran is for whoever has a clock to say; here a timer is only known to exist.
-/
namespace MonitorElision

structure Statistics where
  enabled : Bool := false
  counters : Std.ExtTreeMap String UInt32 := ∅
  timers : Std.ExtTreeSet String := ∅

namespace Statistics

def counter (s : Statistics) (name : String) : UInt32 := s.counters.getD name 0

/-- While the statistics are off nothing is recorded. -/
def record (s : Statistics) (change : Statistics → Statistics) : Statistics :=
  if s.enabled then change s else s

def count (s : Statistics) (name : String) : Statistics :=
  s.record fun s => { s with counters := s.counters.insert name (s.counter name + 1) }

def countMax (s : Statistics) (name : String) (value : Nat) : Statistics :=
  s.record fun s =>
    { s with counters := s.counters.insert name (max (s.counter name) (UInt32.ofNat value)) }

def touch (s : Statistics) (timer : String) : Statistics :=
  s.record fun s => { s with timers := s.timers.insert timer }

/-- Counters, then timers with the given readings. -/
def entries (s : Statistics) (reading : String → String) : List String :=
  s.counters.toList.map (fun c => c.1 ++ ": " ++ toString c.2) ++
    s.timers.toList.map (fun name => name ++ ": " ++ reading name)

/-- A name may hold line breaks, so an entry can take more than one line. -/
def text (s : Statistics) (reading : String → String) : String :=
  if s.enabled then
    "=== tmopt stats ===\n" ++ String.join ((s.entries reading).map (· ++ "\n")) ++
      "===================\n"
  else
    "stats are disabled. Call TmoptEnableStats()\n"

end Statistics
end MonitorElision
