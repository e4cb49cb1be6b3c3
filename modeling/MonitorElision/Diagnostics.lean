import MonitorElision.Diagnostics.Event
import MonitorElision.Diagnostics.Statistics

/-!
# Diagnostics

The settings of a session say which events are printed and counted: log messages by topic, reports
by verbosity, warnings and statistics by a switch each. Where the text of an event is asked for and
cannot be made, the fault ends the operation that the event belongs to.
-/
namespace MonitorElision

structure Diagnostics where
  tags : Std.ExtTreeSet String := ∅
  verbosity : UInt32 := 0
  warnings : Bool := true
  statistics : Statistics := {}

inductive Switch where
  | enableLog (tag : String)
  | verbosity (level : UInt32)
  | warnings (on : Bool)
  | statistics (on : Bool)
  deriving DecidableEq, Repr

/-- What was printed on the two channels. -/
structure Printed where
  out : String := ""
  err : String := ""
  deriving DecidableEq, Repr

namespace Printed

instance : Append Printed := ⟨fun a b => ⟨a.out ++ b.out, a.err ++ b.err⟩⟩

/-- The text is only made if it is asked for. -/
def onRequest (asked : Bool) (text : Except Fault String) : Except Fault Printed :=
  if asked then text.map fun text => { out := text } else .ok {}

end Printed

namespace Diagnostics

/-- An empty tag enables nothing. -/
def flip (d : Diagnostics) : Switch → Diagnostics
  | .enableLog tag => if tag.isEmpty then d else { d with tags := d.tags.insert tag }
  | .verbosity level => { d with verbosity := level }
  | .warnings on => { d with warnings := on }
  | .statistics on => { d with statistics := { d.statistics with enabled := on } }

def logging (d : Diagnostics) : Bool := !d.tags.isEmpty

def printed (d : Diagnostics) : Event → Except Fault Printed
  | .log topic text => Printed.onRequest (topic.tag ∈ d.tags) text
  | .report level text => Printed.onRequest (level ≤ d.verbosity.toNat) text
  | .warning text => .ok (if d.warnings then { err := "TMOPT WARNING: " ++ text ++ "\n" } else {})
  | .dump text => .ok { err := text }
  | _ => .ok {}

def note (d : Diagnostics) : Event → Diagnostics
  | .count counter => { d with statistics := d.statistics.count counter }
  | .countMax counter value => { d with statistics := d.statistics.countMax counter value }
  | .resume timer => { d with statistics := d.statistics.touch timer }
  | .stop timer => { d with statistics := d.statistics.touch timer }
  | _ => d

end Diagnostics

/-- What became of some events. -/
structure Hearing where
  diagnostics : Diagnostics
  printed : Printed := {}
  fault : Option Fault := none

/-- After a fault no event is heard. -/
def Hearing.next (h : Hearing) (e : Event) : Hearing :=
  match h.fault with
  | some _ => h
  | none =>
    match h.diagnostics.printed e with
    | .ok text => { h with diagnostics := h.diagnostics.note e, printed := h.printed ++ text }
    | .error f => { h with fault := some f }

namespace Diagnostics

def hear (d : Diagnostics) (events : List Event) : Hearing :=
  events.foldl Hearing.next { diagnostics := d }

/-- A result is not reached if one of the events on the way cannot be printed. -/
def reached {α : Type} (d : Diagnostics) (result : Narrated (Except Fault α)) : Except Fault α :=
  match (d.hear result.events).fault with
  | some f => .error f
  | none => result.value

end Diagnostics
end MonitorElision
