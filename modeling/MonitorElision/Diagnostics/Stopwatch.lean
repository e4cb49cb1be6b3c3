import MonitorElision.Text.Scalar

/-!
# Stopwatches

A stopwatch adds up the time between being resumed and being stopped. Clock readings are given in
microseconds; the total is written in seconds.
-/
namespace MonitorElision

structure Stopwatch where
  elapsed : Int := 0
  resumed : Option Int := none
  deriving DecidableEq, Repr

namespace Stopwatch

/-- A running stopwatch keeps the reading it was resumed at. -/
def resume (w : Stopwatch) (now : Int) : Stopwatch := { w with resumed := w.resumed.or (some now) }

def total (w : Stopwatch) (now : Int) : Int :=
  match w.resumed with
  | none => w.elapsed
  | some since => w.elapsed + (now - since)

def stop (w : Stopwatch) (now : Int) : Stopwatch := ⟨w.total now, none⟩

def text (w : Stopwatch) (now : Int) : String :=
  (Text.Scalar.real (Float.ofInt (w.total now) / 1000000)).print ++ "s"

end Stopwatch
end MonitorElision
