import Std.Data.ExtTreeSet

/-!
# Tracematch signatures

What of a tracematch is settled when it is declared: its name, the free variables its events bind,
and the alphabet of event symbols. Its automaton is added later, see the tracematches themselves.
-/
namespace MonitorElision

structure Signature where
  id : Nat
  name : String
  formals : List String
  alphabet : Std.ExtTreeSet String

end MonitorElision
