import MonitorElision.Fault

/-!
# Diagnostic events

What the analyses have to say beside their results. The diagnostics settings decide what becomes of
an event. Its text is made only where it is printed, and that may fail.
-/
namespace MonitorElision

/-- The subjects of log messages. -/
inductive Topic where
  | callGraph
  | bindings
  | transition
  | fixpoint
  | propagation
  deriving DecidableEq, Repr

/-- The tag that turns the topic on. -/
def Topic.tag : Topic → String
  | callGraph => "cg"
  | bindings => "bindings"
  | transition => "transition"
  | fixpoint => "fixpoint"
  | propagation => "state-propagator"

inductive Event where
  | log (topic : Topic) (text : Except Fault String)
  | warning (text : String)
  /-- A report for verbosity `level` and above. -/
  | report (level : Nat) (text : Except Fault String)
  /-- Text printed on request. -/
  | dump (text : String)
  | count (counter : String)
  | countMax (counter : String) (value : Nat)
  | resume (timer : String)
  | stop (timer : String)

/-- Entering and leaving a scope counts and times it. Its name is terminated text. -/
def Event.scope (name : String) : List Event :=
  let name := Text.beforeNul name
  [.count name, .resume name, .stop name]

/-- A result together with the events on the way to it. -/
structure Narrated (α : Type) where
  value : α
  events : List Event

namespace Narrated

variable {α β : Type}

instance : Monad Narrated where
  pure a := ⟨a, []⟩
  bind x f :=
    let y := f x.value
    ⟨y.value, x.events ++ y.events⟩

def tell (events : List Event) : Narrated Unit := ⟨(), events⟩

@[simp] theorem value_pure (a : α) : (pure a : Narrated α).value = a := rfl

@[simp] theorem events_pure (a : α) : (pure a : Narrated α).events = [] := rfl

@[simp] theorem value_bind (x : Narrated α) (f : α → Narrated β) :
    (x >>= f).value = (f x.value).value := rfl

@[simp] theorem events_bind (x : Narrated α) (f : α → Narrated β) :
    (x >>= f).events = x.events ++ (f x.value).events := rfl

end Narrated
end MonitorElision
