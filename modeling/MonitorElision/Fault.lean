import MonitorElision.Shadow
import MonitorElision.Statement
import MonitorElision.Text.Terminated
import MonitorElision.Tracematch.Node

/-!
# Faults

A fault is a violated precondition. What an analysis finds out is never reported as a fault.
-/
namespace MonitorElision

inductive Fault where
  | localsExhausted (limit : Nat)
  | notALocal
  | foreignStatement (s : Statement) (graph : String)
  | missingPathElement
  | outOfBounds (index : Nat) (graph : String)
  | foreignNode (n : Node)
  | nodeOutside (n : Node) (tracematch : String)
  | unknownSymbol (symbol tracematch : String)
  | unknownShadowSymbol (symbol tracematch : String)
  | unknownFormal (formal tracematch : String)
  | unboundLocal (l : Local) (sh : Shadow)
  | missingCallee (s : Statement)
  | unhostedShadow (graph : String) (sh : Shadow)
  | missingReason
  | unnamedReason (code : Nat)
  | missingFlow (s : Statement) (graph : String)

namespace Fault

open Text

/-- The wording of each fault. -/
def cause : Fault → String
  | localsExhausted limit => "Reached limit of " ++ toString limit ++ " locals"
  | notALocal => "value::get_local called on a value which is not a local"
  | foreignStatement s graph =>
    "statement " ++ quoted s.text ++ " does not belong to the cfg of " ++ graph
  | missingPathElement => "cfg::add_path with a null statement"
  | outOfBounds index graph =>
    "cfg::at: index " ++ toString index ++ " out of bounds in " ++ graph
  | foreignNode n => "automaton node " ++ n.text ++ " belongs to another state machine"
  | nodeOutside n tracematch =>
    "automaton node " ++ n.text ++ " does not belong to tracematch " ++ tracematch
  | unknownSymbol symbol tracematch =>
    "symbol " ++ symbol ++ " is not in the alphabet of tracematch " ++ tracematch
  | unknownShadowSymbol symbol tracematch =>
    "shadow symbol " ++ symbol ++ " is not in the alphabet of tracematch " ++ tracematch
  | unknownFormal formal tracematch =>
    "shadow binds " ++ formal ++ " which is not a formal of tracematch " ++ tracematch
  | unboundLocal l sh => "local " ++ l.name ++ " is not bound by shadow " ++ sh.text
  | missingCallee s => "call graph edge from " ++ s.text ++ " without callee"
  | unhostedShadow graph sh =>
    "no statement of " ++ graph ++ " hosts the initial shadow " ++ sh.text
  | missingReason => "give_up_latch::give_up called without a reason"
  | unnamedReason code => "unexpected give up reason " ++ toString code
  | missingFlow s graph => "statement " ++ quoted s.text ++ " does not belong to " ++ graph

def message (f : Fault) : String := "TMOPT ERROR: " ++ beforeNul f.cause

/-- Where a precondition decides between result and fault, there is a fault just if it is violated.
-/
theorem exists_error_iff {α : Type} {x : Except Fault α} {P : Prop} (hok : P → ∃ a, x = .ok a)
    (hfault : ¬P → ∃ f, x = .error f) : (∃ f, x = .error f) ↔ ¬P := by
  refine ⟨?_, hfault⟩
  rintro ⟨f, hf⟩ hP
  obtain ⟨a, ha⟩ := hok hP
  rw [ha] at hf
  cases hf

end Fault

/-- The local a value consists of. -/
def Value.source (v : Value) : Except Fault Local :=
  match v.source? with
  | some l => .ok l
  | none => .error .notALocal

/-- The least formal bound to the local, which has to be a bound one. -/
def Shadow.formalOf (sh : Shadow) (l : Local) : Except Fault String :=
  match sh.formalOf? l with
  | some formal => .ok formal
  | none => .error (.unboundLocal l sh)

end MonitorElision
