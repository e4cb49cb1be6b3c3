import MonitorElision.Propagation.Transfer

/-!
# State propagation

A procedure is safely invariant if the automaton, entered in an initial node at the initial shadow,
meets no final node and is in an initial node at every exit. The verdict is negative whenever the
analysis gave up.
-/
namespace MonitorElision

namespace Propagation

/-- The name under which the analysis reports. -/
def analysisName : String := "StatePropagator"

namespace Setup

def Hosts (r : Shadow.Registry) (sh : Shadow) (s : Statement) : Prop :=
  ∃ active ∈ r.active s sh.container, active.Is sh

instance (r : Shadow.Registry) (sh : Shadow) (s : Statement) : Decidable (Hosts r sh s) :=
  inferInstanceAs (Decidable (∃ active ∈ r.active s sh.container, active.Is sh))

/-- An analysis with unresolved bindings gives up before it starts. -/
def launch (b : Bindings) : Narrated Progress :=
  if b.unresolved then Progress.giveUp {} .unresolvedBinding none else pure {}

/-- Sets up the analysis of a procedure from the shadow at which the automaton is in an initial
node. -/
def prepare (g : FlowGraph) (group : Shadow.Group) (sh : Shadow) (r : Shadow.Registry)
    (tm : Tracematch) : Narrated (Except Fault (Setup × Progress)) := do
  let initial := NodeSet.ofList tm.initialNodes
  Narrated.tell
    (if initial = ∅ then [.warning ("tracematch " ++ tm.signature.name ++ " has no initial state")]
    else [])
  match g.statements.find? (Hosts r sh ·) with
  | none => return .error (.unhostedShadow g.name sh)
  | some start =>
    let bindings ← Bindings.extract g group sh
    let progress ← launch bindings
    Narrated.tell [.log .propagation (.ok ("Initial shadow " ++ sh.text ++ " at " ++
      Text.quoted start.text ++ "\n" ++ "Initial states " ++ initial.text ++ "\n" ++
      "Bindings " ++ bindings.text ++ "\n"))]
    return .ok (⟨start, initial, bindings⟩, progress)

end Setup
end Propagation

open Propagation Fixpoint

/-- A finished analysis. It answers for the procedure as it is when asked, while the flows are those
of the procedure as it was when analysed. -/
structure Propagator where
  setup : Setup
  latch : Latch Reason
  solution : Solution

namespace Propagator

def analyses : String := Propagation.analysisName ++ ".analyses"

def maxIterations : String := Propagation.analysisName ++ ".max_iterations"

/-- The flows out of the exits. An exit added since the analysis has none. -/
def exitFlows (p : Propagator) (g : FlowGraph) : List NodeSet :=
  g.tails.filterMap fun t => p.solution.after? (g.statement t)

def SafelyInvariant (p : Propagator) (g : FlowGraph) : Prop :=
  ¬p.latch.Closed ∧ ∀ flow ∈ p.exitFlows g, ∀ n ∈ flow.nodes, n.isInitial

instance (p : Propagator) (g : FlowGraph) : Decidable (p.SafelyInvariant g) :=
  inferInstanceAs (Decidable (_ ∧ ∀ flow ∈ p.exitFlows g, ∀ n ∈ flow.nodes, n.isInitial))

def reasonText (p : Propagator) : String := Reason.describe p.latch.reason

def flowBefore (p : Propagator) (g : FlowGraph) (s : Statement) : Except Fault NodeSet :=
  match if s ∈ g then p.solution.before? s else none with
  | some flow => .ok flow
  | none => .error (.missingFlow s g.name)

def flowAfter (p : Propagator) (g : FlowGraph) (s : Statement) : Except Fault NodeSet :=
  match if s ∈ g then p.solution.after? s else none with
  | some flow => .ok flow
  | none => .error (.missingFlow s g.name)

def line (p : Propagator) (g : FlowGraph) (s : Statement) : Except Fault String := do
  let before ← p.flowBefore g s
  let after ← p.flowAfter g s
  return "  " ++ toString s.index ++ ": " ++ before.text ++ " " ++ s.text ++ " " ++ after.text ++
    "\n"

/-- Why the analysis gave up, if it did. -/
def excuse (p : Propagator) : Except Fault String := do
  match p.latch.reason with
  | some r => return " (gave up: " ++ (← r.print) ++ ")"
  | none => return ""

def text (p : Propagator) (g : FlowGraph) : Except Fault String := do
  let lines ← g.statements.mapM (p.line g)
  let verdict := if p.SafelyInvariant g then "safely invariant" else "unsafe"
  return Propagation.analysisName ++ " for " ++ g.name ++ "\n" ++ String.join lines ++
    "verdict: " ++ verdict ++ (← p.excuse) ++ "\n"

/-- What is said of a finished analysis. -/
def conclusion (p : Propagator) (g : FlowGraph) : List Event :=
  let verdict := toString (decide (p.SafelyInvariant g))
  [.countMax maxIterations p.solution.visits,
    .log .propagation (.ok (g.name ++ " is safely invariant: " ++ verdict ++ "\n")),
    .report 1 (p.text g)]

/-- Runs an analysis that has been set up. -/
def run (g : FlowGraph) (E : Environment) (S : Setup) (progress : Progress) :
    Narrated (Except Fault Propagator) := do
  Narrated.tell [.count analyses,
    .log .propagation (.ok ("Running " ++ Propagation.analysisName ++ " on " ++ g.name ++ "\n"))]
  let finished := (S.analysis E).run g ⟨progress, none, []⟩
  let account := finished.state
  Narrated.tell (Fixpoint.opening ++ account.history.reverse)
  match account.fault with
  | some f =>
    Narrated.tell Fixpoint.closing
    return .error f
  | none =>
    Narrated.tell (Fixpoint.summary Propagation.analysisName g finished.visits ++ Fixpoint.closing)
    let p : Propagator := ⟨S, account.progress.latch, finished.solution⟩
    Narrated.tell (p.conclusion g)
    return .ok p

/-- Analyses a procedure from the shadow at which the automaton is in an initial node. -/
def construct (g : FlowGraph) (group : Shadow.Group) (sh : Shadow) (r : Shadow.Registry)
    (E : Environment) : Narrated (Except Fault Propagator) := do
  match ← Setup.prepare g group sh r E.tracematch with
  | .error f => return .error f
  | .ok (S, progress) => run g E S progress

end Propagator
end MonitorElision
