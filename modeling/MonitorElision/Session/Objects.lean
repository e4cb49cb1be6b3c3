import MonitorElision.CallGraph
import MonitorElision.Fixpoint.GenKill
import MonitorElision.Local.Supply
import MonitorElision.Propagation

/-!
# The objects of a session

Objects that change, or that others refer to, are stored by kind and known by number. An analysis
that goes on after it was set up looks at the other objects as they are at the time.
-/
namespace MonitorElision

/-- Which statements may trigger events elsewhere. -/
inductive SideEffects where
  | callGraph (id : Nat)
  | statements (sites : List Statement)

inductive OracleChoice where
  | shadows (registry : Nat) (procedure : String)
  | table (rows : List Oracle.Row)

/-- What a state propagation is set up from, by number where it can change. -/
structure PropagationInputs where
  graph : Nat
  group : Nat
  shadow : Shadow
  registry : Nat
  sideEffects : SideEffects
  oracle : OracleChoice

/-- A transfer function that was set up and is applied visit by visit. -/
structure Transfer where
  tracematch : Nat
  sideEffects : SideEffects
  oracle : OracleChoice
  setup : Propagation.Setup
  progress : Propagation.Progress

/-- A gen-kill analysis with the flows of its last run. -/
structure Solved where
  graph : Nat
  problem : GenKill
  solution : Fixpoint.Solution

/-- Call graphs are kept with any graph library. -/
structure Objects (G : Type := LabelledGraph CallGraph.Vertex) where
  supplies : Array LocalSupply := #[]
  graphs : Array FlowGraph := #[]
  tracematches : Array Tracematch := #[]
  registries : Array Shadow.Registry := #[]
  groups : Array Shadow.Group := #[]
  callGraphs : Array (CallGraph G) := #[]
  latches : Array (Latch Nat) := #[]
  propagators : Array Propagator := #[]
  transfers : Array Transfer := #[]
  iterations : Array Solved := #[]

namespace Objects

variable {G : Type}

def oracle? (o : Objects G) : OracleChoice → Option Oracle
  | .shadows registry procedure => (o.registries[registry]?).map (Oracle.shadows · procedure)
  | .table rows => some (Oracle.table rows)

variable [GraphLibrary CallGraph.Vertex G]

def mayTrigger? (o : Objects G) : SideEffects → Option (Statement → Bool)
  | .callGraph id => (o.callGraphs[id]?).map fun cg s => cg.MayTrigger s
  | .statements sites => some fun s => s ∈ sites

def environment? (o : Objects G) (tracematch : Nat) (oracle : OracleChoice)
    (sideEffects : SideEffects) : Option Propagation.Environment := do
  return ⟨← o.tracematches[tracematch]?, ← o.oracle? oracle, ← o.mayTrigger? sideEffects⟩

end Objects
end MonitorElision
