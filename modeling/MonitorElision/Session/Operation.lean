import MonitorElision.Diagnostics
import MonitorElision.Session.Objects

/-!
# Operations

Everything that can be done to the objects of a session. An operation yields the objects after it,
an answer or a fault, and the events on the way. It ends with a fault if one of the events is to be
printed and cannot be. There is no result only if the operation refers to an object that was never
made.
-/
namespace MonitorElision

/-- Objects that change are given by number, all else by value. -/
inductive Operation where
  | newSupply
  | requestLocal (supply : Nat) (name : String)
  | freshLocal (supply : Nat) (name : String)
  | newGraph (name : String)
  | append (graph : Nat) (instr : Instr)
  | connect (graph : Nat) (source target : Statement)
  | connectPath (graph : Nat) (path : List (Option Statement))
  | newTracematch (name : String) (formals alphabet : List String)
  | newState (tracematch : Nat) (kind : NodeKind)
  | newTransition (tracematch : Nat) (source : Node) (symbol : String) (target : Node)
  | newRegistry
  | attach (registry : Nat) (host : Statement) (tracematch : Nat) (container symbol : String)
      (bindings : Std.ExtTreeMap String Local)
  | disable (registry : Nat) (shadow : Shadow)
  | newGroup (label : String)
  | addToGroup (group : Nat) (shadow : Shadow)
  | newCallGraph
  | recordCall (callGraph : Nat) (site : Statement) (callee : String)
  | newLatch
  | giveUp (latch : Nat) (reason : Nat)
  | extractBindings (graph group : Nat) (shadow : Shadow)
  | successors (registry : Nat) (procedure : String) (tracematch : Nat) (node : Node)
      (s : Statement) (initial : NodeSet) (bindings : Bindings)
  | propagate (inputs : PropagationInputs)
  | setUp (inputs : PropagationInputs)
  | flow (transfer : Nat) (s : Statement) (incoming outgoing : NodeSet)
  | solve (graph : Nat) (problem : GenKill)
  | solveAgain (iteration : Nat)

inductive Answer where
  | done
  | object (id : Nat)
  | localVar (l : Local)
  | statement (s : Statement)
  | node (n : Node)
  | shadow (sh : Shadow)
  | bindings (b : Bindings)
  | nodes (ns : NodeSet)
  | flows (incoming outgoing : NodeSet)

/-- What an operation leads to. The objects may have changed also when there is a fault. -/
structure Step (G : Type := LabelledGraph CallGraph.Vertex) where
  objects : Objects G
  answer : Except Fault Answer
  events : List Event

namespace Objects

variable {G : Type}

/-- A step that succeeds without events. -/
def done (o : Objects G) (a : Answer) : Step G := ⟨o, .ok a, []⟩

/-- A step that changes nothing but what `store` makes of a result, if it is reached. -/
def report {α : Type} (o : Objects G) (d : Diagnostics) (result : Narrated (Except Fault α))
    (store : α → Objects G × Answer) : Step G :=
  match d.reached result with
  | .error f => ⟨o, .error f, result.events⟩
  | .ok a => ⟨(store a).1, .ok (store a).2, result.events⟩

/-- A step without events. -/
def after {α : Type} (o : Objects G) (result : Except Fault α) (store : α → Objects G × Answer) :
    Step G :=
  match result with
  | .error f => ⟨o, .error f, []⟩
  | .ok a => (store a).1.done (store a).2

def solve (o : Objects G) (d : Diagnostics) (graph : Nat) (problem : GenKill)
    (store : Solved → Objects G × Answer) : Option (Step G) := do
  let solved := problem.solve (← o.graphs[graph]?)
  return o.report d ⟨.ok solved.value, solved.events⟩ fun solution =>
    store ⟨graph, problem, solution⟩

variable [GraphLibrary CallGraph.Vertex G]

def propagate (o : Objects G) (d : Diagnostics) (p : PropagationInputs) : Option (Step G) := do
  let graph ← o.graphs[p.graph]?
  let group ← o.groups[p.group]?
  let registry ← o.registries[p.registry]?
  let environment ← o.environment? p.shadow.tracematch.id p.oracle p.sideEffects
  let built := Propagator.construct graph group p.shadow registry environment
  return o.report d built fun made =>
    ({ o with propagators := o.propagators.push made }, .object o.propagators.size)

def setUp (o : Objects G) (d : Diagnostics) (p : PropagationInputs) : Option (Step G) := do
  let graph ← o.graphs[p.graph]?
  let group ← o.groups[p.group]?
  let registry ← o.registries[p.registry]?
  let environment ← o.environment? p.shadow.tracematch.id p.oracle p.sideEffects
  let built := Propagation.Setup.prepare graph group p.shadow registry environment.tracematch
  return o.report d built fun (setup, progress) =>
    let transfer : Transfer := ⟨p.shadow.tracematch.id, p.sideEffects, p.oracle, setup, progress⟩
    ({ o with transfers := o.transfers.push transfer }, .object o.transfers.size)

def flow (o : Objects G) (d : Diagnostics) (id : Nat) (s : Statement)
    (incoming outgoing : NodeSet) : Option (Step G) := do
  let transfer ← o.transfers[id]?
  let environment ← o.environment? transfer.tracematch transfer.oracle transfer.sideEffects
  let passage := transfer.setup.flow environment transfer.progress s incoming outgoing
  let transfer := { transfer with progress := passage.progress }
  let o := { o with transfers := o.transfers.setIfInBounds id transfer }
  return o.report d ⟨passage.flows, passage.events⟩ fun flows => (o, .flows flows.1 flows.2)

def perform (o : Objects G) (d : Diagnostics) : Operation → Option (Step G)
  | .newSupply =>
    return { o with supplies := o.supplies.push .empty }.done (.object o.supplies.size)
  | .requestLocal supply name => do
    return o.after ((← o.supplies[supply]?).request name) fun served =>
      ({ o with supplies := o.supplies.setIfInBounds supply served.2 }, .localVar served.1)
  | .freshLocal supply name => do
    return o.after ((← o.supplies[supply]?).fresh name) fun served =>
      ({ o with supplies := o.supplies.setIfInBounds supply served.2 }, .localVar served.1)
  | .newGraph name =>
    let id := o.graphs.size
    return { o with graphs := o.graphs.push (.empty id name) }.done (.object id)
  | .append graph instr => do
    let (s, g) := (← o.graphs[graph]?).append instr
    return { o with graphs := o.graphs.setIfInBounds graph g }.done (.statement s)
  | .connect graph source target => do
    return o.after ((← o.graphs[graph]?).connect source target) fun g =>
      ({ o with graphs := o.graphs.setIfInBounds graph g }, .done)
  | .connectPath graph path => do
    let (g, result) := (← o.graphs[graph]?).connectPath path
    let o := { o with graphs := o.graphs.setIfInBounds graph g }
    return o.after result fun _ => (o, .done)
  | .newTracematch name formals alphabet =>
    let id := o.tracematches.size
    let tm := Tracematch.declare ⟨id, name, formals, .ofList alphabet⟩
    return { o with tracematches := o.tracematches.push tm }.done (.object id)
  | .newState tracematch kind => do
    let (n, tm) := (← o.tracematches[tracematch]?).newState kind
    return { o with tracematches := o.tracematches.setIfInBounds tracematch tm }.done (.node n)
  | .newTransition tracematch source symbol target => do
    return o.after ((← o.tracematches[tracematch]?).newTransition source symbol target) fun tm =>
      ({ o with tracematches := o.tracematches.setIfInBounds tracematch tm }, .done)
  | .newRegistry =>
    let id := o.registries.size
    return { o with registries := o.registries.push (.empty id) }.done (.object id)
  | .attach registry host tracematch container symbol bindings => do
    let tm ← o.tracematches[tracematch]?
    return o.after ((← o.registries[registry]?).attach host tm.signature container symbol bindings)
      fun (sh, r) =>
        ({ o with registries := o.registries.setIfInBounds registry r }, .shadow sh)
  | .disable registry sh => do
    let r := (← o.registries[registry]?).disable sh
    return { o with registries := o.registries.setIfInBounds registry r }.done .done
  | .newGroup label =>
    return { o with groups := o.groups.push { label } }.done (.object o.groups.size)
  | .addToGroup group sh => do
    let g := (← o.groups[group]?).add sh
    return { o with groups := o.groups.setIfInBounds group g }.done .done
  | .newCallGraph =>
    return { o with callGraphs := o.callGraphs.push .empty }.done (.object o.callGraphs.size)
  | .recordCall callGraph site callee => do
    return o.report d ((← o.callGraphs[callGraph]?).record site callee) fun cg =>
      ({ o with callGraphs := o.callGraphs.setIfInBounds callGraph cg }, .done)
  | .newLatch =>
    return { o with latches := o.latches.push {} }.done (.object o.latches.size)
  | .giveUp latch reason => do
    return o.after ((← o.latches[latch]?).closeByCode reason) fun l =>
      ({ o with latches := o.latches.setIfInBounds latch l }, .done)
  | .extractBindings graph group sh => do
    let found := Bindings.extract (← o.graphs[graph]?) (← o.groups[group]?) sh
    return o.report d ⟨.ok found.value, found.events⟩ fun bindings => (o, .bindings bindings)
  | .successors registry procedure tracematch n s initial bindings => do
    let oracle := Oracle.shadows (← o.registries[registry]?) procedure
    let asked := oracle.successors ⟨← o.tracematches[tracematch]?, initial, bindings⟩ n s
    return o.report d asked fun ns => (o, .nodes ns)
  | .propagate inputs => o.propagate d inputs
  | .setUp inputs => o.setUp d inputs
  | .flow transfer s incoming outgoing => o.flow d transfer s incoming outgoing
  | .solve graph problem =>
    o.solve d graph problem fun solved =>
      ({ o with iterations := o.iterations.push solved }, .object o.iterations.size)
  | .solveAgain iteration => do
    let last ← o.iterations[iteration]?
    o.solve d last.graph last.problem fun solved =>
      ({ o with iterations := o.iterations.setIfInBounds iteration solved }, .done)

end Objects
end MonitorElision
