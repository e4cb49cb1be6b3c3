import MonitorElision.Diagnostics.Event
import MonitorElision.Fault
import MonitorElision.GraphLibrary
import MonitorElision.OrderedMap

/-!
# Abstracted call graphs

An edge leads from a call site to a procedure if the call may reach a shadow. A call site without
edges triggers no event, wherever it stands. Call sites and procedures are numbered together, in the
order they first occur, and are found again by two maps.
-/
namespace MonitorElision

inductive CallGraph.Vertex where
  | site (s : Statement)
  | procedure (name : String)
  deriving DecidableEq, Repr

namespace CallGraph.Vertex

def text : Vertex → String
  | site s => "call site " ++ s.text
  | procedure name => "procedure " ++ name

/-- The procedure that the vertex stands for. A call site has the name of none. -/
def callee : Vertex → String
  | site _ => ""
  | procedure name => name

end CallGraph.Vertex

/-- The graph, and the numbers of its call sites and of its procedures. -/
structure CallGraph (G : Type := LabelledGraph CallGraph.Vertex) where
  edges : G
  sites : OrderedMap Statement Nat
  procedures : OrderedMap String Nat

namespace CallGraph

open GraphLibrary

variable {G : Type} [GraphLibrary Vertex G]

def empty : CallGraph G := ⟨GraphLibrary.empty, ∅, ∅⟩

/-- A vertex of a graph, and the numbers it is among. -/
structure Entry (G κ : Type) where
  number : Nat
  edges : G
  numbers : OrderedMap κ Nat

/-- The vertex of that key, made at its first occurrence. -/
def enter {κ : Type} [DecidableEq κ] (label : κ → Vertex) (edges : G) (numbers : OrderedMap κ Nat)
    (k : κ) : Narrated (Entry G κ) :=
  match numbers.get? k with
  | some v => pure ⟨v, edges, numbers⟩
  | none =>
    let (v, edges) := addVertex edges (label k)
    ⟨⟨v, edges, numbers.insert k v⟩,
      [.log .callGraph (.ok ("Added " ++ (label k).text ++ " --- id=" ++ toString v ++ "\n"))]⟩

def link (edges : G) (source target : Nat) (site : Statement) (callee : String) : Narrated G :=
  let (new, edges) := addEdge edges source target
  ⟨edges,
    if new then [.log .callGraph (.ok ("Added cg edge " ++ site.text ++ " --> " ++ callee ++ "\n"))]
    else []⟩

/-- Records that the call site may reach a shadow through the callee. -/
def record (cg : CallGraph G) (site : Statement) (callee : String) :
    Narrated (Except Fault (CallGraph G)) := do
  if callee.isEmpty then return .error (.missingCallee site)
  let source ← enter .site cg.edges cg.sites site
  let target ← enter .procedure source.edges cg.procedures callee
  let edges ← link target.edges source.number target.number site callee
  return .ok ⟨edges, source.numbers, target.numbers⟩

/-- Whether an edge leads from the call site. -/
def HasCallees (cg : CallGraph G) (site : Statement) : Prop :=
  ∃ v ∈ cg.sites.get? site, targets cg.edges v ≠ []

instance (cg : CallGraph G) (site : Statement) : Decidable (cg.HasCallees site) :=
  inferInstanceAs (Decidable (∃ v ∈ cg.sites.get? site, targets cg.edges v ≠ []))

/-- The procedures to which edges lead from a vertex. -/
def calleesAt (cg : CallGraph G) (v : Nat) : List String :=
  (targets cg.edges v).filterMap fun w => (label? cg.edges w).map (·.callee)

def callees (cg : CallGraph G) (site : Statement) : List String :=
  match cg.sites.get? site with
  | some v => cg.calleesAt v
  | none => []

/-- What the call graph says of side effects. -/
def MayTrigger (cg : CallGraph G) (site : Statement) : Prop := cg.HasCallees site

instance (cg : CallGraph G) (site : Statement) : Decidable (cg.MayTrigger site) :=
  inferInstanceAs (Decidable (cg.HasCallees site))

def heading : String := "abstracted call graph:\n"

def lines (cg : CallGraph G) : List String :=
  cg.sites.entries.flatMap fun e =>
    (cg.calleesAt e.2).map fun callee => "  " ++ e.1.text ++ " --> " ++ callee ++ "\n"

def text (cg : CallGraph G) : String := heading ++ String.join cg.lines

end CallGraph
end MonitorElision
