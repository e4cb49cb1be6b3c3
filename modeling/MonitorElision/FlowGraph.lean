import MonitorElision.Fault
import MonitorElision.FlowGraph.Adjacency

/-!
# Flow graphs

The control flow of one procedure, statement by statement. Statements are numbered in the order of
insertion, and each has its successors and its predecessors in the order in which the edges were
added. The heads are the first statement and all statements without predecessors, the tails those
without successors.
-/
namespace MonitorElision

structure FlowGraph where
  id : Nat
  name : String
  instrs : Array Instr
  edges : Adjacency instrs.size

namespace FlowGraph

def empty (id : Nat) (name : String) : FlowGraph := ⟨id, name, #[], ∅⟩

def size (g : FlowGraph) : Nat := g.instrs.size

def instr (g : FlowGraph) (i : Fin g.size) : Instr :=
  have : i.val < g.instrs.size := i.isLt
  g.instrs[i.val]

def statement (g : FlowGraph) (i : Fin g.size) : Statement := ⟨g.id, i, g.instr i⟩

def statements (g : FlowGraph) : List Statement := (List.finRange g.size).map g.statement

def get (g : FlowGraph) (i : Nat) : Except Fault Statement :=
  if h : i < g.size then .ok (g.statement ⟨i, h⟩) else .error (.outOfBounds i g.name)

/-- The place of a statement of this graph. -/
def find? (g : FlowGraph) (s : Statement) : Option (Fin g.size) :=
  if h : s.index < g.size then
    if g.statement ⟨s.index, h⟩ = s then some ⟨s.index, h⟩ else none
  else none

def find (g : FlowGraph) (s : Statement) : Except Fault (Fin g.size) :=
  match g.find? s with
  | some i => .ok i
  | none => .error (.foreignStatement s g.name)

instance : Membership Statement FlowGraph := ⟨fun g s => (g.find? s).isSome⟩

instance (s : Statement) (g : FlowGraph) : Decidable (s ∈ g) :=
  inferInstanceAs (Decidable ((g.find? s).isSome = true))

/-- The new statement takes the next number. -/
def append (g : FlowGraph) (i : Instr) : Statement × FlowGraph :=
  (⟨g.id, g.size, i⟩,
    { g with
      instrs := g.instrs.push i
      edges := g.edges.extend (Array.size_push i) })

def addEdge (g : FlowGraph) (i j : Fin g.size) : FlowGraph :=
  { g with edges := g.edges.link i j }

def connect (g : FlowGraph) (source target : Statement) : Except Fault FlowGraph := do
  let i ← g.find source
  let j ← g.find target
  return g.addEdge i j

/-- Connects each element of the rest of a path to the one before it, up to the first fault. -/
def connectFrom (g : FlowGraph) (last : Option Statement) :
    List (Option Statement) → FlowGraph × Except Fault Unit
  | [] => (g, .ok ())
  | none :: _ => (g, .error .missingPathElement)
  | some s :: rest =>
    match last with
    | none => connectFrom g (some s) rest
    | some p =>
      match g.connect p s with
      | .error f => (g, .error f)
      | .ok g => connectFrom g (some s) rest

/-- The edges added before a fault stay. -/
def connectPath (g : FlowGraph) (path : List (Option Statement)) : FlowGraph × Except Fault Unit :=
  connectFrom g none path

def succs (g : FlowGraph) (i : Fin g.size) : List (Fin g.size) := g.edges.succs.get i

def preds (g : FlowGraph) (i : Fin g.size) : List (Fin g.size) := g.edges.preds.get i

def IsHead (g : FlowGraph) (i : Fin g.size) : Prop := i.val = 0 ∨ g.preds i = []

instance (g : FlowGraph) (i : Fin g.size) : Decidable (g.IsHead i) :=
  inferInstanceAs (Decidable (_ ∨ _))

def heads (g : FlowGraph) : List (Fin g.size) := (List.finRange g.size).filter (g.IsHead ·)

def tails (g : FlowGraph) : List (Fin g.size) := (List.finRange g.size).filter (g.succs · = [])

def next (g : FlowGraph) (s : Statement) : Except Fault (List Statement) := do
  return (g.succs (← g.find s)).map g.statement

def previous (g : FlowGraph) (s : Statement) : Except Fault (List Statement) := do
  return (g.preds (← g.find s)).map g.statement

def text (g : FlowGraph) : String :=
  let line (i : Fin g.size) : String :=
    let targets := (g.succs i).map fun j => toString j.val
    "  " ++ toString i.val ++ ": " ++ (g.statement i).text ++
      (if targets.isEmpty then "" else " -> " ++ Text.braced targets) ++ "\n"
  g.name ++ ":\n" ++ String.join ((List.finRange g.size).map line)

theorem within (g : FlowGraph) : ∀ e ∈ g.edges, e.1 < g.instrs.size ∧ e.2 < g.instrs.size :=
  fun _ => Adjacency.within

@[simp] theorem mem_succs {g : FlowGraph} {i j : Fin g.size} :
    j ∈ g.succs i ↔ (i.val, j.val) ∈ g.edges :=
  Adjacency.mem_iff.symm

@[simp] theorem mem_preds {g : FlowGraph} {i j : Fin g.size} :
    j ∈ g.preds i ↔ (j.val, i.val) ∈ g.edges :=
  Adjacency.mem_iff_preds.symm

theorem nodup_succs (g : FlowGraph) (i : Fin g.size) : (g.succs i).Nodup := g.edges.nodup_succs i

theorem nodup_preds (g : FlowGraph) (i : Fin g.size) : (g.preds i).Nodup := g.edges.nodup_preds i

end FlowGraph
end MonitorElision
