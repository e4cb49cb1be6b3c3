import MonitorElision.Fault
import MonitorElision.NodeSet
import MonitorElision.Tracematch.Signature
import MonitorElision.Tracematch.Transitions

/-!
# Tracematches

A tracematch is a signature with a state machine that recognises the property. The machine is grown
by new states and new transitions; a transition is accepted if its symbol is in the alphabet and its
ends are nodes of the machine, and accepting it again changes nothing.
-/
namespace MonitorElision

structure NodeKind where
  isInitial : Bool
  isFinal : Bool
  deriving DecidableEq, Repr

/-- The `i`-th node has the `i`-th kind. -/
structure Tracematch where
  signature : Signature
  kinds : Array NodeKind
  transitions : Transitions
  within : ∀ t ∈ transitions, t.source < kinds.size ∧ t.target < kinds.size

namespace Tracematch

def declare (s : Signature) : Tracematch := ⟨s, #[], ∅, by simp⟩

def size (tm : Tracematch) : Nat := tm.kinds.size

def kind (tm : Tracematch) (i : Fin tm.size) : NodeKind :=
  have : i.val < tm.kinds.size := i.isLt
  tm.kinds[i.val]

def node (tm : Tracematch) (i : Fin tm.size) : Node :=
  ⟨tm.signature.id, i, (tm.kind i).isInitial, (tm.kind i).isFinal⟩

def node? (tm : Tracematch) (i : Nat) : Option Node :=
  if h : i < tm.size then some (tm.node ⟨i, h⟩) else none

def nodes (tm : Tracematch) : List Node := (List.finRange tm.size).map tm.node

def Owns (tm : Tracematch) (n : Node) : Prop := n.machine = tm.signature.id

instance (tm : Tracematch) (n : Node) : Decidable (tm.Owns n) :=
  inferInstanceAs (Decidable (n.machine = tm.signature.id))

/-- The new node takes the next number. -/
def newState (tm : Tracematch) (kind : NodeKind) : Node × Tracematch :=
  (⟨tm.signature.id, tm.size, kind.isInitial, kind.isFinal⟩,
    { tm with
      kinds := tm.kinds.push kind
      within := fun t h => by
        have := tm.within t h
        simp only [Array.size_push]
        omega })

def addTransition (tm : Tracematch) (source : Fin tm.size) (symbol : String)
    (target : Fin tm.size) : Tracematch :=
  { tm with
    transitions := tm.transitions.insert ⟨source, symbol, target⟩
    within := fun t h => by
      rcases Transitions.mem_insert.1 h with h | rfl
      · exact tm.within t h
      · exact ⟨source.isLt, target.isLt⟩ }

/-- The place of a node of this machine. -/
def find (tm : Tracematch) (n : Node) : Except Fault (Fin tm.size) :=
  if h : tm.Owns n ∧ n.index < tm.size then .ok ⟨n.index, h.2⟩ else .error (.foreignNode n)

def newTransition (tm : Tracematch) (source : Node) (symbol : String) (target : Node) :
    Except Fault Tracematch := do
  if symbol ∈ tm.signature.alphabet then
    let source ← tm.find source
    let target ← tm.find target
    return tm.addTransition source symbol target
  else
    throw (.unknownSymbol symbol tm.signature.name)

/-- The targets of the transitions from the `i`-th node by the symbol. -/
def targets (tm : Tracematch) (i : Fin tm.size) (symbol : String) : List (Fin tm.size) :=
  (tm.transitions.targets i symbol).attach.map fun ⟨j, h⟩ => ⟨j, (tm.within ⟨i, symbol, j⟩ h).2⟩

def successors (tm : Tracematch) (n : Node) (symbol : String) : Except Fault (List Node) := do
  let i ← tm.find n
  return (tm.targets i symbol).map tm.node

def initialNodes (tm : Tracematch) : List Node := tm.nodes.filter (·.isInitial)

/-- Transitions are listed by source, then by symbol, then in the order of acceptance. -/
def text (tm : Tracematch) : String :=
  let arrows := (List.finRange tm.size).flatMap fun i =>
    tm.signature.alphabet.toList.flatMap fun symbol =>
      (tm.targets i symbol).map fun j =>
        "  " ++ (tm.node i).text ++ " --" ++ symbol ++ "--> " ++ (tm.node j).text ++ "\n"
  "tracematch " ++ tm.signature.name ++ Text.parenthesized tm.signature.formals ++
    " symbols=" ++ Text.braced tm.signature.alphabet.toList ++ "\n" ++
    "states=" ++ Text.braced (tm.nodes.map (·.text)) ++ "\n" ++ String.join arrows

@[simp] theorem node_index (tm : Tracematch) (i : Fin tm.size) : (tm.node i).index = i := rfl

end Tracematch
end MonitorElision
