import MonitorElision.Text.Listing

/-!
# Automaton nodes

A node belongs to one machine and is numbered within it. Nodes of two machines are different nodes,
also when their numbers agree.
-/
namespace MonitorElision

structure Node where
  machine : Nat
  index : Nat
  isInitial : Bool
  isFinal : Bool
  deriving DecidableEq, Repr

namespace Node

def text (n : Node) : String :=
  let marks := (if n.isInitial then "I" else "") ++ (if n.isFinal then "F" else "")
  "s" ++ toString n.index ++ (if n.isInitial || n.isFinal then "(" ++ marks ++ ")" else "")

end Node
end MonitorElision
