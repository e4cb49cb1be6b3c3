import MonitorElision.FlowGraph

/-!
# Visiting order

Statements are visited in reverse postorder of a depth-first search from the heads, and the
statements the search does not reach follow in the order of insertion.
-/
namespace MonitorElision.FlowGraph

/-- What a search has met so far, and what it has left for good, the last one first. -/
structure Search (n : Nat) where
  met : List (Fin n)
  left : List (Fin n)

/-- Searches from `i`, at most `depth` edges deep. -/
def explore (g : FlowGraph) : Nat → Search g.size → Fin g.size → Search g.size
  | 0, s, _ => s
  | depth + 1, s, i =>
    if i ∈ s.met then s
    else
      let below := (g.succs i).foldl (g.explore depth) ⟨i :: s.met, s.left⟩
      ⟨below.met, i :: below.left⟩

/-- No search goes deeper than there are statements. -/
def search (g : FlowGraph) : Search g.size := g.heads.foldl (g.explore g.size) ⟨[], []⟩

def order (g : FlowGraph) : List (Fin g.size) :=
  let found := g.search
  found.left ++ (List.finRange g.size).filter (· ∉ found.met)

end MonitorElision.FlowGraph
