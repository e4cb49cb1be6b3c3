import MonitorElision.Proofs.FlowGraph
import Mathlib.Data.List.Infix

/-!
# Growing graphs

A flow graph only grows: statements are appended and edges are added, nothing is ever taken away. So
whatever happens to a graph, it extends what it was.
-/
namespace MonitorElision.FlowGraph

/-- What can happen to a graph once it is there. -/
inductive Growth where
  | append (i : Instr)
  | connect (source target : Statement)
  | connectPath (path : List (Option Statement))

/-- The graph after a step. A fault leaves what was added before it. -/
def grow (g : FlowGraph) : Growth → FlowGraph
  | .append i => (g.append i).2
  | .connect source target =>
    match g.connect source target with
    | .ok g' => g'
    | .error _ => g
  | .connectPath path => (g.connectPath path).1

def growAll (g : FlowGraph) (steps : List Growth) : FlowGraph := steps.foldl grow g

/-- The old statements keep their numbers, and the old edges stay. -/
structure Extends (g g' : FlowGraph) : Prop where
  id : g'.id = g.id
  instrs : g.instrs.toList <+: g'.instrs.toList
  edges : ∀ e ∈ g.edges, e ∈ g'.edges

namespace Extends

variable {g g' g'' : FlowGraph}

theorem refl (g : FlowGraph) : g.Extends g := ⟨rfl, List.prefix_refl _, fun _ he => he⟩

theorem trans (h : g.Extends g') (h' : g'.Extends g'') : g.Extends g'' where
  id := h'.id.trans h.id
  instrs := h.instrs.trans h'.instrs
  edges e he := h'.edges e (h.edges e he)

theorem size_le (h : g.Extends g') : g.size ≤ g'.size := by
  simpa [size] using h.instrs.length_le

theorem statement_castLE (h : g.Extends g') (i : Fin g.size) :
    g'.statement (i.castLE h.size_le) = g.statement i := by
  have hi : i.val < g.instrs.toList.length := i.isLt
  have hinstr : g'.instr (i.castLE h.size_le) = g.instr i := (h.instrs.getElem hi).symm
  simp only [statement, h.id, Fin.val_castLE, hinstr]

theorem mem_statements (h : g.Extends g') {s : Statement} (hs : s ∈ g.statements) :
    s ∈ g'.statements := by
  obtain ⟨i, rfl⟩ := FlowGraph.mem_statements.mp hs
  exact FlowGraph.mem_statements.mpr ⟨i.castLE h.size_le, h.statement_castLE i⟩

theorem mem (h : g.Extends g') {s : Statement} (hs : s ∈ g) : s ∈ g' :=
  FlowGraph.mem_iff.mpr (FlowGraph.mem_statements.mp
    (h.mem_statements (FlowGraph.mem_statements.mpr (FlowGraph.mem_iff.mp hs))))

/-- An old statement that is an exit now has always been one. -/
theorem mem_tails_of_castLE (h : g.Extends g') {i : Fin g.size}
    (hi : i.castLE h.size_le ∈ g'.tails) : i ∈ g.tails :=
  mem_tails.mpr fun j hj => mem_tails.mp hi j (h.edges _ hj)

end Extends

variable (g : FlowGraph)

theorem extends_append (i : Instr) : g.Extends (g.append i).2 where
  id := rfl
  instrs := by simp [append]
  edges _ he := (Adjacency.mem_extend _).mpr he

theorem extends_addEdge (i j : Fin g.size) : g.Extends (g.addEdge i j) where
  id := rfl
  instrs := List.prefix_refl _
  edges _ he := Adjacency.mem_link.mpr (Or.inl he)

variable {g}

theorem extends_of_connect {g' : FlowGraph} {source target : Statement}
    (h : g.connect source target = .ok g') : g.Extends g' := by
  rcases g.connect_cases source target with ⟨i, j, -, -, hconnect⟩ | ⟨-, f, hconnect⟩
  · rw [hconnect] at h
    exact Except.ok.inj h ▸ g.extends_addEdge i j
  · rw [hconnect] at h
    cases h

variable (g)

theorem extends_connectFrom (last : Option Statement) (path : List (Option Statement)) :
    g.Extends (g.connectFrom last path).1 := by
  induction path generalizing g last with
  | nil => exact Extends.refl g
  | cons head rest ih =>
    cases head with
    | none => exact Extends.refl g
    | some s =>
      cases last with
      | none => exact ih g (some s)
      | some p =>
        cases hconnect : g.connect p s with
        | error f =>
          simp only [connectFrom, hconnect]
          exact Extends.refl g
        | ok g' =>
          simp only [connectFrom, hconnect]
          exact (extends_of_connect hconnect).trans (ih g' (some s))

theorem grow_connect_statement (i j : Fin g.size) :
    g.grow (.connect (g.statement i) (g.statement j)) = g.addEdge i j := by
  simp only [grow, connect_statement]

theorem grow_connect_of_not_mem {s t : Statement} (h : s ∉ g ∨ t ∉ g) :
    g.grow (.connect s t) = g := by
  obtain ⟨f, hf⟩ := exists_error_connect h
  simp only [grow, hf]

/-- Every step extends the graph. -/
theorem extends_grow (step : Growth) : g.Extends (g.grow step) := by
  cases step with
  | append i => exact g.extends_append i
  | connect source target =>
    rcases g.connect_cases source target with ⟨i, j, rfl, rfl, -⟩ | ⟨hforeign, -⟩
    · rw [grow_connect_statement]
      exact g.extends_addEdge i j
    · rw [grow_connect_of_not_mem g hforeign]
      exact Extends.refl g
  | connectPath path => exact g.extends_connectFrom none path

/-- Whatever happens to a graph, it extends what it was. -/
theorem extends_growAll (steps : List Growth) : g.Extends (g.growAll steps) := by
  induction steps generalizing g with
  | nil => exact Extends.refl g
  | cons step steps ih => exact (g.extends_grow step).trans (ih (g.grow step))

theorem growAll_append (steps later : List Growth) :
    g.growAll (steps ++ later) = (g.growAll steps).growAll later := List.foldl_append

end MonitorElision.FlowGraph
