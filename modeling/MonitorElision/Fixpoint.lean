import MonitorElision.Diagnostics.Event
import MonitorElision.FlowGraph.Order
import MonitorElision.NodeSet

/-!
# Forward fixpoint iteration

A worklist iteration over the statements of a flow graph. Every statement is visited once from the
start, and again after each growth of the flow out of a predecessor. The flow out of a statement
never decreases, whatever the transfer function does: its result is joined with what was there
before.

An analysis draws its flows from a finite pool of node numbers. So the flow out of a statement grows
at most once per number, and the iteration ends within one visit per statement and one per edge and
number.
-/
namespace MonitorElision.Fixpoint

/-- The result of a transfer: the state after it, and the flows it left before and after the
statement. -/
structure Flow (σ : Type) where
  state : σ
  incoming : NodeSet
  outgoing : NodeSet

/-- A forward analysis with state `σ`. The transfer function is given the flow that enters the
statement and the flow that left it so far, and may replace both. -/
structure Analysis (σ : Type) where
  entry : NodeSet
  initial : NodeSet
  flow : σ → Statement → NodeSet → NodeSet → Flow σ
  pool : List Nat
  entry_within : entry.Within pool
  initial_within : initial.Within pool
  flow_within : ∀ x s incoming outgoing, incoming.Within pool → outgoing.Within pool →
    (flow x s incoming outgoing).incoming.Within pool ∧
      (flow x s incoming outgoing).outgoing.Within pool

/-- The tables hold the flow before and after each statement, the queue the statements to visit. -/
structure Iteration (σ : Type) (n : Nat) where
  state : σ
  before : Vector NodeSet n
  after : Vector NodeSet n
  queue : List (Fin n)
  visits : Nat

/-- Replaces an entry of a table. -/
def put {α : Type} {n : Nat} (table : Vector α n) (i : Fin n) (flow : α) : Vector α n :=
  table.set i flow i.isLt

/-- Adds what is not queued yet. -/
def enqueue {n : Nat} (queue next : List (Fin n)) : List (Fin n) :=
  queue ++ next.filter (· ∉ queue)

section Tables

variable {α : Type} {n : Nat} {table : Vector α n} {i j : Fin n} {flow : α}

@[simp] theorem get_replicate : (Vector.replicate n flow).get i = flow := by
  change (Vector.replicate n flow)[i.val] = flow
  simp

@[simp] theorem get_put_self : (put table i flow).get i = flow := by
  change (table.set i flow i.isLt)[i.val] = flow
  simp

theorem get_put_of_ne (h : j ≠ i) : (put table i flow).get j = table.get j := by
  have hval : i.val ≠ j.val := fun hij => h (Fin.ext hij.symm)
  change (table.set i flow i.isLt)[j.val] = table[j.val]
  simp [hval]

@[simp] theorem mem_enqueue {queue next : List (Fin n)} :
    i ∈ enqueue queue next ↔ i ∈ queue ∨ i ∈ next := by
  by_cases h : i ∈ queue <;> simp [enqueue, h]

theorem length_le_length_enqueue (queue next : List (Fin n)) :
    queue.length ≤ (enqueue queue next).length := by
  simp [enqueue]

theorem length_enqueue_le (queue next : List (Fin n)) :
    (enqueue queue next).length ≤ queue.length + next.length := by
  have hfresh := List.length_filter_le (· ∉ queue) next
  rw [enqueue, List.length_append]
  omega

end Tables

namespace Analysis

variable {σ : Type} (a : Analysis σ) (g : FlowGraph)

def start (x : σ) : Iteration σ g.size where
  state := x
  before := Vector.replicate _ a.initial
  after := Vector.replicate _ a.initial
  queue := g.order
  visits := 0

/-- What flows into a statement from its predecessors, and from outside. -/
def joined (it : Iteration σ g.size) (i : Fin g.size) : NodeSet :=
  (g.preds i).foldl (fun acc p => acc ∪ it.after.get p)
    (if g.IsHead i then a.entry else a.initial)

def transfer (it : Iteration σ g.size) (i : Fin g.size) : Flow σ :=
  a.flow it.state (g.statement i) (a.joined g it i) (it.after.get i)

/-- Visits a statement that was taken off the queue. -/
def visit (it : Iteration σ g.size) (i : Fin g.size) : Iteration σ g.size :=
  let result := a.transfer g it i
  let outgoing := result.outgoing ∪ it.after.get i
  let settled : Iteration σ g.size :=
    { it with
      state := result.state
      before := put it.before i (result.incoming ∪ it.before.get i)
      visits := it.visits + 1 }
  if outgoing ≤ it.after.get i then settled
  else
    { settled with
      after := put it.after i outgoing
      queue := enqueue it.queue (g.succs i) }

/-- At most `budget` visits. -/
def drain : Nat → Iteration σ g.size → Iteration σ g.size
  | 0, it => it
  | budget + 1, it =>
    match it.queue with
    | [] => it
    | i :: rest => drain budget (a.visit g { it with queue := rest } i)

def budget : Nat := g.size + g.edges.size * a.pool.length

def run (x : σ) : Iteration σ g.size := a.drain g (a.budget g) (a.start g x)

end Analysis

/-- The flows an analysis found, by statement number. -/
structure Solution where
  before : Array NodeSet
  after : Array NodeSet
  visits : Nat

def Iteration.solution {σ : Type} {n : Nat} (it : Iteration σ n) : Solution :=
  ⟨it.before.toArray, it.after.toArray, it.visits⟩

namespace Solution

def before? (sol : Solution) (s : Statement) : Option NodeSet := sol.before[s.index]?

def after? (sol : Solution) (s : Statement) : Option NodeSet := sol.after[s.index]?

end Solution

/-- An iteration is counted and timed under this name. -/
def timer : String := "Fixpo"

def opening : List Event := [.count timer, .resume timer]

def closing : List Event := [.stop timer]

def summary (name : String) (g : FlowGraph) (visits : Nat) : List Event :=
  [.log .fixpoint (.ok (name ++ " for " ++ g.name ++ "\n" ++ "fixpoint ordering=" ++
      Text.braced (g.order.map fun i => toString i.val) ++ "\n")),
    .log .fixpoint (.ok (name ++ ": fixpoint reached after " ++ toString visits ++
      " statement visits.\n"))]

/-- Runs an analysis that has no events of its own. -/
def solve {σ : Type} (name : String) (a : Analysis σ) (g : FlowGraph) (x : σ) :
    Narrated Solution :=
  let finished := a.run g x
  ⟨finished.solution, opening ++ summary name g finished.visits ++ closing⟩

end MonitorElision.Fixpoint
