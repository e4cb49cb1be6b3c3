import MonitorElision.Fixpoint

/-!
# Flows of any kind

The worklist iteration for an analysis that brings its own kind of flow. Nothing is asked of its
operations: flows may be joined and compared in any way, there may be infinitely many of them, and
every operation may change the state of the analysis. So an iteration need not end by itself. The
analyses over node sets are the instance that joins by union and compares by inclusion.
-/
namespace MonitorElision.Fixpoint

/-- What an analysis brings along. The transfer function is given the flow that enters the statement
and the flow that left it so far, and answers with both. -/
structure Operations (σ D : Type) where
  entry : StateM σ D
  initial : StateM σ D
  reset : StateM σ Unit
  join : D → D → StateM σ D
  copy : D → StateM σ D
  flow : Statement → D → D → StateM σ (D × D)
  atMost : D → D → Bool

/-- How far an iteration has come. The trail lists the statements visited so far. -/
structure Course (σ D : Type) (n : Nat) where
  state : σ
  before : Vector D n
  after : Vector D n
  queue : List (Fin n)
  trail : List (Fin n)

namespace Operations

variable {σ D : Type} (ops : Operations σ D) (g : FlowGraph)

def start (x : σ) : Course σ D g.size :=
  let opened : StateM σ (D × D) := do
    let before ← ops.initial
    let after ← ops.initial
    ops.reset
    return (before, after)
  let ((before, after), state) := opened x
  { state := state
    before := Vector.replicate _ before
    after := Vector.replicate _ after
    queue := g.order
    trail := [] }

def outside (i : Fin g.size) : StateM σ D := if g.IsHead i then ops.entry else ops.initial

/-- What flows into a statement from its predecessors, and from outside. -/
def joined (after : Vector D g.size) (i : Fin g.size) : StateM σ D := do
  let outside ← ops.outside g i
  (g.preds i).foldlM (fun acc p => ops.join acc (after.get p)) outside

/-- The flow out of a statement, if it has grown. -/
def grown (outgoing old : D) : StateM σ (Option D) :=
  if ops.atMost outgoing old then pure none else some <$> ops.copy outgoing

/-- The flow before a statement that a visit comes to, and the flow after it if that has grown. -/
def settle (before after : Vector D g.size) (i : Fin g.size) : StateM σ (D × Option D) := do
  let joined ← ops.joined g after i
  let old ← ops.copy (after.get i)
  let (incoming, outgoing) ← ops.flow (g.statement i) joined old
  let outgoing ← ops.join outgoing (after.get i)
  let incoming ← ops.join incoming (before.get i)
  let grown ← ops.grown outgoing (after.get i)
  return (incoming, grown)

/-- Visits a statement that was taken off the queue. -/
def visit (c : Course σ D g.size) (i : Fin g.size) : Course σ D g.size :=
  let ((incoming, grown), state) := ops.settle g c.before c.after i c.state
  let settled : Course σ D g.size :=
    { c with
      state := state
      before := put c.before i incoming
      trail := c.trail ++ [i] }
  match grown with
  | none => settled
  | some outgoing =>
    { settled with
      after := put c.after i outgoing
      queue := enqueue c.queue (g.succs i) }

/-- At most `budget` visits. -/
def drain : Nat → Course σ D g.size → Course σ D g.size
  | 0, c => c
  | budget + 1, c =>
    match c.queue with
    | [] => c
    | i :: rest => drain budget (ops.visit g { c with queue := rest } i)

end Operations

/-- An analysis over node sets. -/
def Analysis.operations {σ : Type} (a : Analysis σ) : Operations σ NodeSet where
  entry := pure a.entry
  initial := pure a.initial
  reset := pure ()
  join s t := pure (s ∪ t)
  copy s := pure s
  flow s incoming outgoing := fun x =>
    let result := a.flow x s incoming outgoing
    ((result.incoming, result.outgoing), result.state)
  atMost s t := s ≤ t

/-- The trail tells how many visits there were. -/
def Course.iteration {σ : Type} {n : Nat} (c : Course σ NodeSet n) : Iteration σ n :=
  ⟨c.state, c.before, c.after, c.queue, c.trail.length⟩

end MonitorElision.Fixpoint
