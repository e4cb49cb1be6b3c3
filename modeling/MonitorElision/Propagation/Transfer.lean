import MonitorElision.Fixpoint
import MonitorElision.GiveUp
import MonitorElision.Oracle.Firing

/-!
# The transfer function of state propagation

State propagation computes which automaton nodes can be active around each statement, when the
automaton is in an initial node at the statement that hosts the initial shadow. The initial nodes
are injected there once, at the first visit. The analysis gives up when a statement may trigger
events elsewhere, when a trace local is redefined while the automaton is tracked, and when a final
node is reached; from then on nothing flows any more.
-/
namespace MonitorElision.Propagation

open Fixpoint

/-- What is settled when the analysis is set up. -/
structure Setup where
  start : Statement
  initial : NodeSet
  bindings : Bindings

/-- The parts of the program that the analysis asks about. -/
structure Environment where
  tracematch : Tracematch
  oracle : Oracle
  mayTrigger : Statement → Bool

/-- Whether the analysis gave up, and whether the initial nodes were injected. -/
structure Progress where
  latch : Latch Reason := {}
  injected : Bool := false
  deriving DecidableEq

namespace Progress

def gaveUpCounter : String := "StatePropagator.gave_up"

def reasonCounter (r : Reason) : String := gaveUpCounter ++ "." ++ r.name

/-- Only the first reason is counted. -/
def giveUp (p : Progress) (r : Reason) (s : Option Statement) : Narrated Progress where
  value := { p with latch := p.latch.close r }
  events :=
    match p.latch.reason with
    | some first =>
      [.log .propagation do
        return "Already gave up (" ++ (← first.print) ++ "), ignoring " ++ (← r.print) ++ "\n"]
    | none =>
      let place := match s with
        | some s => " at " ++ Text.quoted s.text
        | none => ""
      [.count gaveUpCounter, .count (reasonCounter r),
        .log .propagation do return "Giving up (" ++ (← r.print) ++ ")" ++ place ++ "\n"]

end Progress

/-- How a sweep over the nodes before a statement came to its end. -/
inductive Ending where
  | completed
  | final
  | faulted (f : Fault)

structure Sweep where
  outgoing : NodeSet
  ending : Ending
  events : List Event

/-- Collects the successors of the nodes, up to the first node that leads to a final one. -/
def sweep (ask : Node → Narrated (Except Fault NodeSet)) : List Node → NodeSet → Sweep
  | [], outgoing => ⟨outgoing, .completed, []⟩
  | n :: ns, outgoing =>
    let answer := ask n
    match answer.value with
    | .error f => ⟨outgoing, .faulted f, answer.events⟩
    | .ok next =>
      if next.nodes.any (·.isFinal) then ⟨outgoing, .final, answer.events⟩
      else
        let rest := sweep ask ns (outgoing ∪ next)
        { rest with events := answer.events ++ rest.events }

/-- The flows around a statement after a visit, unless a fault stopped it. -/
structure Passage where
  progress : Progress
  flows : Except Fault (NodeSet × NodeSet)
  events : List Event

namespace Setup

variable (S : Setup) (E : Environment)

def context : Oracle.Context := ⟨E.tracematch, S.initial, S.bindings⟩

def successors (s : Statement) (n : Node) : Narrated (Except Fault NodeSet) :=
  E.oracle.successors (S.context E) n s

def Injects (p : Progress) (s : Statement) : Prop := s = S.start ∧ p.injected = false

instance (p : Progress) (s : Statement) : Decidable (S.Injects p s) :=
  inferInstanceAs (Decidable (_ ∧ _))

/-- Whether the statement redefines a trace local. -/
def Redefines (s : Statement) : Prop := ∃ l ∈ s.live.defs, S.bindings.IsTraceLocal l

instance (s : Statement) : Decidable (S.Redefines s) :=
  inferInstanceAs (Decidable (∃ l ∈ s.live.defs, S.bindings.IsTraceLocal l))

def enter (p : Progress) (s : Statement) (incoming : NodeSet) : Progress × NodeSet :=
  if S.Injects p s then ({ p with injected := true }, S.initial) else (p, incoming)

/-- Tracking goes on after a redefinition, so a final node can still be met. -/
def watch (p : Progress) (s : Statement) (incoming : NodeSet) : Narrated Progress :=
  if incoming ≠ ∅ ∧ S.Redefines s then p.giveUp .redefinedBinding (some s) else pure p

def pass (p : Progress) (s : Statement) (incoming : NodeSet) : Passage :=
  let swept := sweep (S.successors E s) incoming.nodes ∅
  match swept.ending with
  | .completed =>
    ⟨p, .ok (incoming, swept.outgoing),
      swept.events ++ [.log .propagation (.ok (Text.quoted s.text ++ ": " ++ incoming.text ++
        " ==> " ++ swept.outgoing.text ++ "\n"))]⟩
  | .final =>
    let p := p.giveUp .finalState (some s)
    ⟨p.value, .ok (incoming, swept.outgoing), swept.events ++ p.events⟩
  | .faulted f => ⟨p, .error f, swept.events⟩

def flow (p : Progress) (s : Statement) (incoming outgoing : NodeSet) : Passage :=
  if p.latch.Closed then ⟨p, .ok (incoming, outgoing), []⟩
  else if E.mayTrigger s then
    let p := p.giveUp .sideEffect (some s)
    ⟨p.value, .ok (incoming, outgoing), p.events⟩
  else
    let (p, incoming) := S.enter p s incoming
    let watched := S.watch p s incoming
    let passed := S.pass E watched.value s incoming
    { passed with events := watched.events ++ passed.events }

def pool : List Nat := S.initial.indexes ++ E.oracle.reach (S.context E)

theorem within_sweep {s : Statement} {ns : List Node} {outgoing : NodeSet}
    (hns : ∀ n ∈ ns, n.index ∈ S.pool E) (ho : outgoing.Within (S.pool E)) :
    (sweep (S.successors E s) ns outgoing).outgoing.Within (S.pool E) := by
  induction ns generalizing outgoing with
  | nil => exact ho
  | cons n ns ih =>
    unfold sweep
    dsimp only
    split
    · exact ho
    · rename_i next hnext
      split
      · exact ho
      · refine ih (fun m hm => hns m (List.mem_cons_of_mem _ hm)) (ho.union fun i hi => ?_)
        rcases E.oracle.within _ _ _ _ hnext i hi with rfl | h | h
        · exact hns n List.mem_cons_self
        · exact List.mem_append_left _ h
        · exact List.mem_append_right _ h

theorem within_pass {p : Progress} {s : Statement} {incoming : NodeSet} {flows : NodeSet × NodeSet}
    (hi : incoming.Within (S.pool E)) (h : (S.pass E p s incoming).flows = .ok flows) :
    flows.1.Within (S.pool E) ∧ flows.2.Within (S.pool E) := by
  have hnodes : ∀ n ∈ incoming.nodes, n.index ∈ S.pool E := fun n hn =>
    hi _ (NodeSet.mem_indexes.2 ⟨n, hn, rfl⟩)
  have hswept := @within_sweep S E s incoming.nodes ∅ hnodes (NodeSet.within_empty _)
  unfold pass at h
  dsimp only at h
  split at h
  · cases h
    exact ⟨hi, hswept⟩
  · cases h
    exact ⟨hi, hswept⟩
  · cases h

theorem within_enter {p : Progress} {s : Statement} {incoming : NodeSet}
    (hi : incoming.Within (S.pool E)) : (S.enter p s incoming).2.Within (S.pool E) := by
  unfold enter
  split
  · exact fun i h => List.mem_append_left _ h
  · exact hi

theorem within_flow {p : Progress} {s : Statement} {incoming outgoing : NodeSet}
    {flows : NodeSet × NodeSet} (hi : incoming.Within (S.pool E))
    (ho : outgoing.Within (S.pool E)) (h : (S.flow E p s incoming outgoing).flows = .ok flows) :
    flows.1.Within (S.pool E) ∧ flows.2.Within (S.pool E) := by
  unfold flow at h
  split at h
  · cases h
    exact ⟨hi, ho⟩
  · split at h
    · cases h
      exact ⟨hi, ho⟩
    · exact within_pass S E (within_enter S E hi) h

end Setup

/-- The state of a run over a flow graph. A fault ends the run: nothing changes any more. -/
structure Account where
  progress : Progress
  fault : Option Fault
  /-- The events so far, the latest first. -/
  history : List Event

namespace Setup

variable (S : Setup) (E : Environment)

def step (x : Account) (s : Statement) (incoming outgoing : NodeSet) : Flow Account :=
  match x.fault with
  | some _ => ⟨x, incoming, outgoing⟩
  | none =>
    let passage := S.flow E x.progress s incoming outgoing
    let history := passage.events.reverse ++ x.history
    match passage.flows with
    | .error f => ⟨⟨passage.progress, some f, history⟩, incoming, outgoing⟩
    | .ok flows => ⟨⟨passage.progress, none, history⟩, flows.1, flows.2⟩

def analysis : Analysis Account where
  entry := ∅
  initial := ∅
  flow := S.step E
  pool := S.pool E
  entry_within := NodeSet.within_empty _
  initial_within := NodeSet.within_empty _
  flow_within x s incoming outgoing hi ho := by
    unfold step
    split
    · exact ⟨hi, ho⟩
    · dsimp only
      split
      · exact ⟨hi, ho⟩
      · rename_i h
        exact within_flow S E hi ho h

end Setup
end MonitorElision.Propagation
