import MonitorElision.Proofs.Fixpoint.Idle
import MonitorElision.Proofs.Propagation.Bindings
import MonitorElision.Proofs.Propagation.Growth

/-!
# Giving up

A closed latch makes the analysis idle. So the flows out of the statements stay as the visit left
them that closed the latch, what is queued by then is visited once more, and the reason for that
visit is the one that is reported. Unresolved bindings close the latch before the first visit, and
then nothing flows at all.
-/
namespace MonitorElision

namespace Propagation.Setup

open Fixpoint

variable {S : Setup} {E : Environment} {g : FlowGraph} {p : Progress} {s : Statement}
  {incoming outgoing : NodeSet} {reason : Reason}

/-- The first ground for giving up at a statement: the nodes that enter it are swept only if it
triggers nothing elsewhere, and a redefinition is noticed before any of them is swept. -/
inductive Ground (S : Setup) (E : Environment) (s : Statement) (entered : NodeSet) : Reason → Prop
  | sideEffect : E.mayTrigger s = true → Ground S E s entered .sideEffect
  | redefined {x} : E.mayTrigger s = false → x ∈ entered → S.Redefines s →
      Ground S E s entered .redefinedBinding
  | final {x y} : E.mayTrigger s = false → ¬S.Redefines s → x ∈ entered → S.Moves E s x y →
      y.isFinal = true → Ground S E s entered .finalState

/-- The analysis as it is after at most `n` visits. -/
def turn (S : Setup) (E : Environment) (g : FlowGraph) (n : Nat) : Iteration Account g.size :=
  (S.analysis E).drain g n ((S.analysis E).start g ⟨outset S.bindings, none, []⟩)

/-- The nodes that enter a statement if it is visited now. -/
def entering (S : Setup) (E : Environment) (g : FlowGraph) (it : Iteration Account g.size)
    (i : Fin g.size) : NodeSet :=
  (S.enter it.state.progress (g.statement i) ((S.analysis E).joined g it i)).2

/-- The analysis gives up for the reason: before the first visit if the bindings are unresolved, or
else in the visit after `n` visits that left the latch open. -/
inductive GivesUp (S : Setup) (E : Environment) (g : FlowGraph) : Nat → Reason → Prop
  | outset : S.bindings.unresolved = true → GivesUp S E g 0 .unresolvedBinding
  | visit {n i rest reason} : ¬(S.turn E g n).state.progress.latch.Closed →
      (S.turn E g n).queue = i :: rest →
      S.Ground E (g.statement i) (S.entering E g (S.turn E g n) i) reason →
      GivesUp S E g (n + 1) reason

section Reason

theorem reason_giveUp (h : ¬p.latch.Closed) (place : Option Statement) :
    (p.giveUp reason place).value.latch.reason = some reason := by
  have hnone : p.latch.reason = none := by simpa [Latch.Closed] using h
  simp [Progress.giveUp, Latch.close, hnone]

theorem latch_giveUp (h : p.latch.Closed) (place : Option Statement) :
    (p.giveUp reason place).value.latch = p.latch :=
  Latch.close_of_closed h reason

theorem latch_pass (S : Setup) (E : Environment) (p : Progress) (s : Statement)
    (incoming : NodeSet) : (S.pass E p s incoming).progress.latch = p.latch ∨
    (sweep (S.successors E s) incoming.nodes ∅).ending = .final ∧
      (S.pass E p s incoming).progress = (p.giveUp .finalState (some s)).value := by
  unfold pass
  dsimp only
  split
  · exact Or.inl rfl
  · rename_i hfinal
    exact Or.inr ⟨hfinal, rfl⟩
  · exact Or.inl rfl

/-- A redefinition that is noticed is not forgotten over a final node. -/
theorem latch_pass_of_closed (h : p.latch.Closed) :
    (S.pass E p s incoming).progress.latch = p.latch := by
  rcases S.latch_pass E p s incoming with hlatch | ⟨-, hgiven⟩
  · exact hlatch
  · rw [hgiven, latch_giveUp h]

theorem exists_final_of_pass (hopen : ¬p.latch.Closed)
    (h : (S.pass E p s incoming).progress.latch.reason = some reason) :
    reason = .finalState ∧ ∃ x ∈ incoming, ∃ y, S.Moves E s x y ∧ y.isFinal = true := by
  rcases S.latch_pass E p s incoming with hlatch | ⟨hfinal, hgiven⟩
  · rw [hlatch] at h
    exact absurd (Option.isSome_of_eq_some h) hopen
  · rw [hgiven, reason_giveUp hopen] at h
    obtain ⟨x, hx, next, hnext, y, hy, hyfinal⟩ := exists_final_of_sweep hfinal
    exact ⟨(Option.some.inj h).symm, x, hx, y, ⟨next, hnext, hy⟩, hyfinal⟩

/-- A visit that closes the latch does so for the first ground. -/
theorem ground_of_flow (hopen : ¬p.latch.Closed)
    (h : (S.flow E p s incoming outgoing).progress.latch.reason = some reason) :
    S.Ground E s (S.enter p s incoming).2 reason := by
  have hentered : ¬(S.enter p s incoming).1.latch.Closed := by rwa [closed_enter]
  have hwatched := S.closed_watch s (S.enter p s incoming).2 hentered
  unfold flow at h
  rw [if_neg hopen] at h
  split at h
  · rename_i htrigger
    dsimp only at h
    rw [reason_giveUp hopen] at h
    obtain rfl := Option.some.inj h
    exact Ground.sideEffect htrigger
  · rename_i hquiet
    have hquiet : E.mayTrigger s = false := Bool.eq_false_iff.mpr hquiet
    dsimp only at h
    by_cases hnoticed : (S.enter p s incoming).2 ≠ ∅ ∧ S.Redefines s
    · obtain ⟨x, hx⟩ := NodeSet.exists_mem_of_ne_empty hnoticed.1
      rw [latch_pass_of_closed (hwatched.mpr hnoticed), watch, if_pos hnoticed,
        reason_giveUp hentered] at h
      obtain rfl := Option.some.inj h
      exact Ground.redefined hquiet hx hnoticed.2
    · obtain ⟨rfl, x, hx, y, hmove, hfinal⟩ :=
        exists_final_of_pass (fun hclosed => hnoticed (hwatched.mp hclosed)) h
      have hkept : ¬S.Redefines s := by
        intro hredefines
        refine hnoticed ⟨fun hempty => ?_, hredefines⟩
        rw [hempty] at hx
        exact NodeSet.not_mem_empty x hx
      exact Ground.final hquiet hkept hx hmove hfinal

end Reason

section Turns

/-- A closed latch makes the analysis idle. -/
theorem idle_of_closed {x : Account} (h : x.progress.latch.Closed) : (S.analysis E).Idle x := by
  obtain ⟨progress, fault, history⟩ := x
  intro s incoming outgoing
  change S.step E ⟨progress, fault, history⟩ s incoming outgoing = _
  cases fault with
  | some f => rfl
  | none =>
    have hflow : S.flow E progress s incoming outgoing = ⟨progress, .ok (incoming, outgoing), []⟩ :=
      if_pos h
    simp [step, hflow]

theorem idle_of_fault {x : Account} {f : Fault} (h : x.fault = some f) :
    (S.analysis E).Idle x := by
  intro s incoming outgoing
  change S.step E x s incoming outgoing = _
  simp only [step, h]

theorem turn_budget : S.turn E g ((S.analysis E).budget g) = Propagator.finished g E S := rfl

theorem turn_zero_latch : (S.turn E g 0).state.progress.latch = (outset S.bindings).latch := rfl

theorem turn_add (n more : Nat) :
    S.turn E g (n + more) = (S.analysis E).drain g more (S.turn E g n) :=
  (S.analysis E).drain_add g n more _

/-- After the visit that closes the latch nothing happens but visits to what is queued. -/
theorem turn_add_of_closed {n : Nat} (h : (S.turn E g n).state.progress.latch.Closed)
    (more : Nat) : (S.turn E g (n + more)).state = (S.turn E g n).state ∧
    (S.turn E g (n + more)).after = (S.turn E g n).after ∧
    (S.turn E g (n + more)).queue = (S.turn E g n).queue.drop more := by
  obtain ⟨hstate, hafter, hqueue, -⟩ := (idle_of_closed h).drain more
  rw [turn_add]
  exact ⟨hstate, hafter, hqueue⟩

theorem reason_visit {it : Iteration Account g.size} {i : Fin g.size}
    (hopen : ¬it.state.progress.latch.Closed)
    (h : ((S.analysis E).visit g it i).state.progress.latch.reason = some reason) :
    S.Ground E (g.statement i) (S.entering E g it i) reason := by
  rw [Analysis.state_visit] at h
  change (S.step E it.state (g.statement i) ((S.analysis E).joined g it i)
    (it.after.get i)).state.progress.latch.reason = some reason at h
  unfold step at h
  split at h
  · exact absurd (Option.isSome_of_eq_some h) hopen
  · dsimp only at h
    split at h <;> exact ground_of_flow hopen h

/-- The analysis gives up when the latch is closed for the first time. -/
theorem exists_givesUp {n : Nat} (h : (S.turn E g n).state.progress.latch.Closed) :
    ∃ m ≤ n, ∃ reason, S.GivesUp E g m reason ∧
      (S.turn E g m).state.progress.latch.reason = some reason ∧ (S.turn E g m).visits = m := by
  induction n with
  | zero =>
    have hunresolved := closed_outset.mp h
    refine ⟨0, le_rfl, .unresolvedBinding, GivesUp.outset hunresolved, ?_, rfl⟩
    rw [turn_zero_latch, outset, if_pos hunresolved]
    rfl
  | succ n ih =>
    by_cases hbefore : (S.turn E g n).state.progress.latch.Closed
    · obtain ⟨m, hm, hgives⟩ := ih hbefore
      exact ⟨m, Nat.le_succ_of_le hm, hgives⟩
    · obtain ⟨reason, hreason⟩ := Option.isSome_iff_exists.mp h
      cases hqueue : (S.turn E g n).queue with
      | nil =>
        rw [turn_add, (S.analysis E).drain_of_queue_eq_nil g hqueue] at h
        exact absurd h hbefore
      | cons i rest =>
        have hvisits : (S.turn E g n).visits = 0 + n :=
          (S.analysis E).visits_drain (List.ne_nil_of_mem (hqueue ▸ List.mem_cons_self))
        have hturn : S.turn E g (n + 1) =
            (S.analysis E).visit g { S.turn E g n with queue := rest } i :=
          Analysis.drain_succ_of_queue_eq_cons hqueue
        refine ⟨n + 1, le_rfl, reason, GivesUp.visit hbefore hqueue ?_, hreason, ?_⟩
        · rw [hturn] at hreason
          have hground : S.Ground E (g.statement i)
              (S.entering E g { S.turn E g n with queue := rest } i) reason :=
            reason_visit hbefore hreason
          exact hground
        · rw [hturn, Analysis.visits_visit]
          dsimp only
          omega

end Turns

end Propagation.Setup

namespace Propagator

open Propagation

variable {g : FlowGraph} {group : Shadow.Group} {sh : Shadow} {r : Shadow.Registry}
  {E : Environment} {p : Propagator}

/-- Without resolved bindings nothing flows, and every statement is visited once. -/
theorem flows_of_unresolved (hp : (construct g group sh r E).value = .ok p)
    (h : p.setup.bindings.unresolved = true) :
    (∀ s ∈ g.statements, p.flowBefore g s = .ok ∅ ∧ p.flowAfter g s = .ok ∅) ∧
      p.solution.visits = g.size := by
  have hidle : (p.setup.analysis E).Idle ⟨Setup.outset p.setup.bindings, none, []⟩ :=
    Setup.idle_of_closed (Setup.closed_outset.mpr h)
  obtain ⟨hempty, hvisits⟩ := hidle.run_eq_empty (g := g) rfl rfl
  constructor
  · intro s hs
    obtain ⟨i, rfl⟩ := FlowGraph.mem_statements.mp hs
    rw [flowBefore_of_extends hp (.refl g), flowAfter_of_extends hp (.refl g)]
    exact ⟨congrArg Except.ok (hempty i).1, congrArg Except.ok (hempty i).2⟩
  · obtain ⟨-, -, -, -, -, hsolution⟩ := construct_eq_ok hp
    rw [hsolution]
    exact hvisits

/-- An analysis that gives up does so at some visit, or before the first one, for the first ground
there is, and that is the reason reported. From then on no flow out of a statement changes, nothing
is queued any more, and each statement that is still queued is visited once. If the bindings are
unresolved, nothing ever flows and every statement is visited just once. -/
theorem construct_gaveUp (hp : (construct g group sh r E).value = .ok p)
    (hclosed : p.latch.Closed) :
    (∃ n reason, p.setup.GivesUp E g n reason ∧ p.latch.reason = some reason ∧
      (∀ more, (p.setup.turn E g (n + more)).state.progress.latch.reason = some reason ∧
        (p.setup.turn E g (n + more)).after = (p.setup.turn E g n).after ∧
        (p.setup.turn E g (n + more)).queue = (p.setup.turn E g n).queue.drop more) ∧
      (∀ i, p.flowAfter g (g.statement i) = .ok ((p.setup.turn E g n).after.get i)) ∧
      (p.setup.turn E g n).queue.Nodup ∧ (p.setup.turn E g n).queue.length ≤ g.size ∧
      p.solution.visits = n + (p.setup.turn E g n).queue.length) ∧
    ((Bindings.extract g group sh).value.unresolved = true →
      (∀ s ∈ g.statements, p.flowBefore g s = .ok ∅ ∧ p.flowAfter g s = .ok ∅) ∧
        p.solution.visits = g.size) := by
  obtain ⟨-, -, hbindings, -, hlatch, hsolution⟩ := construct_eq_ok hp
  constructor
  · rw [hlatch, ← Setup.turn_budget] at hclosed
    obtain ⟨n, hn, reason, hgives, hreason, hvisits⟩ := Setup.exists_givesUp hclosed
    have hlatched : (p.setup.turn E g n).state.progress.latch.Closed :=
      Option.isSome_of_eq_some hreason
    obtain ⟨hstate, hafter, hlast⟩ := (Setup.idle_of_closed hlatched).run hn
    refine ⟨n, reason, hgives, ?_, ?_, ?_, ?_, ?_, ?_⟩
    · rw [hlatch, ← hreason]
      exact congrArg (·.progress.latch.reason) hstate
    · intro more
      obtain ⟨hkept, hflows, hqueue⟩ := Setup.turn_add_of_closed hlatched more
      rw [hkept]
      exact ⟨hreason, hflows, hqueue⟩
    · intro i
      rw [flowAfter_of_extends hp (.refl g)]
      exact congrArg (fun flows => Except.ok (flows.get i)) hafter
    · exact Fixpoint.Analysis.nodup_queue_drain _ n
    · exact Fixpoint.Analysis.length_queue_drain_le _ n
    · rw [hsolution]
      exact hlast.trans (congrArg (· + _) hvisits)
  · intro hunresolved
    exact flows_of_unresolved hp (hbindings ▸ hunresolved)

end Propagator

namespace Lamp

open Propagation

/-- The lamp that is turned is a new one, not a local of the procedure. -/
def newLamp : FlowGraph :=
  { procedure x with
    instrs := (procedure x).instrs.set 0 (.assign turned (.alloc "Lamp")) (by decide)
    edges := (procedure x).edges }

/-- A call at the reset may turn other lamps. -/
def calling : Environment := { environment with mayTrigger := fun s => s.index = 3 }

def callingAnalysis (g : FlowGraph) : Except Fault Propagator :=
  (Propagator.construct g turnThenReset turn registry calling).value

end Lamp

namespace Propagator

/-- The visit to the reset gives up, and the two statements behind it are visited once more. -/
theorem construct_gaveUp_lamp :
    (∃ p n, Lamp.callingAnalysis (Lamp.procedure Lamp.x) = .ok p ∧
      p.setup.GivesUp Lamp.calling (Lamp.procedure Lamp.x) n .sideEffect ∧
      p.latch.reason = some .sideEffect ∧ p.solution.visits = 6 ∧
      p.flowAfter (Lamp.procedure Lamp.x) ⟨0, 3, .nop ""⟩ =
        .ok ((p.setup.turn Lamp.calling (Lamp.procedure Lamp.x) n).after.get ⟨3, by decide⟩)) ∧
    ∃ p, Lamp.callingAnalysis Lamp.newLamp = .ok p ∧ p.solution.visits = 6 ∧
      ∀ s ∈ Lamp.newLamp.statements,
        p.flowBefore Lamp.newLamp s = .ok ∅ ∧ p.flowAfter Lamp.newLamp s = .ok ∅ := by
  have hrun : ∃ p, Lamp.callingAnalysis (Lamp.procedure Lamp.x) = .ok p ∧
      p.latch.reason = some .sideEffect ∧ p.solution.visits = 6 := by decide +kernel
  have hrun' : ∃ p, Lamp.callingAnalysis Lamp.newLamp = .ok p ∧ p.latch.Closed := by
    decide +kernel
  have hunresolved :
      (Bindings.extract Lamp.newLamp Lamp.turnThenReset Lamp.turn).value.unresolved = true := by
    decide +kernel
  obtain ⟨p, hp, hreason, hvisits⟩ := hrun
  obtain ⟨p', hp', hclosed'⟩ := hrun'
  obtain ⟨⟨n, reason, hgives, hreported, -, hflows, -⟩, -⟩ :=
    construct_gaveUp hp (Option.isSome_of_eq_some hreason)
  obtain ⟨-, hnothing⟩ := construct_gaveUp hp' hclosed'
  obtain ⟨hempty, hvisits'⟩ := hnothing hunresolved
  obtain rfl := Option.some.inj (hreported.symm.trans hreason)
  exact ⟨⟨p, n, hp, hgives, hreason, hvisits, hflows ⟨3, by decide⟩⟩, p', hp', hvisits', hempty⟩

end Propagator
end MonitorElision
