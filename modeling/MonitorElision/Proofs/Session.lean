import MonitorElision.Proofs.Propagation.Reports
import MonitorElision.Session

/-!
# Sessions do not depend on the diagnostics

An operation is answered alike under all diagnostics settings, since all its events can be printed.
So the answers of a session, and the objects it leaves, are those of its operations alone, whatever
is switched on or off before or between them.
-/
namespace MonitorElision

namespace Objects

variable {G α : Type} (o : Objects G) (d d' : Diagnostics)

theorem report_eq {result : Narrated (Except Fault α)} (h : result.Printable)
    (store : α → Objects G × Answer) : o.report d result store = o.report d' result store := by
  simp only [report, Diagnostics.reached_eq_value _ h]

theorem solve_eq (graph : Nat) (problem : GenKill) (store : Solved → Objects G × Answer) :
    o.solve d graph problem store = o.solve d' graph problem store := by
  unfold solve
  refine bind_congr fun g => congrArg some ?_
  exact o.report_eq d d' (problem.printable_solve g) _

theorem messages_oracle {choice : OracleChoice} {O : Oracle} (h : o.oracle? choice = some O) :
    O.Messages := by
  cases choice with
  | shadows registry procedure =>
    obtain ⟨r, -, rfl⟩ := Option.map_eq_some_iff.mp h
    exact Oracle.messages_shadows r procedure
  | table rows =>
    cases h
    exact Oracle.messages_table rows

variable [GraphLibrary CallGraph.Vertex G]

theorem messages_environment {tracematch : Nat} {oracle : OracleChoice}
    {sideEffects : SideEffects} {E : Propagation.Environment}
    (h : o.environment? tracematch oracle sideEffects = some E) : E.oracle.Messages := by
  obtain ⟨_, -, h⟩ := Option.bind_eq_some_iff.mp h
  obtain ⟨O, hO, h⟩ := Option.bind_eq_some_iff.mp h
  obtain ⟨_, -, h⟩ := Option.bind_eq_some_iff.mp h
  obtain rfl := Option.some.inj h
  exact o.messages_oracle hO

theorem propagate_eq (p : PropagationInputs) : o.propagate d p = o.propagate d' p := by
  unfold propagate
  refine bind_congr fun g => bind_congr fun group => bind_congr fun r => ?_
  refine Option.bind_congr fun E hE => congrArg some (o.report_eq d d' ?_ _)
  exact Propagator.printable_construct (o.messages_environment hE).printable g group p.shadow r

theorem setUp_eq (p : PropagationInputs) : o.setUp d p = o.setUp d' p := by
  unfold setUp
  refine bind_congr fun g => bind_congr fun group => bind_congr fun r => bind_congr fun E => ?_
  exact congrArg some (o.report_eq d d' (Propagation.Setup.printable_prepare g group _ r _) _)

theorem flow_eq (id : Nat) (s : Statement) (incoming outgoing : NodeSet) :
    o.flow d id s incoming outgoing = o.flow d' id s incoming outgoing := by
  unfold flow
  refine bind_congr fun transfer => Option.bind_congr fun E hE => congrArg some ?_
  refine report_eq _ d d' ?_ _
  exact Propagation.Setup.printable_flow (o.messages_environment hE).printable _ s incoming outgoing

/-- The settings decide neither what is answered nor what becomes of the objects. -/
theorem perform_eq (operation : Operation) : o.perform d operation = o.perform d' operation := by
  unfold perform
  cases operation with
  | recordCall callGraph site callee =>
    refine bind_congr fun cg => congrArg some ?_
    exact o.report_eq d d' (cg.messages_record site callee).printable _
  | extractBindings graph group sh =>
    refine bind_congr fun g => bind_congr fun group => congrArg some ?_
    exact o.report_eq d d' (Bindings.messages_extract g group sh).printable _
  | successors registry procedure tracematch n s initial bindings =>
    refine bind_congr fun r => bind_congr fun tm => congrArg some ?_
    exact o.report_eq d d' (Oracle.messages_shadows r procedure _ n s).printable _
  | propagate inputs => exact o.propagate_eq d d' inputs
  | setUp inputs => exact o.setUp_eq d d' inputs
  | flow transfer s incoming outgoing => exact o.flow_eq d d' transfer s incoming outgoing
  | solve graph problem => exact o.solve_eq d d' graph problem _
  | solveAgain iteration =>
    exact bind_congr fun last => o.solve_eq d d' last.graph last.problem _
  | _ => rfl

/-- The operations one after the other, under the settings a session starts with: what each is
answered, and the objects in the end. -/
def performAll (o : Objects G) : List Operation → Option (List (Except Fault Answer) × Objects G)
  | [] => some ([], o)
  | operation :: operations => do
    let step ← o.perform {} operation
    let (answers, last) ← step.objects.performAll operations
    return (step.answer :: answers, last)

end Objects

def Command.operation? : Command → Option Operation
  | .perform operation => some operation
  | .flip _ => none
  | .emit _ => none

namespace Session

variable {G : Type} [GraphLibrary CallGraph.Vertex G]

/-- The commands one after the other: what each operation is answered, and the objects in the
end. -/
def outcome (s : Session G) : List Command → Option (List (Except Fault Answer) × Objects G)
  | [] => some ([], s.objects)
  | .perform operation :: commands => do
    let (reply, next) ← s.run (.perform operation)
    let (answers, last) ← next.outcome commands
    return (reply.answer :: answers, last)
  | c :: commands => do
    let (_, next) ← s.run c
    next.outcome commands

theorem run_perform (s : Session G) (operation : Operation) :
    s.run (.perform operation) = (s.objects.perform {} operation).map fun step =>
      (⟨step.answer, (s.diagnostics.hear step.events).printed⟩,
        ⟨step.objects, (s.diagnostics.hear step.events).diagnostics⟩) := by
  rw [s.objects.perform_eq {} s.diagnostics operation]
  cases hstep : s.objects.perform s.diagnostics operation <;> simp [run, hstep]

/-- The diagnostics do not show in the outcome of a session. -/
theorem outcome_eq_performAll (s : Session G) (commands : List Command) :
    s.outcome commands = s.objects.performAll (commands.filterMap Command.operation?) := by
  induction commands generalizing s with
  | nil => rfl
  | cons c commands ih =>
    cases c with
    | perform operation =>
      change _ = s.objects.performAll (operation :: commands.filterMap Command.operation?)
      rw [outcome, run_perform, Objects.performAll]
      cases s.objects.perform {} operation with
      | none => rfl
      | some step => simp [ih]
    | flip switch => exact ih { s with diagnostics := s.diagnostics.flip switch }
    | emit events => exact ih { s with diagnostics := (s.diagnostics.hear events).diagnostics }

/-- Two sessions that hold the same objects and perform the same operations are answered alike, with
the same faults, and leave the same objects. It does not matter which settings they start from, and
what is switched on or off, counted or printed between the operations. -/
theorem outcome_eq_of_operations {s s' : Session G} {commands commands' : List Command}
    (hobjects : s.objects = s'.objects)
    (hoperations : commands.filterMap Command.operation? = commands'.filterMap Command.operation?) :
    s.outcome commands = s'.outcome commands' := by
  rw [outcome_eq_performAll, outcome_eq_performAll, hobjects, hoperations]

/-- A procedure of one statement, which hosts the only shadow, is analysed. -/
def errand : List Operation :=
  let tm : Signature := ⟨0, "done", [], .ofList ["end"]⟩
  let sh : Shadow := ⟨0, 0, tm, "m", "end", ∅⟩
  [.newGraph "m", .append 0 (.ret none), .newTracematch "done" [] ["end"],
    .newState 0 ⟨true, false⟩, .newRegistry, .attach 0 ⟨0, 0, .ret none⟩ 0 "m" "end" ∅,
    .newGroup "all", .addToGroup 0 sh, .newCallGraph,
    .propagate ⟨0, 0, sh, 0, .callGraph 0, .shadows 0 "m"⟩]

def quiet : List Command := errand.map .perform

/-- All that an analysis has to say is switched on in the course of the errand. -/
def noisy : List Command :=
  errand.flatMap fun operation =>
    [.perform operation, .flip (.verbosity 1), .flip (.enableLog "state-propagator"),
      .flip (.statistics true), .emit (Event.scope "errand")]

theorem outcome_eq_of_operations_errand :
    outcome ({} : Session) noisy = outcome ({} : Session) quiet ∧
    (outcome ({} : Session) quiet).map (·.2.propagators.size) = some 1 :=
  ⟨outcome_eq_of_operations rfl rfl, by decide +kernel⟩

end Session
end MonitorElision
