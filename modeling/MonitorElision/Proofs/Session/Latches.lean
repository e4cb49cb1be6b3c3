import MonitorElision.Proofs.Propagation.Tallies
import MonitorElision.Proofs.Session

/-!
# What operations do to latches

An operation makes or applies at most one analysis, and what it says counts what becomes of the
latch of that analysis. All other latches stay as they are.
-/
namespace MonitorElision

open Propagation

/-- An analysis of a session. One that runs through as it is constructed is known by the number of
the command that constructs it, also if the construction fails. -/
inductive AnalysisId where
  | propagator (command : Nat)
  | transfer (id : Nat)
  deriving DecidableEq

/-- What becomes of the latch of an analysis. -/
structure Change where
  analysis : AnalysisId
  before : Latch Reason
  after : Latch Reason

/-- The latch in the end, if the analysis runs through. -/
def Change.ended? (c : Change) : Option (Latch Reason) :=
  match c.analysis with
  | .propagator _ => some c.after
  | .transfer _ => none

namespace Objects

variable {G : Type} (o : Objects G)

/-- The latch of a transfer function. -/
def latch? (id : Nat) : Option (Latch Reason) := o.transfers[id]?.map (·.progress.latch)

/-- The transfer function has given up. -/
def GaveUp (id : Nat) : Prop := ∃ latch ∈ o.latch? id, latch.Closed

/-- The latches of the analyses that ran through and completed. -/
def completed : List (Latch Reason) := o.propagators.toList.map (·.latch)

/-- All that an analysis may change. -/
def analyses : Array Propagator × Array Transfer := (o.propagators, o.transfers)

variable [GraphLibrary CallGraph.Vertex G]

/-- The latch that an analysis ends with that runs through, whether or not it completes. There is
none if the analysis is not set up. -/
def endLatch? (p : PropagationInputs) : Option (Latch Reason) := do
  let graph ← o.graphs[p.graph]?
  let group ← o.groups[p.group]?
  let registry ← o.registries[p.registry]?
  let environment ← o.environment? p.shadow.tracematch.id p.oracle p.sideEffects
  Propagator.endLatch? graph group p.shadow registry environment

/-- The analysis that an operation makes or applies, if any, from the objects before and after. A
latch is open before it is made. -/
def change? (next : Objects G) (command : Nat) : Operation → Option Change
  | .propagate inputs => (o.endLatch? inputs).map fun latch => ⟨.propagator command, {}, latch⟩
  | .setUp _ =>
    (next.latch? o.transfers.size).map fun latch => ⟨.transfer o.transfers.size, {}, latch⟩
  | .flow id _ _ _ => do return ⟨.transfer id, ← o.latch? id, ← next.latch? id⟩
  | _ => none

end Objects

/-- All that an operation says can be printed, and it counts what becomes of the latch of the
analysis that the operation makes or applies. No other analysis gives up or completes. -/
structure Step.Accounted {G : Type} [GraphLibrary CallGraph.Vertex G] (o : Objects G)
    (command : Nat) (operation : Operation) (step : Step G) : Prop where
  printable : ∀ e ∈ step.events, e.Printable
  tallied : ((o.change? step.objects command operation).elim {} (·.before)).Tallied
    ((o.change? step.objects command operation).elim {} (·.after)) step.events
  gaveUp : ∀ id, step.objects.GaveUp id ↔ o.GaveUp id ∨
    ∃ c ∈ o.change? step.objects command operation, c.analysis = .transfer id ∧ c.after.Closed
  completed : step.objects.completed.Sublist
    (o.completed ++ ((o.change? step.objects command operation).bind Change.ended?).toList)

/-- An operation without an analysis. -/
structure Step.Ordinary {G : Type} (o : Objects G) (step : Step G) : Prop where
  printable : ∀ e ∈ step.events, e.Printable
  spared : ∀ e ∈ step.events, e.SparesGiveUps
  analyses : step.objects.analyses = o.analyses

namespace Objects

variable {G α : Type} {o : Objects G} {d : Diagnostics}

section Ordinary

theorem ordinary_bind {x : Option α} {f : α → Option (Step G)}
    (h : ∀ a, ∀ step ∈ f a, step.Ordinary o) : ∀ step ∈ x >>= f, step.Ordinary o := by
  intro step hstep
  obtain ⟨a, -, ha⟩ := Option.bind_eq_some_iff.mp hstep
  exact h a step ha

theorem ordinary_of_events_eq_nil {step : Step G} (hevents : step.events = [])
    (h : step.objects.analyses = o.analyses) : step.Ordinary o := by
  constructor
  · simp [hevents]
  · simp [hevents]
  · exact h

theorem ordinary_done {next : Objects G} {a : Answer} (h : next.analyses = o.analyses) :
    ∀ step ∈ some (next.done a), step.Ordinary o := by
  rintro step ⟨⟩
  exact ordinary_of_events_eq_nil rfl h

theorem ordinary_after {next : Objects G} {result : Except Fault α} {store : α → Objects G × Answer}
    (hnext : next.analyses = o.analyses) (h : ∀ a, (store a).1.analyses = o.analyses) :
    ∀ step ∈ some (next.after result store), step.Ordinary o := by
  rintro step ⟨⟩
  cases result with
  | error f => exact ordinary_of_events_eq_nil rfl hnext
  | ok a => exact ordinary_of_events_eq_nil rfl (h a)

@[simp] theorem events_report (o : Objects G) (d : Diagnostics) (result : Narrated (Except Fault α))
    (store : α → Objects G × Answer) : (o.report d result store).events = result.events := by
  unfold report
  split <;> rfl

theorem analyses_report {result : Narrated (Except Fault α)} {store : α → Objects G × Answer}
    (h : ∀ a, (store a).1.analyses = o.analyses) :
    (o.report d result store).objects.analyses = o.analyses := by
  unfold report
  split
  · rfl
  · exact h _

theorem ordinary_report {result : Narrated (Except Fault α)} {store : α → Objects G × Answer}
    (hprintable : result.Printable) (hspared : ∀ e ∈ result.events, e.SparesGiveUps)
    (h : ∀ a, (store a).1.analyses = o.analyses) :
    ∀ step ∈ some (o.report d result store), step.Ordinary o := by
  rintro step ⟨⟩
  refine ⟨?_, ?_, analyses_report h⟩
  · rwa [events_report]
  · rwa [events_report]

theorem ordinary_report_of_messages {result : Narrated (Except Fault α)}
    {store : α → Objects G × Answer} (hmessages : result.Messages)
    (h : ∀ a, (store a).1.analyses = o.analyses) :
    ∀ step ∈ some (o.report d result store), step.Ordinary o :=
  ordinary_report hmessages.printable (fun e he => (hmessages e he).sparesGiveUps) h

theorem ordinary_solve (o : Objects G) (graph : Nat) (problem : GenKill)
    {store : Solved → Objects G × Answer} (h : ∀ solved, (store solved).1.analyses = o.analyses) :
    ∀ step ∈ o.solve d graph problem store, step.Ordinary o := by
  unfold solve
  refine ordinary_bind fun g => ?_
  exact ordinary_report (problem.printable_solve g) (problem.sparesGiveUps_solve g) fun _ => h _

variable [GraphLibrary CallGraph.Vertex G]

theorem ordinary_perform {operation : Operation} (hpropagate : ∀ p, operation ≠ .propagate p)
    (hsetUp : ∀ p, operation ≠ .setUp p) (hflow : ∀ id s i j, operation ≠ .flow id s i j) :
    ∀ step ∈ o.perform d operation, step.Ordinary o := by
  cases operation with
  | newSupply | newGraph _ | newTracematch _ _ _ | newRegistry | newGroup _ | newCallGraph
  | newLatch => exact ordinary_done rfl
  | append _ _ | newState _ _ | disable _ _ | addToGroup _ _ =>
    exact ordinary_bind fun _ => ordinary_done rfl
  | requestLocal _ _ | freshLocal _ _ | connect _ _ _ | connectPath _ _
  | newTransition _ _ _ _ | giveUp _ _ =>
    exact ordinary_bind fun _ => ordinary_after rfl fun _ => rfl
  | attach _ _ _ _ _ _ =>
    exact ordinary_bind fun _ => ordinary_bind fun _ => ordinary_after rfl fun _ => rfl
  | recordCall _ site callee =>
    refine ordinary_bind fun cg => ?_
    exact ordinary_report_of_messages (cg.messages_record site callee) fun _ => rfl
  | extractBindings _ _ sh =>
    refine ordinary_bind fun g => ordinary_bind fun group => ?_
    exact ordinary_report_of_messages (Bindings.messages_extract g group sh) fun _ => rfl
  | successors _ procedure _ n s _ _ =>
    refine ordinary_bind fun r => ordinary_bind fun _ => ?_
    exact ordinary_report_of_messages (Oracle.messages_shadows r procedure _ n s) fun _ => rfl
  | solve graph problem =>
    rw [perform]
    exact ordinary_solve o graph problem fun _ => rfl
  | solveAgain _ =>
    refine ordinary_bind fun last => ?_
    exact ordinary_solve o last.graph last.problem fun _ => rfl
  | propagate p => exact absurd rfl (hpropagate p)
  | setUp p => exact absurd rfl (hsetUp p)
  | flow id s i j => exact absurd rfl (hflow id s i j)

end Ordinary

section Analyses

variable [GraphLibrary CallGraph.Vertex G] {step : Step G} {p : PropagationInputs}
  {id other : Nat} {s : Statement} {incoming outgoing : NodeSet}

/-- What an analysis is set up from. -/
theorem exists_of_lookups {f : FlowGraph → Shadow.Group → Shadow.Registry → Environment → Option α}
    {a : α} (h : (do
      let graph ← o.graphs[p.graph]?
      let group ← o.groups[p.group]?
      let registry ← o.registries[p.registry]?
      let environment ← o.environment? p.shadow.tracematch.id p.oracle p.sideEffects
      f graph group registry environment) = some a) :
    ∃ g group r E, o.graphs[p.graph]? = some g ∧ o.groups[p.group]? = some group ∧
      o.registries[p.registry]? = some r ∧
      o.environment? p.shadow.tracematch.id p.oracle p.sideEffects = some E ∧
      f g group r E = some a := by
  obtain ⟨g, hg, h⟩ := Option.bind_eq_some_iff.mp h
  obtain ⟨group, hgroup, h⟩ := Option.bind_eq_some_iff.mp h
  obtain ⟨r, hr, h⟩ := Option.bind_eq_some_iff.mp h
  obtain ⟨E, hE, h⟩ := Option.bind_eq_some_iff.mp h
  exact ⟨g, group, r, E, hg, hgroup, hr, hE, h⟩

theorem propagate_cases (h : o.propagate d p = some step) :
    ∃ g group r E, E.oracle.Messages ∧
      o.endLatch? p = Propagator.endLatch? g group p.shadow r E ∧
      step.events = (Propagator.construct g group p.shadow r E).events ∧
      (step.objects.analyses = o.analyses ∨
        ∃ made, (Propagator.construct g group p.shadow r E).value = .ok made ∧
          step.objects.analyses = (o.propagators.push made, o.transfers)) := by
  obtain ⟨g, group, r, E, hg, hgroup, hr, hE, h⟩ := exists_of_lookups h
  obtain rfl := Option.some.inj h
  have hE' := o.messages_environment hE
  refine ⟨g, group, r, E, hE', ?_, events_report _ _ _ _, ?_⟩
  · simp [endLatch?, hg, hgroup, hr, hE]
  · unfold report
    rw [d.reached_eq_value (Propagator.printable_construct hE'.printable g group p.shadow r)]
    cases (Propagator.construct g group p.shadow r E).value with
    | error f => exact Or.inl rfl
    | ok made => exact Or.inr ⟨made, rfl, rfl⟩

theorem setUp_cases (h : o.setUp d p = some step) :
    ∃ g group r tm, step.events = (Setup.prepare g group p.shadow r tm).events ∧
      ((∃ f, (Setup.prepare g group p.shadow r tm).value = .error f ∧
        step.objects.analyses = o.analyses) ∨
      ∃ made : Transfer,
        (Setup.prepare g group p.shadow r tm).value = .ok (made.setup, made.progress) ∧
        step.objects.analyses = (o.propagators, o.transfers.push made)) := by
  obtain ⟨g, group, r, E, -, -, -, -, h⟩ := exists_of_lookups h
  obtain rfl := Option.some.inj h
  refine ⟨g, group, r, E.tracematch, events_report _ _ _ _, ?_⟩
  unfold report
  rw [d.reached_eq_value (Setup.printable_prepare g group p.shadow r E.tracematch)]
  cases (Setup.prepare g group p.shadow r E.tracematch).value with
  | error f => exact Or.inl ⟨f, rfl, rfl⟩
  | ok prepared => exact Or.inr ⟨_, rfl, rfl⟩

theorem flow_cases (h : o.flow d id s incoming outgoing = some step) :
    ∃ (t : Transfer) (E : Environment), o.transfers[id]? = some t ∧ E.oracle.Messages ∧
      step.events = (t.setup.flow E t.progress s incoming outgoing).events ∧
      step.objects.analyses = (o.propagators, o.transfers.setIfInBounds id
        { t with progress := (t.setup.flow E t.progress s incoming outgoing).progress }) := by
  obtain ⟨t, ht, h⟩ := Option.bind_eq_some_iff.mp h
  obtain ⟨E, hE, h⟩ := Option.bind_eq_some_iff.mp h
  obtain rfl := Option.some.inj h
  refine ⟨t, E, ht, o.messages_environment hE, events_report _ _ _ _, ?_⟩
  exact analyses_report fun _ => rfl

end Analyses

section Accounted

variable {next : Objects G} {command id other : Nat} {step : Step G} {p : PropagationInputs}
  {s : Statement} {incoming outgoing : NodeSet}

theorem not_gaveUp_size : ¬o.GaveUp o.transfers.size := by
  simp [GaveUp, latch?]

theorem gaveUp_iff_of_transfers_eq (h : next.transfers = o.transfers) :
    next.GaveUp id ↔ o.GaveUp id := by
  simp only [GaveUp, latch?, h]

theorem completed_sublist_of_propagators_eq (h : next.propagators = o.propagators)
    (more : List (Latch Reason)) : next.completed.Sublist (o.completed ++ more) := by
  rw [completed, h]
  exact List.sublist_append_left _ _

variable [GraphLibrary CallGraph.Vertex G]

theorem accounted_ordinary {operation : Operation} (h : step.Ordinary o)
    (hnone : o.change? step.objects command operation = none) :
    step.Accounted o command operation where
  printable := h.printable
  tallied := by
    rw [hnone]
    exact .of_spared h.spared
  gaveUp id := by simp [hnone, gaveUp_iff_of_transfers_eq (congrArg Prod.snd h.analyses)]
  completed := completed_sublist_of_propagators_eq (congrArg Prod.fst h.analyses) _

theorem accounted_propagate (h : o.propagate d p = some step) :
    step.Accounted o command (.propagate p) := by
  obtain ⟨g, group, r, E, hE, hend, hevents, hcases⟩ := propagate_cases h
  have htallied := Propagator.tallied_construct hE g group p.shadow r
  have htransfers : step.objects.transfers = o.transfers := by
    rcases hcases with hanalyses | ⟨made, -, hanalyses⟩
    · exact congrArg Prod.snd hanalyses
    · exact congrArg Prod.snd hanalyses
  constructor
  · rw [hevents]
    exact Propagator.printable_construct hE.printable g group p.shadow r
  · rw [hevents, change?, hend]
    cases hlatch : Propagator.endLatch? g group p.shadow r E with
    | none => rwa [hlatch] at htallied
    | some latch => rwa [hlatch] at htallied
  · simp [change?, gaveUp_iff_of_transfers_eq htransfers]
  · rcases hcases with hanalyses | ⟨made, hmade, hanalyses⟩
    · exact completed_sublist_of_propagators_eq (congrArg Prod.fst hanalyses) _
    · have hpropagators : step.objects.propagators = o.propagators.push made :=
        congrArg Prod.fst hanalyses
      rw [change?, hend, Propagator.endLatch?_of_construct hmade]
      simp [Objects.completed, hpropagators, Change.ended?]

theorem accounted_setUp (h : o.setUp d p = some step) : step.Accounted o command (.setUp p) := by
  obtain ⟨g, group, r, tm, hevents, hcases⟩ := setUp_cases h
  have htallied := Setup.tallied_prepare g group p.shadow r tm
  have hprintable : ∀ e ∈ step.events, e.Printable := by
    rw [hevents]
    exact Setup.printable_prepare g group p.shadow r tm
  rw [← hevents] at htallied
  rcases hcases with ⟨f, hvalue, hanalyses⟩ | ⟨made, hvalue, hanalyses⟩
  · have htransfers : step.objects.transfers = o.transfers := congrArg Prod.snd hanalyses
    have hnone : o.change? step.objects command (.setUp p) = none := by
      simp [change?, latch?, htransfers]
    refine ⟨hprintable, ?_, ?_, completed_sublist_of_propagators_eq (congrArg Prod.fst hanalyses) _⟩
    · rw [hvalue] at htallied
      rwa [hnone]
    · simp [hnone, gaveUp_iff_of_transfers_eq htransfers]
  · have htransfers : step.objects.transfers = o.transfers.push made := congrArg Prod.snd hanalyses
    have hsome : o.change? step.objects command (.setUp p) =
        some ⟨.transfer o.transfers.size, {}, made.progress.latch⟩ := by
      simp [change?, latch?, htransfers]
    refine ⟨hprintable, ?_, ?_, completed_sublist_of_propagators_eq (congrArg Prod.fst hanalyses) _⟩
    · rw [hvalue] at htallied
      rwa [hsome]
    · intro id
      by_cases hid : id = o.transfers.size
      · subst hid
        simp [hsome, GaveUp, latch?, htransfers]
      · have hne : o.transfers.size ≠ id := Ne.symm hid
        simp [hsome, GaveUp, latch?, htransfers, Array.getElem?_push, hid, hne]

theorem accounted_flow (h : o.flow d id s incoming outgoing = some step) :
    step.Accounted o command (.flow id s incoming outgoing) := by
  obtain ⟨t, E, ht, hE, hevents, hanalyses⟩ := flow_cases h
  have hlt : id < o.transfers.size := (Array.getElem?_eq_some_iff.mp ht).1
  have htallied := Setup.tallied_flow hE t.setup t.progress s incoming outgoing
  have htransfers : step.objects.transfers = o.transfers.setIfInBounds id
      { t with progress := (t.setup.flow E t.progress s incoming outgoing).progress } :=
    congrArg Prod.snd hanalyses
  have hsome : o.change? step.objects command (.flow id s incoming outgoing) =
      some ⟨.transfer id, t.progress.latch,
        (t.setup.flow E t.progress s incoming outgoing).progress.latch⟩ := by
    simp [change?, latch?, htransfers, ht, Array.getElem?_setIfInBounds_self_of_lt hlt]
  constructor
  · rw [hevents]
    exact Setup.printable_flow hE.printable _ s incoming outgoing
  · rwa [hevents, hsome]
  · intro other
    by_cases hother : id = other
    · subst hother
      have hkept : t.progress.latch.Closed →
          (t.setup.flow E t.progress s incoming outgoing).progress.latch.Closed := fun hclosed => by
        rwa [htallied.kept hclosed]
      simpa [hsome, GaveUp, latch?, htransfers, ht, Array.getElem?_setIfInBounds_self_of_lt hlt]
        using hkept
    · simp [hsome, GaveUp, latch?, htransfers, Array.getElem?_setIfInBounds_ne hother, hother]
  · exact completed_sublist_of_propagators_eq (congrArg Prod.fst hanalyses) _

/-- What an operation says is as its analysis goes. -/
theorem accounted_perform {operation : Operation} (h : o.perform d operation = some step)
    (command : Nat) : step.Accounted o command operation := by
  cases operation with
  | propagate p => exact accounted_propagate h
  | setUp p => exact accounted_setUp h
  | flow id s incoming outgoing => exact accounted_flow h
  | _ =>
    apply accounted_ordinary (ordinary_perform _ _ _ step h) rfl
    all_goals simp

/-- Which latches an operation may be about. -/
theorem change?_cases {operation : Operation} {c : Change}
    (h : c ∈ o.change? next command operation) :
    (∃ latch, c = ⟨.propagator command, {}, latch⟩) ∨
      (∃ latch, c = ⟨.transfer o.transfers.size, {}, latch⟩) ∨
      ∃ id old new, o.latch? id = some old ∧ c = ⟨.transfer id, old, new⟩ := by
  cases operation with
  | propagate p =>
    obtain ⟨latch, -, rfl⟩ := Option.map_eq_some_iff.mp h
    exact Or.inl ⟨latch, rfl⟩
  | setUp p =>
    obtain ⟨latch, -, rfl⟩ := Option.map_eq_some_iff.mp h
    exact Or.inr (Or.inl ⟨latch, rfl⟩)
  | flow id s incoming outgoing =>
    obtain ⟨old, hold, h⟩ := Option.bind_eq_some_iff.mp h
    obtain ⟨new, -, h⟩ := Option.bind_eq_some_iff.mp h
    obtain rfl := Option.some.inj h
    exact Or.inr (Or.inr ⟨id, old, new, hold, rfl⟩)
  | _ => cases h

theorem before_closed_iff {operation : Operation} {c : Change}
    (h : c ∈ o.change? next command operation) (hc : c.analysis = .transfer id) :
    c.before.Closed ↔ o.GaveUp id := by
  rcases change?_cases h with ⟨latch, rfl⟩ | ⟨latch, rfl⟩ | ⟨known, old, new, hold, rfl⟩
  · cases hc
  · cases hc
    simpa [Latch.Closed] using o.not_gaveUp_size
  · cases hc
    simp [GaveUp, hold]

theorem eq_of_analysis_eq_propagator {operation : Operation} {c : Change} {n : Nat}
    (h : c ∈ o.change? next command operation) (hc : c.analysis = .propagator n) :
    n = command := by
  rcases change?_cases h with ⟨latch, rfl⟩ | ⟨latch, rfl⟩ | ⟨known, old, new, -, rfl⟩
  · exact (AnalysisId.propagator.inj hc).symm
  · cases hc
  · cases hc

end Accounted

end Objects
end MonitorElision
