import MonitorElision.Proofs.Diagnostics
import MonitorElision.Proofs.Propagation.Faults

/-!
# What an analysis reports

Every reason to give up has a name, and once a run has ended there are flows around every statement.
So whatever an analysis reports can be printed, as far as the answers of its oracle can.
-/
namespace MonitorElision

namespace Propagation

open Fixpoint

theorem Progress.printable_giveUp (p : Progress) (reason : Reason) (s : Option Statement) :
    (p.giveUp reason s).Printable := by
  unfold giveUp Narrated.Printable
  dsimp only
  split
  · refine List.forall_mem_singleton.mpr (Event.printable_log ?_)
    simp only [Reason.print_eq_ok]
    exact ⟨_, rfl⟩
  · refine List.forall_mem_cons.mpr ⟨Event.printable_count _, ?_⟩
    refine List.forall_mem_cons.mpr ⟨Event.printable_count _, ?_⟩
    refine List.forall_mem_singleton.mpr (Event.printable_log ?_)
    simp only [Reason.print_eq_ok]
    exact ⟨_, rfl⟩

namespace Setup

variable {S : Setup} {E : Environment} (hE : E.oracle.Printable)

theorem printable_watch (S : Setup) (p : Progress) (s : Statement) (incoming : NodeSet) :
    (S.watch p s incoming).Printable := by
  unfold watch
  split
  · exact p.printable_giveUp _ _
  · exact Narrated.printable_pure p

include hE

theorem printable_pass (p : Progress) (s : Statement) (incoming : NodeSet) :
    ∀ e ∈ (S.pass E p s incoming).events, e.Printable := by
  have hswept : ∀ e ∈ (sweep (S.successors E s) incoming.nodes ∅).events, e.Printable := by
    intro e he
    obtain ⟨n, -, hn⟩ := exists_ask_of_mem_events he
    exact hE (S.context E) n s e hn
  unfold pass
  dsimp only
  split
  · exact List.forall_mem_append.mpr
      ⟨hswept, List.forall_mem_singleton.mpr (Event.printable_log_ok _)⟩
  · exact List.forall_mem_append.mpr ⟨hswept, p.printable_giveUp _ _⟩
  · exact hswept

theorem printable_flow (p : Progress) (s : Statement) (incoming outgoing : NodeSet) :
    ∀ e ∈ (S.flow E p s incoming outgoing).events, e.Printable := by
  unfold flow
  split
  · exact fun _ he => nomatch he
  · split
    · exact p.printable_giveUp .sideEffect (some s)
    · exact List.forall_mem_append.mpr ⟨S.printable_watch _ _ _, printable_pass hE _ _ _⟩

/-- What was reported before a visit and what is reported during it can be printed. -/
theorem printable_history_step {x : Account} (h : ∀ e ∈ x.history, e.Printable) (s : Statement)
    (incoming outgoing : NodeSet) :
    ∀ e ∈ (S.step E x s incoming outgoing).state.history, e.Printable := by
  have hvisit : ∀ e ∈ (S.flow E x.progress s incoming outgoing).events.reverse ++ x.history,
      e.Printable := by
    intro e he
    rcases List.mem_append.mp he with he | he
    · exact printable_flow hE _ _ _ _ e (List.mem_reverse.mp he)
    · exact h e he
  unfold step
  split
  · exact h
  · dsimp only
    split
    · exact hvisit
    · exact hvisit

theorem printable_history_run (g : FlowGraph) (progress : Progress) :
    ∀ e ∈ ((S.analysis E).run g ⟨progress, none, []⟩).state.history, e.Printable := by
  apply (S.analysis E).run_induction g (P := fun it => ∀ e ∈ it.state.history, e.Printable)
  · exact fun _ he => nomatch he
  · intro it i rest _ h
    rw [Analysis.state_visit]
    exact printable_history_step hE h _ _ _

end Setup

theorem Setup.printable_launch (b : Bindings) : (launch b).Printable := by
  unfold launch
  split
  · exact Progress.printable_giveUp _ _ _
  · exact Narrated.printable_pure _

theorem Setup.printable_prepare (g : FlowGraph) (group : Shadow.Group) (sh : Shadow)
    (r : Shadow.Registry) (tm : Tracematch) : (prepare g group sh r tm).Printable := by
  refine Narrated.Printable.bind ?_ ?_
  · split
    · exact Narrated.printable_tell (by simp)
    · exact Narrated.printable_tell (by simp)
  · split
    · exact Narrated.printable_pure _
    · refine (Bindings.messages_extract g group sh).printable.bind ((printable_launch _).bind ?_)
      exact (Narrated.printable_tell (by simp)).bind (Narrated.printable_pure _)

end Propagation

namespace Propagator

open Propagation

variable {g : FlowGraph} {S : Setup} {E : Environment}

theorem printable_conclusion {it : Fixpoint.Iteration Account g.size} {p : Propagator}
    (h : p.solution = it.solution) : ∀ e ∈ p.conclusion g, e.Printable := by
  have htext := exists_text (g := g) fun s hs => exists_flows_of_solution h hs
  refine List.forall_mem_cons.mpr ⟨Event.printable_countMax _ _, ?_⟩
  refine List.forall_mem_cons.mpr ⟨Event.printable_log_ok _, ?_⟩
  exact List.forall_mem_singleton.mpr (Event.printable_report htext)

theorem printable_run (hE : E.oracle.Printable) (progress : Progress) :
    (run g E S progress).Printable := by
  refine (Narrated.printable_tell (by simp)).bind (Narrated.Printable.bind ?_ ?_)
  · refine Narrated.printable_tell (List.forall_mem_append.mpr ⟨Fixpoint.printable_opening, ?_⟩)
    exact fun e he => Setup.printable_history_run hE g progress e (List.mem_reverse.mp he)
  · split
    · exact (Narrated.printable_tell Fixpoint.printable_closing).bind (Narrated.printable_pure _)
    · refine Narrated.Printable.bind ?_ (Narrated.Printable.bind ?_ (Narrated.printable_pure _))
      · exact Narrated.printable_tell (List.forall_mem_append.mpr
          ⟨Fixpoint.printable_summary _ _ _, Fixpoint.printable_closing⟩)
      · exact Narrated.printable_tell (printable_conclusion rfl)

/-- Whatever becomes of an analysis, all that it reports can be printed. -/
theorem printable_construct (hE : E.oracle.Printable) (g : FlowGraph) (group : Shadow.Group)
    (sh : Shadow) (r : Shadow.Registry) : (construct g group sh r E).Printable := by
  refine (Setup.printable_prepare g group sh r E.tracematch).bind ?_
  split
  · exact Narrated.printable_pure _
  · exact printable_run hE _

end Propagator
end MonitorElision
