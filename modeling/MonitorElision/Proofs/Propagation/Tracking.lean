import MonitorElision.Proofs.Propagation.Runs

/-!
# Tracking under an open latch

As long as the latch is open, nothing that was visited is lost: a statement that is not queued has
taken in all that flows to it, and what was taken in has been passed on. The initial nodes replace
what flows to their statement, but nothing flows before they are injected. So in the end the tables
of an open latch hold all the runs.
-/
namespace MonitorElision.Propagation.Setup

open Fixpoint

/-- Nothing that was visited under an open latch is lost. -/
structure Tracked (S : Setup) (E : Environment) (g : FlowGraph) (it : Iteration Account g.size) :
    Prop where
  resolved : S.bindings.unresolved = false
  quiet : ∀ j : Fin g.size, j ∉ it.queue → E.mayTrigger (g.statement j) = false
  taken : ∀ j p : Fin g.size, j ∉ it.queue → (p.val, j.val) ∈ g.edges →
    ∀ y ∈ it.after.get p, y ∈ it.before.get j
  kept : ∀ j : Fin g.size, ∀ x ∈ it.before.get j, ¬S.Redefines (g.statement j)
  passed : ∀ j : Fin g.size, ∀ x ∈ it.before.get j, ∀ y, S.Moves E (g.statement j) x y →
    y ∈ it.after.get j ∧ y.isFinal = false
  injected : it.state.progress.injected = true → ∀ j : Fin g.size, g.statement j = S.start →
    ∀ x ∈ E.tracematch.initialNodes, x ∈ it.before.get j
  waiting : it.state.progress.injected = false → (∀ j : Fin g.size, ∀ y, y ∉ it.after.get j) ∧
    ∀ j : Fin g.size, g.statement j = S.start → j ∈ it.queue

variable {S : Setup} {E : Environment} {g : FlowGraph}

section Tracking

variable {it : Iteration Account g.size} {i : Fin g.size}

/-- The flows of a visit hold nodes of the machine only, so the tables grow by just these nodes. -/
structure Grows (S : Setup) (E : Environment) (g : FlowGraph) (it : Iteration Account g.size)
    (i : Fin g.size) : Prop where
  mem_before : ∀ (j : Fin g.size) x, x ∈ ((S.analysis E).visit g it i).before.get j ↔
    x ∈ it.before.get j ∨ j = i ∧ x ∈ ((S.analysis E).transfer g it i).incoming
  mem_after : ∀ (j : Fin g.size) y, y ∈ ((S.analysis E).visit g it i).after.get j ↔
    y ∈ it.after.get j ∨ j = i ∧ y ∈ ((S.analysis E).transfer g it i).outgoing
  outgoing_within : ∀ y ∈ ((S.analysis E).transfer g it i).outgoing, y ∈ E.tracematch.nodes

theorem Justified.mem_joined (hE : S.AnswersWithin E) (h : S.Justified E g it) {x : Node} :
    x ∈ (S.analysis E).joined g it i ↔
      ∃ p : Fin g.size, (p.val, i.val) ∈ g.edges ∧ x ∈ it.after.get p := by
  constructor
  · intro hx
    rcases (S.analysis E).mem_joined g hx with hx | hx
    · split at hx <;> exact absurd hx (NodeSet.not_mem_empty x)
    · exact hx
  · rintro ⟨p, hp, hx⟩
    have hmachine := (h.after p x hx).mem_nodes hE
    have hindex : x.index ∈ ((S.analysis E).joined g it i).indexes :=
      ((S.analysis E).mem_indexes_joined g).mpr
        (Or.inr ⟨p, hp, NodeSet.mem_indexes.mpr ⟨x, hx, rfl⟩⟩)
    exact Tracematch.mem_of_mem_indexes hmachine
      (fun y hy => (h.enters_of_mem_joined hy).mem_nodes hE) hindex

theorem Justified.grows (hinitial : S.initial = NodeSet.ofList E.tracematch.initialNodes)
    (hE : S.AnswersWithin E) (h : S.Justified E g it)
    (hfault : ((S.analysis E).visit g it i).state.fault = none) : S.Grows E g it i := by
  obtain ⟨-, -, hflow⟩ := flow_of_fault_visit_eq_none hfault
  obtain ⟨hin, hout, -⟩ := justified_flow hinitial (FlowGraph.mem_statements.mpr ⟨i, rfl⟩)
    (fun x hx => h.enters_of_mem_joined hx) (h.after i) h.closed hflow
  have hnext := h.visit hinitial hfault
  have hincoming := fun x hx => (hin x hx).mem_nodes hE
  have houtgoing := fun y hy => (hout y hy).mem_nodes hE
  have hbefore := fun x hx => (h.before i x hx).mem_nodes hE
  have hafter := fun y hy => (h.after i y hy).mem_nodes hE
  have hgrown := fun y hy => (hnext.after i y hy).mem_nodes hE
  constructor
  · intro j x
    by_cases hji : j = i
    · subst hji
      rw [Analysis.before_visit_self, Tracematch.mem_union hincoming hbefore]
      simp [or_comm]
    · rw [Analysis.before_visit_of_ne _ g hji]
      simp [hji]
  · intro j y
    by_cases hji : j = i
    · subst hji
      constructor
      · intro hy
        exact ((S.analysis E).mem_after_visit g hy).symm.imp_right fun hy => ⟨rfl, hy⟩
      · have hreleased : (S.analysis E).released g it j ≤
            ((S.analysis E).visit g it j).after.get j :=
          (S.analysis E).released_le_after_visit g
        rintro (hy | ⟨-, hy⟩)
        · exact Tracematch.mem_of_le hafter hgrown
            ((NodeSet.le_union_right _ _).trans hreleased) hy
        · exact Tracematch.mem_of_le houtgoing hgrown
            ((NodeSet.le_union_left _ _).trans hreleased) hy
    · rw [Analysis.after_visit_of_ne _ g hji]
      simp [hji]
  · exact houtgoing

/-- What a visit does that leaves the latch open. -/
structure Advances (S : Setup) (E : Environment) (g : FlowGraph) (it : Iteration Account g.size)
    (i : Fin g.size) : Prop extends S.Grows E g it i where
  passed : S.Passed E (g.statement i)
    (((S.analysis E).transfer g it i).incoming, ((S.analysis E).transfer g it i).outgoing)
  entered :
    (S.Injects it.state.progress (g.statement i) ∧
      ((S.analysis E).transfer g it i).incoming = S.initial ∧
      ((S.analysis E).visit g it i).state.progress.injected = true) ∨
    (¬S.Injects it.state.progress (g.statement i) ∧
      ((S.analysis E).transfer g it i).incoming = (S.analysis E).joined g it i ∧
      ((S.analysis E).visit g it i).state.progress.injected = it.state.progress.injected)

theorem Justified.advances (hinitial : S.initial = NodeSet.ofList E.tracematch.initialNodes)
    (hE : S.AnswersWithin E) (h : S.Justified E g it)
    (hfault : ((S.analysis E).visit g it i).state.fault = none)
    (hopen : ¬((S.analysis E).visit g it i).state.progress.latch.Closed) :
    ¬it.state.progress.latch.Closed ∧ S.Advances E g it i := by
  obtain ⟨-, hprogress, hflow⟩ := flow_of_fault_visit_eq_none hfault
  rw [hprogress] at hopen
  obtain ⟨hbefore, hpassed, hincoming, hinjected⟩ := flow_open hflow hopen
  dsimp only at hincoming
  refine ⟨hbefore, h.grows hinitial hE hfault, hpassed, ?_⟩
  rw [hprogress, hinjected, hincoming]
  rcases enter_cases with ⟨hinjects, henter⟩ | ⟨hinjects, henter⟩
  · rw [henter]
    exact Or.inl ⟨hinjects, rfl, rfl⟩
  · rw [henter]
    exact Or.inr ⟨hinjects, rfl, rfl⟩

section Advance

variable {rest : List (Fin g.size)} {j : Fin g.size}

variable (h : S.Tracked E g it) (hadv : S.Advances E g { it with queue := rest } i)
include h hadv

/-- What flows to the visited statement is taken in by its visit, or there is none of it yet. -/
theorem Tracked.taken_visit (hqueue : it.queue = i :: rest) (hE : S.AnswersWithin E)
    (hjust : S.Justified E g { it with queue := rest }) {p : Fin g.size} {y : Node}
    (hj : j ∉ ((S.analysis E).visit g { it with queue := rest } i).queue)
    (hp : (p.val, j.val) ∈ g.edges)
    (hy : y ∈ ((S.analysis E).visit g { it with queue := rest } i).after.get p) :
    y ∈ ((S.analysis E).visit g { it with queue := rest } i).before.get j := by
  rw [(S.analysis E).after_visit_of_not_mem_queue g hp hj] at hy
  rw [hadv.mem_before]
  by_cases hji : j = i
  · subst hji
    rcases hadv.entered with ⟨hinjects, -, -⟩ | ⟨-, hincoming, -⟩
    -- The injection drops what is joined, but before it no flow leaves any statement.
    · exact absurd hy ((h.waiting hinjects.2).1 p y)
    · rw [hincoming, hjust.mem_joined hE]
      exact Or.inr ⟨rfl, p, hp, hy⟩
  · exact Or.inl (h.taken j p ((S.analysis E).not_mem_queue_of_visit g hqueue hji hj) hp y hy)

theorem Tracked.passed_visit (hE : S.AnswersWithin E)
    (hnext : S.Justified E g ((S.analysis E).visit g { it with queue := rest } i)) {x y : Node}
    (hx : x ∈ ((S.analysis E).visit g { it with queue := rest } i).before.get j)
    (hmove : S.Moves E (g.statement j) x y) :
    y ∈ ((S.analysis E).visit g { it with queue := rest } i).after.get j ∧ y.isFinal = false := by
  have hy : y ∈ E.tracematch.nodes := hE _ x y ((hnext.before j x hx).mem_nodes hE) hmove
  rw [hadv.mem_after]
  rcases (hadv.mem_before j x).mp hx with hx | ⟨rfl, hx⟩
  · obtain ⟨hafter, hfinal⟩ := h.passed j x hx y hmove
    exact ⟨Or.inl hafter, hfinal⟩
  · obtain ⟨hindex, hfinal⟩ := hadv.passed.complete x hx y hmove
    exact ⟨Or.inr ⟨rfl, Tracematch.mem_of_mem_indexes hy hadv.outgoing_within hindex⟩, hfinal⟩

theorem Tracked.injected_visit
    (hinitial : S.initial = NodeSet.ofList E.tracematch.initialNodes)
    (hinjected : ((S.analysis E).visit g { it with queue := rest } i).state.progress.injected =
      true)
    (hj : g.statement j = S.start) {x : Node} (hx : x ∈ E.tracematch.initialNodes) :
    x ∈ ((S.analysis E).visit g { it with queue := rest } i).before.get j := by
  rw [hadv.mem_before]
  rcases hadv.entered with ⟨hinjects, hincoming, -⟩ | ⟨-, -, hkept⟩
  · have hji : j = i := FlowGraph.statement_injective (hj.trans hinjects.1.symm)
    rw [hincoming, hinitial, Tracematch.mem_ofList_initialNodes]
    exact Or.inr ⟨hji, hx⟩
  · exact Or.inl (h.injected (hkept ▸ hinjected) j hj x hx)

/-- As long as the initial nodes are not injected, nothing flows at all. -/
theorem Tracked.waiting_visit (hqueue : it.queue = i :: rest) (hE : S.AnswersWithin E)
    (hjust : S.Justified E g { it with queue := rest })
    (hinjected : ((S.analysis E).visit g { it with queue := rest } i).state.progress.injected =
      false) :
    (∀ j : Fin g.size, ∀ y,
      y ∉ ((S.analysis E).visit g { it with queue := rest } i).after.get j) ∧
    ∀ j : Fin g.size, g.statement j = S.start →
      j ∈ ((S.analysis E).visit g { it with queue := rest } i).queue := by
  rcases hadv.entered with ⟨-, -, htrue⟩ | ⟨hinjects, hincoming, hkept⟩
  · rw [htrue] at hinjected
    cases hinjected
  · have hwaiting : it.state.progress.injected = false := hkept ▸ hinjected
    obtain ⟨hempty, hstart⟩ := h.waiting hwaiting
    constructor
    · intro j y hy
      rcases (hadv.mem_after j y).mp hy with hy | ⟨-, hy⟩
      · exact hempty j y hy
      · obtain ⟨x, hx, -⟩ := hadv.passed.sound y hy
        dsimp only at hx
        rw [hincoming, hjust.mem_joined hE] at hx
        obtain ⟨p, -, hx⟩ := hx
        exact hempty p x hx
    · intro j hj
      -- The visited statement is not the start, or its visit would have injected.
      have hji : j ≠ i := by
        rintro rfl
        exact hinjects ⟨hj, hwaiting⟩
      by_contra hoff
      exact (S.analysis E).not_mem_queue_of_visit g hqueue hji hoff (hstart j hj)

/-- What was visited under an open latch stays tracked by a visit that leaves it open. -/
theorem Tracked.visit (hinitial : S.initial = NodeSet.ofList E.tracematch.initialNodes)
    (hE : S.AnswersWithin E) (hqueue : it.queue = i :: rest)
    (hjust : S.Justified E g { it with queue := rest })
    (hnext : S.Justified E g ((S.analysis E).visit g { it with queue := rest } i)) :
    S.Tracked E g ((S.analysis E).visit g { it with queue := rest } i) where
  resolved := h.resolved
  quiet j hj := by
    by_cases hji : j = i
    · rw [hji]
      exact hadv.passed.quiet
    · exact h.quiet j ((S.analysis E).not_mem_queue_of_visit g hqueue hji hj)
  taken j p hj hp y hy := h.taken_visit hadv hqueue hE hjust hj hp hy
  kept j x hx := by
    rcases (hadv.mem_before j x).mp hx with hx | ⟨rfl, hx⟩
    · exact h.kept j x hx
    · exact hadv.passed.kept x hx
  passed j x hx y hmove := h.passed_visit hadv hE hnext hx hmove
  injected hinjected j hj x hx := h.injected_visit hadv hinitial hinjected hj hx
  waiting := h.waiting_visit hadv hqueue hE hjust

end Advance

theorem tracked_start (hresolved : ¬(outset S.bindings).latch.Closed) : S.Tracked E g
    ((S.analysis E).start g ⟨outset S.bindings, none, []⟩) where
  resolved := by simpa [closed_outset] using hresolved
  quiet j hj := absurd (g.mem_order j) hj
  taken j p hj := absurd (g.mem_order j) hj
  kept j x hx := by simp [Analysis.start, analysis] at hx
  passed j x hx := by simp [Analysis.start, analysis] at hx
  injected h := by simp [Analysis.start] at h
  waiting _ := by
    constructor
    · intro j y hy
      simp [Analysis.start, analysis] at hy
    · exact fun j _ => g.mem_order j

end Tracking

section Finished

variable {it : Iteration Account g.size} (h : S.Tracked E g it) (hqueue : it.queue = [])
  (hstart : S.start ∈ g.statements)
include h hqueue hstart

theorem Tracked.injected_of_queue_eq_nil : it.state.progress.injected = true := by
  by_contra hinjected
  obtain ⟨j, hj⟩ := FlowGraph.mem_statements.mp hstart
  have hmem := (h.waiting (Bool.eq_false_iff.mpr hinjected)).2 j hj
  rw [hqueue] at hmem
  cases hmem

/-- When nothing is queued any more, every run has been followed. -/
theorem Tracked.mem_before_of_enters {s : Statement} {x : Node} (hx : S.Enters E g s x)
    {j : Fin g.size} (hj : g.statement j = s) : x ∈ it.before.get j := by
  induction hx generalizing j with
  | start hx => exact h.injected (h.injected_of_queue_eq_nil hqueue hstart) j hj _ hx
  | @step i k x y _ hedge hmove ih =>
    obtain rfl : j = k := FlowGraph.statement_injective hj
    have hafter : y ∈ it.after.get i := (h.passed i x (ih rfl) y hmove).1
    have hoff : j ∉ it.queue := by simp [hqueue]
    exact h.taken j i hoff hedge y hafter

theorem Tracked.passed_of_leaves {j : Fin g.size} {y : Node}
    (hy : S.Leaves E g (g.statement j) y) : y ∈ it.after.get j ∧ y.isFinal = false := by
  obtain ⟨x, hx, hmove⟩ := hy
  exact h.passed j x (h.mem_before_of_enters hqueue hstart hx rfl) y hmove

theorem Tracked.not_suspect : ¬S.Suspect E g := by
  rintro (hunresolved | ⟨hs, htrigger⟩ | ⟨hx, hredefines⟩ | ⟨hy, hfinal⟩)
  · rw [h.resolved] at hunresolved
    cases hunresolved
  · obtain ⟨j, rfl⟩ := FlowGraph.mem_statements.mp hs
    have hquiet := h.quiet j (by simp [hqueue])
    rw [hquiet] at htrigger
    cases htrigger
  · obtain ⟨j, rfl⟩ := hx.exists_statement hstart
    exact h.kept j _ (h.mem_before_of_enters hqueue hstart hx rfl) hredefines
  · obtain ⟨x, hx, hmove⟩ := hy
    obtain ⟨j, rfl⟩ := hx.exists_statement hstart
    have hopen := (h.passed_of_leaves hqueue hstart ⟨x, hx, hmove⟩).2
    rw [hopen] at hfinal
    cases hfinal

end Finished

/-- What a run without a fault keeps up. -/
theorem justified_and_tracked_finished
    (hinitial : S.initial = NodeSet.ofList E.tracematch.initialNodes) (hE : S.AnswersWithin E)
    (hfault : (Propagator.finished g E S).state.fault = none) :
    S.Justified E g (Propagator.finished g E S) ∧
      (¬(Propagator.finished g E S).state.progress.latch.Closed →
        S.Tracked E g (Propagator.finished g E S)) := by
  revert hfault
  apply (S.analysis E).run_induction g (P := fun it => it.state.fault = none →
    S.Justified E g it ∧ (¬it.state.progress.latch.Closed → S.Tracked E g it))
  · exact fun _ => ⟨justified_start, tracked_start⟩
  · intro it i rest hqueue ih hfault
    obtain ⟨hbefore, -, -⟩ := flow_of_fault_visit_eq_none hfault
    obtain ⟨hjust, htracked⟩ := ih hbefore
    have hdequeued := hjust.dequeue rest
    have hnext := hdequeued.visit hinitial hfault
    constructor
    · exact hnext
    · intro hopen
      obtain ⟨hwas, hadv⟩ := hdequeued.advances hinitial hE hfault hopen
      exact (htracked hwas).visit hadv hinitial hE hqueue hdequeued hnext

end MonitorElision.Propagation.Setup
