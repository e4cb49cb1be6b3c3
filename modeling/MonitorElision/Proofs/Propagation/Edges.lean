import MonitorElision.Proofs.Propagation.Bindings
import MonitorElision.Proofs.Propagation.Growth

/-!
# Adding edges

An analysis reads the edges of a graph as a set. More edges allow more runs, so they add to the
flows and give more reasons to doubt the procedure. The verdict can only get worse, unless an exit
is lost. How the statements are visited, how often, and which reason to give up is met first depends
on the order of the edges as well.
-/
namespace MonitorElision

namespace Propagator

open Propagation

variable {g g' : FlowGraph} {group : Shadow.Group} {sh : Shadow} {r : Shadow.Registry}
  {E : Environment} {p p' : Propagator}

/-- Without giving up, the flows around a statement are the runs through it. -/
theorem exists_flows (hp : (construct g group sh r E).value = .ok p)
    (hE : p.setup.AnswersWithin E) (hopen : ¬p.latch.Closed) {s : Statement}
    (hs : s ∈ g.statements) : ∃ before after,
    p.flowBefore g s = .ok before ∧ p.flowAfter g s = .ok after ∧
    (∀ x, x ∈ before ↔ p.setup.Enters E g s x) ∧ ∀ y, y ∈ after ↔ p.setup.Leaves E g s y := by
  obtain ⟨i, rfl⟩ := FlowGraph.mem_statements.mp hs
  exact ⟨_, _, flowBefore_of_extends hp (.refl g) i, flowAfter_of_extends hp (.refl g) i,
    mem_before_construct hp hE hopen i, mem_after_construct hp hE hopen i⟩

section Subgraph

variable (hg : g.Subgraph g') (hp : (construct g group sh r E).value = .ok p)
  (hp' : (construct g' group sh r E).value = .ok p') (hE : p.setup.AnswersWithin E)
include hg hp hp' hE

theorem answersWithin_subgraph : p'.setup.AnswersWithin E :=
  (setup_subgraph hg hp hp').symm ▸ hE

/-- An analysis that gives up gives up with more edges, too. -/
theorem closed_subgraph (h : p.latch.Closed) : p'.latch.Closed := by
  rw [closed_construct hp hE] at h
  rw [closed_construct hp' (answersWithin_subgraph hg hp hp' hE), setup_subgraph hg hp hp']
  exact h.subgraph hg

theorem SafelyInvariant.subgraph (htails : ∀ t ∈ g.tails, t.cast hg.size_eq ∈ g'.tails)
    (h : p'.SafelyInvariant g') : p.SafelyInvariant g := by
  rw [safelyInvariant_iff_harmless hp' (answersWithin_subgraph hg hp hp' hE),
    setup_subgraph hg hp hp'] at h
  exact (safelyInvariant_iff_harmless hp hE).mpr (h.subgraph hg htails)

/-- Flows grow with the edges. -/
theorem flows_subgraph (hopen : ¬p.latch.Closed) (hopen' : ¬p'.latch.Closed) {s : Statement}
    (hs : s ∈ g.statements) : ∃ before after before' after',
    p.flowBefore g s = .ok before ∧ p.flowAfter g s = .ok after ∧
    p'.flowBefore g' s = .ok before' ∧ p'.flowAfter g' s = .ok after' ∧
    (∀ x ∈ before, x ∈ before') ∧ ∀ y ∈ after, y ∈ after' := by
  have hs' : s ∈ g'.statements := hg.statements_eq ▸ hs
  obtain ⟨before, after, hb, ha, henters, hleaves⟩ := exists_flows hp hE hopen hs
  obtain ⟨before', after', hb', ha', henters', hleaves'⟩ :=
    exists_flows hp' (answersWithin_subgraph hg hp hp' hE) hopen' hs'
  rw [setup_subgraph hg hp hp'] at henters' hleaves'
  refine ⟨before, after, before', after', hb, ha, hb', ha', ?_, ?_⟩
  · intro x hx
    exact (henters' x).mpr (((henters x).mp hx).subgraph hg)
  · intro y hy
    exact (hleaves' y).mpr (((hleaves y).mp hy).subgraph hg)

end Subgraph

/-- The flows are the same whatever the order in which the edges were added. -/
theorem flows_reordered (hg : g.Reordered g') (hp : (construct g group sh r E).value = .ok p)
    (hp' : (construct g' group sh r E).value = .ok p') (hE : p.setup.AnswersWithin E)
    (hopen : ¬p.latch.Closed) (hopen' : ¬p'.latch.Closed) {s : Statement}
    (hs : s ∈ g.statements) :
    p'.flowBefore g' s = p.flowBefore g s ∧ p'.flowAfter g' s = p.flowAfter g s := by
  have hE' := answersWithin_subgraph hg.subgraph hp hp' hE
  have hs' : s ∈ g'.statements := hg.subgraph.statements_eq ▸ hs
  obtain ⟨before, after, before', after', hb, ha, hb', ha', hbefore, hafter⟩ :=
    flows_subgraph hg.subgraph hp hp' hE hopen hopen' hs
  obtain ⟨_, _, _, _, hb'', ha'', hb''', ha''', hbefore', hafter'⟩ :=
    flows_subgraph hg.symm.subgraph hp' hp hE' hopen' hopen hs'
  cases hb'.symm.trans hb''
  cases ha'.symm.trans ha''
  cases hb.symm.trans hb'''
  cases ha.symm.trans ha'''
  have hsame : before' = before := NodeSet.ext fun x => ⟨hbefore' x, hbefore x⟩
  have hsame' : after' = after := NodeSet.ext fun y => ⟨hafter' y, hafter y⟩
  rw [hb', hb, ha', ha, hsame, hsame']
  exact ⟨rfl, rfl⟩

end Propagator

namespace Lamp

/-- After it is turned, the lamp is replaced and turned again, or a call may turn other lamps. -/
def replaceOrCall : FlowGraph where
  id := 0
  name := "m"
  instrs := #[.assign turned (.var x), .nop "", .nop "", .assign x (.alloc "Lamp"),
    .invoke "turnAll" [], .ret none]
  edges := .ofList [(0, 1), (1, 2), (2, 3), (2, 4), (3, 2), (4, 5)]

def callOrReplace : FlowGraph :=
  { replaceOrCall with edges := .ofList [(0, 1), (1, 2), (2, 4), (2, 3), (3, 2), (4, 5)] }

def renewal (g : FlowGraph) : Except Fault Propagator :=
  (Propagator.construct g turnThenReset turn registry
    { environment with mayTrigger := fun s => s.index = 4 }).value

end Lamp

namespace Propagator

open Propagation

variable {g g' : FlowGraph} {group : Shadow.Group} {sh : Shadow} {r : Shadow.Registry}
  {E : Environment} {p p' : Propagator}

/-- With more edges and the same exits an unsafe procedure stays unsafe, and the flows of two
analyses that do not give up grow with the edges. With the same edges in another order the verdict,
whether the analysis gives up, and otherwise all the flows are the same. The visits and the reason
need not be. -/
theorem construct_subgraph (hg : g.Subgraph g')
    (htails : ∀ t ∈ g.tails, t.cast hg.size_eq ∈ g'.tails)
    (hp : (construct g group sh r E).value = .ok p)
    (hp' : (construct g' group sh r E).value = .ok p') (hE : p.setup.AnswersWithin E) :
    (p'.SafelyInvariant g' → p.SafelyInvariant g) ∧
    (¬p.latch.Closed → ¬p'.latch.Closed → ∀ s ∈ g.statements,
      ∃ before after before' after',
        p.flowBefore g s = .ok before ∧ p.flowAfter g s = .ok after ∧
        p'.flowBefore g' s = .ok before' ∧ p'.flowAfter g' s = .ok after' ∧
        (∀ x ∈ before, x ∈ before') ∧ ∀ y ∈ after, y ∈ after') ∧
    ((∀ e ∈ g'.edges, e ∈ g.edges) →
      (p'.SafelyInvariant g' ↔ p.SafelyInvariant g) ∧
      (p'.latch.Closed ↔ p.latch.Closed) ∧
      (¬p.latch.Closed → ∀ s ∈ g.statements,
        p'.flowBefore g' s = p.flowBefore g s ∧ p'.flowAfter g' s = p.flowAfter g s)) ∧
    Lamp.replaceOrCall.Reordered Lamp.callOrReplace ∧
    Lamp.replaceOrCall.order.map (·.val) ≠ Lamp.callOrReplace.order.map (·.val) ∧
    ∃ q, Lamp.renewal Lamp.replaceOrCall = .ok q ∧ ∃ q', Lamp.renewal Lamp.callOrReplace = .ok q' ∧
      q.solution.visits ≠ q'.solution.visits ∧ q.latch.reason ≠ q'.latch.reason := by
  refine ⟨SafelyInvariant.subgraph hg hp hp' hE htails,
    fun hopen hopen' s hs => flows_subgraph hg hp hp' hE hopen hopen' hs, ?_, ?_, ?_, ?_⟩
  · intro hedges
    have hsame : g.Reordered g' := ⟨hg.id, hg.instrs, fun e => ⟨hedges e, hg.edges e⟩⟩
    have hE' := answersWithin_subgraph hg hp hp' hE
    have hclosed : p'.latch.Closed ↔ p.latch.Closed :=
      ⟨closed_subgraph hsame.symm.subgraph hp' hp hE', closed_subgraph hg hp hp' hE⟩
    have htails' : ∀ t ∈ g'.tails, t.cast hsame.size_eq ∈ g.tails :=
      fun t ht => (hsame.mem_tails_cast t).mpr ht
    refine ⟨⟨SafelyInvariant.subgraph hg hp hp' hE htails,
      SafelyInvariant.subgraph hsame.symm.subgraph hp' hp hE' htails'⟩, hclosed, ?_⟩
    intro hopen s hs
    exact flows_reordered hsame hp hp' hE hopen (fun h => hopen (hclosed.mp h)) hs
  · exact ⟨rfl, rfl, fun _ => Adjacency.mem_ofList_of_perm (by decide)⟩
  · decide +kernel
  · decide +kernel

/-- The way back to the opening is missing. -/
def toggleOnce : FlowGraph :=
  { toggleLoop with edges := .ofList [(0, 1), (1, 2), (2, 3)] }

theorem construct_subgraph_toggleLoop : ∃ p p' q, toggleAnalysis toggleOnce = .ok p ∧
    toggleAnalysis toggleLoop = .ok p' ∧ toggleAnalysis toggleLoopReordered = .ok q ∧
    toggleOnce.Subgraph toggleLoop ∧ toggleLoop.Subgraph toggleLoopReordered ∧
    p.SafelyInvariant toggleOnce ∧ q.SafelyInvariant toggleLoopReordered ∧
    (∃ after after', p.flowAfter toggleOnce ⟨0, 2, .nop ""⟩ = .ok after ∧
      p'.flowAfter toggleLoop ⟨0, 2, .nop ""⟩ = .ok after' ∧ ∀ y ∈ after, y ∈ after') ∧
    q.flowAfter toggleLoopReordered ⟨0, 2, .nop ""⟩ =
      p'.flowAfter toggleLoop ⟨0, 2, .nop ""⟩ := by
  have hrun : ∃ p, toggleAnalysis toggleOnce = .ok p ∧ ¬p.latch.Closed := by decide +kernel
  have hrun' : ∃ p', toggleAnalysis toggleLoop = .ok p' ∧
      ¬p'.latch.Closed ∧ p'.SafelyInvariant toggleLoop := by decide +kernel
  have hrun'' : ∃ q, toggleAnalysis toggleLoopReordered = .ok q ∧ True := by decide +kernel
  have hsub : toggleOnce.Subgraph toggleLoop := ⟨rfl, rfl, by decide⟩
  have hsub' : toggleLoop.Subgraph toggleLoopReordered := ⟨rfl, rfl, by decide⟩
  obtain ⟨p, hp, hopen⟩ := hrun
  obtain ⟨p', hp', hopen', hsafe⟩ := hrun'
  obtain ⟨q, hq, -⟩ := hrun''
  have htails : ∀ t ∈ toggleOnce.tails, (⟨t, t.isLt⟩ : Fin toggleLoop.size) ∈ toggleLoop.tails := by
    decide
  have htails' : ∀ t ∈ toggleLoop.tails,
      (⟨t, t.isLt⟩ : Fin toggleLoopReordered.size) ∈ toggleLoopReordered.tails := by
    decide
  obtain ⟨hverdict, hflows, -⟩ :=
    construct_subgraph hsub htails hp hp' (answersWithin_toggle hp)
  obtain ⟨-, -, hsame, -⟩ :=
    construct_subgraph hsub' htails' hp' hq (answersWithin_toggle hp')
  obtain ⟨hverdict', -, hflows'⟩ := hsame (by decide)
  obtain ⟨-, after, -, after', -, hafter, -, hafter', -, hgrown⟩ :=
    hflows hopen hopen' ⟨0, 2, .nop ""⟩ (by decide)
  exact ⟨p, p', q, hp, hp', hq, hsub, hsub', hverdict hsafe, hverdict'.mpr hsafe,
    ⟨after, after', hafter, hafter', hgrown⟩, (hflows' hopen' ⟨0, 2, .nop ""⟩ (by decide)).2⟩

end Propagator
end MonitorElision
