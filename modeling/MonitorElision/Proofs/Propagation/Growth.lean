import MonitorElision.Proofs.FlowGraph.Growth
import MonitorElision.Proofs.Propagation.Verdict

/-!
# Asking again

A finished analysis keeps its flows, but looks for the exits each time it is asked. An exit that has
been given a successor since is an exit no longer, and the statements added since have no flows. So
a graph that grows can only lose the exits that speak against it.
-/
namespace MonitorElision.Propagator

open Propagation

variable {g g' : FlowGraph} {group : Shadow.Group} {sh : Shadow} {r : Shadow.Registry}
  {E : Environment} {p : Propagator}

section Extended

variable (hp : (construct g group sh r E).value = .ok p) (hg : g.Extends g')
include hp

/-- There are flows for the statements that were there, and for no others. -/
theorem after?_eq_some_iff {s : Statement} {flow : NodeSet} : p.solution.after? s = some flow ↔
    ∃ i : Fin g.size, i.val = s.index ∧ (finished g E p.setup).after.get i = flow := by
  constructor
  · intro h
    obtain ⟨-, -, -, -, -, hsolution⟩ := construct_eq_ok hp
    have hsize : p.solution.after.size = g.size := by
      rw [hsolution]
      exact Vector.size_toArray _
    obtain ⟨hlt, -⟩ := Array.getElem?_eq_some_iff.mp h
    refine ⟨⟨s.index, hsize ▸ hlt⟩, rfl, Option.some.inj ?_⟩
    rw [← after?_construct hp]
    exact h
  · rintro ⟨i, hi, rfl⟩
    rw [← after?_construct hp]
    exact congrArg (p.solution.after[·]?) hi.symm

include hg

theorem mem_exitFlows_of_extends {flow : NodeSet} : flow ∈ p.exitFlows g' ↔
    ∃ i : Fin g.size, i.castLE hg.size_le ∈ g'.tails ∧
      (finished g E p.setup).after.get i = flow := by
  simp only [exitFlows, List.mem_filterMap, after?_eq_some_iff hp]
  constructor
  · rintro ⟨t, ht, i, hi, hflow⟩
    obtain rfl : i.castLE hg.size_le = t := Fin.ext hi
    exact ⟨i, ht, hflow⟩
  · rintro ⟨i, ht, hflow⟩
    exact ⟨_, ht, i, rfl, hflow⟩

theorem safelyInvariant_of_extends : p.SafelyInvariant g' ↔ ¬p.latch.Closed ∧
    ∀ i : Fin g.size, i.castLE hg.size_le ∈ g'.tails →
      ∀ n ∈ (finished g E p.setup).after.get i, n.isInitial = true := by
  simp only [SafelyInvariant, mem_exitFlows_of_extends hp hg]
  constructor
  · rintro ⟨hopen, h⟩
    exact ⟨hopen, fun i hi => h _ ⟨i, hi, rfl⟩⟩
  · rintro ⟨hopen, h⟩
    refine ⟨hopen, ?_⟩
    rintro flow ⟨i, hi, rfl⟩
    exact h i hi

theorem flowBefore_of_extends (i : Fin g.size) :
    p.flowBefore g' (g.statement i) = .ok ((finished g E p.setup).before.get i) := by
  have hmem : g.statement i ∈ g' := hg.statement_castLE i ▸ FlowGraph.statement_mem _
  simp only [flowBefore, hmem, if_true, before?_construct hp]

theorem flowAfter_of_extends (i : Fin g.size) :
    p.flowAfter g' (g.statement i) = .ok ((finished g E p.setup).after.get i) := by
  have hmem : g.statement i ∈ g' := hg.statement_castLE i ▸ FlowGraph.statement_mem _
  simp only [flowAfter, hmem, if_true, after?_construct hp]

/-- Every old exit that speaks against the procedure has been given a successor. -/
theorem safelyInvariant_iff_successors : p.SafelyInvariant g' ↔ ¬p.latch.Closed ∧
    ∀ t ∈ g.tails, ∀ flow, p.flowAfter g (g.statement t) = .ok flow →
      (∃ n ∈ flow, n.isInitial = false) → ∃ j, (t.val, j) ∈ g'.edges := by
  rw [safelyInvariant_of_extends hp hg]
  refine and_congr_right fun _ => ⟨?_, ?_⟩
  · rintro h t - flow hflow ⟨n, hn, hninitial⟩
    obtain rfl := Except.ok.inj (hflow.symm.trans (flowAfter_of_extends hp (.refl g) t))
    by_contra hexit
    have htail : t.castLE hg.size_le ∈ g'.tails :=
      FlowGraph.mem_tails.mpr fun j hj => hexit ⟨j, hj⟩
    rw [h t htail n hn] at hninitial
    cases hninitial
  · intro h i hi n hn
    by_contra hninitial
    obtain ⟨j, hj⟩ := h i (hg.mem_tails_of_castLE hi) _ (flowAfter_of_extends hp (.refl g) i)
      ⟨n, hn, Bool.eq_false_iff.mpr hninitial⟩
    exact FlowGraph.mem_tails.mp hi j hj

theorem SafelyInvariant.extends {g'' : FlowGraph} (hg' : g'.Extends g'')
    (h : p.SafelyInvariant g') : p.SafelyInvariant g'' := by
  obtain ⟨hopen, hexits⟩ := (safelyInvariant_iff_successors hp hg).mp h
  refine (safelyInvariant_iff_successors hp (hg.trans hg')).mpr ⟨hopen, ?_⟩
  intro t ht flow hflow hn
  obtain ⟨j, hj⟩ := hexits t ht flow hflow hn
  exact ⟨j, hg'.edges _ hj⟩

end Extended

/-- However the graph grows after the analysis, its flows stay. The verdict is positive just in case
the analysis did not give up and every old exit that a run leaves outside the initial nodes has been
given a successor. So it never turns negative, but it may turn positive. -/
theorem safelyInvariant_growAll (hp : (construct g group sh r E).value = .ok p)
    (steps : List FlowGraph.Growth) :
    (∀ s ∈ g.statements, p.flowBefore (g.growAll steps) s = p.flowBefore g s ∧
      p.flowAfter (g.growAll steps) s = p.flowAfter g s) ∧
    (p.SafelyInvariant (g.growAll steps) ↔ ¬p.latch.Closed ∧
      ∀ t ∈ g.tails, ∀ flow, p.flowAfter g (g.statement t) = .ok flow →
        (∃ n ∈ flow, n.isInitial = false) → ∃ j, (t.val, j) ∈ (g.growAll steps).edges) ∧
    ∀ later, p.SafelyInvariant (g.growAll steps) →
      p.SafelyInvariant (g.growAll (steps ++ later)) := by
  have hg := g.extends_growAll steps
  refine ⟨?_, safelyInvariant_iff_successors hp hg, ?_⟩
  · intro s hs
    obtain ⟨i, rfl⟩ := FlowGraph.mem_statements.mp hs
    rw [flowBefore_of_extends hp hg, flowAfter_of_extends hp hg,
      flowBefore_of_extends hp (.refl g), flowAfter_of_extends hp (.refl g)]
    exact ⟨rfl, rfl⟩
  · intro later hsafe
    rw [FlowGraph.growAll_append]
    exact SafelyInvariant.extends hp hg (FlowGraph.extends_growAll _ later) hsafe

/-- What is opened is not closed. -/
def openOnly : FlowGraph where
  id := 0
  name := "loop"
  instrs := #[.nop "", .nop ""]
  edges := .ofList [(0, 1)]

def returning : List FlowGraph.Growth :=
  [.append (.ret none), .connect ⟨0, 1, .nop ""⟩ ⟨0, 2, .ret none⟩]

/-- A return after the last statement hides that nothing is closed, though an analysis of the grown
graph would find it out. -/
theorem safelyInvariant_gained_by_growth :
    (∃ p, toggleAnalysis openOnly = .ok p ∧ ¬p.SafelyInvariant openOnly ∧
      p.SafelyInvariant (openOnly.growAll returning)) ∧
    ∃ p, toggleAnalysis (openOnly.growAll returning) = .ok p ∧
      ¬p.SafelyInvariant (openOnly.growAll returning) := by
  constructor <;> decide +kernel

theorem safelyInvariant_growAll_openOnly : ∃ p, toggleAnalysis openOnly = .ok p ∧
    p.flowAfter (openOnly.growAll returning) ⟨0, 1, .nop ""⟩ = .ok {⟨0, 1, false, false⟩} ∧
    ∀ later, p.SafelyInvariant (openOnly.growAll (returning ++ later)) := by
  have hrun : ∃ p, toggleAnalysis openOnly = .ok p ∧
      p.SafelyInvariant (openOnly.growAll returning) ∧
      ∃ after, p.flowAfter openOnly ⟨0, 1, .nop ""⟩ = .ok after ∧
        after = {⟨0, 1, false, false⟩} := by
    decide +kernel
  obtain ⟨p, hp, hsafe, _, hafter, rfl⟩ := hrun
  obtain ⟨hflows, -, hlater⟩ := safelyInvariant_growAll hp returning
  obtain ⟨-, hkept⟩ := hflows ⟨0, 1, .nop ""⟩ (by decide)
  exact ⟨p, hp, hkept.trans hafter, fun later => hlater later hsafe⟩

end MonitorElision.Propagator
