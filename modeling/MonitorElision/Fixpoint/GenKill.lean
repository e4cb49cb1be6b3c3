import MonitorElision.Fixpoint
import Std.Data.ExtTreeMap

/-!
# Gen-kill analyses

A statement may replace the flow that enters it by its seed, then removes the nodes it kills and
adds those it generates. A one-shot statement generates on its first visit only.
-/
namespace MonitorElision

structure GenKill where
  name : String
  entry : NodeSet
  initial : NodeSet
  seed : Std.ExtTreeMap Nat NodeSet
  kill : Std.ExtTreeMap Nat NodeSet
  gen : Std.ExtTreeMap Nat NodeSet
  oneShot : List Nat

namespace GenKill

open Fixpoint

def lookup (sets : Std.ExtTreeMap Nat NodeSet) (i : Nat) : NodeSet := sets.getD i ∅

def seeded (p : GenKill) (i : Nat) (incoming : NodeSet) : NodeSet := p.seed.getD i incoming

/-- The nodes of `s` whose numbers do not occur in `killed`. -/
def without (s killed : NodeSet) : NodeSet := killed.nodes.foldl NodeSet.erase s

/-- The state holds the statements visited so far. -/
def flow (p : GenKill) (visited : List Nat) (s : Statement) (incoming _outgoing : NodeSet) :
    Flow (List Nat) :=
  let incoming := p.seeded s.index incoming
  let kept := without incoming (lookup p.kill s.index)
  { state := s.index :: visited
    incoming := incoming
    outgoing :=
      if s.index ∈ p.oneShot ∧ s.index ∈ visited then kept
      else kept ∪ lookup p.gen s.index }

def pool (p : GenKill) : List Nat :=
  p.entry.indexes ++ p.initial.indexes ++
    (p.seed.toList ++ p.gen.toList).flatMap (·.2.indexes)

theorem within_lookup {p : GenKill} (i : Nat) : (lookup p.gen i).Within p.pool := by
  intro j hj
  unfold lookup at hj
  rw [Std.ExtTreeMap.getD_eq_getD_getElem?] at hj
  cases h : p.gen[i]? with
  | none => simp [h] at hj
  | some s =>
    simp only [h, Option.getD_some] at hj
    have hs := Std.ExtTreeMap.mem_toList_iff_getElem?_eq_some.2 h
    exact List.mem_append_right _
      (List.mem_flatMap.2 ⟨(i, s), List.mem_append_right _ hs, hj⟩)

theorem within_seeded {p : GenKill} (i : Nat) {incoming : NodeSet}
    (hi : incoming.Within p.pool) : (p.seeded i incoming).Within p.pool := by
  intro j hj
  unfold seeded at hj
  rw [Std.ExtTreeMap.getD_eq_getD_getElem?] at hj
  cases h : p.seed[i]? with
  | none =>
    rw [h] at hj
    exact hi j hj
  | some s =>
    simp only [h, Option.getD_some] at hj
    have hs := Std.ExtTreeMap.mem_toList_iff_getElem?_eq_some.2 h
    exact List.mem_append_right _
      (List.mem_flatMap.2 ⟨(i, s), List.mem_append_left _ hs, hj⟩)

theorem mem_indexes_of_mem_without {killed s : NodeSet} {i : Nat}
    (h : i ∈ (without s killed).indexes) : i ∈ s.indexes := by
  unfold without at h
  generalize killed.nodes = ns at h
  induction ns generalizing s with
  | nil => exact h
  | cons n ns ih => exact NodeSet.mem_indexes_of_mem_erase (ih h)

def analysis (p : GenKill) : Analysis (List Nat) where
  entry := p.entry
  initial := p.initial
  flow := p.flow
  pool := p.pool
  entry_within i hi := by simp [pool, hi]
  initial_within i hi := by simp [pool, hi]
  flow_within visited s incoming outgoing hi _ := by
    have hin := within_seeded s.index hi
    have hkept : (without (p.seeded s.index incoming) (lookup p.kill s.index)).Within p.pool :=
      fun i h => hin i (mem_indexes_of_mem_without h)
    refine ⟨hin, ?_⟩
    simp only [flow]
    split
    · exact hkept
    · exact hkept.union (within_lookup s.index)

/-- The visits made by an earlier run are forgotten. -/
def solve (p : GenKill) (g : FlowGraph) : Narrated Solution :=
  Fixpoint.solve p.name p.analysis g []

end GenKill
end MonitorElision
