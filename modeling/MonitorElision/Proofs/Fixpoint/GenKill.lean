import MonitorElision.Fixpoint.GenKill
import MonitorElision.Proofs.NodeSet
import Mathlib.Order.Monotone.Basic

/-!
# Gen-kill transfer

Removing a fixed set, adding a fixed set and replacing by a fixed set are monotone, so a gen-kill
analysis in which no statement is one-shot has a monotone transfer function without a state.
-/
namespace MonitorElision.GenKill

variable {p : GenKill} {s killed : NodeSet}

theorem mem_indexes_erase {n : Node} {i : Nat} :
    i ∈ (s.erase n).indexes ↔ i ∈ s.indexes ∧ i ≠ n.index := by
  simp only [NodeSet.mem_indexes, NodeSet.mem_erase]
  constructor
  · rintro ⟨m, ⟨hm, hne⟩, rfl⟩
    exact ⟨⟨m, hm, rfl⟩, hne⟩
  · rintro ⟨⟨m, hm, rfl⟩, hne⟩
    exact ⟨m, ⟨hm, hne⟩, rfl⟩

theorem mem_indexes_without {i : Nat} :
    i ∈ (without s killed).indexes ↔ i ∈ s.indexes ∧ i ∉ killed.indexes := by
  have hfold : ∀ (ns : List Node) (s : NodeSet), i ∈ (ns.foldl NodeSet.erase s).indexes ↔
      i ∈ s.indexes ∧ i ∉ ns.map (·.index) := by
    intro ns
    induction ns with
    | nil => simp
    | cons n ns ih =>
      intro s
      rw [List.foldl_cons, ih, mem_indexes_erase, List.map_cons, List.mem_cons, not_or, and_assoc]
  exact hfold killed.nodes s

theorem monotone_seeded (i : Nat) : Monotone (p.seeded i) := by
  intro a b hab
  unfold seeded
  rw [Std.ExtTreeMap.getD_eq_getD_getElem?, Std.ExtTreeMap.getD_eq_getD_getElem?]
  cases p.seed[i]? with
  | none => exact hab
  | some fixed => exact le_rfl

/-- What a statement that is not one-shot makes of the flow that enters it. -/
def passed (p : GenKill) (i : Nat) (incoming : NodeSet) : NodeSet :=
  without incoming (lookup p.kill i) ∪ lookup p.gen i

theorem monotone_passed (i : Nat) : Monotone (p.passed i) := by
  intro a b hab
  apply NodeSet.union_le_union _ le_rfl
  rw [NodeSet.le_iff]
  intro k hk
  rw [mem_indexes_without] at hk ⊢
  exact ⟨NodeSet.le_iff.mp hab k hk.1, hk.2⟩

theorem outgoing_flow (h : p.oneShot = []) (visited : List Nat) (s : Statement)
    (incoming outgoing : NodeSet) : (p.flow visited s incoming outgoing).outgoing =
      p.passed s.index (p.seeded s.index incoming) := by
  simp [flow, h, passed]

end MonitorElision.GenKill
