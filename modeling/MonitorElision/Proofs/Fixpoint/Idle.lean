import MonitorElision.Proofs.Fixpoint.Termination
import Mathlib.Data.Fintype.Card

/-!
# Idle states

No statement is queued twice. Once the transfer function has come to a state in which it hands on
what it is given, a visit takes its statement off the queue and does no more. So the flows out of
the statements stay, and the iteration is over as soon as the queue has been gone through once.
-/
namespace MonitorElision

namespace Fixpoint

theorem nodup_enqueue {n : Nat} {queue next : List (Fin n)} (hqueue : queue.Nodup)
    (hnext : next.Nodup) : (enqueue queue next).Nodup := by
  refine List.nodup_append.mpr ⟨hqueue, hnext.filter _, ?_⟩
  rintro i hi j hj rfl
  have hfresh := (List.mem_filter.mp hj).2
  simp [hi] at hfresh

namespace Analysis

variable {σ : Type} {a : Analysis σ} {g : FlowGraph}

section Queue

variable {it : Iteration σ g.size} {i : Fin g.size} {rest : List (Fin g.size)}

theorem nodup_queue_visit (h : it.queue.Nodup) (i : Fin g.size) :
    (a.visit g it i).queue.Nodup := by
  rcases a.visit_cases g it i with ⟨-, -, hqueue⟩ | ⟨-, -, hqueue⟩
  · rwa [hqueue]
  · rw [hqueue]
    exact nodup_enqueue h (g.nodup_succs i)

/-- No statement is queued twice. -/
theorem nodup_queue_drain (x : σ) (n : Nat) : (a.drain g n (a.start g x)).queue.Nodup := by
  apply a.drain_induction g (P := fun it => it.queue.Nodup)
  · intro it i rest hqueue h
    rw [hqueue, List.nodup_cons] at h
    exact nodup_queue_visit h.2 i
  · exact g.nodup_order

theorem length_queue_drain_le (x : σ) (n : Nat) :
    (a.drain g n (a.start g x)).queue.length ≤ g.size := by
  have hle := (nodup_queue_drain (a := a) (g := g) x n).length_le_card
  rwa [Fintype.card_fin] at hle

/-- The next turn visits the statement at the front. -/
theorem drain_succ_of_queue_eq_cons {n : Nat} (h : (a.drain g n it).queue = i :: rest) :
    a.drain g (n + 1) it = a.visit g { a.drain g n it with queue := rest } i := by
  rw [drain_add, a.drain_of_queue_eq_cons g h]
  rfl

end Queue

/-- In this state the transfer function hands on what it is given. -/
def Idle (a : Analysis σ) (x : σ) : Prop :=
  ∀ s incoming outgoing, a.flow x s incoming outgoing = ⟨x, incoming, outgoing⟩

section Idle

variable {it : Iteration σ g.size} (h : a.Idle it.state)
include h

theorem Idle.transfer (i : Fin g.size) :
    a.transfer g it i = ⟨it.state, a.joined g it i, it.after.get i⟩ :=
  h _ _ _

theorem Idle.visit (i : Fin g.size) : (a.visit g it i).state = it.state ∧
    (a.visit g it i).after = it.after ∧ (a.visit g it i).queue = it.queue := by
  rw [state_visit, h.transfer]
  refine ⟨rfl, ?_⟩
  rcases a.visit_cases g it i with ⟨-, hafter, hqueue⟩ | ⟨hgrown, -, -⟩
  · exact ⟨hafter, hqueue⟩
  · rw [released, h.transfer] at hgrown
    exact absurd (NodeSet.union_le le_rfl le_rfl) hgrown

/-- All that is left to do is to go through the queue. -/
theorem Idle.drain (n : Nat) : (a.drain g n it).state = it.state ∧
    (a.drain g n it).after = it.after ∧ (a.drain g n it).queue = it.queue.drop n ∧
    (a.drain g n it).visits = it.visits + min n it.queue.length := by
  induction n generalizing it with
  | zero => simp [Analysis.drain]
  | succ n ih =>
    cases hqueue : it.queue with
    | nil =>
      rw [a.drain_of_queue_eq_nil g hqueue]
      simp [hqueue]
    | cons i rest =>
      have hdequeued : a.Idle { it with queue := rest }.state := h
      obtain ⟨hstate, hafter, hrest⟩ := hdequeued.visit i
      obtain ⟨hstate', hafter', hqueue', hvisits'⟩ := ih (hstate ▸ h)
      rw [a.drain_of_queue_eq_cons g hqueue]
      refine ⟨hstate'.trans hstate, hafter'.trans hafter, ?_, ?_⟩
      · rw [hqueue', hrest, List.drop_succ_cons]
      · rw [hvisits', hrest, visits_visit, List.length_cons]
        dsimp only
        omega

omit h

/-- A run that comes to an idle state ends after one more visit for each queued statement. -/
theorem Idle.run {x : σ} {n : Nat} (h : a.Idle (a.drain g n (a.start g x)).state)
    (hn : n ≤ a.budget g) : (a.run g x).state = (a.drain g n (a.start g x)).state ∧
    (a.run g x).after = (a.drain g n (a.start g x)).after ∧ (a.run g x).visits =
      (a.drain g n (a.start g x)).visits + (a.drain g n (a.start g x)).queue.length := by
  obtain ⟨more, hmore⟩ := Nat.exists_eq_add_of_le hn
  have hrun : a.run g x = a.drain g more (a.drain g n (a.start g x)) := by
    rw [Analysis.run, hmore, drain_add]
  obtain ⟨hstate, hafter, hqueue, hvisits⟩ := h.drain more
  have hdone := a.queue_run g x
  rw [hrun, hqueue, List.drop_eq_nil_iff] at hdone
  rw [hrun, hstate, hafter, hvisits, Nat.min_eq_right hdone]
  exact ⟨rfl, rfl, rfl⟩

/-- If the analysis is idle from the start and starts from nothing, nothing ever flows. -/
theorem Idle.run_eq_empty {x : σ} (h : a.Idle x) (hentry : a.entry = ∅) (hinitial : a.initial = ∅) :
    (∀ i : Fin g.size, (a.run g x).before.get i = ∅ ∧ (a.run g x).after.get i = ∅) ∧
      (a.run g x).visits = g.size := by
  constructor
  · suffices hempty : (a.run g x).state = x ∧ ∀ i : Fin g.size,
        (a.run g x).before.get i = ∅ ∧ (a.run g x).after.get i = ∅ from hempty.2
    apply a.run_induction g (P := fun it => it.state = x ∧ ∀ i : Fin g.size,
      it.before.get i = ∅ ∧ it.after.get i = ∅)
    · simp [start, hinitial]
    · rintro it i rest - ⟨hstate, hempty⟩
      have hidle : a.Idle { it with queue := rest }.state := by rwa [hstate]
      obtain ⟨hstate', hafter, -⟩ := hidle.visit i
      have hjoined : a.joined g { it with queue := rest } i = ∅ := by
        refine NodeSet.ext fun n => iff_of_false (fun hn => ?_) (NodeSet.not_mem_empty n)
        rcases a.mem_joined g hn with hn | ⟨p, -, hn⟩
        · simp [hentry, hinitial] at hn
        · simp [(hempty p).2] at hn
      refine ⟨hstate'.trans hstate, fun j => ⟨?_, ?_⟩⟩
      · by_cases hji : j = i
        · subst hji
          rw [before_visit_self, hidle.transfer, hjoined, (hempty j).1]
          rfl
        · rw [a.before_visit_of_ne g hji]
          exact (hempty j).1
      · rw [hafter]
        exact (hempty j).2
  · have hstart : a.Idle (a.drain g 0 (a.start g x)).state := h
    rw [(hstart.run (Nat.zero_le _)).2.2]
    simp [Analysis.drain, start, FlowGraph.length_order]

end Idle

end Analysis
end Fixpoint
end MonitorElision
