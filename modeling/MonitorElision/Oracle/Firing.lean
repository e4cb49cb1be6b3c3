import MonitorElision.Oracle
import MonitorElision.Shadow.Registry

/-!
# Transitions by shadow

The default oracle. Each active shadow of the tracematch at a statement fires its symbol. A shadow
must refer to the tracked objects if each formal it binds is the tracked local, directly or through
an advice local. Then the automaton follows the symbol, and drops back to the initial nodes if it
cannot. Any other shadow only may refer to them, so the automaton may also stay. Without a shadow it
stays.
-/
namespace MonitorElision

def Bindings.MustRefer (b : Bindings) (sh : Shadow) : Prop :=
  ∀ e ∈ sh.bindings.toList, ∃ tracked ∈ b.formals[e.1]?,
    e.2.Same tracked ∨ ∃ actual ∈ b.actualOf? e.2, actual.Same tracked

instance (b : Bindings) (sh : Shadow) : Decidable (b.MustRefer sh) :=
  inferInstanceAs (Decidable (∀ e ∈ sh.bindings.toList, ∃ tracked ∈ b.formals[e.1]?, _ ∨ _))

namespace Shadow

variable (c : Oracle.Context) (i : Fin c.tracematch.size)

/-- Where the automaton may be after the shadow has fired in the `i`-th node. -/
def outcome (sh : Shadow) : NodeSet :=
  let targets := (c.tracematch.targets i sh.symbol).map c.tracematch.node
  if c.bindings.MustRefer sh then
    if targets.isEmpty then c.initial else NodeSet.ofList targets
  else
    NodeSet.insertAll {c.tracematch.node i} targets

def outcomes (shs : List Shadow) : NodeSet :=
  shs.foldl (fun acc sh => acc ∪ sh.outcome c i) ∅

/-- Reports each shadow with the outcomes so far. -/
def firings (s : Statement) (acc : NodeSet) : List Shadow → List Event
  | [] => []
  | sh :: rest =>
    let acc := acc ∪ sh.outcome c i
    let mode := if c.bindings.MustRefer sh then "must" else "may"
    .log .transition (.ok ((c.tracematch.node i).text ++ " --" ++ sh.symbol ++ "--> " ++ acc.text ++
      " (" ++ mode ++ ") at " ++ Text.quoted s.text ++ "\n")) :: firings s acc rest

theorem mem_indexes_outcome {sh : Shadow} {j : Nat} (h : j ∈ (sh.outcome c i).indexes) :
    j ∈ c.initial.indexes ∨ j < c.tracematch.size := by
  have htargets : ∀ {l : List (Fin c.tracematch.size)} {j : Nat},
      (∃ n ∈ l.map c.tracematch.node, n.index = j) → j < c.tracematch.size := by
    rintro l j ⟨n, hn, rfl⟩
    obtain ⟨k, -, rfl⟩ := List.mem_map.1 hn
    exact k.isLt
  unfold outcome at h
  dsimp only at h
  split at h
  · split at h
    · exact Or.inl h
    · exact Or.inr (htargets (NodeSet.mem_indexes_ofList.1 h))
  · rcases NodeSet.mem_indexes_insertAll.1 h with h | h
    · rw [NodeSet.mem_indexes_singleton.1 h]
      exact Or.inr i.isLt
    · exact Or.inr (htargets h)

theorem mem_indexes_outcomes {shs : List Shadow} {j : Nat}
    (h : j ∈ (outcomes c i shs).indexes) : j ∈ c.initial.indexes ∨ j < c.tracematch.size := by
  suffices ∀ acc : NodeSet, (∀ k ∈ acc.indexes, k ∈ c.initial.indexes ∨ k < c.tracematch.size) →
      ∀ k ∈ (shs.foldl (fun acc sh => acc ∪ sh.outcome c i) acc).indexes,
        k ∈ c.initial.indexes ∨ k < c.tracematch.size from
    this ∅ (by simp) j h
  clear h
  induction shs with
  | nil => exact fun acc hacc => hacc
  | cons sh rest ih =>
    intro acc hacc
    refine ih _ fun k hk => ?_
    rcases NodeSet.mem_indexes_union.1 hk with hk | hk
    · exact hacc k hk
    · exact mem_indexes_outcome c i hk

end Shadow

namespace Oracle

/-- The active shadows of the tracematch that a statement of the procedure hosts. -/
def relevant (r : Shadow.Registry) (procedure : String) (tm : Signature) (s : Statement) :
    List Shadow :=
  (r.active s procedure).filter (·.tracematch.id = tm.id)

def shadows (r : Shadow.Registry) (procedure : String) : Oracle where
  successors c n s :=
    match c.tracematch.find n with
    | .error _ => pure (.error (.nodeOutside n c.tracematch.signature.name))
    | .ok i =>
      match relevant r procedure c.tracematch.signature s with
      | [] => pure (.ok {n})
      | shs => ⟨.ok (Shadow.outcomes c i shs), Shadow.firings c i s ∅ shs⟩
  reach c := List.range c.tracematch.size
  within c n s r h j hj := by
    split at h
    · simp at h
    · split at h
      · simp only [Narrated.value_pure, Except.ok.injEq] at h
        subst h
        exact Or.inl (NodeSet.mem_indexes_singleton.1 hj)
      · simp only [Except.ok.injEq] at h
        subst h
        rcases Shadow.mem_indexes_outcomes c _ hj with h | h
        · exact Or.inr (Or.inl h)
        · exact Or.inr (Or.inr (List.mem_range.2 h))

end Oracle
end MonitorElision
