import MonitorElision.Proofs.Oracle.Firing
import Mathlib.Data.List.Induction

/-!
# Histories of machines

In the rows of a machine a node is known by its number alone, and every machine has nodes of the
same numbers. Still after every history of requests to any number of machines, whatever of it fails,
each machine has just the transitions that were asked of it and accepted.
-/
namespace MonitorElision

namespace Transitions

variable {ts : Transitions} {t : Transition} {l : List Transition}

theorem ofList_concat (l : List Transition) (t : Transition) :
    ofList (l ++ [t]) = (ofList l).insert t :=
  List.foldl_append

@[simp] theorem mem_ofList : t ∈ ofList l ↔ t ∈ l := by
  induction l using List.reverseRecOn with
  | nil => exact iff_of_false (not_mem_empty t) List.not_mem_nil
  | append_singleton l u ih => simp only [ofList_concat, mem_insert, ih, List.mem_append,
      List.mem_singleton]

/-- A row holds the targets of the transitions that belong there, as they first occur. -/
theorem targets_ofList (l : List Transition) (source : Nat) (symbol : String) :
    (ofList l).targets source symbol = ((OrderedSet.ofList l).toList.filter fun t =>
      t.source = source ∧ t.symbol = symbol).map (·.target) := by
  induction l using List.reverseRecOn with
  | nil => rfl
  | append_singleton l t ih =>
    rw [ofList_concat, OrderedSet.ofList_concat, targets_insert]
    by_cases ht : t ∈ l
    · rw [if_neg (by simp [ht]), OrderedSet.insert_of_mem (OrderedSet.mem_ofList.mpr ht), ih]
    · rw [OrderedSet.toList_insert_of_not_mem (mt OrderedSet.mem_ofList.mp ht), List.filter_append,
        List.map_append, ← ih]
      by_cases hrow : t.source = source ∧ t.symbol = symbol
      · obtain ⟨rfl, rfl⟩ := hrow
        simp [ht]
      · have hother : ¬(source = t.source ∧ symbol = t.symbol ∧ t ∉ ofList l) :=
          fun h => hrow ⟨h.1.symm, h.2.1.symm⟩
        rw [if_neg hother]
        simp [hrow]

/-- One row gains the transition, unless it is there. -/
theorem toList_insert_perm (ts : Transitions) (t : Transition) :
    (ts.insert t).toList.Perm (ts.toList ++ if t ∈ ts then [] else [t]) := by
  refine OrderedMap.flatMap_update ?_
  simp only [mem_iff_exists_row]
  cases ts.rows.get? (t.source, t.symbol) with
  | none => simp [ofRow, OrderedSet.toList_insert_of_not_mem]
  | some row =>
    by_cases ht : t.target ∈ row
    · simp [ofRow, ht, OrderedSet.insert_of_mem]
    · simp [ofRow, ht, OrderedSet.toList_insert_of_not_mem]

theorem size_ofList (l : List Transition) : (ofList l).size = (OrderedSet.ofList l).size := by
  induction l using List.reverseRecOn with
  | nil => rfl
  | append_singleton l t ih =>
    rw [ofList_concat, OrderedSet.ofList_concat, OrderedSet.size_insert, ← length_toList,
      (toList_insert_perm _ t).length_eq, List.length_append, length_toList, ih]
    by_cases ht : t ∈ l
    · simp [ht]
    · simp [ht]

end Transitions

namespace Tracematch

/-- What can be asked of a machine. -/
inductive Change where
  | newState (kind : NodeKind)
  | newTransition (source : Node) (symbol : String) (target : Node)
  deriving DecidableEq

/-- A transition that is refused changes nothing. -/
def change (tm : Tracematch) : Change → Tracematch
  | .newState kind => (tm.newState kind).2
  | .newTransition source symbol target =>
    match tm.newTransition source symbol target with
    | .ok tm' => tm'
    | .error _ => tm

def changeAll (tm : Tracematch) (changes : List Change) : Tracematch := changes.foldl change tm

/-- The transition that is asked for and not refused. -/
def granted? (tm : Tracematch) : Change → Option Transition
  | .newState _ => none
  | .newTransition source symbol target =>
    match tm.newTransition source symbol target with
    | .ok _ => some ⟨source.index, symbol, target.index⟩
    | .error _ => none

/-- The transitions that a history asks for and gets, in order. -/
def accepted (tm : Tracematch) : List Change → List Transition
  | [] => []
  | c :: changes => (tm.granted? c).toList ++ (tm.change c).accepted changes

/-- The accepted transitions of a history of a new machine, each as it is first accepted. -/
def log (s : Signature) (changes : List Change) : OrderedSet Transition :=
  .ofList ((declare s).accepted changes)

/-- The kinds of the nodes that a history makes. -/
def made (changes : List Change) : List NodeKind :=
  changes.filterMap fun c =>
    match c with
    | .newState kind => some kind
    | .newTransition _ _ _ => none

/-- The node was made for the machine. -/
structure Has (tm : Tracematch) (n : Node) : Prop where
  owns : tm.Owns n
  index_lt : n.index < tm.size

structure Grants (tm : Tracematch) (source : Node) (symbol : String) (target : Node) : Prop where
  symbol : symbol ∈ tm.signature.alphabet
  source : tm.Has source
  target : tm.Has target

section Requests

variable {tm : Tracematch} {n source target : Node} {symbol : String}

theorem find_of_has (h : tm.Has n) : tm.find n = .ok ⟨n.index, h.index_lt⟩ :=
  dif_pos ⟨h.owns, h.index_lt⟩

theorem find_of_not_has (h : ¬tm.Has n) : tm.find n = .error (.foreignNode n) :=
  dif_neg fun hplace => h ⟨hplace.1, hplace.2⟩

theorem newTransition_of_grants (h : tm.Grants source symbol target) :
    tm.newTransition source symbol target =
      .ok (tm.addTransition ⟨source.index, h.source.index_lt⟩ symbol
        ⟨target.index, h.target.index_lt⟩) := by
  rw [newTransition, if_pos h.symbol, find_of_has h.source, find_of_has h.target]
  rfl

theorem newTransition_of_not_grants (h : ¬tm.Grants source symbol target) :
    ∃ f, tm.newTransition source symbol target = .error f := by
  rw [newTransition]
  by_cases hsymbol : symbol ∈ tm.signature.alphabet
  · rw [if_pos hsymbol]
    by_cases hsource : tm.Has source
    · have htarget : ¬tm.Has target := fun htarget => h ⟨hsymbol, hsource, htarget⟩
      rw [find_of_has hsource, find_of_not_has htarget]
      exact ⟨_, rfl⟩
    · rw [find_of_not_has hsource]
      exact ⟨_, rfl⟩
  · rw [if_neg hsymbol]
    exact ⟨_, rfl⟩

theorem newTransition_fails_iff : (∃ f, tm.newTransition source symbol target = .error f) ↔
    ¬tm.Grants source symbol target :=
  Fault.exists_error_iff (fun h => ⟨_, newTransition_of_grants h⟩) newTransition_of_not_grants

theorem successors_of_has (h : tm.Has n) (symbol : String) :
    tm.successors n symbol = .ok ((tm.targets ⟨n.index, h.index_lt⟩ symbol).map tm.node) := by
  rw [successors, find_of_has h]
  rfl

theorem successors_fails_iff : (∃ f, tm.successors n symbol = .error f) ↔ ¬tm.Has n := by
  refine Fault.exists_error_iff (fun h => ⟨_, successors_of_has h symbol⟩) fun h => ?_
  rw [successors, find_of_not_has h]
  exact ⟨_, rfl⟩

theorem map_val_targets (i : Fin tm.size) (symbol : String) :
    (tm.targets i symbol).map (·.val) = tm.transitions.targets i symbol := by
  rw [targets, List.map_map]
  exact List.attach_map_subtype_val _

end Requests

/-- What a machine consists of, if these nodes were made and these transitions accepted. -/
structure Records (tm : Tracematch) (s : Signature) (kinds : List NodeKind)
    (accepted : List Transition) : Prop where
  signature : tm.signature = s
  kinds : tm.kinds.toList = kinds
  transitions : tm.transitions = .ofList accepted

section History

theorem changeAll_append (tm : Tracematch) (changes later : List Change) :
    tm.changeAll (changes ++ later) = (tm.changeAll changes).changeAll later :=
  List.foldl_append

variable {tm : Tracematch} {s : Signature} {kinds : List NodeKind} {accepted : List Transition}

theorem records_declare (s : Signature) : (declare s).Records s [] [] := ⟨rfl, rfl, rfl⟩

/-- A step makes a node or accepts a transition, or it is a refused one and does nothing. -/
theorem Records.change (h : tm.Records s kinds accepted) (c : Change) :
    (tm.change c).Records s (kinds ++ made [c]) (accepted ++ (tm.granted? c).toList) := by
  cases c with
  | newState kind =>
    refine ⟨h.signature, ?_, ?_⟩
    · exact Array.toList_push.trans (congrArg (· ++ [kind]) h.kinds)
    · exact h.transitions.trans (congrArg _ (List.append_nil accepted).symm)
  | newTransition source symbol target =>
    have hkinds : kinds ++ made [.newTransition source symbol target] = kinds :=
      List.append_nil kinds
    rw [hkinds, Tracematch.change, granted?]
    by_cases hgrants : tm.Grants source symbol target
    · rw [newTransition_of_grants hgrants]
      refine ⟨h.signature, h.kinds, ?_⟩
      exact (congrArg (Transitions.insert · _) h.transitions).trans
        (Transitions.ofList_concat _ _).symm
    · obtain ⟨f, hf⟩ := newTransition_of_not_grants hgrants
      rw [hf]
      simpa using h

theorem Records.changeAll (h : tm.Records s kinds accepted) (changes : List Change) :
    (tm.changeAll changes).Records s (kinds ++ made changes)
      (accepted ++ tm.accepted changes) := by
  induction changes generalizing tm kinds accepted with
  | nil => simpa [made, Tracematch.accepted, Tracematch.changeAll] using h
  | cons c changes ih =>
    have hrest := ih (h.change c)
    rwa [List.append_assoc, List.append_assoc, made, made, ← List.filterMap_append] at hrest

end History

/-- What a machine answers, if these nodes were made and this is the log of its transitions. -/
structure Exact (tm : Tracematch) (s : Signature) (kinds : List NodeKind)
    (log : OrderedSet Transition) : Prop where
  signature : tm.signature = s
  nodes : tm.nodes = kinds.mapIdx fun i kind => ⟨s.id, i, kind.isInitial, kind.isFinal⟩
  newState : ∀ kind,
    (tm.newState kind).1 = ⟨s.id, kinds.length, kind.isInitial, kind.isFinal⟩
  initial : ∀ n, n ∈ tm.initialNodes ↔ n ∈ tm.nodes ∧ n.isInitial
  ordered : tm.initialNodes.Pairwise (·.index < ·.index)
  size : tm.transitions.size = log.size
  successors : ∀ n ∈ tm.nodes, ∀ symbol, ∃ next, tm.successors n symbol = .ok next ∧
    next.map (·.index) = (log.toList.filter fun t =>
      t.source = n.index ∧ t.symbol = symbol).map (·.target) ∧
    next.Nodup ∧ ∀ m, m ∈ next ↔ m ∈ tm.nodes ∧ ⟨n.index, symbol, m.index⟩ ∈ log

section Answers

variable {tm : Tracematch} {s : Signature} {kinds : List NodeKind} {accepted : List Transition}
  {n m : Node}

theorem has_of_mem_nodes (h : n ∈ tm.nodes) : tm.Has n := by
  obtain ⟨i, -, rfl⟩ := List.mem_map.mp h
  exact ⟨rfl, i.isLt⟩

theorem nodes_eq (tm : Tracematch) : tm.nodes = tm.kinds.toList.mapIdx fun i kind =>
    ⟨tm.signature.id, i, kind.isInitial, kind.isFinal⟩ := by
  refine List.ext_getElem ?_ fun i hi _ => ?_
  · rw [nodes, List.length_map, List.length_finRange, List.length_mapIdx]
    rfl
  · simp [nodes, node, kind]

theorem pairwise_nodes (tm : Tracematch) : tm.nodes.Pairwise (·.index < ·.index) :=
  List.pairwise_map.mpr (List.pairwise_lt_finRange tm.size)

/-- The successors of a node are the nodes whose numbers are in its row. -/
theorem exists_successors (hn : n ∈ tm.nodes) (symbol : String) :
    ∃ next, tm.successors n symbol = .ok next ∧
      next.map (·.index) = tm.transitions.targets n.index symbol ∧
      ∀ m, m ∈ next ↔ m ∈ tm.nodes ∧ ⟨n.index, symbol, m.index⟩ ∈ tm.transitions := by
  obtain ⟨i, -, rfl⟩ := List.mem_map.mp hn
  have hrow : ((tm.targets i symbol).map tm.node).map (·.index) =
      tm.transitions.targets i symbol := by
    rw [List.map_map, ← map_val_targets]
    rfl
  refine ⟨_, (successors_of_has (has_of_mem_nodes hn) symbol :), hrow, fun m => ?_⟩
  change _ ↔ m ∈ tm.nodes ∧ m.index ∈ tm.transitions.targets i symbol
  rw [← hrow]
  constructor
  · exact fun hm => ⟨mem_nodes_of_mem_map_node hm, List.mem_map_of_mem hm⟩
  · rintro ⟨hm, hindex⟩
    obtain ⟨k, hk, heq⟩ := List.mem_map.mp hindex
    exact eq_of_index_eq (mem_nodes_of_mem_map_node hk) hm heq ▸ hk

theorem Records.exact (h : tm.Records s kinds accepted) :
    tm.Exact s kinds (.ofList accepted) where
  signature := h.signature
  nodes := by rw [nodes_eq, h.kinds, h.signature]
  newState kind := by
    have hsize : tm.size = kinds.length := by
      rw [← h.kinds]
      rfl
    rw [Tracematch.newState, h.signature, hsize]
  initial n := List.mem_filter
  ordered := tm.pairwise_nodes.filter _
  size := by rw [h.transitions, Transitions.size_ofList]
  successors n hn symbol := by
    obtain ⟨next, hnext, hrow, hmem⟩ := exists_successors hn symbol
    have hnodup := tm.transitions.nodup_targets n.index symbol
    rw [← hrow] at hnodup
    rw [h.transitions, Transitions.targets_ofList] at hrow
    simp only [h.transitions, Transitions.mem_ofList] at hmem
    refine ⟨next, hnext, hrow, hnodup.of_map _, fun m => ?_⟩
    rw [hmem, OrderedSet.mem_ofList]

end Answers

/-- The signature of the machine of that number. -/
def numbered (signatures : Nat → Signature) (t : Nat) : Signature := { signatures t with id := t }

/-- The machines that a history makes of new ones. Each request is to one of them. -/
def history (signatures : Nat → Signature) (requests : List (Nat × Change)) : Nat → Tracematch :=
  requests.foldl (fun tms r => Function.update tms r.1 ((tms r.1).change r.2)) fun t =>
    declare (numbered signatures t)

/-- The requests to one machine. -/
def requestsTo (t : Nat) (requests : List (Nat × Change)) : List Change :=
  requests.filterMap fun r => if r.1 = t then some r.2 else none

theorem history_concat (signatures : Nat → Signature) (requests : List (Nat × Change))
    (r : Nat × Change) : history signatures (requests ++ [r]) =
      Function.update (history signatures requests) r.1
        ((history signatures requests r.1).change r.2) :=
  List.foldl_append

/-- Requests to the other machines do not matter to it. -/
theorem history_apply (signatures : Nat → Signature) (requests : List (Nat × Change)) (t : Nat) :
    history signatures requests t =
      (declare (numbered signatures t)).changeAll (requestsTo t requests) := by
  induction requests using List.reverseRecOn with
  | nil => rfl
  | append_singleton requests r ih =>
    rw [history_concat, requestsTo, List.filterMap_append, changeAll_append, ← requestsTo, ← ih]
    by_cases ht : r.1 = t
    · subst ht
      simp [changeAll]
    · simp [ht, changeAll, Function.update_of_ne (Ne.symm ht)]

/-- How machines tell their nodes apart: by the machine, before the number is looked at. -/
structure Apart (tms : Nat → Tracematch) : Prop where
  eq_iff : ∀ a b, ∀ n ∈ (tms a).nodes, ∀ m ∈ (tms b).nodes, n = m ↔ a = b ∧ n.index = m.index
  transition_fails : ∀ t a b, ∀ n ∈ (tms a).nodes, ∀ m ∈ (tms b).nodes, ∀ symbol,
    (∃ f, (tms t).newTransition n symbol m = .error f) ↔
      symbol ∉ (tms t).signature.alphabet ∨ a ≠ t ∨ b ≠ t
  transition_failed : ∀ t n symbol m f, (tms t).newTransition n symbol m = .error f →
    (tms t).change (.newTransition n symbol m) = tms t
  successors_fails : ∀ t a, ∀ n ∈ (tms a).nodes, ∀ symbol,
    (∃ f, (tms t).successors n symbol = .error f) ↔ a ≠ t

theorem machine_of_mem_nodes {tm : Tracematch} {n : Node} (h : n ∈ tm.nodes) :
    n.machine = tm.signature.id :=
  (has_of_mem_nodes h).owns

theorem apart_of_signature_id {tms : Nat → Tracematch} (h : ∀ a, (tms a).signature.id = a) :
    Apart tms := by
  have hmachine : ∀ a, ∀ n ∈ (tms a).nodes, n.machine = a := fun a n hn =>
    (machine_of_mem_nodes hn).trans (h a)
  have hhas : ∀ t a, ∀ n ∈ (tms a).nodes, (tms t).Has n ↔ a = t := by
    intro t a n hn
    constructor
    · intro hown
      exact (hmachine a n hn).symm.trans (hown.owns.trans (h t))
    · rintro rfl
      exact has_of_mem_nodes hn
  refine ⟨?_, ?_, ?_, ?_⟩
  · intro a b n hn m hm
    constructor
    · rintro rfl
      exact ⟨(hmachine a n hn).symm.trans (hmachine b n hm), rfl⟩
    · rintro ⟨rfl, hindex⟩
      exact eq_of_index_eq hn hm hindex
  · intro t a b n hn m hm symbol
    have hgrants : (tms t).Grants n symbol m ↔
        symbol ∈ (tms t).signature.alphabet ∧ a = t ∧ b = t := by
      rw [← hhas t a n hn, ← hhas t b m hm]
      exact ⟨fun hg => ⟨hg.symbol, hg.source, hg.target⟩, fun hg => ⟨hg.1, hg.2.1, hg.2.2⟩⟩
    rw [newTransition_fails_iff, hgrants, not_and_or, not_and_or]
  · intro t n symbol m f hf
    rw [change, hf]
  · intro t a n hn symbol
    rw [successors_fails_iff, hhas t a n hn]

/-- After every history each machine is exactly its accepted transitions, whatever was asked of it
or of the others and refused. The nodes of the machines share their numbers and are still never
taken for each other. -/
theorem exact_history (signatures : Nat → Signature) (requests : List (Nat × Change)) :
    (∀ t, (history signatures requests t).Exact (numbered signatures t)
      (made (requestsTo t requests))
      (log (numbered signatures t) (requestsTo t requests))) ∧
    Apart (history signatures requests) := by
  have hrecords : ∀ t, (history signatures requests t).Records (numbered signatures t)
      (made (requestsTo t requests))
      ((declare (numbered signatures t)).accepted (requestsTo t requests)) := by
    intro t
    rw [history_apply]
    exact (records_declare (numbered signatures t)).changeAll (requestsTo t requests)
  refine ⟨fun t => (hrecords t).exact, apart_of_signature_id fun t => ?_⟩
  rw [(hrecords t).signature]
  rfl

-- Both machines have nodes 0 and 1. The lamp refuses the transition to a node of the other machine,
-- and takes the same transition to its own node of that number, once.
example :
    let tm : Signature := ⟨0, "lamp", [], .ofList ["turn"]⟩
    let off (t : Nat) : Node := ⟨t, 0, true, false⟩
    let lit (t : Nat) : Node := ⟨t, 1, false, true⟩
    let requests : List (Nat × Change) := [0, 1].flatMap fun t =>
      [(t, .newState ⟨true, false⟩), (t, .newState ⟨false, true⟩)]
    let asked : List (Nat × Change) :=
      [(0, .newTransition (off 0) "turn" (lit 1)), (0, .newTransition (off 0) "turn" (lit 0)),
        (0, .newTransition (off 0) "break" (off 0)), (0, .newTransition (off 0) "turn" (lit 0))]
    let tms := history (fun _ => tm) (requests ++ asked)
    (tms 0).transitions.toList = [⟨0, "turn", 1⟩] ∧ (tms 1).transitions.toList = [] ∧
      (tms 1).initialNodes = [off 1] := by
  decide +kernel

end Tracematch
end MonitorElision
