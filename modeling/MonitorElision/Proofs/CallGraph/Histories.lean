import MonitorElision.CallGraph
import Mathlib.Data.List.Induction
import Mathlib.Data.List.Nodup
import Mathlib.Data.Set.Insert

/-!
# Histories of a call graph

Call sites and procedures share one numbering and are found through two maps. After every history,
whatever of it fails, the maps and the labels of the vertices say the same, no vertex is both, and
edges lead only from call sites to procedures. So the edges are just the calls that were recorded,
whatever library keeps them.
-/
namespace MonitorElision.CallGraph

open GraphLibrary LawfulGraphLibrary

variable {G : Type} [GraphLibrary Vertex G]

/-- A call that is refused changes nothing. -/
def add (cg : CallGraph G) (call : Statement × String) : CallGraph G :=
  match (cg.record call.1 call.2).value with
  | .ok cg' => cg'
  | .error _ => cg

/-- The call graph that a history makes of a new one. -/
def history (G : Type) [GraphLibrary Vertex G] (calls : List (Statement × String)) : CallGraph G :=
  calls.foldl add empty

/-- The calls of a history that name a callee, each as it first occurs. -/
def log (calls : List (Statement × String)) : OrderedSet (Statement × String) :=
  .ofList (calls.filter (·.2 ≠ ""))

theorem log_concat_of_ne {site : Statement} {callee : String} (h : callee ≠ "")
    (calls : List (Statement × String)) :
    log (calls ++ [(site, callee)]) = (log calls).insert (site, callee) := by
  rw [log, List.filter_append, List.filter_singleton, decide_eq_true h]
  exact OrderedSet.ofList_concat _ _

theorem log_concat_empty (site : Statement) (calls : List (Statement × String)) :
    log (calls ++ [(site, "")]) = log calls := by
  rw [log, List.filter_append]
  exact congrArg OrderedSet.ofList (List.append_nil _)

/-- The number of a vertex, found through the map of its kind. -/
def number? (cg : CallGraph G) : Vertex → Option Nat
  | .site s => cg.sites.get? s
  | .procedure name => cg.procedures.get? name

/-- A call graph of these vertices whose edges are these calls. -/
structure Represents (cg : CallGraph G) (X : Set Vertex) (calls : OrderedSet (Statement × String)) :
    Prop where
  labelled : ∀ x v, cg.number? x = some v ↔ v < order cg.edges ∧ label? cg.edges v = some x
  numbered : ∀ v < order cg.edges, ∃ x, cg.number? x = some v
  entered : ∀ x, (∃ v, cg.number? x = some v) ↔ x ∈ X
  ends : ∀ e ∈ calls, .site e.1 ∈ X ∧ .procedure e.2 ∈ X
  joined : ∀ v < order cg.edges, ∀ w, w ∈ targets cg.edges v ↔
    ∃ e ∈ calls, cg.number? (.site e.1) = some v ∧ cg.number? (.procedure e.2) = some w
  size : size cg.edges = calls.size

/-- The graph gains a vertex, which takes the next number. -/
structure Gains (cg cg' : CallGraph G) (x : Vertex) : Prop where
  edges : cg'.edges = (addVertex cg.edges x).2
  number? : ∀ y v, cg'.number? y = some v ↔ cg.number? y = some v ∨ v = order cg.edges ∧ y = x

section Entering

variable {κ : Type} [DecidableEq κ] {label : κ → Vertex} {g : G} {m : OrderedMap κ Nat} {k : κ}
  {cg : CallGraph G} {s : Statement} {c : String} {v : Nat}

theorem enter_of_known (hk : m.get? k = some v) : (enter label g m k).value = ⟨v, g, m⟩ := by
  simp only [enter, hk]
  rfl

theorem enter_of_new [LawfulGraphLibrary G] (hk : m.get? k = none) : (enter label g m k).value =
    ⟨order g, (addVertex g (label k)).2, m.insert k (order g)⟩ := by
  simp only [enter, hk, number_addVertex]

theorem value_record (cg : CallGraph G) (s : Statement) (hc : c ≠ "") :
    (cg.record s c).value =
      let source := (enter .site cg.edges cg.sites s).value
      let target := (enter .procedure source.edges cg.procedures c).value
      .ok ⟨(addEdge target.edges source.number target.number).2, source.numbers,
        target.numbers⟩ := by
  have hnamed : c.isEmpty = false := by simpa using hc
  simp only [record, hnamed]
  rfl

theorem gains_site (hs : cg.sites.get? s = none) :
    cg.Gains ⟨(addVertex cg.edges (.site s)).2, cg.sites.insert s (order cg.edges),
      cg.procedures⟩ (.site s) where
  edges := rfl
  number? y v := by
    cases y with
    | site t => simp [CallGraph.number?, OrderedMap.get?_insert_eq_some_iff hs]
    | procedure d => simp [CallGraph.number?]

theorem gains_procedure (hc : cg.procedures.get? c = none) :
    cg.Gains ⟨(addVertex cg.edges (.procedure c)).2, cg.sites,
      cg.procedures.insert c (order cg.edges)⟩ (.procedure c) where
  edges := rfl
  number? y v := by
    cases y with
    | site t => simp [CallGraph.number?]
    | procedure d => simp [CallGraph.number?, OrderedMap.get?_insert_eq_some_iff hc]

end Entering

section Steps

variable {cg cg' : CallGraph G} {X : Set Vertex} {calls : OrderedSet (Statement × String)}
  {x y : Vertex} {s : Statement} {c : String} {v w : Nat}

theorem Represents.lt (h : cg.Represents X calls) (hx : cg.number? x = some v) :
    v < order cg.edges :=
  ((h.labelled x v).mp hx).1

theorem Represents.label?_eq (h : cg.Represents X calls) (hx : cg.number? x = some v) :
    label? cg.edges v = some x :=
  ((h.labelled x v).mp hx).2

/-- No two vertices have one number, be they call sites or procedures. -/
theorem Represents.injective (h : cg.Represents X calls) (hx : cg.number? x = some v)
    (hy : cg.number? y = some v) : x = y :=
  Option.some.inj ((h.label?_eq hx).symm.trans (h.label?_eq hy))

/-- The edges from a call site are its calls. -/
theorem Represents.mem_targets_iff (h : cg.Represents X calls)
    (hs : cg.number? (.site s) = some v) : w ∈ targets cg.edges v ↔
      ∃ c, (s, c) ∈ calls ∧ cg.number? (.procedure c) = some w := by
  rw [h.joined v (h.lt hs)]
  constructor
  · rintro ⟨e, he, hsite, hprocedure⟩
    obtain rfl := Vertex.site.inj (h.injective hsite hs)
    exact ⟨e.2, he, hprocedure⟩
  · rintro ⟨c, hcall, hc⟩
    exact ⟨_, hcall, hs, hc⟩

variable [LawfulGraphLibrary G]

theorem represents_empty : (empty : CallGraph G).Represents ∅ ∅ := by
  have hnone : ∀ v, ¬v < order (empty : CallGraph G).edges := by
    intro v
    change ¬v < order (GraphLibrary.empty : G)
    rw [order_empty]
    exact Nat.not_lt_zero v
  have hnumber : ∀ x, (empty : CallGraph G).number? x = none := by
    rintro (_ | _) <;> rfl
  refine ⟨?_, fun v hv => absurd hv (hnone v), ?_, by simp, fun v hv => absurd hv (hnone v),
    size_empty⟩
  · simp [hnumber, hnone]
  · simp [hnumber]

/-- Besides the vertices that a graph has with a label, there may be the new one. -/
theorem labelled_addVertex_iff {g : G} :
    v < order (addVertex g x).2 ∧ label? (addVertex g x).2 v = some y ↔
      (v < order g ∧ label? g v = some y) ∨ v = order g ∧ y = x := by
  rw [order_addVertex, Nat.lt_succ_iff_lt_or_eq]
  by_cases hv : v < order g
  · rw [label?_addVertex_of_lt x hv]
    simp [hv, Nat.ne_of_lt hv]
  · by_cases heq : v = order g
    · subst heq
      rw [label?_addVertex]
      simp [eq_comm]
    · simp [hv, heq]

/-- No call has the new vertex for an end, so the edges still join the calls. -/
theorem Represents.joined_of_gains (h : cg.Represents X calls) (hg : cg.Gains cg' x) (hx : x ∉ X)
    (hv : v < order cg'.edges) : w ∈ targets cg'.edges v ↔
      ∃ e ∈ calls, cg'.number? (.site e.1) = some v ∧ cg'.number? (.procedure e.2) = some w := by
  have hends : ∀ e ∈ calls, .site e.1 ≠ x ∧ .procedure e.2 ≠ x := fun e he =>
    (h.ends e he).imp (ne_of_mem_of_not_mem · hx) (ne_of_mem_of_not_mem · hx)
  have hcalls : (∃ e ∈ calls, cg'.number? (.site e.1) = some v ∧
        cg'.number? (.procedure e.2) = some w) ↔
      ∃ e ∈ calls, cg.number? (.site e.1) = some v ∧ cg.number? (.procedure e.2) = some w :=
    exists_congr fun e => and_congr_right fun he => by simp [hg.number?, hends e he]
  rw [hg.edges, order_addVertex, Nat.lt_succ_iff_lt_or_eq] at hv
  rw [hcalls, hg.edges]
  rcases hv with hv | rfl
  · rw [targets_addVertex_of_lt x hv]
    exact h.joined v hv w
  · rw [targets_addVertex]
    refine iff_of_false List.not_mem_nil ?_
    rintro ⟨e, -, hsite, -⟩
    exact Nat.lt_irrefl _ (h.lt hsite)

theorem Represents.gain (h : cg.Represents X calls) (hg : cg.Gains cg' x)
    (hx : cg.number? x = none) : cg'.Represents (insert x X) calls where
  labelled y v := by rw [hg.number?, h.labelled, hg.edges, labelled_addVertex_iff]
  numbered v hv := by
    rw [hg.edges, order_addVertex, Nat.lt_succ_iff_lt_or_eq] at hv
    rcases hv with hv | rfl
    · exact (h.numbered v hv).imp fun y hy => (hg.number? y v).mpr (Or.inl hy)
    · exact ⟨x, (hg.number? x _).mpr (Or.inr ⟨rfl, rfl⟩)⟩
  entered y := by
    simp only [hg.number?, exists_or, h.entered, exists_and_right, exists_eq, true_and]
    exact or_comm
  ends e he := (h.ends e he).imp (Set.mem_insert_of_mem x) (Set.mem_insert_of_mem x)
  joined v hv w := h.joined_of_gains hg (by simp [← h.entered, hx]) hv
  size := by rw [hg.edges, size_addVertex, h.size]

/-- The edge of a call is new just in case the call is. -/
theorem Represents.connect (h : cg.Represents X calls) (hs : cg.number? (.site s) = some v)
    (hc : cg.number? (.procedure c) = some w) :
    (⟨(addEdge cg.edges v w).2, cg.sites, cg.procedures⟩ : CallGraph G).Represents X
      (calls.insert (s, c)) := by
  have hv := h.lt hs
  have hw := h.lt hc
  have hnumber : number? (⟨(addEdge cg.edges v w).2, cg.sites, cg.procedures⟩ : CallGraph G) =
      cg.number? := by
    funext y
    cases y <;> rfl
  refine ⟨?_, ?_, ?_, ?_, ?_, ?_⟩
  · intro y u
    rw [hnumber, h.labelled, order_addEdge hv hw]
    refine and_congr_right fun hu => ?_
    rw [label?_addEdge hv hw hu]
  · rw [hnumber, order_addEdge hv hw]
    exact h.numbered
  · rw [hnumber]
    exact h.entered
  · intro e he
    rcases OrderedSet.mem_insert.mp he with he | rfl
    · exact h.ends e he
    · exact ⟨(h.entered _).mp ⟨v, hs⟩, (h.entered _).mp ⟨w, hc⟩⟩
  · intro u hu x
    rw [order_addEdge hv hw] at hu
    rw [mem_targets_addEdge hv hw hu, h.joined u hu]
    simp only [hnumber, OrderedSet.mem_insert, or_and_right, exists_or, exists_eq_left, hs, hc,
      Option.some.injEq, eq_comm]
  · have hedge : w ∈ targets cg.edges v ↔ (s, c) ∈ calls := by
      rw [h.mem_targets_iff hs]
      constructor
      · rintro ⟨d, hcall, hd⟩
        exact Vertex.procedure.inj (h.injective hd hc) ▸ hcall
      · exact fun hcall => ⟨c, hcall, hc⟩
    rw [size_addEdge hv hw, h.size, OrderedSet.size_insert]
    simp only [hedge]

/-- A call site is found at its number, or it is the new vertex. -/
theorem Represents.enter_site (h : cg.Represents X calls) {e : Entry G Statement}
    (he : (enter .site cg.edges cg.sites s).value = e) :
    let cg' : CallGraph G := ⟨e.edges, e.numbers, cg.procedures⟩
    cg'.Represents (insert (.site s) X) calls ∧ cg'.number? (.site s) = some e.number := by
  cases hs : cg.sites.get? s with
  | some v =>
    obtain rfl := (enter_of_known hs).symm.trans he
    rw [Set.insert_eq_of_mem ((h.entered (.site s)).mp ⟨v, hs⟩)]
    exact ⟨h, hs⟩
  | none =>
    obtain rfl := (enter_of_new hs).symm.trans he
    have hg := gains_site hs
    exact ⟨h.gain hg hs, (hg.number? _ _).mpr (Or.inr ⟨rfl, rfl⟩)⟩

/-- A procedure likewise. -/
theorem Represents.enter_procedure (h : cg.Represents X calls) {e : Entry G String}
    (he : (enter .procedure cg.edges cg.procedures c).value = e) :
    let cg' : CallGraph G := ⟨e.edges, cg.sites, e.numbers⟩
    cg'.Represents (insert (.procedure c) X) calls ∧
      cg'.number? (.procedure c) = some e.number := by
  cases hc : cg.procedures.get? c with
  | some w =>
    obtain rfl := (enter_of_known hc).symm.trans he
    rw [Set.insert_eq_of_mem ((h.entered (.procedure c)).mp ⟨w, hc⟩)]
    exact ⟨h, hc⟩
  | none =>
    obtain rfl := (enter_of_new hc).symm.trans he
    have hg := gains_procedure hc
    exact ⟨h.gain hg hc, (hg.number? _ _).mpr (Or.inr ⟨rfl, rfl⟩)⟩

/-- A call with a callee enters its two ends and connects them. -/
theorem Represents.add (h : cg.Represents X calls) (s : Statement) (hc : c ≠ "") :
    (cg.add (s, c)).Represents (insert (.procedure c) (insert (.site s) X))
      (calls.insert (s, c)) := by
  rw [CallGraph.add, value_record cg s hc]
  obtain ⟨hsite, hs⟩ := h.enter_site (s := s) rfl
  obtain ⟨hboth, hprocedure⟩ := hsite.enter_procedure (c := c) rfl
  exact hboth.connect hs hprocedure

end Steps

/-- The ends of some calls. -/
def endsOf (calls : OrderedSet (Statement × String)) : Set Vertex :=
  {x | ∃ e ∈ calls, x = .site e.1 ∨ x = .procedure e.2}

theorem endsOf_insert (calls : OrderedSet (Statement × String)) (s : Statement) (c : String) :
    endsOf (calls.insert (s, c)) = insert (.procedure c) (insert (.site s) (endsOf calls)) := by
  ext x
  simp only [endsOf, Set.mem_ofPred_eq, OrderedSet.mem_insert, or_and_right, exists_or,
    exists_eq_left, Set.mem_insert_iff]
  rw [or_rotate, or_left_comm]

theorem represents_history [LawfulGraphLibrary G] (calls : List (Statement × String)) :
    (history G calls).Represents (endsOf (log calls)) (log calls) := by
  induction calls using List.reverseRecOn with
  | nil =>
    have hends : endsOf (log []) = ∅ := by simp [endsOf, log, OrderedSet.ofList]
    rw [hends]
    exact represents_empty
  | append_singleton calls call ih =>
    obtain ⟨s, c⟩ := call
    rw [history, List.foldl_append]
    by_cases hc : c = ""
    · subst hc
      rw [log_concat_empty]
      exact ih
    · rw [log_concat_of_ne hc, endsOf_insert]
      exact ih.add s hc

/-- What a call graph answers, if these are the calls that were recorded. -/
structure Answers (cg : CallGraph G) (calls : OrderedSet (Statement × String)) : Prop where
  nodup_callees : ∀ s, (cg.callees s).Nodup
  mem_callees : ∀ s c, c ∈ cg.callees s ↔ (s, c) ∈ calls
  hasCallees : ∀ s, cg.HasCallees s ↔ cg.callees s ≠ []
  mayTrigger : ∀ s, cg.MayTrigger s ↔ ∃ c, (s, c) ∈ calls
  size : size cg.edges = calls.size
  record_fails : ∀ s c, (∃ f, (cg.record s c).value = .error f) ↔ c = ""
  record_failed : ∀ s, cg.record s "" = pure (.error (.missingCallee s)) ∧ cg.add (s, "") = cg
  sites : ∀ s, (∃ v, cg.sites.get? s = some v) ↔ ∃ c, (s, c) ∈ calls
  procedures : ∀ c, (∃ v, cg.procedures.get? c = some v) ↔ ∃ s, (s, c) ∈ calls
  vertices : ∀ v < order cg.edges, ∃ x, cg.number? x = some v
  apart : ∀ x y v, cg.number? x = some v → cg.number? y = some v → x = y

section Answers

variable {cg : CallGraph G} {X : Set Vertex} {calls : OrderedSet (Statement × String)}
  {s : Statement} {c : String} {v w : Nat}

theorem callees_eq (cg : CallGraph G) (s : Statement) :
    cg.callees s = (cg.number? (.site s)).elim [] cg.calleesAt := by
  rw [callees, number?]
  cases cg.sites.get? s <;> rfl

/-- A target is labelled with the procedure of its number. -/
theorem Represents.callee_iff (h : cg.Represents X calls) (hs : cg.number? (.site s) = some v)
    (hw : w ∈ targets cg.edges v) :
    (label? cg.edges w).map (·.callee) = some c ↔ cg.number? (.procedure c) = some w := by
  obtain ⟨d, -, hd⟩ := (h.mem_targets_iff hs).mp hw
  rw [h.label?_eq hd]
  constructor
  · intro hcallee
    obtain rfl : d = c := Option.some.inj hcallee
    exact hd
  · intro hc
    exact congrArg some (Vertex.procedure.inj (h.injective hd hc))

theorem Represents.mem_callees (h : cg.Represents X calls) :
    c ∈ cg.callees s ↔ (s, c) ∈ calls := by
  rw [callees_eq]
  cases hs : cg.number? (.site s) with
  | none =>
    refine iff_of_false List.not_mem_nil fun hcall => ?_
    obtain ⟨v, hv⟩ := (h.entered _).mpr (h.ends _ hcall).1
    rw [hs] at hv
    cases hv
  | some v =>
    simp only [Option.elim_some, calleesAt, List.mem_filterMap]
    constructor
    · rintro ⟨w, hw, hcallee⟩
      obtain ⟨d, hcall, hd⟩ := (h.mem_targets_iff hs).mp hw
      have hc := (h.callee_iff hs hw).mp hcallee
      exact Vertex.procedure.inj (h.injective hd hc) ▸ hcall
    · intro hcall
      obtain ⟨w, hc⟩ := (h.entered _).mpr (h.ends _ hcall).2
      have hw : w ∈ targets cg.edges v := (h.mem_targets_iff hs).mpr ⟨c, hcall, hc⟩
      exact ⟨w, hw, (h.callee_iff hs hw).mpr hc⟩

/-- Two targets of a call site are two procedures. -/
theorem Represents.nodup_callees [LawfulGraphLibrary G] (h : cg.Represents X calls)
    (s : Statement) : (cg.callees s).Nodup := by
  rw [callees_eq]
  cases hs : cg.number? (.site s) with
  | none => exact List.nodup_nil
  | some v =>
    have hnodup : (targets cg.edges v).Nodup := nodup_targets (h.lt hs)
    refine List.pairwise_filterMap.mpr (hnodup.imp_of_mem ?_)
    rintro w u hw hu hne c hc _ hd rfl
    have hnumber := (h.callee_iff hs hw).mp hc
    rw [(h.callee_iff hs hu).mp hd] at hnumber
    exact hne (Option.some.inj hnumber).symm

theorem Represents.hasCallees_iff (h : cg.Represents X calls) :
    cg.HasCallees s ↔ ∃ c, (s, c) ∈ calls := by
  constructor
  · rintro ⟨v, hs : cg.number? (.site s) = some v, hne⟩
    obtain ⟨w, hw⟩ := List.exists_mem_of_ne_nil _ hne
    obtain ⟨c, hcall, -⟩ := (h.mem_targets_iff hs).mp hw
    exact ⟨c, hcall⟩
  · rintro ⟨c, hcall⟩
    obtain ⟨v, hs⟩ := (h.entered _).mpr (h.ends _ hcall).1
    obtain ⟨w, hc⟩ := (h.entered _).mpr (h.ends _ hcall).2
    have hw : w ∈ targets cg.edges v := (h.mem_targets_iff hs).mpr ⟨c, hcall, hc⟩
    exact ⟨v, hs, List.ne_nil_of_mem hw⟩

theorem record_fails_iff : (∃ f, (cg.record s c).value = .error f) ↔ c = "" := by
  refine (Fault.exists_error_iff (fun hc => ⟨_, value_record cg s hc⟩) ?_).trans not_ne_iff
  intro hc
  obtain rfl := not_ne_iff.mp hc
  exact ⟨_, rfl⟩

theorem Represents.answers [LawfulGraphLibrary G] (h : cg.Represents (endsOf calls) calls) :
    cg.Answers calls where
  nodup_callees := h.nodup_callees
  mem_callees _ _ := h.mem_callees
  hasCallees s := by
    rw [h.hasCallees_iff, Ne, List.eq_nil_iff_forall_not_mem]
    simp only [h.mem_callees, not_forall, not_not]
  mayTrigger _ := h.hasCallees_iff
  size := h.size
  record_fails _ _ := record_fails_iff
  record_failed s := ⟨rfl, rfl⟩
  sites s := by
    have hentered := h.entered (.site s)
    simpa [endsOf, number?] using hentered
  procedures c := by
    have hentered := h.entered (.procedure c)
    simpa [endsOf, number?] using hentered
  vertices := h.numbered
  apart _ _ _ hx hy := h.injective hx hy

end Answers

/-- After every history a call graph represents exactly the calls that were recorded, whatever calls
failed and whatever lawful library keeps the edges. A number is that of one call site or of one
procedure, and sites are told apart also where their texts agree. -/
theorem answers_history (G : Type) [GraphLibrary Vertex G] [LawfulGraphLibrary G]
    (calls : List (Statement × String)) : (history G calls).Answers (log calls) :=
  (represents_history calls).answers

/-- Two calls to "foo" read alike and come from different sites. -/
theorem answers_history_foo :
    let site (i : Nat) : Statement := ⟨0, i, .invoke "foo" []⟩
    let calls : List (Statement × String) := [(site 0, "foo"), (site 0, "FooImpl.foo"),
      (site 0, "foo"), (site 1, ""), (site 1, "FooImpl.foo")]
    let cg := history (LabelledGraph Vertex) calls
    LawfulGraphLibrary (LabelledGraph Vertex) ∧ cg.Answers (log calls) ∧
      cg.callees (site 0) = ["foo", "FooImpl.foo"] ∧ cg.callees (site 1) = ["FooImpl.foo"] ∧
      cg.callees (site 2) = [] ∧ size cg.edges = 3 :=
  ⟨inferInstance, answers_history _ _, by decide +kernel⟩

end MonitorElision.CallGraph
