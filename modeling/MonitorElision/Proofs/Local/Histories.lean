import MonitorElision.Local.Supply
import MonitorElision.OrderedSet
import Mathlib.Data.List.Induction
import Mathlib.Data.List.Pairwise

/-!
# Histories of a supply

Locals that are asked for by name and fresh ones are numbered by one counter, but only the former
are remembered. So two answers are the same local just in case the same name was asked for both
times, whatever the fresh locals are called. All calls are answered as long as they take fewer
numbers than the limit.
-/
namespace MonitorElision.LocalSupply

/-- What can be asked of a supply. -/
inductive Call where
  | request (name : String)
  | fresh (name : String)
  deriving DecidableEq

/-- The name that is asked for. A fresh local may be called so, but it is not asked for by name. -/
def Call.requested? : Call → Option String
  | request name => some name
  | fresh _ => none

/-- What the answer is called, if it has that number. -/
def Call.nameOf (id : Nat) : Call → String
  | request name => name
  | fresh name => if name.isEmpty then "$t_" ++ toString id else name

def serve (s : LocalSupply) : Call → Except Fault (Local × LocalSupply)
  | .request name => s.request name
  | .fresh name => s.fresh name

/-- The calls with what each is answered. A call that is refused leaves the supply as it is. -/
def logFrom (s : LocalSupply) : List Call → List (Call × Except Fault Local)
  | [] => []
  | c :: calls =>
    match s.serve c with
    | .ok (l, next) => (c, .ok l) :: next.logFrom calls
    | .error f => (c, .error f) :: s.logFrom calls

/-- The calls that are answered, with the answers. -/
def answered (log : List (Call × Except Fault Local)) : List (Call × Local) :=
  log.filterMap fun e => e.2.toOption.map fun l => (e.1, l)

/-- The calls of a history with what a new supply answers. -/
def log (calls : List Call) : List (Call × Except Fault Local) := logFrom .empty calls

/-- The names that are asked for, each at its first request. -/
def requested (calls : List Call) : OrderedSet String := .ofList (calls.filterMap Call.requested?)

/-- One number for each fresh local, and one for each name. -/
def taken (calls : List Call) : Nat :=
  calls.countP (·.requested?.isNone) + (requested calls).size

/-- The two calls ask for one name. -/
def SameRequest (c d : Call) : Prop := ∃ name, c = .request name ∧ d = .request name

section Calls

variable (calls : List Call)

theorem mem_requested {name : String} : name ∈ requested calls ↔ .request name ∈ calls := by
  rw [requested, OrderedSet.mem_ofList, List.mem_filterMap]
  constructor
  · rintro ⟨_ | _, hc, heq⟩
    · exact Option.some.inj heq ▸ hc
    · cases heq
  · exact fun h => ⟨_, h, rfl⟩

theorem requested_concat_request (name : String) :
    requested (calls ++ [.request name]) = (requested calls).insert name := by
  rw [requested, List.filterMap_append]
  exact OrderedSet.ofList_concat _ name

theorem taken_concat_of_mem {name : String} (h : .request name ∈ calls) :
    taken (calls ++ [.request name]) = taken calls := by
  rw [taken, requested_concat_request, OrderedSet.insert_of_mem ((mem_requested calls).mpr h),
    List.countP_append]
  rfl

theorem taken_concat_of_not_mem {c : Call} (h : ∀ name, c = .request name → c ∉ calls) :
    taken (calls ++ [c]) = taken calls + 1 := by
  cases c with
  | request name =>
    have hnew : name ∉ requested calls := mt (mem_requested calls).mp (h name rfl)
    rw [taken, requested_concat_request, OrderedSet.size_insert, if_neg hnew, List.countP_append]
    rfl
  | fresh name =>
    have hkept : requested (calls ++ [.fresh name]) = requested calls := by
      rw [requested, List.filterMap_append]
      exact congrArg OrderedSet.ofList (List.append_nil _)
    rw [taken, hkept, List.countP_append, taken]
    exact Nat.add_right_comm _ _ _

theorem taken_le_taken_append (more : List Call) : taken calls ≤ taken (calls ++ more) := by
  induction more using List.reverseRecOn with
  | nil => simp
  | append_singleton more c ih =>
    rw [← List.append_assoc]
    by_cases hmem : ∃ name, c = .request name ∧ c ∈ calls ++ more
    · obtain ⟨name, rfl, hmem⟩ := hmem
      rwa [taken_concat_of_mem _ hmem]
    · have hnew : ∀ name, c = .request name → c ∉ calls ++ more :=
        fun name hc hin => hmem ⟨name, hc, hin⟩
      rw [taken_concat_of_not_mem _ hnew]
      exact Nat.le_succ_of_le ih

end Calls

section Service

variable {s next : LocalSupply} {log : List (Call × Local)} {l : Local} {c : Call}

theorem draw_cases (s : LocalSupply) :
    (s.issued + 1 = limit ∧ s.draw = .error (.localsExhausted limit)) ∨
    ∃ next, s.draw = .ok (s.issued + 1, next) ∧ next.issued = s.issued + 1 ∧
      next.named = s.named := by
  have hwithin := s.within
  by_cases h : s.issued + 1 < limit
  · refine Or.inr ⟨{ s with issued := s.issued + 1, within := h }, ?_, rfl, rfl⟩
    rw [draw, dif_pos h]
  · exact Or.inl ⟨by omega, by rw [draw, dif_neg h]⟩

/-- A name that was asked for before is answered as before. Everything else takes the next number,
unless there is none, and only a request is remembered. -/
theorem serve_cases (s : LocalSupply) (c : Call) :
    (∃ name l, c = .request name ∧ s.named[name]? = some l ∧ s.serve c = .ok (l, s)) ∨
    (∀ name, c = .request name → s.named[name]? = none) ∧
      ((s.issued + 1 = limit ∧ s.serve c = .error (.localsExhausted limit)) ∨
      ∃ l next, s.serve c = .ok (l, next) ∧ l.id = s.issued + 1 ∧
        next.issued = s.issued + 1 ∧ l.name = c.nameOf (s.issued + 1) ∧
        ∀ name k, next.named[name]? = some k ↔
          s.named[name]? = some k ∨ c = .request name ∧ k = l) := by
  cases c with
  | request name =>
    cases hname : s.named[name]? with
    | some l =>
      refine Or.inl ⟨name, l, rfl, hname, ?_⟩
      simp only [serve, request, hname]
    | none =>
      refine Or.inr ⟨fun _ heq => Call.request.inj heq ▸ hname, ?_⟩
      rcases s.draw_cases with ⟨hlimit, hdraw⟩ | ⟨next, hdraw, hissued, hnamed⟩
      · refine Or.inl ⟨hlimit, ?_⟩
        simp only [serve, request, hname, hdraw]
        rfl
      · refine Or.inr ⟨⟨s.issued + 1, name⟩,
          { next with named := next.named.insert name ⟨s.issued + 1, name⟩ }, ?_, rfl, hissued,
          rfl, fun other k => ?_⟩
        · simp only [serve, request, hname, hdraw]
          rfl
        · simp only [hnamed, Std.ExtTreeMap.getElem?_insert, Std.compare_eq_iff_eq]
          by_cases hother : name = other
          · subst hother
            simp [hname, eq_comm]
          · simp [hother]
  | fresh name =>
    refine Or.inr ⟨by simp, ?_⟩
    rcases s.draw_cases with ⟨hlimit, hdraw⟩ | ⟨next, hdraw, hissued, hnamed⟩
    · refine Or.inl ⟨hlimit, ?_⟩
      simp only [serve, fresh, hdraw]
      rfl
    · refine Or.inr ⟨⟨s.issued + 1, (Call.fresh name).nameOf (s.issued + 1)⟩, next, ?_, rfl,
        hissued, rfl, fun other k => by simp [hnamed]⟩
      simp only [serve, fresh, hdraw]
      rfl

theorem fault_eq_of_serve {f : Fault} (h : s.serve c = .error f) : f = .localsExhausted limit := by
  rcases s.serve_cases c with ⟨name, l, -, -, hknown⟩ | ⟨-, ⟨-, hrefused⟩ | ⟨l, next, hdrawn, -⟩⟩
  · rw [h] at hknown
    cases hknown
  · rw [h] at hrefused
    exact Except.error.inj hrefused
  · rw [h] at hdrawn
    cases hdrawn

theorem answered_of_ok (h : s.serve c = .ok (l, next)) (calls : List Call) :
    answered (s.logFrom (c :: calls)) = (c, l) :: answered (next.logFrom calls) := by
  simp [answered, logFrom, h, Except.toOption]

theorem answered_of_error {f : Fault} (h : s.serve c = .error f) (calls : List Call) :
    answered (s.logFrom (c :: calls)) = answered (s.logFrom calls) := by
  simp [answered, logFrom, h, Except.toOption]

/-- What a supply knows of the calls that were answered. -/
structure Kept (s : LocalSupply) (log : List (Call × Local)) : Prop where
  named : ∀ name l, s.named[name]? = some l ↔ (.request name, l) ∈ log
  issued : s.issued = taken (log.map (·.1))
  numbers : (OrderedSet.ofList (log.map (·.2.id))).toList = List.range' 1 s.issued
  apart : log.Pairwise fun a b => a.2.Same b.2 ↔ SameRequest a.1 b.1
  called : ∀ e ∈ log, e.2.name = e.1.nameOf e.2.id

theorem Kept.id_le (h : s.Kept log) {e : Call × Local} (he : e ∈ log) : e.2.id ≤ s.issued := by
  have hmem : e.2.id ∈ (OrderedSet.ofList (log.map (·.2.id))).toList :=
    OrderedSet.mem_ofList.mpr (List.mem_map_of_mem he)
  rw [h.numbers, List.mem_range'_1] at hmem
  omega

/-- Entries of one number answer one request. -/
theorem Kept.same_iff (h : s.Kept log) {a b : Call × Local} (ha : a ∈ log) (hb : b ∈ log)
    (hne : a ≠ b) : a.2.Same b.2 ↔ SameRequest a.1 b.1 := by
  have hsymm : Std.Symm fun a b : Call × Local => a.2.Same b.2 ↔ SameRequest a.1 b.1 :=
    ⟨fun a b hab => ⟨fun hs => (hab.mp hs.symm).imp fun _ => And.symm,
      fun hr => (hab.mpr (hr.imp fun _ => And.symm)).symm⟩⟩
  exact h.apart.forall ha hb hne

theorem kept_empty : Kept .empty [] where
  named name l := by simp [empty]
  issued := rfl
  numbers := rfl
  apart := .nil
  called := by simp

theorem Kept.asked_iff (h : s.Kept log) {name : String} :
    .request name ∈ log.map (·.1) ↔ ∃ l, s.named[name]? = some l := by
  simp [h.named]

/-- A request that was answered before is answered again. -/
theorem Kept.again (h : s.Kept log) {name : String} (hmem : (.request name, l) ∈ log) :
    s.Kept (log ++ [(.request name, l)]) where
  named other k := by
    rw [h.named, List.mem_append, List.mem_singleton]
    refine ⟨Or.inl, ?_⟩
    rintro (hk | hk)
    · exact hk
    · exact hk ▸ hmem
  issued := by
    have hasked : .request name ∈ log.map (·.1) := List.mem_map_of_mem (f := Prod.fst) hmem
    rw [List.map_append, h.issued]
    exact (taken_concat_of_mem _ hasked).symm
  numbers := by
    have hold : l.id ∈ OrderedSet.ofList (log.map (·.2.id)) :=
      OrderedSet.mem_ofList.mpr (List.mem_map_of_mem hmem)
    rw [List.map_append, List.map_singleton, OrderedSet.ofList_concat,
      OrderedSet.insert_of_mem hold, h.numbers]
  apart := by
    rw [List.pairwise_append]
    refine ⟨h.apart, List.pairwise_singleton _ _, fun a ha b hb => ?_⟩
    obtain rfl := List.mem_singleton.mp hb
    by_cases hne : a = (.request name, l)
    · rw [hne]
      exact iff_of_true (Local.Same.refl l) ⟨name, rfl, rfl⟩
    · exact h.same_iff ha hmem hne
  called := by
    simp only [List.mem_append, List.mem_singleton]
    rintro e (he | rfl)
    · exact h.called e he
    · exact h.called _ hmem

/-- A call that takes the next number is answered by a local unlike all before. -/
theorem Kept.draw {s' : LocalSupply} {c : Call} (h : s.Kept log)
    (hunasked : ∀ name, c = .request name → c ∉ log.map (·.1)) (hid : l.id = s.issued + 1)
    (hissued : s'.issued = s.issued + 1) (hcalled : l.name = c.nameOf (s.issued + 1))
    (hnamed : ∀ name k, s'.named[name]? = some k ↔
      s.named[name]? = some k ∨ c = .request name ∧ k = l) :
    s'.Kept (log ++ [(c, l)]) where
  named name k := by
    rw [hnamed, h.named, List.mem_append, List.mem_singleton, Prod.mk.injEq, eq_comm (a := c)]
  issued := by
    rw [List.map_append, hissued, h.issued]
    exact (taken_concat_of_not_mem _ hunasked).symm
  numbers := by
    have hfresh : s.issued + 1 ∉ OrderedSet.ofList (log.map (·.2.id)) := by
      rw [← OrderedSet.mem_toList, h.numbers, List.mem_range'_1]
      omega
    rw [List.map_append, List.map_singleton, hid, OrderedSet.ofList_concat,
      OrderedSet.toList_insert_of_not_mem hfresh, h.numbers, hissued, List.range'_concat]
    simp [Nat.add_comm]
  apart := by
    rw [List.pairwise_append]
    refine ⟨h.apart, List.pairwise_singleton _ _, fun a ha b hb => ?_⟩
    obtain rfl := List.mem_singleton.mp hb
    refine iff_of_false ?_ ?_
    · intro hsame
      have hle := h.id_le ha
      have heq : a.2.id = l.id := hsame
      omega
    · rintro ⟨name, hreq, hcall⟩
      have hmem : .request name ∈ log.map (·.1) := hreq ▸ List.mem_map_of_mem ha
      change c = .request name at hcall
      exact hunasked name hcall (hcall ▸ hmem)
  called := by
    simp only [List.mem_append, List.mem_singleton]
    rintro e (he | rfl)
    · exact h.called e he
    · exact hcalled.trans (congrArg c.nameOf hid.symm)

/-- A request that is not remembered was not answered. -/
theorem Kept.not_asked (h : s.Kept log) (hnew : ∀ name, c = .request name → s.named[name]? = none)
    (name : String) (hc : c = .request name) : c ∉ log.map (·.1) := by
  subst hc
  intro hmem
  obtain ⟨l, hl⟩ := h.asked_iff.mp hmem
  rw [hnew name rfl] at hl
  cases hl

/-- Each answer keeps what is known. -/
theorem Kept.serve (h : s.Kept log) (hserve : s.serve c = .ok (l, next)) :
    next.Kept (log ++ [(c, l)]) := by
  rcases s.serve_cases c with ⟨name, k, rfl, hname, hknown⟩ | ⟨hnew, ⟨-, hrefused⟩ |
    ⟨k, after, hdrawn, hid, hissued, hcalled, hnamed⟩⟩
  · rw [hserve] at hknown
    obtain ⟨rfl, rfl⟩ := Prod.mk.inj (Except.ok.inj hknown)
    exact h.again ((h.named name l).mp hname)
  · rw [hserve] at hrefused
    cases hrefused
  · rw [hserve] at hdrawn
    obtain ⟨rfl, rfl⟩ := Prod.mk.inj (Except.ok.inj hdrawn)
    exact h.draw (h.not_asked hnew) hid hissued hcalled hnamed

/-- A call is refused only for the number that it would take. -/
theorem Kept.refused (h : s.Kept log) {f : Fault} (hserve : s.serve c = .error f) :
    taken (log.map (·.1) ++ [c]) = limit := by
  rcases s.serve_cases c with ⟨name, k, rfl, -, hknown⟩ | ⟨hnew, ⟨hlimit, -⟩ |
    ⟨k, after, hdrawn, -⟩⟩
  · rw [hserve] at hknown
    cases hknown
  · rw [taken_concat_of_not_mem _ (h.not_asked hnew), ← h.issued, hlimit]
  · rw [hserve] at hdrawn
    cases hdrawn

/-- The log grows by what the supply answers then. -/
theorem Kept.logFrom (h : s.Kept log) (calls : List Call) :
    ∃ last : LocalSupply, last.Kept (log ++ answered (s.logFrom calls)) := by
  induction calls generalizing s log with
  | nil => exact ⟨s, by simpa [LocalSupply.logFrom, answered] using h⟩
  | cons c calls ih =>
    cases hserve : s.serve c with
    | error f =>
      rw [answered_of_error hserve]
      exact ih h
    | ok answer =>
      have hrest := ih (h.serve hserve)
      rw [List.append_assoc] at hrest
      rwa [answered_of_ok hserve]

/-- As long as there are numbers left, all calls are answered. -/
theorem Kept.answered_of_taken_lt (h : s.Kept log) {calls : List Call}
    (hlt : taken (log.map (·.1) ++ calls) < limit) :
    (answered (s.logFrom calls)).map (·.1) = calls := by
  induction calls generalizing s log with
  | nil => rfl
  | cons c calls ih =>
    have happend : log.map (·.1) ++ c :: calls = log.map (·.1) ++ [c] ++ calls := by simp
    rw [happend] at hlt
    cases hserve : s.serve c with
    | error f =>
      have hle := taken_le_taken_append (log.map (·.1) ++ [c]) calls
      rw [h.refused hserve] at hle
      exact absurd hlt (Nat.not_lt.mpr hle)
    | ok answer =>
      rw [answered_of_ok hserve, List.map_cons, ih (h.serve hserve) (by simpa using hlt)]

end Service

section Log

variable {calls : List Call}

theorem map_fst_logFrom (s : LocalSupply) (calls : List Call) :
    (s.logFrom calls).map (·.1) = calls := by
  induction calls generalizing s with
  | nil => rfl
  | cons c calls ih =>
    unfold logFrom
    cases s.serve c <;> simp [ih]

theorem fault_eq_of_mem_logFrom {s : LocalSupply} {c : Call} {f : Fault}
    (h : (c, .error f) ∈ s.logFrom calls) : f = .localsExhausted limit := by
  induction calls generalizing s with
  | nil => cases h
  | cons d calls ih =>
    unfold logFrom at h
    cases hserve : s.serve d with
    | ok answer =>
      rw [hserve] at h
      rcases List.mem_cons.mp h with heq | hmem
      · cases heq
      · exact ih hmem
    | error refusal =>
      rw [hserve] at h
      rcases List.mem_cons.mp h with heq | hmem
      · cases heq
        exact fault_eq_of_serve hserve
      · exact ih hmem

theorem exists_kept_log (calls : List Call) : ∃ s : LocalSupply, s.Kept (answered (log calls)) :=
  kept_empty.logFrom calls

theorem answered_log_iff : (answered (log calls)).map (·.1) = calls ↔ taken calls < limit := by
  constructor
  · intro hall
    obtain ⟨s, h⟩ := exists_kept_log calls
    rw [← hall, ← h.issued]
    exact s.within
  · exact fun hlt => kept_empty.answered_of_taken_lt hlt

end Log

/-- Two calls are answered by the same local just in case both ask for one name, and then they are
answered alike. So no request is ever answered by a local that was or will be given as a fresh one.
The numbers are 1, 2, and so on in the order in which they first occur, one for each fresh local and
one for each name. Every call is answered just in case they take fewer numbers than the limit, and
no call is refused for anything else. -/
theorem same_iff_sameRequest (calls : List Call) :
    (log calls).map (·.1) = calls ∧
    ((answered (log calls)).map (·.1) = calls ↔ taken calls < limit) ∧
    (∀ e ∈ log calls, ∀ f, e.2 = .error f → f = .localsExhausted limit) ∧
    ((answered (log calls)).Pairwise fun a b => a.2.Same b.2 ↔ SameRequest a.1 b.1) ∧
    (∀ a ∈ answered (log calls), ∀ b ∈ answered (log calls), SameRequest a.1 b.1 → a.2 = b.2) ∧
    (∀ a ∈ answered (log calls), ∀ b ∈ answered (log calls), ∀ name given,
      a.1 = .fresh given → b.1 = .request name → ¬a.2.Same b.2) ∧
    (OrderedSet.ofList ((answered (log calls)).map (·.2.id))).toList =
      List.range' 1 (taken ((answered (log calls)).map (·.1))) ∧
    ∀ e ∈ answered (log calls), e.2.name = e.1.nameOf e.2.id := by
  obtain ⟨s, h⟩ := exists_kept_log calls
  refine ⟨map_fst_logFrom .empty calls, answered_log_iff, ?_, h.apart, ?_, ?_, ?_, h.called⟩
  · rintro ⟨c, _⟩ he f rfl
    exact fault_eq_of_mem_logFrom he
  · rintro ⟨_, l⟩ ha ⟨_, k⟩ hb ⟨name, rfl, rfl⟩
    have hl := (h.named name l).mpr ha
    rw [(h.named name k).mpr hb] at hl
    exact (Option.some.inj hl).symm
  · intro a ha b hb name given hfresh hreq hsame
    have hne : a ≠ b := by
      rintro rfl
      rw [hfresh] at hreq
      cases hreq
    obtain ⟨_, hother, -⟩ := (h.same_iff ha hb hne).mp hsame
    rw [hfresh] at hother
    cases hother
  · rw [h.numbers, h.issued]

-- The second fresh local is called by a name that was asked for, and the request that follows asks
-- for the name that an earlier fresh one was given.
example : answered (log [.request "x", .fresh "", .fresh "x", .request "$t_2", .request "x"]) =
    [(.request "x", ⟨1, "x"⟩), (.fresh "", ⟨2, "$t_2"⟩), (.fresh "x", ⟨3, "x"⟩),
      (.request "$t_2", ⟨4, "$t_2"⟩), (.request "x", ⟨1, "x"⟩)] := by
  decide +kernel

end MonitorElision.LocalSupply
