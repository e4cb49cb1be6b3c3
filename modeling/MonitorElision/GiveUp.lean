import MonitorElision.Fault

/-!
# Giving up

An analysis that cannot trust its own reasoning gives up, once and for all. A latch keeps the first
reason it is given.
-/
namespace MonitorElision

inductive Reason where
  | unresolvedBinding
  | sideEffect
  | redefinedBinding
  | finalState
  deriving DecidableEq, Repr

namespace Reason

def code : Reason → Nat
  | unresolvedBinding => 1
  | sideEffect => 2
  | redefinedBinding => 3
  | finalState => 4

def name : Reason → String
  | unresolvedBinding => "unresolved_binding"
  | sideEffect => "side_effect"
  | redefinedBinding => "redefined_binding"
  | finalState => "final_state"

def ofCode? : Nat → Option Reason
  | 1 => some unresolvedBinding
  | 2 => some sideEffect
  | 3 => some redefinedBinding
  | 4 => some finalState
  | _ => none

theorem ofCode?_code (r : Reason) : ofCode? r.code = some r := by cases r <;> rfl

theorem ofCode?_eq_some_iff {n : Nat} {r : Reason} : ofCode? n = some r ↔ n = r.code := by
  constructor
  · intro h
    unfold ofCode? at h
    split at h <;> simp_all [code] <;> subst h <;> rfl
  · rintro rfl
    exact ofCode?_code r

/-- What is printed of an analysis that may have given up. -/
def describe : Option Reason → String
  | none => "none"
  | some r => r.name

/-- What is printed for a numeric reason. -/
def describeCode (n : Nat) : Except Fault String :=
  if n = 0 then .ok (describe none)
  else
    match ofCode? n with
    | some r => .ok (describe (some r))
    | none => .error (.unnamedReason n)

/-- Reasons are printed by number. -/
def print (r : Reason) : Except Fault String := describeCode r.code

@[simp] theorem print_eq_ok (r : Reason) : r.print = .ok r.name := by cases r <;> rfl

end Reason

structure Latch (ρ : Type) where
  reason : Option ρ := none
  deriving DecidableEq, Repr

namespace Latch

variable {ρ : Type}

def Closed (l : Latch ρ) : Prop := l.reason.isSome

instance (l : Latch ρ) : Decidable l.Closed := inferInstanceAs (Decidable (l.reason.isSome = true))

def close (l : Latch ρ) (r : ρ) : Latch ρ := ⟨l.reason.or (some r)⟩

/-- A numeric reason need not have a name, but it must not be zero, which stands for no reason. -/
def closeByCode (l : Latch Nat) (n : Nat) : Except Fault (Latch Nat) :=
  if n = 0 then .error .missingReason else .ok (l.close n)

def code (l : Latch Nat) : Nat := l.reason.getD 0

@[simp] theorem closed_close (l : Latch ρ) (r : ρ) : (l.close r).Closed := by
  cases l with
  | mk reason => cases reason <;> simp [close, Closed]

theorem close_of_closed {l : Latch ρ} (h : l.Closed) (r : ρ) : l.close r = l := by
  obtain ⟨reason⟩ := l
  cases reason with
  | none => simp [Closed] at h
  | some _ => rfl

end Latch
end MonitorElision
