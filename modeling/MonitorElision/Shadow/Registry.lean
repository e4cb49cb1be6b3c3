import MonitorElision.Fault
import MonitorElision.OrderedMap

/-!
# The shadow registry

The registry owns the shadows of a program and knows the statement that hosts each. A disabled
shadow is no longer reported as active. Only the number of a shadow counts when it is disabled, so a
shadow of another registry, or of a number not yet given, disables just as well.
-/
namespace MonitorElision.Shadow

/-- Shadows are owned in the order of creation, which numbers them. Each is attached to one
statement, in a row with those that were attached there before. -/
structure Registry where
  id : Nat
  shadows : List Shadow
  hosts : OrderedMap Statement (List Shadow)
  disabled : List Nat
  numbered : shadows.map (·.id) = List.range shadows.length
  owned : ∀ sh ∈ shadows, sh.registry = id
  attached : (hosts.entries.flatMap (·.2)).Perm shadows

namespace Registry

def empty (id : Nat) : Registry := ⟨id, [], ∅, [], rfl, by simp, .nil⟩

def size (r : Registry) : Nat := r.shadows.length

/-- The first reason to refuse a shadow: its symbol, then its formals in order. -/
def refusal? (tm : Signature) (symbol : String) (bindings : Std.ExtTreeMap String Local) :
    Option Fault :=
  if symbol ∈ tm.alphabet then
    (bindings.keys.find? (· ∉ tm.formals)).map (Fault.unknownFormal · tm.name)
  else
    some (.unknownShadowSymbol symbol tm.name)

/-- A refused shadow leaves no trace. -/
def attach (r : Registry) (host : Statement) (tm : Signature) (container symbol : String)
    (bindings : Std.ExtTreeMap String Local) : Except Fault (Shadow × Registry) :=
  match refusal? tm symbol bindings with
  | some f => .error f
  | none =>
    let sh : Shadow := ⟨r.id, r.size, tm, container, symbol, bindings⟩
    .ok (sh,
      { r with
        shadows := r.shadows ++ [sh]
        hosts := r.hosts.update host fun row => row.getD [] ++ [sh]
        numbered := by
          simp [r.numbered, List.range_succ, sh, size]
        owned := by
          intro k hk
          rcases List.mem_append.1 hk with hk | hk
          · exact r.owned k hk
          · rw [List.mem_singleton.1 hk]
        attached := by
          have hrow : ∀ row : Option (List Shadow), (row.getD [] ++ [sh]).Perm
              ((row.elim [] fun shs => shs) ++ [sh]) := fun row => by cases row <;> rfl
          exact (OrderedMap.flatMap_update (hrow _)).trans (r.attached.append_right _) })

def disable (r : Registry) (sh : Shadow) : Registry := { r with disabled := sh.id :: r.disabled }

def Enabled (r : Registry) (sh : Shadow) : Prop := sh.id ∉ r.disabled

instance (r : Registry) (sh : Shadow) : Decidable (r.Enabled sh) :=
  inferInstanceAs (Decidable (sh.id ∉ r.disabled))

/-- The shadows that a statement hosts. -/
def row (r : Registry) (host : Statement) : List Shadow :=
  match r.hosts.get? host with
  | some shs => shs
  | none => []

/-- The enabled shadows of a procedure that a statement hosts. -/
def active (r : Registry) (host : Statement) (container : String) : List Shadow :=
  (r.row host).filter fun sh => sh.container = container ∧ r.Enabled sh

end Registry
end MonitorElision.Shadow
