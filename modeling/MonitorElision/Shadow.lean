import MonitorElision.Local
import MonitorElision.Text.Listing
import MonitorElision.Tracematch.Signature

/-!
# Shadows

A shadow is a program point where an event of a tracematch may fire: the symbol it fires, the
procedure that contains it, and the locals that stand for the free variables there. It is known by
its registry and by the number it has in that registry.
-/
namespace MonitorElision

structure Shadow where
  registry : Nat
  id : Nat
  tracematch : Signature
  container : String
  symbol : String
  /-- Formal to local. -/
  bindings : Std.ExtTreeMap String Local

namespace Shadow

/-- The same shadow, and not merely one of the same number. -/
def Is (a b : Shadow) : Prop := a.registry = b.registry ∧ a.id = b.id

instance (a b : Shadow) : Decidable (Is a b) :=
  inferInstanceAs (Decidable (_ ∧ _))

/-- Shadows are compared by number alone, also when they come from different registries. -/
def Same (a b : Shadow) : Prop := a.id = b.id

instance (a b : Shadow) : Decidable (Same a b) :=
  inferInstanceAs (Decidable (a.id = b.id))

instance : LT Shadow := ⟨fun a b => a.id < b.id⟩

instance (a b : Shadow) : Decidable (a < b) :=
  inferInstanceAs (Decidable (a.id < b.id))

/-- Whether two shadows belong to one tracematch and one procedure. -/
def Related (a b : Shadow) : Prop :=
  a.tracematch.id = b.tracematch.id ∧ a.container = b.container

instance (a b : Shadow) : Decidable (Related a b) :=
  inferInstanceAs (Decidable (_ ∧ _))

/-- The least formal bound to the local. -/
def formalOf? (sh : Shadow) (l : Local) : Option String :=
  (sh.bindings.toList.find? (·.2.Same l)).map (·.1)

def localOf? (sh : Shadow) (formal : String) : Option Local := sh.bindings[formal]?

def Binds (sh : Shadow) (l : Local) : Prop := ∃ b ∈ sh.bindings.toList, b.2.Same l

instance (sh : Shadow) (l : Local) : Decidable (sh.Binds l) :=
  inferInstanceAs (Decidable (∃ b ∈ sh.bindings.toList, b.2.Same l))

/-- The bound locals by number, each under the name it has at the least formal. -/
def boundLocals (sh : Shadow) : List Local :=
  let byId : Std.ExtTreeMap Nat Local :=
    sh.bindings.toList.foldl (fun m b => m.insertIfNew b.2.id b.2) ∅
  byId.toList.map (·.2)

def text (sh : Shadow) : String :=
  sh.tracematch.name ++ "." ++ sh.symbol ++ "#" ++ toString sh.id ++ "@" ++ sh.container ++
    Text.parenthesized (sh.bindings.toList.map fun b => b.1 ++ "=" ++ b.2.name)

end Shadow
end MonitorElision
