import Std.Data.ExtTreeMap

/-!
# Local variables

A local is known by a number. Its name is for the reader only.
-/
namespace MonitorElision

structure Local where
  id : Nat
  name : String
  deriving DecidableEq, Repr

namespace Local

/-- Locals are compared by number alone, also when they come from different supplies. -/
def Same (a b : Local) : Prop := a.id = b.id

instance (a b : Local) : Decidable (Same a b) :=
  inferInstanceAs (Decidable (a.id = b.id))

instance : LT Local := ⟨fun a b => a.id < b.id⟩

instance (a b : Local) : Decidable (a < b) :=
  inferInstanceAs (Decidable (a.id < b.id))

theorem Same.refl (a : Local) : Same a a := rfl

theorem Same.symm {a b : Local} (h : Same a b) : Same b a := Eq.symm h

theorem Same.trans {a b c : Local} (hab : Same a b) (hbc : Same b c) : Same a c := Eq.trans hab hbc

/-- Keeps the first local of each number. -/
def distinct (ls : List Local) : List Local :=
  ls.foldl (fun kept l => if kept.any (Same l ·) then kept else kept ++ [l]) []

end Local

end MonitorElision
