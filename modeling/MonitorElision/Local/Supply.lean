import MonitorElision.Fault

/-!
# Supplies of local variables

The supply of a procedure hands numbers out in order, answers a name with the local it gave for that
name before, and gives a fresh local only once. When it has run out of numbers it answers the names
it knows and nothing else.
-/
namespace MonitorElision

/-- The first number that is not handed out. -/
def LocalSupply.limit : Nat := UInt64.size - 1

/-- `issued` is the last number handed out, `named` the locals asked for by name. -/
structure LocalSupply where
  issued : Nat
  named : Std.ExtTreeMap String Local
  within : issued < LocalSupply.limit

namespace LocalSupply

def empty : LocalSupply := ⟨0, ∅, by decide⟩

/-- The next number, and the supply that has handed it out. -/
def draw (s : LocalSupply) : Except Fault (Nat × LocalSupply) :=
  if h : s.issued + 1 < limit then
    .ok (s.issued + 1, { s with issued := s.issued + 1, within := h })
  else .error (.localsExhausted limit)

/-- The local of that name, made at the first request. -/
def request (s : LocalSupply) (name : String) : Except Fault (Local × LocalSupply) :=
  match s.named[name]? with
  | some l => .ok (l, s)
  | none => do
    let (id, next) ← s.draw
    let l : Local := ⟨id, name⟩
    return (l, { next with named := next.named.insert name l })

/-- A local that no request answers. Without a name it is called after its number. -/
def fresh (s : LocalSupply) (name : String) : Except Fault (Local × LocalSupply) := do
  let (id, next) ← s.draw
  return (⟨id, if name.isEmpty then "$t_" ++ toString id else name⟩, next)

end LocalSupply
end MonitorElision
