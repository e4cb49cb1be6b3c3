import MonitorElision.Shadow

/-!
# Groups of shadows

A group holds shadows with a common binding context, each once, in the order they were added.
-/
namespace MonitorElision.Shadow

structure Group where
  label : String
  shadows : List Shadow := []

namespace Group

def Contains (g : Group) (sh : Shadow) : Prop := ∃ m ∈ g.shadows, m.Is sh

instance (g : Group) (sh : Shadow) : Decidable (g.Contains sh) :=
  inferInstanceAs (Decidable (∃ m ∈ g.shadows, m.Is sh))

def add (g : Group) (sh : Shadow) : Group :=
  if g.Contains sh then g else { g with shadows := g.shadows ++ [sh] }

def size (g : Group) : Nat := g.shadows.length

def text (g : Group) : String :=
  "group " ++ g.label ++ "=" ++ Text.braced (g.shadows.map (·.text))

end Group
end MonitorElision.Shadow
