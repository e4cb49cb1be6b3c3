import MonitorElision.Session.Operation

/-!
# Sessions

A session has objects and diagnostics settings. Operations act on the objects; their events go to
the diagnostics. Commands on the diagnostics leave the objects alone.
-/
namespace MonitorElision

structure Session (G : Type := LabelledGraph CallGraph.Vertex) where
  objects : Objects G := {}
  diagnostics : Diagnostics := {}

inductive Command where
  | perform (operation : Operation)
  | flip (switch : Switch)
  | emit (events : List Event)

structure Reply where
  answer : Except Fault Answer
  printed : Printed

namespace Session

/-- There is no reply only if the command refers to an object that was never made. -/
def run {G : Type} [GraphLibrary CallGraph.Vertex G] (s : Session G) :
    Command → Option (Reply × Session G)
  | .perform operation => do
    let step ← s.objects.perform s.diagnostics operation
    let hearing := s.diagnostics.hear step.events
    return (⟨step.answer, hearing.printed⟩, ⟨step.objects, hearing.diagnostics⟩)
  | .flip switch => some (⟨.ok .done, {}⟩, { s with diagnostics := s.diagnostics.flip switch })
  | .emit events =>
    let hearing := s.diagnostics.hear events
    let answer := match hearing.fault with
      | some f => .error f
      | none => .ok .done
    some (⟨answer, hearing.printed⟩, { s with diagnostics := hearing.diagnostics })

end Session
end MonitorElision
