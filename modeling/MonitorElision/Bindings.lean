import MonitorElision.Diagnostics.Event
import MonitorElision.FlowGraph
import MonitorElision.Shadow.Group

/-!
# Bindings

Right before a shadow every local that stands for a free variable is copied into an advice local.
The copies tell which local of the procedure each formal, and each advice local, is bound to. An
advice local that is assigned anything but a plain local leaves the bindings unresolved.
-/
namespace MonitorElision

/-- `actuals` is indexed by the number of the advice local and holds it with the local it copies. -/
structure Bindings where
  formals : Std.ExtTreeMap String Local := ∅
  actuals : Std.ExtTreeMap Nat (Local × Local) := ∅
  unresolved : Bool := false

namespace Bindings

/-- The local copied into the advice local. -/
def actualOf? (b : Bindings) (l : Local) : Option Local := b.actuals[l.id]?.map (·.2)

/-- Whether the local is copied into some advice local. -/
def IsTraceLocal (b : Bindings) (l : Local) : Prop := ∃ e ∈ b.actuals.toList, e.2.2.Same l

instance (b : Bindings) (l : Local) : Decidable (b.IsTraceLocal l) :=
  inferInstanceAs (Decidable (∃ e ∈ b.actuals.toList, e.2.2.Same l))

def text (b : Bindings) : String :=
  "formal->local=" ++ Text.braced (b.formals.toList.map fun e => e.1 ++ "->" ++ e.2.name) ++
    " actual->local=" ++
    Text.braced (b.actuals.toList.map fun e => e.2.1.name ++ "->" ++ e.2.2.name) ++
    (if b.unresolved then " (unresolved)" else "")

/-- What a definition of an advice local says about a shadow that binds it. -/
inductive Finding where
  | bound (formal : String) (advice source : Local) (s : Statement) (sh : Shadow)
  | unresolved (advice : Local) (s : Statement) (sh : Shadow)

def Finding.event : Finding → Event
  | bound formal _ source s sh =>
    .log .bindings (.ok ("Bound " ++ formal ++ " to " ++ source.name ++ " via " ++
      Text.quoted s.text ++ " of " ++ sh.text ++ "\n"))
  | unresolved advice s sh =>
    .log .bindings (.ok ("Cannot resolve binding of " ++ advice.name ++ " at " ++
      Text.quoted s.text ++ " of " ++ sh.text ++ "\n"))

def findingsAt (sh : Shadow) (s : Statement) : List Finding :=
  s.live.defs.filterMap fun advice =>
    (sh.formalOf? advice).map fun formal =>
      match s.instr.copied? with
      | some source => .bound formal advice source s sh
      | none => .unresolved advice s sh

/-- What is found about a bound local that is defined. A copied value has to be a local, and the
formal of the local is asked for. -/
def examine (sh : Shadow) (s : Statement) (advice : Local) : Except Fault Finding := do
  match s.instr with
  | .assign _ value =>
    if value.code = 0 then
      let source ← value.source
      let formal ← sh.formalOf advice
      return .bound formal advice source s sh
    else return .unresolved advice s sh
  | _ => return .unresolved advice s sh

/-- The findings at a statement, with the checks on the way. They never fail, so `findingsAt` goes
without them. -/
def examineAt (sh : Shadow) (s : Statement) : Except Fault (List Finding) :=
  (s.live.defs.filter (sh.Binds ·)).mapM (examine sh s)

/-- The findings for the shadows related to the initial one, shadow by shadow. -/
def findings (g : FlowGraph) (group : Shadow.Group) (initial : Shadow) : List Finding :=
  (group.shadows.filter (·.Related initial)).flatMap fun sh =>
    g.statements.flatMap (findingsAt sh)

/-- A later finding replaces an earlier one. -/
def note (b : Bindings) : Finding → Bindings
  | .bound formal advice source _ _ =>
    { b with
      formals := b.formals.insert formal source
      actuals := b.actuals.insert advice.id (advice, source) }
  | .unresolved _ _ _ => { b with unresolved := true }

def extract (g : FlowGraph) (group : Shadow.Group) (initial : Shadow) : Narrated Bindings where
  value := (findings g group initial).foldl note {}
  events := (findings g group initial).map Finding.event

end Bindings
end MonitorElision
