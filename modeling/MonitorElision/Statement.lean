import MonitorElision.Local
import MonitorElision.Text.Listing

/-!
# Statements

A three-address language: what the analyses need of a statement is which locals it reads, which
local it defines, and whether it copies one local into another.
-/
namespace MonitorElision

open Text

/-- The right-hand side of an assignment. -/
inductive Value where
  | var (source : Local)
  | constant (text : String)
  | fieldRead (base : Local) (field : String)
  | call (callee : String) (args : List Local)
  | alloc (type : String)
  deriving DecidableEq, Repr

def callText (callee : String) (args : List Local) : String :=
  callee ++ parenthesized (args.map (·.name))

namespace Value

/-- The number of the kind of value. -/
def code : Value → Nat
  | var _ => 0
  | constant _ => 1
  | fieldRead _ _ => 2
  | call _ _ => 3
  | alloc _ => 4

/-- The local that the value is, if it is one. -/
def source? : Value → Option Local
  | var source => some source
  | _ => none

/-- The locals read to compute the value, with repetitions. -/
def uses : Value → List Local
  | var source => [source]
  | constant _ => []
  | fieldRead base _ => [base]
  | call _ args => args
  | alloc _ => []

def text : Value → String
  | var source => source.name
  | constant text => text
  | fieldRead base field => base.name ++ "." ++ field
  | call callee args => callText callee args
  | alloc type => "new " ++ type

end Value

/-- The locals a statement reads and those it defines, each once, in the order of first occurrence.
-/
structure Live where
  uses : List Local
  defs : List Local
  deriving DecidableEq, Repr

namespace Live

def ofLists (uses defs : List Local) : Live := ⟨Local.distinct uses, Local.distinct defs⟩

def text (l : Live) : String :=
  let names (ls : List Local) := "\x7b" ++ String.join (ls.map (·.name ++ ",")) ++ "\x7d"
  "Use=" ++ names l.uses ++ " Def=" ++ names l.defs

end Live

/-- What a statement does, wherever it stands. -/
inductive Instr where
  | assign (target : Local) (value : Value)
  | invoke (callee : String) (args : List Local)
  | branch (condition : Local)
  | ret (result : Option Local)
  | nop (label : String)
  deriving DecidableEq, Repr

namespace Instr

/-- The number of the kind of instruction. -/
def code : Instr → Nat
  | assign _ _ => 20
  | invoke _ _ => 30
  | branch _ => 40
  | ret _ => 50
  | nop _ => 60

def uses : Instr → List Local
  | assign _ value => value.uses
  | invoke _ args => args
  | branch condition => [condition]
  | ret result => result.toList
  | nop _ => []

def defs : Instr → List Local
  | assign target _ => [target]
  | _ => []

def live (i : Instr) : Live := Live.ofLists i.uses i.defs

/-- The local whose value is copied, for an assignment of one local to another. -/
def copied? : Instr → Option Local
  | assign _ value => value.source?
  | _ => none

def text : Instr → String
  | assign target value => target.name ++ " = " ++ value.text
  | invoke callee args => callText callee args
  | branch condition => "if (" ++ condition.name ++ ") goto"
  | ret none => "return"
  | ret (some l) => "return " ++ l.name
  | nop label => if label.isEmpty then "nop" else "nop " ++ label

end Instr

/-- An instruction at its place: the `index`-th of the graph numbered `graph`. -/
structure Statement where
  graph : Nat
  index : Nat
  instr : Instr
  deriving DecidableEq, Repr

namespace Statement

def live (s : Statement) : Live := s.instr.live

def defs (s : Statement) : List Local := s.instr.defs

def text (s : Statement) : String := s.instr.text

end Statement
end MonitorElision
