import MonitorElision.Proofs.Bindings.Extraction
import MonitorElision.Proofs.Propagation.Transfer

/-!
# Tracked locals are watched

What a formal stands for is always copied into some advice local as well. So every tracked local is
a trace local, and an analysis gives up where one is assigned while the automaton is tracked.
-/
namespace MonitorElision

namespace Propagation.Setup

variable {S : Setup} {E : Environment} {p : Progress} {s : Statement} {incoming outgoing : NodeSet}

theorem closed_pass (h : p.latch.Closed) : (S.pass E p s incoming).progress.latch.Closed := by
  unfold pass
  dsimp only
  split
  · exact h
  · exact p.closed_giveUp .finalState (some s)
  · exact h

/-- No visit leaves the latch open at a statement that redefines a trace local, if anything enters
it, also when the visit ends with a fault. -/
theorem closed_flow_of_redefines (h : S.Redefines s) (hne : (S.enter p s incoming).2 ≠ ∅) :
    (S.flow E p s incoming outgoing).progress.latch.Closed := by
  unfold flow
  split
  · rename_i hclosed
    exact hclosed
  · rename_i hopen
    split
    · exact p.closed_giveUp .sideEffect (some s)
    · apply closed_pass
      rw [closed_watch]
      · exact ⟨hne, h⟩
      · rwa [closed_enter]

end Propagation.Setup

/-- Turning lights the lamp and puts it out again. There is no transition for a reset, so to reset
the tracked lamp discards the match. -/
def Lamp.machine : Tracematch where
  signature := ⟨0, "lamp", ["v"], .ofList ["turn", "reset"]⟩
  kinds := #[⟨true, false⟩, ⟨false, false⟩]
  transitions := .ofList [⟨0, "turn", 1⟩, ⟨1, "turn", 0⟩]
  within := by decide

namespace Lamp

open Propagation

def x : Local := ⟨1, "x"⟩
def y : Local := ⟨2, "y"⟩
def turned : Local := ⟨3, "turned"⟩
def reset : Local := ⟨4, "reset"⟩

def shadow (i : Nat) (symbol : String) (advice : Local) : Shadow :=
  ⟨0, i, machine.signature, "m", symbol, .ofList [("v", advice)]⟩

def turn : Shadow := shadow 0 "turn" turned

/-- Turns the lamp `x`, resets the lamp `l`, and turns `x` again. -/
def procedure (l : Local) : FlowGraph where
  id := 0
  name := "m"
  instrs := #[.assign turned (.var x), .assign reset (.var l), .nop "", .nop "", .nop "", .ret none]
  edges := .ofList [(0, 1), (1, 2), (2, 3), (3, 4), (4, 5)]

def registry : Shadow.Registry where
  id := 0
  shadows := [turn, shadow 1 "reset" reset, shadow 2 "turn" turned]
  hosts := ⟨[(⟨0, 2, .nop ""⟩, [turn]), (⟨0, 3, .nop ""⟩, [shadow 1 "reset" reset]),
    (⟨0, 4, .nop ""⟩, [shadow 2 "turn" turned])], by decide⟩
  disabled := []
  numbered := rfl
  owned := by simp [turn, shadow]
  attached := .refl _

def turnThenReset : Shadow.Group := ⟨"m", [turn, shadow 1 "reset" reset]⟩

def resetThenTurn : Shadow.Group := ⟨"m", [shadow 1 "reset" reset, turn]⟩

def environment : Environment where
  tracematch := machine
  oracle := .shadows registry "m"
  mayTrigger _ := false

def setup (l : Local) (group : Shadow.Group) : Setup :=
  ⟨⟨0, 2, .nop ""⟩, .ofList machine.initialNodes,
    (Bindings.extract (procedure l) group turn).value⟩

def analysis (l : Local) (group : Shadow.Group) : Except Fault Propagator :=
  (Propagator.construct (procedure l) group turn registry environment).value

end Lamp

namespace Propagation.Setup

/-- Exactly what the extracted bindings hold. The bindings are unresolved if a related shadow binds
a local that is assigned anything but a plain local. An advice local that a related shadow binds
stands for what is copied into it last. A formal stands for the actual of the local that the last
related shadow with a copied local calls by it. What a formal stands for is an actual, so it is
watched: an analysis gives up where it is assigned, if anything is tracked there. -/
theorem bindings_iff_copies (g : FlowGraph) (group : Shadow.Group) (initial : Shadow) :
    ((Bindings.extract g group initial).value.unresolved = true ↔
      ∃ sh ∈ group.related initial, ∃ advice, sh.Binds advice ∧
        ∃ s ∈ g.statements, s.Spoils advice) ∧
    (∀ advice : Local,
      (advice.id ∈ (Bindings.extract g group initial).value.actuals ↔
        (∃ sh ∈ group.related initial, sh.Binds advice) ∧
          ∃ s ∈ g.statements, ∃ l, s.Copies advice l) ∧
      ∀ l, (Bindings.extract g group initial).value.actualOf? advice = some l ↔
        (∃ sh ∈ group.related initial, sh.Binds advice) ∧ g.LastCopy advice l) ∧
    (∀ formal : String,
      (formal ∈ (Bindings.extract g group initial).value.formals ↔
        ∃ sh ∈ group.related initial, ∃ advice, sh.Names formal advice ∧
          ∃ s ∈ g.statements, ∃ l, s.Copies advice l) ∧
      ∀ l : Local, (Bindings.extract g group initial).value.formals[formal]? = some l ↔
        ∃ before sh after advice, group.related initial = before ++ sh :: after ∧
          sh.Names formal advice ∧
          (Bindings.extract g group initial).value.actualOf? advice = some l ∧
          ∀ later ∈ after, ∀ advice, later.Names formal advice →
            ∀ s ∈ g.statements, ∀ l, ¬s.Copies advice l) ∧
    ∀ (formal : String) (l : Local),
      (Bindings.extract g group initial).value.formals[formal]? = some l →
      (∃ advice, (Bindings.extract g group initial).value.actualOf? advice = some l) ∧
      (Bindings.extract g group initial).value.IsTraceLocal l ∧
      ∀ (S : Setup) (E : Environment) p s incoming outgoing,
        S.bindings = (Bindings.extract g group initial).value →
        (∃ defined ∈ s.live.defs, defined.Same l) → (S.enter p s incoming).2 ≠ ∅ →
        (S.flow E p s incoming outgoing).progress.latch.Closed := by
  refine ⟨Bindings.unresolved_extract g group initial, ?_, ?_, ?_⟩
  · exact fun advice => ⟨Bindings.mem_actuals_extract, fun l => Bindings.actualOf?_extract⟩
  · exact fun formal =>
      ⟨Bindings.mem_formals_extract, fun l => Bindings.formals_extract_eq_some_iff⟩
  · intro formal l hformal
    obtain ⟨advice, hactual⟩ := Bindings.exists_actualOf?_of_formals hformal
    refine ⟨⟨advice, hactual⟩, Bindings.isTraceLocal_of_actualOf? hactual (Local.Same.refl l), ?_⟩
    rintro S E p s incoming outgoing hbindings ⟨defined, hdefined, hsame⟩ hne
    refine closed_flow_of_redefines ⟨defined, hdefined, ?_⟩ hne
    rw [hbindings]
    exact Bindings.isTraceLocal_of_actualOf? hactual hsame

/-- The formal stands for the lamp that is reset. Where that lamp is assigned, an analysis that has
a lit lamp there gives up. -/
theorem closed_flow_lamp :
    (Lamp.setup Lamp.y Lamp.turnThenReset).bindings.formals["v"]? = some Lamp.y ∧
    ((Lamp.setup Lamp.y Lamp.turnThenReset).flow Lamp.environment {}
      ⟨0, 6, .assign Lamp.y (.alloc "Lamp")⟩ {⟨0, 1, false, false⟩} ∅).progress.latch.Closed := by
  obtain ⟨-, -, -, hwatched⟩ := bindings_iff_copies (Lamp.procedure Lamp.y) Lamp.turnThenReset
    Lamp.turn
  have hformal : (Lamp.setup Lamp.y Lamp.turnThenReset).bindings.formals["v"]? = some Lamp.y := by
    decide +kernel
  obtain ⟨-, -, hclosed⟩ := hwatched "v" Lamp.y hformal
  exact ⟨hformal, hclosed _ _ _ _ _ _ rfl ⟨Lamp.y, by decide, rfl⟩ (by decide)⟩

end Propagation.Setup
end MonitorElision
