import MonitorElision.Proofs.Propagation.GivingUp
import MonitorElision.Proofs.Shadow.Registry

/-!
# What an analysis can fail for

An analysis starts from the statement that hosts the initial shadow. If the procedure has none, or
the shadow is disabled, there is nothing to analyse. Nothing else can go wrong: what is visited are
statements of the graph, what enters them are nodes of the machine, and whatever else is checked on
the way holds as well.
-/
namespace MonitorElision

section Checks

theorem Tracematch.successors_node (tm : Tracematch) (i : Fin tm.size) (symbol : String) :
    tm.successors (tm.node i) symbol = .ok ((tm.targets i symbol).map tm.node) := by
  rw [successors, find_node]
  rfl

namespace Latch

/-- The latch that is told reasons by number. -/
def coded (l : Latch Reason) : Latch Nat := ⟨l.reason.map Reason.code⟩

/-- No reason has the number that stands for none, so to close by number is to close. -/
theorem closeByCode_coded (l : Latch Reason) (reason : Reason) :
    l.coded.closeByCode reason.code = .ok (l.close reason).coded := by
  have hcode : reason.code ≠ 0 := by cases reason <;> decide
  rw [closeByCode, if_neg hcode]
  obtain ⟨first⟩ := l
  cases first <;> rfl

end Latch

namespace Bindings

variable {sh : Shadow} {s : Statement} {target : Local} {value : Value}

theorem examine_of_assign {formal : String} (h : s.instr = .assign target value)
    (hformal : sh.formalOf? target = some formal) :
    examine sh s target = .ok (Finding.ofAssign sh s target value formal) := by
  have hchecked : sh.formalOf target = .ok formal := by rw [Shadow.formalOf, hformal]
  cases value <;> simp only [examine, h, hchecked] <;> rfl

/-- Only values that are locals are copied, and only bound locals are asked for their formal. -/
theorem examineAt_eq_ok (sh : Shadow) (s : Statement) :
    examineAt sh s = .ok (findingsAt sh s) := by
  rcases s.assign_or_not with ⟨target, value, hinstr⟩ | hnone
  · rw [examineAt, Statement.live_defs_of_assign hinstr, findingsAt_of_assign hinstr]
    by_cases hbinds : sh.Binds target
    · obtain ⟨formal, hformal⟩ := Shadow.exists_formalOf?_iff.mpr hbinds
      simp [hbinds, examine_of_assign hinstr hformal, hformal]
    · rw [Shadow.formalOf?_eq_none_iff.mpr hbinds]
      simp [hbinds]
      rfl
  · rw [examineAt, Statement.live_defs_of_not_assign hnone, findingsAt_of_not_assign hnone]
    rfl

end Bindings

end Checks

namespace Propagation

open Fixpoint

variable {S : Setup} {E : Environment} {g : FlowGraph} {p : Progress} {s : Statement}
  {incoming outgoing : NodeSet}

theorem ending_sweep_ne_faulted {ask : Node → Narrated (Except Fault NodeSet)} {ns : List Node}
    (h : ∀ n ∈ ns, ∃ next, (ask n).value = .ok next) (f : Fault) :
    (sweep ask ns outgoing).ending ≠ .faulted f := by
  induction ns generalizing outgoing with
  | nil => simp [sweep]
  | cons n ns ih =>
    obtain ⟨next, hnext⟩ := h n List.mem_cons_self
    unfold sweep
    simp only [hnext]
    split
    · simp
    · exact ih fun m hm => h m (List.mem_cons_of_mem n hm)

namespace Setup

/-- The oracle has an answer for every node of the machine. -/
def Answers (S : Setup) (E : Environment) : Prop :=
  ∀ s, ∀ x ∈ E.tracematch.nodes, ∃ next, (S.successors E s x).value = .ok next

theorem Answers.successors_shadows {r : Shadow.Registry} {procedure : String}
    (horacle : E.oracle = Oracle.shadows r procedure) : S.Answers E := by
  intro s x hx
  obtain ⟨i, -, rfl⟩ := List.mem_map.mp hx
  obtain ⟨next, hnext, -⟩ := Oracle.exists_successors_shadows r procedure (S.context E) i s
  refine ⟨next, ?_⟩
  rw [successors, horacle]
  exact hnext

/-- A visit has no fault if the oracle has an answer for every node that enters. -/
theorem exists_flows_of_answers (outgoing : NodeSet)
    (h : ∀ x ∈ (S.enter p s incoming).2, ∃ next, (S.successors E s x).value = .ok next) :
    ∃ flows, (S.flow E p s incoming outgoing).flows = .ok flows := by
  unfold flow
  split
  · exact ⟨_, rfl⟩
  · split
    · exact ⟨_, rfl⟩
    · dsimp only
      unfold pass
      dsimp only
      split
      · exact ⟨_, rfl⟩
      · exact ⟨_, rfl⟩
      · rename_i f hfault
        exact absurd hfault (ending_sweep_ne_faulted h f)

section Turns

variable {it : Iteration Account g.size} {i : Fin g.size}
  (hinitial : S.initial = NodeSet.ofList E.tracematch.initialNodes) (hE : S.AnswersWithin E)

include hinitial hE in
/-- What enters a statement are nodes of the machine. -/
theorem Justified.mem_nodes_of_mem_entering (h : S.Justified E g it) {x : Node}
    (hx : x ∈ S.entering E g it i) : x ∈ E.tracematch.nodes :=
  (enters_of_mem_enter hinitial (fun _ => h.enters_of_mem_joined) hx).mem_nodes hE

theorem fault_visit_eq_none (hfault : it.state.fault = none)
    (h : ∀ x ∈ S.entering E g it i, ∃ next, (S.successors E (g.statement i) x).value = .ok next) :
    ((S.analysis E).visit g it i).state.fault = none := by
  obtain ⟨flows, hflows⟩ := exists_flows_of_answers (it.after.get i) h
  rw [Analysis.state_visit]
  change (S.step E it.state (g.statement i) ((S.analysis E).joined g it i)
    (it.after.get i)).state.fault = none
  simp only [step, hfault, hflows]

include hinitial hE in
/-- No visit has a fault, whatever was visited before. -/
theorem justified_turn (hanswers : S.Answers E) (n : Nat) :
    (S.turn E g n).state.fault = none ∧ S.Justified E g (S.turn E g n) := by
  apply (S.analysis E).drain_induction g (P := fun it => it.state.fault = none ∧
    S.Justified E g it)
  · rintro it i rest - ⟨hfault, hjust⟩
    have hdequeued := hjust.dequeue rest
    have hnext : ((S.analysis E).visit g { it with queue := rest } i).state.fault = none :=
      fault_visit_eq_none hfault fun x hx =>
        hanswers _ x (hdequeued.mem_nodes_of_mem_entering hinitial hE hx)
    exact ⟨hnext, hdequeued.visit hinitial hnext⟩
  · exact ⟨rfl, justified_start⟩

end Turns

section Hosts

variable {r : Shadow.Registry} {sh : Shadow} {host : Statement}
  (hsh : sh.registry = r.id → ∃ host, (host, sh) ∈ r.hosted)
include hsh

/-- The statement of a shadow is the one it was attached to, as long as it is enabled. -/
theorem hosts_iff : Hosts r sh s ↔ (s, sh) ∈ r.hosted ∧ r.Enabled sh := by
  constructor
  · rintro ⟨active, hactive, hregistry, hid⟩
    obtain ⟨hmem, -, henabled⟩ := Shadow.Registry.mem_active.mp hactive
    obtain ⟨host, hhost⟩ :=
      hsh (hregistry.symm.trans (Shadow.Registry.registry_eq_of_mem_hosted hmem))
    obtain rfl : active = sh := congrArg Prod.snd (Shadow.Registry.eq_of_id_eq hmem hhost hid)
    exact ⟨hmem, henabled⟩
  · rintro ⟨hmem, henabled⟩
    exact ⟨sh, Shadow.Registry.mem_active.mpr ⟨hmem, rfl, henabled⟩, rfl, rfl⟩

theorem find?_hosts (hmem : (host, sh) ∈ r.hosted) (henabled : r.Enabled sh)
    (hhost : host ∈ g.statements) : g.statements.find? (Hosts r sh ·) = some host := by
  have hfound : (g.statements.find? (Hosts r sh ·)).isSome := by
    rw [List.find?_isSome]
    exact ⟨host, hhost, decide_eq_true ((hosts_iff hsh).mpr ⟨hmem, henabled⟩)⟩
  obtain ⟨found, hfind⟩ := Option.isSome_iff_exists.mp hfound
  have hhosts : Hosts r sh found := by simpa using List.find?_some hfind
  obtain rfl : found = host :=
    congrArg Prod.fst (Shadow.Registry.eq_of_id_eq ((hosts_iff hsh).mp hhosts).1 hmem rfl)
  exact hfind

theorem find?_hosts_eq_none (h : ¬∃ host ∈ g.statements, (host, sh) ∈ r.hosted ∧ r.Enabled sh) :
    g.statements.find? (Hosts r sh ·) = none := by
  rw [List.find?_eq_none]
  intro s hs hhosts
  exact h ⟨s, hs, (hosts_iff hsh).mp (of_decide_eq_true hhosts)⟩

end Hosts

end Setup
end Propagation

namespace Propagator

open Propagation

variable {g : FlowGraph} {group : Shadow.Group} {sh : Shadow} {r : Shadow.Registry}
  {E : Environment} {S : Setup} {p : Propagator}

/-- No check fails on the way of an analysis, or in what is printed of it. -/
structure Unfailing (g : FlowGraph) (group : Shadow.Group) (E : Environment) (p : Propagator) :
    Prop where
  /-- Locals are bound where their formals are asked for, and values are locals where they are
  copied. -/
  findings : ∀ k ∈ group.shadows, ∀ s ∈ g.statements,
    Bindings.examineAt k s = .ok (Bindings.findingsAt k s)
  /-- No statement is foreign to the graph. -/
  neighbours : ∀ s ∈ g.statements,
    (∃ next, g.next s = .ok next) ∧ ∃ previous, g.previous s = .ok previous
  /-- No node is foreign to the machine. -/
  answers : ∀ n i, ∀ x ∈ p.setup.entering E g (p.setup.turn E g n) i,
    (∃ next, (p.setup.successors E (g.statement i) x).value = .ok next) ∧
      ∀ symbol, ∃ targets, E.tracematch.successors x symbol = .ok targets
  visits : ∀ n, (p.setup.turn E g n).state.fault = none
  /-- No reason is missing or unnamed. -/
  reasons : ∀ (l : Latch Reason) (reason : Reason),
    (∃ closed, l.coded.closeByCode reason.code = .ok closed) ∧
      ∃ name, Reason.describeCode reason.code = .ok name
  flows : ∀ s ∈ g.statements,
    (∃ before, p.flowBefore g s = .ok before) ∧ ∃ after, p.flowAfter g s = .ok after
  report : ∃ report, p.text g = .ok report

section Results

variable {α β : Type}

theorem exists_bind_eq_ok {x : Except Fault α} {f : α → Except Fault β} (hx : ∃ a, x = .ok a)
    (hf : ∀ a, ∃ b, f a = .ok b) : ∃ b, (x >>= f) = .ok b := by
  obtain ⟨a, rfl⟩ := hx
  exact hf a

theorem exists_mapM_eq_ok {f : α → Except Fault β} {l : List α}
    (h : ∀ a ∈ l, ∃ b, f a = .ok b) : ∃ bs, l.mapM f = .ok bs := by
  induction l with
  | nil => exact ⟨[], rfl⟩
  | cons a l ih =>
    have hrest := ih fun c hc => h c (List.mem_cons_of_mem a hc)
    rw [List.mapM_cons]
    exact exists_bind_eq_ok (h a List.mem_cons_self) fun _ =>
      exists_bind_eq_ok hrest fun _ => ⟨_, rfl⟩

end Results

theorem exists_excuse (p : Propagator) : ∃ excuse, p.excuse = .ok excuse := by
  unfold excuse
  cases p.latch.reason with
  | none => exact ⟨_, rfl⟩
  | some r => exact exists_bind_eq_ok ⟨r.name, r.print_eq_ok⟩ fun _ => ⟨_, rfl⟩

/-- Where there are flows, there is a report of them. -/
theorem exists_text (h : ∀ s ∈ g.statements,
    (∃ before, p.flowBefore g s = .ok before) ∧ ∃ after, p.flowAfter g s = .ok after) :
    ∃ report, p.text g = .ok report := by
  have hlines : ∃ lines, g.statements.mapM (p.line g) = .ok lines := by
    apply exists_mapM_eq_ok
    intro s hs
    obtain ⟨hbefore, hafter⟩ := h s hs
    exact exists_bind_eq_ok hbefore fun _ => exists_bind_eq_ok hafter fun _ => ⟨_, rfl⟩
  exact exists_bind_eq_ok hlines fun _ => exists_bind_eq_ok p.exists_excuse fun _ => ⟨_, rfl⟩

theorem exists_flows_of_solution {it : Fixpoint.Iteration Account g.size}
    (h : p.solution = it.solution) {s : Statement} (hs : s ∈ g.statements) :
    (∃ before, p.flowBefore g s = .ok before) ∧ ∃ after, p.flowAfter g s = .ok after := by
  obtain ⟨i, rfl⟩ := FlowGraph.mem_statements.mp hs
  have hmem := FlowGraph.statement_mem i
  constructor
  · exact ⟨it.before.get i, by
      simp only [flowBefore, hmem, if_true, h, Fixpoint.Iteration.before?_solution]⟩
  · exact ⟨it.after.get i, by
      simp only [flowAfter, hmem, if_true, h, Fixpoint.Iteration.after?_solution]⟩

/-- An analysis whose run has no fault completes. -/
theorem value_run (h : (finished g E S).state.fault = none) :
    (run g E S (Setup.outset S.bindings)).value = .ok ⟨S,
      (finished g E S).state.progress.latch, (finished g E S).solution⟩ := by
  unfold finished at h
  simp only [run, Narrated.value_bind, h]
  rfl

theorem value_construct (g : FlowGraph) (group : Shadow.Group) (sh : Shadow) (r : Shadow.Registry)
    (E : Environment) : (construct g group sh r E).value =
    match g.statements.find? (Setup.Hosts r sh ·) with
    | none => .error (.unhostedShadow g.name sh)
    | some start => (run g E ⟨start, NodeSet.ofList E.tracematch.initialNodes,
        (Bindings.extract g group sh).value⟩
        (Setup.outset (Bindings.extract g group sh).value)).value := by
  simp only [construct, Narrated.value_bind, Setup.value_prepare]
  cases g.statements.find? (Setup.Hosts r sh ·) <;> rfl

/-- If the oracle answers the nodes of the machine, and with such nodes, no check fails. -/
theorem Unfailing.of_construct (hp : (construct g group sh r E).value = .ok p)
    (hanswers : p.setup.Answers E) (hE : p.setup.AnswersWithin E) : p.Unfailing g group E := by
  obtain ⟨-, hinitial, -, -, -, hsolution⟩ := construct_eq_ok hp
  have hturn := Setup.justified_turn (g := g) hinitial hE hanswers
  have hflows : ∀ s ∈ g.statements,
      (∃ before, p.flowBefore g s = .ok before) ∧ ∃ after, p.flowAfter g s = .ok after :=
    fun s hs => exists_flows_of_solution hsolution hs
  have hanswered : ∀ n i, ∀ x ∈ p.setup.entering E g (p.setup.turn E g n) i,
      (∃ next, (p.setup.successors E (g.statement i) x).value = .ok next) ∧
        ∀ symbol, ∃ targets, E.tracematch.successors x symbol = .ok targets := by
    intro n i x hx
    have hnode := (hturn n).2.mem_nodes_of_mem_entering hinitial hE hx
    refine ⟨hanswers _ x hnode, fun symbol => ?_⟩
    obtain ⟨j, -, rfl⟩ := List.mem_map.mp hnode
    exact ⟨_, E.tracematch.successors_node j symbol⟩
  exact
    { findings := fun k _ s _ => Bindings.examineAt_eq_ok k s
      neighbours := by
        intro s hs
        obtain ⟨i, rfl⟩ := FlowGraph.mem_statements.mp hs
        exact ⟨⟨_, g.next_statement i⟩, _, g.previous_statement i⟩
      answers := hanswered
      visits := fun n => (hturn n).1
      reasons := fun l reason =>
        ⟨⟨_, l.closeByCode_coded reason⟩, reason.name, by cases reason <;> rfl⟩
      flows := hflows
      report := exists_text hflows }

/-- With the default oracle there is no fault once the statement of the initial shadow is found. -/
theorem exists_construct (group : Shadow.Group) {asked : Shadow.Registry} {procedure : String}
    {host : Statement} (horacle : E.oracle = .shadows asked procedure)
    (hstart : g.statements.find? (Setup.Hosts r sh ·) = some host) :
    ∃ p, (construct g group sh r E).value = .ok p ∧ p.setup.start = host ∧
      p.Unfailing g group E := by
  have hfault : (finished g E ⟨host, NodeSet.ofList E.tracematch.initialNodes,
      (Bindings.extract g group sh).value⟩).state.fault = none := by
    rw [← Setup.turn_budget]
    exact (Setup.justified_turn rfl (.successors_shadows horacle rfl)
      (.successors_shadows horacle) _).1
  have hp := value_construct g group sh r E
  rw [hstart] at hp
  dsimp only at hp
  rw [value_run hfault] at hp
  exact ⟨_, hp, rfl,
    .of_construct hp (.successors_shadows horacle) (.successors_shadows horacle rfl)⟩

section Hosted

variable (hsh : sh.registry = r.id → ∃ host, (host, sh) ∈ r.hosted)
include hsh

theorem value_construct_of_unhosted
    (h : ¬∃ host ∈ g.statements, (host, sh) ∈ r.hosted ∧ r.Enabled sh) :
    (construct g group sh r E).value = .error (.unhostedShadow g.name sh) := by
  rw [value_construct, Setup.find?_hosts_eq_none hsh h]

end Hosted

/-- After any history of the registry, an analysis by the default oracle fails just in case the
initial shadow was not made on a statement of the procedure, or a shadow of its number was ever
disabled. It then says that nothing hosts the shadow. Otherwise it completes, it starts from the
statement the shadow was attached to, and no check fails on the way. -/
theorem construct_fails_iff (g : FlowGraph) (group : Shadow.Group) {id : Nat}
    {changes : List Shadow.Registry.Change} {asked : Shadow.Registry} {procedure : String}
    (hsh : sh.registry = id → ∃ host, (Shadow.Registry.empty id).Makes changes host sh)
    (horacle : E.oracle = .shadows asked procedure) :
    ((∃ f, (construct g group sh ((Shadow.Registry.empty id).changeAll changes) E).value =
        .error f) ↔
      (¬∃ host ∈ g.statements, (Shadow.Registry.empty id).Makes changes host sh) ∨
        ∃ k, .disable k ∈ changes ∧ k.Same sh) ∧
    (∀ f, (construct g group sh ((Shadow.Registry.empty id).changeAll changes) E).value =
      .error f → f = .unhostedShadow g.name sh) ∧
    ∀ host ∈ g.statements, (Shadow.Registry.empty id).Makes changes host sh →
      (∀ k, .disable k ∈ changes → ¬k.Same sh) →
      ∃ p, (construct g group sh ((Shadow.Registry.empty id).changeAll changes) E).value = .ok p ∧
        p.setup.start = host ∧ p.Unfailing g group E := by
  generalize hr : (Shadow.Registry.empty id).changeAll changes = r
  have hid : r.id = id := by rw [← hr, Shadow.Registry.id_changeAll]; rfl
  have hhosted : ∀ host, (host, sh) ∈ r.hosted ↔
      (Shadow.Registry.empty id).Makes changes host sh := by
    intro host
    rw [← hr, Shadow.Registry.mem_hosted_changeAll]
    exact or_iff_right List.not_mem_nil
  have henabled : r.Enabled sh ↔ ¬∃ k, .disable k ∈ changes ∧ k.Same sh := by
    rw [← hr, Shadow.Registry.Enabled, Shadow.Registry.mem_disabled_changeAll]
    exact not_congr (or_iff_right List.not_mem_nil)
  simp only [← hhosted] at hsh ⊢
  rw [← hid] at hsh
  have hstarts : (∃ host ∈ g.statements, (host, sh) ∈ r.hosted ∧ r.Enabled sh) ↔
      ¬((¬∃ host ∈ g.statements, (host, sh) ∈ r.hosted) ∨
        ∃ k, .disable k ∈ changes ∧ k.Same sh) := by
    rw [not_or, not_not, ← henabled]
    constructor
    · exact fun ⟨host, hhost, hmem, hkept⟩ => ⟨⟨host, hhost, hmem⟩, hkept⟩
    · exact fun ⟨⟨host, hhost, hmem⟩, hkept⟩ => ⟨host, hhost, hmem, hkept⟩
  rw [← and_assoc]
  constructor
  · by_cases h : ∃ host ∈ g.statements, (host, sh) ∈ r.hosted ∧ r.Enabled sh
    · have hpresent := hstarts.mp h
      obtain ⟨host, hhost, hmem, hkept⟩ := h
      obtain ⟨p, hp, -⟩ := exists_construct group horacle (Setup.find?_hosts hsh hmem hkept hhost)
      rw [hp]
      exact ⟨iff_of_false (fun ⟨f, hf⟩ => nomatch hf) hpresent, fun f hf => nomatch hf⟩
    · rw [value_construct_of_unhosted hsh h]
      exact ⟨iff_of_true ⟨_, rfl⟩ (not_not.mp fun hfound => h (hstarts.mpr hfound)),
        fun f hf => (Except.error.inj hf).symm⟩
  · intro host hhost hmem hnever
    have hkept : r.Enabled sh := henabled.mpr fun ⟨k, hk, hsame⟩ => hnever k hk hsame
    exact exists_construct group horacle (Setup.find?_hosts hsh hmem hkept hhost)

end Propagator

namespace Lamp

/-- The lamp is turned and reset. A shadow of an unknown symbol is refused. -/
def history : List Shadow.Registry.Change :=
  [.attach ⟨0, 2, .nop ""⟩ machine.signature "m" "turn" (.ofList [("v", turned)]),
    .attach ⟨0, 3, .nop ""⟩ machine.signature "m" "break" (.ofList [("v", turned)]),
    .attach ⟨0, 3, .nop ""⟩ machine.signature "m" "reset" (.ofList [("v", reset)])]

/-- A shadow of another registry, under the same number as the first turn. -/
def namesake : Shadow := { turn with registry := 1 }

def analysisAfter (changes : List Shadow.Registry.Change) : Except Fault Propagator :=
  (Propagator.construct (procedure x) turnThenReset turn
    ((Shadow.Registry.empty 0).changeAll changes) environment).value

theorem makes_turn {r : Shadow.Registry} (hid : r.id = 0) (hsize : r.size = 0) :
    r.Makes history ⟨0, 2, .nop ""⟩ turn := by
  have hknown : (Shadow.Registry.refusal? machine.signature "turn"
      (.ofList [("v", turned)])).isNone := by
    decide +kernel
  obtain ⟨r', hattach⟩ := r.exists_attach_eq_ok ⟨0, 2, .nop ""⟩ "m" hknown
  rw [hid, hsize] at hattach
  exact ⟨[], _, _, rfl, _, _, _, _, r', rfl, hattach⟩

end Lamp

namespace Propagator

/-- To disable the namesake disables the turn, even before it is made. -/
theorem construct_fails_iff_lamp :
    (∃ p, Lamp.analysisAfter Lamp.history = .ok p ∧ p.setup.start = ⟨0, 2, .nop ""⟩ ∧
      p.Unfailing (Lamp.procedure Lamp.x) Lamp.turnThenReset Lamp.environment) ∧
    ∃ f, Lamp.analysisAfter (.disable Lamp.namesake :: Lamp.history) = .error f := by
  have hmade : (Shadow.Registry.empty 0).Makes Lamp.history ⟨0, 2, .nop ""⟩ Lamp.turn :=
    Lamp.makes_turn rfl rfl
  have hmade' : (Shadow.Registry.empty 0).Makes (.disable Lamp.namesake :: Lamp.history)
      ⟨0, 2, .nop ""⟩ Lamp.turn :=
    Shadow.Registry.makes_cons.mpr (Or.inr (Lamp.makes_turn rfl rfl))
  obtain ⟨-, -, hcompletes⟩ := construct_fails_iff (Lamp.procedure Lamp.x) Lamp.turnThenReset
    (E := Lamp.environment) (fun _ => ⟨_, hmade⟩) rfl
  obtain ⟨hfails, -, -⟩ := construct_fails_iff (Lamp.procedure Lamp.x) Lamp.turnThenReset
    (E := Lamp.environment) (fun _ => ⟨_, hmade'⟩) rfl
  constructor
  · exact hcompletes _ (by decide) hmade fun k hk => by simp [Lamp.history] at hk
  · exact hfails.mpr (Or.inr ⟨Lamp.namesake, List.mem_cons_self, rfl⟩)

end Propagator
end MonitorElision
