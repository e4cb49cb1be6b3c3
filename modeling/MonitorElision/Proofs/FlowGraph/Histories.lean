import MonitorElision.Proofs.FlowGraph.Growth
import Mathlib.Data.List.ReduceOption
import Mathlib.Data.List.TakeWhile

/-!
# Histories of a graph

Successors and predecessors are kept in two tables, and only the first is asked whether an edge is
there already. Still the two say the same after every history, whatever steps of it fail: both list
the edges of one log, in the order in which they were first asked for.
-/
namespace MonitorElision.FlowGraph

/-- The statements of a path up to the first element that is missing or not of the graph. -/
def pathFront (g : FlowGraph) (path : List (Option Statement)) : List Statement :=
  (path.takeWhile fun p => p.any (· ∈ g)).reduceOption

/-- The edges that a path asks for before its first step that fails. -/
def pathLinks (g : FlowGraph) (path : List (Option Statement)) : List (Statement × Statement) :=
  (g.pathFront path).zip (g.pathFront path).tail

/-- The edges that a step asks for and gets. -/
def links (g : FlowGraph) : Growth → List (Statement × Statement)
  | .append _ => []
  | .connect s t => if s ∈ g ∧ t ∈ g then [(s, t)] else []
  | .connectPath path => g.pathLinks path

/-- The edges that the steps of a history ask for and get, in order. -/
def accepted (g : FlowGraph) : List Growth → List (Statement × Statement)
  | [] => []
  | step :: steps => g.links step ++ (g.grow step).accepted steps

/-- The instructions of the statements that a history inserts. -/
def inserted (steps : List Growth) : List Instr :=
  steps.filterMap fun step =>
    match step with
    | .append a => some a
    | .connect _ _ => none
    | .connectPath _ => none

/-- The graph that a history makes of a new one. Steps that fail are part of it. -/
def history (id : Nat) (name : String) (steps : List Growth) : FlowGraph :=
  (empty id name).growAll steps

/-- The edges that a history makes, in the order in which they were first asked for. -/
def log (id : Nat) (name : String) (steps : List Growth) : OrderedSet (Statement × Statement) :=
  ((empty id name).accepted steps).foldl .insert ∅

section Paths

variable {g : FlowGraph}

theorem mem_of_mem_pathFront {path : List (Option Statement)} {s : Statement}
    (hs : s ∈ g.pathFront path) : s ∈ g := by
  rw [pathFront, List.reduceOption_mem_iff] at hs
  simpa using List.mem_takeWhile_imp hs

theorem pathFront_cons_of_not_mem {s : Statement} (hs : s ∉ g) (rest : List (Option Statement)) :
    g.pathFront (some s :: rest) = [] := by
  simp [pathFront, hs]

theorem pathFront_cons_of_mem {s : Statement} (hs : s ∈ g) (rest : List (Option Statement)) :
    g.pathFront (some s :: rest) = s :: g.pathFront rest := by
  simp [pathFront, hs]

theorem mem_of_mem_pathLinks {path : List (Option Statement)} {l : Statement × Statement}
    (hl : l ∈ g.pathLinks path) : l.1 ∈ g ∧ l.2 ∈ g := by
  have hends := List.of_mem_zip hl
  exact ⟨mem_of_mem_pathFront hends.1, mem_of_mem_pathFront (List.mem_of_mem_tail hends.2)⟩

/-- A path that cannot go on from its first statement asks for nothing. -/
theorem pathLinks_cons_of_stuck (s : Statement) {rest : List (Option Statement)}
    (h : g.pathFront rest = []) : g.pathLinks (some s :: rest) = [] := by
  by_cases hs : s ∈ g
  · rw [pathLinks, pathFront_cons_of_mem hs, h]
    rfl
  · rw [pathLinks, pathFront_cons_of_not_mem hs]
    rfl

theorem pathLinks_cons_of_mem {s t : Statement} (hs : s ∈ g) (ht : t ∈ g)
    (rest : List (Option Statement)) :
    g.pathLinks (some s :: some t :: rest) = (s, t) :: g.pathLinks (some t :: rest) := by
  rw [pathLinks, pathLinks, pathFront_cons_of_mem hs, pathFront_cons_of_mem ht]
  rfl

theorem pathLinks_cons_of_not_mem {s t : Statement} (h : s ∉ g ∨ t ∉ g)
    (rest : List (Option Statement)) : g.pathLinks (some s :: some t :: rest) = [] := by
  rcases h with hs | ht
  · rw [pathLinks, pathFront_cons_of_not_mem hs]
    rfl
  · exact pathLinks_cons_of_stuck s (pathFront_cons_of_not_mem ht rest)

/-- Connecting the rest of a path adds its edges one by one, whether it fails in the end or not. -/
theorem connectFrom_eq_growAll (g : FlowGraph) (s : Statement) (rest : List (Option Statement)) :
    (g.connectFrom (some s) rest).1 =
      g.growAll ((g.pathLinks (some s :: rest)).map fun l => .connect l.1 l.2) := by
  induction rest generalizing g s with
  | nil =>
    rw [pathLinks_cons_of_stuck s rfl]
    rfl
  | cons next rest ih =>
    cases next with
    | none =>
      rw [pathLinks_cons_of_stuck s rfl]
      rfl
    | some t =>
      rcases g.connect_cases s t with ⟨i, j, rfl, rfl, hconnect⟩ | ⟨hforeign, f, hconnect⟩
      · have hkept : (g.addEdge i j).pathLinks = g.pathLinks := rfl
        simp only [connectFrom, hconnect]
        rw [ih, hkept, pathLinks_cons_of_mem (g.statement_mem i) (g.statement_mem j), List.map_cons]
        exact congrArg (growAll · _) (g.grow_connect_statement i j).symm
      · rw [pathLinks_cons_of_not_mem hforeign]
        simp only [connectFrom, hconnect]
        rfl

theorem connectPath_eq_growAll (g : FlowGraph) (path : List (Option Statement)) :
    (g.connectPath path).1 = g.growAll ((g.pathLinks path).map fun l => .connect l.1 l.2) := by
  cases path with
  | nil => rfl
  | cons head rest =>
    cases head with
    | none => rfl
    | some s => exact g.connectFrom_eq_growAll s rest

/-- The rest of a path fails if an element is missing, or if there is a step and an element that is
not a statement of the graph. -/
theorem connectFrom_fails_iff (g : FlowGraph) (s : Statement) (rest : List (Option Statement)) :
    (∃ f, (g.connectFrom (some s) rest).2 = .error f) ↔
      none ∈ rest ∨ rest ≠ [] ∧ ∃ t, some t ∈ some s :: rest ∧ t ∉ g := by
  induction rest generalizing g s with
  | nil => simp [connectFrom]
  | cons next rest ih =>
    cases next with
    | none => simp [connectFrom]
    | some t =>
      rcases g.connect_cases s t with ⟨i, j, rfl, rfl, hconnect⟩ | ⟨hforeign, f, hconnect⟩
      · simp only [connectFrom, hconnect]
        rw [ih]
        constructor
        · rintro (hnone | ⟨-, u, hu, hforeign⟩)
          · exact Or.inl (List.mem_cons_of_mem _ hnone)
          · exact Or.inr ⟨List.cons_ne_nil _ _, u, List.mem_cons_of_mem _ hu, hforeign⟩
        · rintro (hnone | ⟨-, u, hu, hforeign⟩)
          · exact Or.inl (by simpa using hnone)
          · have hu : some u ∈ rest := by
              rcases List.mem_cons.mp hu with hu | hu
              · exact absurd (Option.some.inj hu ▸ g.statement_mem i) hforeign
              · rcases List.mem_cons.mp hu with hu | hu
                · exact absurd (Option.some.inj hu ▸ g.statement_mem j) hforeign
                · exact hu
            exact Or.inr ⟨List.ne_nil_of_mem hu, u, List.mem_cons_of_mem _ hu, hforeign⟩
      · simp only [connectFrom, hconnect]
        refine ⟨fun _ => Or.inr ⟨List.cons_ne_nil _ _, ?_⟩, fun _ => ⟨f, rfl⟩⟩
        rcases hforeign with hs | ht
        · exact ⟨s, by simp, hs⟩
        · exact ⟨t, by simp, ht⟩

theorem connectPath_fails_iff (g : FlowGraph) (path : List (Option Statement)) :
    (∃ f, (g.connectPath path).2 = .error f) ↔
      none ∈ path ∨ 2 ≤ path.length ∧ ∃ s, some s ∈ path ∧ s ∉ g := by
  cases path with
  | nil => simp [connectPath, connectFrom]
  | cons head rest =>
    cases head with
    | none => simp [connectPath, connectFrom]
    | some s =>
      have hlength : 2 ≤ (some s :: rest).length ↔ rest ≠ [] := by
        cases rest <;> simp
      rw [hlength, List.mem_cons, or_iff_right (Option.some_ne_none s).symm]
      exact g.connectFrom_fails_iff s rest

end Paths

section Tables

variable {g : FlowGraph} {edges : List (Statement × Statement)}
  {table : Vector (List (Fin g.size)) g.size} {key value : Statement × Statement → Statement}

/-- Each row of a table lists the values of the edges with its statement as key, in their order. -/
def Lists (g : FlowGraph) (table : Vector (List (Fin g.size)) g.size)
    (key value : Statement × Statement → Statement) (edges : List (Statement × Statement)) : Prop :=
  ∀ i, (table.get i).map g.statement = (edges.filter (key · = g.statement i)).map value

theorem Lists.mem_row_iff (h : g.Lists table key value edges) {i : Fin g.size} {t : Statement} :
    t ∈ (table.get i).map g.statement ↔ ∃ l ∈ edges, key l = g.statement i ∧ value l = t := by
  rw [h i]
  simp [and_assoc]

theorem Lists.get_eq_nil_iff (h : g.Lists table key value edges) {i : Fin g.size} :
    table.get i = [] ↔ ∀ l ∈ edges, key l ≠ g.statement i := by
  rw [← List.map_eq_nil_iff, h i, List.map_eq_nil_iff, List.filter_eq_nil_iff]
  simp

theorem Lists.addToRow (h : g.Lists table key value edges) {i j : Fin g.size}
    {l : Statement × Statement} (hkey : key l = g.statement i) (hvalue : value l = g.statement j) :
    g.Lists (MonitorElision.addToRow table i j) key value (edges ++ [l]) := by
  intro k
  rw [get_addToRow, List.filter_append, List.map_append, ← h k]
  by_cases hk : k = i
  · simp [hk, hkey, hvalue]
  · have hne : g.statement i ≠ g.statement k := fun heq => hk (statement_injective heq).symm
    simp [hk, hkey, hne]

theorem Lists.addRow (h : g.Lists table key value edges) (howned : ∀ l ∈ edges, key l ∈ g)
    (a : Instr) :
    (g.append a).2.Lists (MonitorElision.addRow table (g.size_append a)) key value edges := by
  intro k
  have hgrown := g.extends_append a
  rw [get_addRow]
  by_cases hk : k.val < g.size
  · have hkept : (g.append a).2.statement k = g.statement ⟨k, hk⟩ :=
      hgrown.statement_castLE ⟨k, hk⟩
    rw [dif_pos hk, List.map_map, hkept, ← h]
    exact List.map_congr_left fun j _ => hgrown.statement_castLE j
  · have hnone : edges.filter (key · = (g.append a).2.statement k) = [] := by
      rw [List.filter_eq_nil_iff]
      intro l hl heq
      obtain ⟨i, hi⟩ := mem_iff.mp (howned l hl)
      have hindex : i.val = k.val :=
        congrArg Statement.index (hi.trans (decide_eq_true_eq.mp heq))
      exact hk (hindex ▸ i.isLt)
    rw [dif_neg hk, hnone]
    rfl

end Tables

section Log

variable {g : FlowGraph} {edges : OrderedSet (Statement × Statement)}

/-- Both tables list the edges of one log. -/
structure Records (g : FlowGraph) (edges : OrderedSet (Statement × Statement)) : Prop where
  owned : ∀ l ∈ edges, l.1 ∈ g ∧ l.2 ∈ g
  succs : g.Lists g.edges.succs Prod.fst Prod.snd edges.toList
  preds : g.Lists g.edges.preds Prod.snd Prod.fst edges.toList

theorem Records.mem_edges_iff (h : g.Records edges) {i j : Fin g.size} :
    (g.statement i, g.statement j) ∈ edges ↔ (i.val, j.val) ∈ g.edges := by
  have hlist : g.statement j ∈ (g.succs i).map g.statement ↔ (i.val, j.val) ∈ g.edges := by
    rw [List.mem_map_of_injective fun _ _ => statement_injective, mem_succs]
  rw [← hlist, ← OrderedSet.mem_toList]
  refine Iff.trans ?_ h.succs.mem_row_iff.symm
  simp

theorem Records.addEdge (h : g.Records edges) (i j : Fin g.size) :
    (g.addEdge i j).Records (edges.insert (g.statement i, g.statement j)) := by
  by_cases hmem : (i.val, j.val) ∈ g.edges
  · rw [addEdge_of_mem hmem, OrderedSet.insert_of_mem (h.mem_edges_iff.mpr hmem)]
    exact h
  · have hnew : (g.statement i, g.statement j) ∉ edges := mt h.mem_edges_iff.mp hmem
    constructor
    · intro l hl
      rcases OrderedSet.mem_insert.mp hl with hl | rfl
      · exact h.owned l hl
      · exact ⟨g.statement_mem i, g.statement_mem j⟩
    · rw [OrderedSet.toList_insert_of_not_mem hnew]
      change g.Lists (g.edges.link i j).succs _ _ _
      rw [Adjacency.succs_link_of_not_mem hmem]
      exact h.succs.addToRow rfl rfl
    · rw [OrderedSet.toList_insert_of_not_mem hnew]
      change g.Lists (g.edges.link i j).preds _ _ _
      rw [Adjacency.preds_link_of_not_mem hmem]
      exact h.preds.addToRow rfl rfl

theorem Records.append (h : g.Records edges) (a : Instr) : (g.append a).2.Records edges where
  owned l hl :=
    ⟨(g.extends_append a).mem (h.owned l hl).1, (g.extends_append a).mem (h.owned l hl).2⟩
  succs := h.succs.addRow (fun l hl => (h.owned l hl).1) a
  preds := h.preds.addRow (fun l hl => (h.owned l hl).2) a

theorem records_empty (id : Nat) (name : String) : (empty id name).Records ∅ where
  owned l hl := absurd hl (OrderedSet.not_mem_empty l)
  succs i := i.elim0
  preds i := i.elim0

theorem Records.connect (h : g.Records edges) (s t : Statement) :
    (g.grow (.connect s t)).Records ((g.links (.connect s t)).foldl .insert edges) := by
  rcases g.connect_cases s t with ⟨i, j, rfl, rfl, -⟩ | ⟨hforeign, -⟩
  · rw [grow_connect_statement, links, if_pos ⟨g.statement_mem i, g.statement_mem j⟩]
    exact h.addEdge i j
  · rw [g.grow_connect_of_not_mem hforeign, links, if_neg (not_and_or.mpr hforeign)]
    exact h

theorem Records.connectAll (h : g.Records edges) {ls : List (Statement × Statement)}
    (hls : ∀ l ∈ ls, l.1 ∈ g ∧ l.2 ∈ g) :
    (g.growAll (ls.map fun l => .connect l.1 l.2)).Records (ls.foldl .insert edges) := by
  induction ls generalizing g edges with
  | nil => exact h
  | cons l ls ih =>
    have hstep := h.connect l.1 l.2
    rw [links, if_pos (hls l List.mem_cons_self)] at hstep
    have hgrown := g.extends_grow (.connect l.1 l.2)
    apply ih hstep
    intro l' hl'
    have hends := hls l' (List.mem_cons_of_mem _ hl')
    exact ⟨hgrown.mem hends.1, hgrown.mem hends.2⟩

/-- A step adds the edges it asks for and gets to both tables. -/
theorem Records.grow (h : g.Records edges) (step : Growth) :
    (g.grow step).Records ((g.links step).foldl .insert edges) := by
  cases step with
  | append a => exact h.append a
  | connect s t => exact h.connect s t
  | connectPath path =>
    change (g.connectPath path).1.Records _
    rw [connectPath_eq_growAll]
    exact h.connectAll fun l hl => mem_of_mem_pathLinks hl

theorem Records.growAll (h : g.Records edges) (steps : List Growth) :
    (g.growAll steps).Records ((g.accepted steps).foldl .insert edges) := by
  induction steps generalizing g edges with
  | nil => exact h
  | cons step steps ih =>
    rw [accepted, List.foldl_append]
    exact ih (h.grow step)

theorem records_history (id : Nat) (name : String) (steps : List Growth) :
    (history id name steps).Records (log id name steps) :=
  (records_empty id name).growAll steps

end Log

section Insertions

variable (g : FlowGraph)

theorem instrs_connectAll (ls : List (Statement × Statement)) :
    (g.growAll (ls.map fun l => .connect l.1 l.2)).instrs = g.instrs := by
  induction ls generalizing g with
  | nil => rfl
  | cons l ls ih =>
    refine (ih (g.grow (.connect l.1 l.2))).trans ?_
    rcases g.connect_cases l.1 l.2 with ⟨i, j, hi, hj, -⟩ | ⟨hforeign, -⟩
    · rw [← hi, ← hj, grow_connect_statement]
      rfl
    · rw [g.grow_connect_of_not_mem hforeign]

theorem instrs_grow (step : Growth) :
    (g.grow step).instrs.toList = g.instrs.toList ++ inserted [step] := by
  cases step with
  | append a => exact Array.toList_push
  | connect s t =>
    have hkept := g.instrs_connectAll [(s, t)]
    exact (congrArg Array.toList hkept).trans (List.append_nil _).symm
  | connectPath path =>
    have hkept := g.instrs_connectAll (g.pathLinks path)
    rw [← connectPath_eq_growAll] at hkept
    exact (congrArg Array.toList hkept).trans (List.append_nil _).symm

theorem instrs_growAll (steps : List Growth) :
    (g.growAll steps).instrs.toList = g.instrs.toList ++ inserted steps := by
  induction steps generalizing g with
  | nil => exact (List.append_nil _).symm
  | cons step steps ih =>
    have hsplit : inserted (step :: steps) = inserted [step] ++ inserted steps :=
      List.filterMap_append (l := [step])
    rw [hsplit, ← List.append_assoc, ← instrs_grow]
    exact ih (g.grow step)

end Insertions

section Answers

variable {g : FlowGraph} {edges : OrderedSet (Statement × Statement)}

/-- The statements of a graph are numbered from its list of instructions, and what it answers about
its edges is read off one log: the successors of a statement are the targets of its edges, the
predecessors the sources, in the order of the log. -/
structure WellFormed (g : FlowGraph) (instrs : List Instr)
    (edges : OrderedSet (Statement × Statement)) : Prop where
  get : ∀ i s, g.get i = .ok s ↔ ∃ a, instrs[i]? = some a ∧ s = ⟨g.id, i, a⟩
  mem : ∀ s, s ∈ g ↔ g.get s.index = .ok s
  owned : ∀ l ∈ edges, l.1 ∈ g ∧ l.2 ∈ g
  next : ∀ s ∈ g, g.next s = .ok ((edges.toList.filter (·.1 = s)).map (·.2))
  previous : ∀ t ∈ g, g.previous t = .ok ((edges.toList.filter (·.2 = t)).map (·.1))
  linked : ∀ s t, (∃ ts, g.next s = .ok ts ∧ t ∈ ts) ↔ ∃ ss, g.previous t = .ok ss ∧ s ∈ ss
  nodup_next : ∀ s ts, g.next s = .ok ts → ts.Nodup
  nodup_previous : ∀ t ss, g.previous t = .ok ss → ss.Nodup
  heads : g.heads.Pairwise (· < ·) ∧
    ∀ i, i ∈ g.heads ↔ i.val = 0 ∨ ∀ l ∈ edges, l.2 ≠ g.statement i
  tails : g.tails.Pairwise (· < ·) ∧ ∀ i, i ∈ g.tails ↔ ∀ l ∈ edges, l.1 ≠ g.statement i

/-- Edges are added between statements of the graph only, and only once. A path adds its edges up to
the first step that fails. -/
structure Guarded (g : FlowGraph) (edges : OrderedSet (Statement × Statement)) : Prop where
  connect_fails : ∀ s t, (∃ f, g.connect s t = .error f) ↔ s ∉ g ∨ t ∉ g
  connect_failed : ∀ s t, s ∉ g ∨ t ∉ g → g.grow (.connect s t) = g
  connect_again : ∀ s t, (s, t) ∈ edges → g.connect s t = .ok g
  path_fails : ∀ path, (∃ f, (g.connectPath path).2 = .error f) ↔
    none ∈ path ∨ 2 ≤ path.length ∧ ∃ s, some s ∈ path ∧ s ∉ g
  path_links : ∀ path,
    (g.connectPath path).1 = g.growAll ((g.pathLinks path).map fun l => .connect l.1 l.2)

theorem get_eq_ok_iff {i : Nat} {s : Statement} :
    g.get i = .ok s ↔ ∃ h : i < g.size, g.statement ⟨i, h⟩ = s := by
  by_cases h : i < g.size <;> simp [get, h]

/-- A question about a statement is answered from its row, if it is a statement of the graph. -/
theorem answer_eq_ok_iff {row : Fin g.size → List (Fin g.size)} {s : Statement}
    {ts : List Statement} :
    (do return (row (← g.find s)).map g.statement : Except Fault (List Statement)) = .ok ts ↔
      ∃ i, g.statement i = s ∧ (row i).map g.statement = ts := by
  constructor
  · intro hts
    by_cases hs : s ∈ g
    · obtain ⟨i, rfl⟩ := mem_iff.mp hs
      rw [find_statement] at hts
      exact ⟨i, rfl, Except.ok.inj hts⟩
    · rw [find_of_not_mem hs] at hts
      cases hts
  · rintro ⟨i, rfl, rfl⟩
    rw [find_statement]
    rfl

theorem next_eq_ok_iff {s : Statement} {ts : List Statement} :
    g.next s = .ok ts ↔ ∃ i, g.statement i = s ∧ (g.succs i).map g.statement = ts :=
  answer_eq_ok_iff

theorem previous_eq_ok_iff {t : Statement} {ss : List Statement} :
    g.previous t = .ok ss ↔ ∃ i, g.statement i = t ∧ (g.preds i).map g.statement = ss :=
  answer_eq_ok_iff

theorem Records.mem_next_iff (h : g.Records edges) {s t : Statement} :
    (∃ ts, g.next s = .ok ts ∧ t ∈ ts) ↔ (s, t) ∈ edges := by
  constructor
  · rintro ⟨ts, hts, ht⟩
    obtain ⟨i, rfl, rfl⟩ := next_eq_ok_iff.mp hts
    obtain ⟨⟨_, _⟩, hl, rfl, rfl⟩ := h.succs.mem_row_iff.mp ht
    exact hl
  · intro hl
    obtain ⟨i, hi⟩ := mem_iff.mp (h.owned _ hl).1
    exact ⟨_, next_eq_ok_iff.mpr ⟨i, hi, rfl⟩, h.succs.mem_row_iff.mpr ⟨_, hl, hi.symm, rfl⟩⟩

theorem Records.mem_previous_iff (h : g.Records edges) {s t : Statement} :
    (∃ ss, g.previous t = .ok ss ∧ s ∈ ss) ↔ (s, t) ∈ edges := by
  constructor
  · rintro ⟨ss, hss, hs⟩
    obtain ⟨i, rfl, rfl⟩ := previous_eq_ok_iff.mp hss
    obtain ⟨⟨_, _⟩, hl, rfl, rfl⟩ := h.preds.mem_row_iff.mp hs
    exact hl
  · intro hl
    obtain ⟨i, hi⟩ := mem_iff.mp (h.owned _ hl).2
    exact ⟨_, previous_eq_ok_iff.mpr ⟨i, hi, rfl⟩, h.preds.mem_row_iff.mpr ⟨_, hl, hi.symm, rfl⟩⟩

theorem Records.guarded (h : g.Records edges) : g.Guarded edges where
  connect_fails s t := by
    constructor
    · rintro ⟨f, hf⟩
      rcases g.connect_cases s t with ⟨i, j, -, -, hconnect⟩ | ⟨hforeign, -⟩
      · rw [hconnect] at hf
        cases hf
      · exact hforeign
    · exact exists_error_connect
  connect_failed s t := g.grow_connect_of_not_mem
  connect_again s t hmem := by
    obtain ⟨hs, ht⟩ := h.owned _ hmem
    obtain ⟨i, rfl⟩ := mem_iff.mp hs
    obtain ⟨j, rfl⟩ := mem_iff.mp ht
    rw [connect_statement, addEdge_of_mem (h.mem_edges_iff.mp hmem)]
  path_fails := g.connectPath_fails_iff
  path_links := g.connectPath_eq_growAll

theorem Records.wellFormed (h : g.Records edges) : g.WellFormed g.instrs.toList edges where
  get i s := by
    rw [get_eq_ok_iff]
    constructor
    · rintro ⟨hi, rfl⟩
      exact ⟨_, List.getElem?_eq_some_iff.mpr ⟨hi, rfl⟩, rfl⟩
    · rintro ⟨a, ha, rfl⟩
      obtain ⟨hi, rfl⟩ := List.getElem?_eq_some_iff.mp ha
      exact ⟨hi, rfl⟩
  mem s := by
    rw [get_eq_ok_iff, mem_iff]
    constructor
    · rintro ⟨i, rfl⟩
      exact ⟨i.isLt, rfl⟩
    · rintro ⟨hs, heq⟩
      exact ⟨_, heq⟩
  owned := h.owned
  next s hs := by
    obtain ⟨i, rfl⟩ := mem_iff.mp hs
    exact next_eq_ok_iff.mpr ⟨i, rfl, h.succs i⟩
  previous t ht := by
    obtain ⟨i, rfl⟩ := mem_iff.mp ht
    exact previous_eq_ok_iff.mpr ⟨i, rfl, h.preds i⟩
  linked s t := h.mem_next_iff.trans h.mem_previous_iff.symm
  nodup_next s ts hts := by
    obtain ⟨i, -, rfl⟩ := next_eq_ok_iff.mp hts
    exact (g.nodup_succs i).map fun _ _ => statement_injective
  nodup_previous t ss hss := by
    obtain ⟨i, -, rfl⟩ := previous_eq_ok_iff.mp hss
    exact (g.nodup_preds i).map fun _ _ => statement_injective
  heads := by
    refine ⟨(List.pairwise_lt_finRange _).filter _, fun i => ?_⟩
    rw [mem_heads, IsHead]
    exact or_congr Iff.rfl h.preds.get_eq_nil_iff
  tails := by
    refine ⟨(List.pairwise_lt_finRange _).filter _, fun i => ?_⟩
    rw [tails, List.mem_filter, decide_eq_true_eq, and_iff_right (List.mem_finRange i)]
    exact h.succs.get_eq_nil_iff

/-- A graph is well formed after every history, whatever steps of it fail. -/
theorem wellFormed_history (id : Nat) (name : String) (steps : List Growth) :
    (history id name steps).WellFormed (inserted steps) (log id name steps) ∧
      (history id name steps).Guarded (log id name steps) := by
  have hrecords := records_history id name steps
  have hinstrs : (history id name steps).instrs.toList = inserted steps :=
    (empty id name).instrs_growAll steps
  exact ⟨hinstrs ▸ hrecords.wellFormed, hrecords.guarded⟩

-- One edge is asked for twice, and the path ends at a missing element. A statement of another graph
-- is refused though its number is valid here.
example :
    let s (i : Nat) : Statement := ⟨0, i, .nop ""⟩
    let g := history 0 "m" [.append (.nop ""), .append (.nop ""), .connect (s 0) (s 1),
      .connect (s 0) ⟨1, 1, .nop ""⟩,
      .connectPath [some (s 0), some (s 1), some (s 1), none, some (s 0)]]
    g.next (s 0) = .ok [s 1] ∧ g.next (s 1) = .ok [s 1] ∧
      g.previous (s 0) = .ok [] ∧ g.previous (s 1) = .ok [s 0, s 1] := by
  exact ⟨rfl, rfl, rfl, rfl⟩

end Answers

end MonitorElision.FlowGraph
