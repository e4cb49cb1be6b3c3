import MonitorElision.Proofs.Oracle.Firing
import MonitorElision.Proofs.Propagation.Faults
import MonitorElision.Proofs.Shadow

/-!
# The default oracle after a history

Which shadows fire at a statement is settled by the history of the registry: those that were
attached there for the tracematch and the procedure, unless a shadow of their number was disabled.
The answer joins where each of them leads. So it does not tell in which order they were attached.
-/
namespace MonitorElision

namespace Tracematch

variable {tm : Tracematch} {i j : Fin tm.size} {n m : Node} {symbol : String}

/-- A transition of the machine leads from one node to the other. -/
def Edge (tm : Tracematch) (n : Node) (symbol : String) (m : Node) : Prop :=
  m ∈ tm.nodes ∧ ⟨n.index, symbol, m.index⟩ ∈ tm.transitions

theorem mem_targets : j ∈ tm.targets i symbol ↔ ⟨i, symbol, j⟩ ∈ tm.transitions := by
  simp only [targets, List.mem_map, List.mem_attach, true_and, Subtype.exists]
  constructor
  · rintro ⟨_, hmem, rfl⟩
    exact hmem
  · exact fun hmem => ⟨_, hmem, rfl⟩

theorem edge_node : tm.Edge (tm.node i) symbol (tm.node j) ↔ j ∈ tm.targets i symbol := by
  rw [mem_targets]
  exact and_iff_right (node_mem_nodes tm j)

theorem targets_eq_nil_iff : tm.targets i symbol = [] ↔ ∀ m, ¬tm.Edge (tm.node i) symbol m := by
  rw [List.eq_nil_iff_forall_not_mem]
  constructor
  · rintro h m ⟨hm, hmem⟩
    obtain ⟨j, -, rfl⟩ := List.mem_map.mp hm
    exact h j (mem_targets.mpr hmem)
  · exact fun h j hj => h _ (edge_node.mpr hj)

theorem exists_target_iff (hm : m ∈ tm.nodes) :
    (∃ t ∈ tm.targets i symbol, t.val = m.index) ↔ tm.Edge (tm.node i) symbol m := by
  obtain ⟨j, -, rfl⟩ := List.mem_map.mp hm
  rw [edge_node]
  constructor
  · rintro ⟨t, ht, hval⟩
    rwa [← Fin.ext (show t.val = j.val from hval)]
  · exact fun hj => ⟨j, hj, rfl⟩

end Tracematch

/-- Each formal that the shadow binds stands for a tracked local, and the shadow binds it to that
local or to an advice local that copies it. -/
def Bindings.Tracks (b : Bindings) (sh : Shadow) : Prop :=
  ∀ formal l, sh.localOf? formal = some l → ∃ tracked, b.formals[formal]? = some tracked ∧
    (l.Same tracked ∨ ∃ actual, b.actualOf? l = some actual ∧ actual.Same tracked)

theorem Bindings.mustRefer_iff_tracks {b : Bindings} {sh : Shadow} :
    b.MustRefer sh ↔ b.Tracks sh := by
  simp only [MustRefer, Tracks, Prod.forall, Shadow.mem_toList_bindings, Option.mem_def]

namespace Shadow

variable {c : Oracle.Context} {sh sh' : Shadow} {n m : Node} {i : Fin c.tracematch.size}

/-- Where the shadow leads the automaton from the node. It follows the symbol in any case. A shadow
of the tracked objects discards the match if the symbol leads nowhere, any other shadow may as well
leave the automaton where it is. -/
inductive Leads (c : Oracle.Context) (sh : Shadow) (n : Node) : Node → Prop
  | follows {m : Node} : c.tracematch.Edge n sh.symbol m → Leads c sh n m
  | discards {m : Node} : c.bindings.Tracks sh → (∀ k, ¬c.tracematch.Edge n sh.symbol k) →
      m ∈ c.initial → Leads c sh n m
  | stays : ¬c.bindings.Tracks sh → Leads c sh n n

/-- The shadows bind the same and fire the same, whatever their numbers. -/
structure Alike (a b : Shadow) : Prop where
  symbol : a.symbol = b.symbol
  bindings : a.bindings = b.bindings

theorem Alike.tracks_iff (h : sh.Alike sh') {b : Bindings} : b.Tracks sh ↔ b.Tracks sh' := by
  simp only [Bindings.Tracks, localOf?, h.bindings]

theorem Leads.of_alike (h : sh.Alike sh') (hleads : sh.Leads c n m) : sh'.Leads c n m := by
  cases hleads with
  | follows hedge => exact .follows (h.symbol ▸ hedge)
  | discards htracks hnowhere hm =>
    exact .discards (h.tracks_iff.mp htracks) (h.symbol ▸ hnowhere) hm
  | stays hloose => exact .stays (mt h.tracks_iff.mpr hloose)

theorem Leads.mem_nodes (hinitial : ∀ k ∈ c.initial, k ∈ c.tracematch.nodes)
    (hn : n ∈ c.tracematch.nodes) (h : sh.Leads c n m) : m ∈ c.tracematch.nodes := by
  cases h with
  | follows hedge => exact hedge.1
  | discards _ _ hm => exact hinitial m hm
  | stays _ => exact hn

theorem mem_indexes_outcome_iff (hm : m ∈ c.tracematch.nodes)
    (hinitial : ∀ k ∈ c.initial, k ∈ c.tracematch.nodes) :
    m.index ∈ (sh.outcome c i).indexes ↔ sh.Leads c (c.tracematch.node i) m := by
  by_cases htracks : c.bindings.Tracks sh
  · rw [mem_indexes_outcome_of_mustRefer (Bindings.mustRefer_iff_tracks.mpr htracks),
      Tracematch.exists_target_iff hm, Tracematch.targets_eq_nil_iff]
    constructor
    · rintro (hedge | ⟨hnowhere, hmem⟩)
      · exact .follows hedge
      · exact .discards htracks hnowhere (Tracematch.mem_of_mem_indexes hm hinitial hmem)
    · intro hleads
      cases hleads with
      | follows hedge => exact Or.inl hedge
      | discards _ hnowhere hmem =>
        exact Or.inr ⟨hnowhere, NodeSet.mem_indexes.mpr ⟨m, hmem, rfl⟩⟩
      | stays hloose => exact absurd htracks hloose
  · rw [mem_indexes_outcome_of_not_mustRefer (mt Bindings.mustRefer_iff_tracks.mp htracks),
      Tracematch.exists_target_iff hm]
    constructor
    · rintro (hedge | hindex)
      · exact .follows hedge
      · obtain rfl : m = c.tracematch.node i :=
          Tracematch.eq_of_index_eq hm (Tracematch.node_mem_nodes _ i) hindex
        exact .stays htracks
    · intro hleads
      cases hleads with
      | follows hedge => exact Or.inl hedge
      | discards hfits _ _ => exact absurd hfits htracks
      | stays _ => exact Or.inr rfl

namespace Registry

/-- After the history the statement hosts the shadow, it is one of the tracematch in the procedure,
and it is enabled. -/
structure Fires (id : Nat) (changes : List Change) (procedure : String) (tm : Signature)
    (s : Statement) (sh : Shadow) : Prop where
  made : (empty id).Makes changes s sh
  container : sh.container = procedure
  tracematch : sh.tracematch.id = tm.id
  kept : ∀ k, .disable k ∈ changes → ¬k.Same sh

variable {id id' : Nat} {changes changes' : List Change} {procedure container symbol : String}
  {tm : Signature} {s : Statement} {r : Registry} {bindings : Std.ExtTreeMap String Local}

theorem mem_relevant_changeAll :
    sh ∈ Oracle.relevant ((empty id).changeAll changes) procedure tm s ↔
      Fires id changes procedure tm s sh := by
  have hmade : (s, sh) ∈ ((empty id).changeAll changes).hosted ↔ (empty id).Makes changes s sh := by
    rw [mem_hosted_changeAll]
    exact or_iff_right List.not_mem_nil
  have henabled : ((empty id).changeAll changes).Enabled sh ↔
      ∀ k, .disable k ∈ changes → ¬k.Same sh := by
    rw [Enabled, mem_disabled_changeAll, or_iff_right (show sh.id ∉ (empty id).disabled from
      List.not_mem_nil)]
    simp only [not_exists, not_and]
    rfl
  rw [Oracle.relevant, List.mem_filter, mem_active, decide_eq_true_eq, hmade, henabled]
  constructor
  · rintro ⟨⟨hmade, hcontainer, hkept⟩, htm⟩
    exact ⟨hmade, hcontainer, htm, hkept⟩
  · exact fun h => ⟨⟨h.made, h.container, h.kept⟩, h.tracematch⟩

theorem refusal?_of_attach_eq_ok {made : Shadow × Registry}
    (h : r.attach s tm container symbol bindings = .ok made) :
    (refusal? tm symbol bindings).isNone := by
  unfold attach at h
  split at h
  · cases h
  · rename_i hnone
    rw [hnone]
    rfl

/-- A shadow is made just in case it is asked for and there is no reason to refuse it. -/
theorem exists_makes_iff :
    (∃ i, r.Makes changes s ⟨r.id, i, tm, container, symbol, bindings⟩) ↔
      .attach s tm container symbol bindings ∈ changes ∧ (refusal? tm symbol bindings).isNone := by
  constructor
  · rintro ⟨i, before, c, after, rfl, tm', container', symbol', bindings', r', rfl, hattach⟩
    obtain ⟨heq, -⟩ := attach_eq_ok hattach
    obtain ⟨-, -, rfl, rfl, rfl, rfl⟩ := Shadow.mk.inj heq
    exact ⟨by simp, refusal?_of_attach_eq_ok hattach⟩
  · rintro ⟨hmem, hknown⟩
    obtain ⟨before, after, rfl⟩ := List.append_of_mem hmem
    obtain ⟨r', hattach⟩ := (r.changeAll before).exists_attach_eq_ok s container hknown
    rw [id_changeAll] at hattach
    exact ⟨_, before, _, after, rfl, _, _, _, _, r', rfl, hattach⟩

/-- Where nothing is disabled, alike shadows fire in whatever order they were attached. -/
theorem exists_alike_of_perm (hperm : changes.Perm changes') (hkept : ∀ k, .disable k ∉ changes)
    (h : Fires id changes procedure tm s sh) :
    ∃ sh', Fires id changes' procedure tm s sh' ∧ sh.Alike sh' := by
  obtain ⟨made, hcontainer, htm, -⟩ := h
  have hregistry : sh.registry = id := by
    obtain ⟨before, c, after, -, _, _, _, _, _, -, hattach⟩ := made
    rw [(attach_eq_ok hattach).1, id_changeAll]
    rfl
  have hmade : ∃ i, (empty id).Makes changes s
      ⟨id, i, sh.tracematch, sh.container, sh.symbol, sh.bindings⟩ := ⟨sh.id, hregistry ▸ made⟩
  obtain ⟨hmem, hknown⟩ := exists_makes_iff.mp hmade
  obtain ⟨i, hmade'⟩ := exists_makes_iff (r := empty id).mpr ⟨hperm.mem_iff.mp hmem, hknown⟩
  have hkept' : ∀ k, .disable k ∈ changes' → ¬k.Same
      ⟨id, i, sh.tracematch, sh.container, sh.symbol, sh.bindings⟩ := fun k hk =>
    absurd (hperm.mem_iff.mpr hk) (hkept k)
  exact ⟨_, ⟨hmade', hcontainer, htm, hkept'⟩, rfl, rfl⟩

end Registry
end Shadow

namespace Oracle

open Shadow.Registry

variable {c : Context} {n : Node} {s : Statement} {procedure : String} {id id' : Nat}
  {changes changes' : List Change}

theorem exists_successors_changeAll (hinitial : ∀ k ∈ c.initial, k ∈ c.tracematch.nodes)
    (hn : n ∈ c.tracematch.nodes) (id : Nat) (changes : List Change) (procedure : String)
    (s : Statement) : ∃ next,
    ((shadows ((empty id).changeAll changes) procedure).successors c n s).value = .ok next ∧
    (∀ m ∈ next, m ∈ c.tracematch.nodes) ∧
    ∀ m, m ∈ next ↔
      (¬∃ sh, Fires id changes procedure c.tracematch.signature s sh) ∧ m = n ∨
        ∃ sh, Fires id changes procedure c.tracematch.signature s sh ∧ sh.Leads c n m := by
  obtain ⟨i, -, rfl⟩ := List.mem_map.mp hn
  obtain ⟨next, hnext, hmem⟩ :=
    exists_successors_shadows ((empty id).changeAll changes) procedure c i s
  have hwithin : ∀ m ∈ next, m ∈ c.tracematch.nodes := fun m hm =>
    mem_nodes_of_successors_shadows hinitial hn hnext hm
  refine ⟨next, hnext, hwithin, fun m => ?_⟩
  have hindex : m ∈ next ↔ m ∈ c.tracematch.nodes ∧ m.index ∈ next.indexes := by
    constructor
    · exact fun hm => ⟨hwithin m hm, NodeSet.mem_indexes.mpr ⟨m, hm, rfl⟩⟩
    · exact fun ⟨hm, hidx⟩ => Tracematch.mem_of_mem_indexes hm hwithin hidx
  have hidle : relevant ((empty id).changeAll changes) procedure c.tracematch.signature s = [] ↔
      ¬∃ sh, Fires id changes procedure c.tracematch.signature s sh := by
    simp only [List.eq_nil_iff_forall_not_mem, mem_relevant_changeAll, not_exists]
  rw [hindex, hmem, hidle]
  simp only [mem_relevant_changeAll]
  constructor
  · rintro ⟨hm, ⟨hnone, hk⟩ | ⟨sh, hfires, hk⟩⟩
    · exact Or.inl ⟨hnone, Tracematch.eq_of_index_eq hm hn hk⟩
    · exact Or.inr ⟨sh, hfires, (Shadow.mem_indexes_outcome_iff hm hinitial).mp hk⟩
  · rintro (⟨hnone, rfl⟩ | ⟨sh, hfires, hleads⟩)
    · exact ⟨hn, Or.inl ⟨hnone, rfl⟩⟩
    · have hm := hleads.mem_nodes hinitial hn
      exact ⟨hm, Or.inr ⟨sh, hfires, (Shadow.mem_indexes_outcome_iff hm hinitial).mpr hleads⟩⟩

/-- What matters are the shadows that fire, up to their numbers. -/
theorem value_successors_changeAll_of_alike
    (hinitial : ∀ k ∈ c.initial, k ∈ c.tracematch.nodes) (hn : n ∈ c.tracematch.nodes)
    (h : ∀ sh, Fires id changes procedure c.tracematch.signature s sh →
      ∃ sh', Fires id' changes' procedure c.tracematch.signature s sh' ∧ sh.Alike sh')
    (h' : ∀ sh, Fires id' changes' procedure c.tracematch.signature s sh →
      ∃ sh', Fires id changes procedure c.tracematch.signature s sh' ∧ sh.Alike sh') :
    ((shadows ((empty id').changeAll changes') procedure).successors c n s).value =
      ((shadows ((empty id).changeAll changes) procedure).successors c n s).value := by
  obtain ⟨next, hnext, -, hmem⟩ := exists_successors_changeAll hinitial hn id changes procedure s
  obtain ⟨next', hnext', -, hmem'⟩ :=
    exists_successors_changeAll hinitial hn id' changes' procedure s
  rw [hnext, hnext']
  refine congrArg Except.ok (NodeSet.ext fun m => ?_)
  rw [hmem, hmem']
  have hidle : (∃ sh, Fires id' changes' procedure c.tracematch.signature s sh) ↔
      ∃ sh, Fires id changes procedure c.tracematch.signature s sh :=
    ⟨fun ⟨sh, hsh⟩ => (h' sh hsh).imp fun _ => And.left,
      fun ⟨sh, hsh⟩ => (h sh hsh).imp fun _ => And.left⟩
  rw [hidle]
  refine or_congr_right ⟨?_, ?_⟩
  · rintro ⟨sh, hsh, hleads⟩
    obtain ⟨sh', hsh', halike⟩ := h' sh hsh
    exact ⟨sh', hsh', hleads.of_alike halike⟩
  · rintro ⟨sh, hsh, hleads⟩
    obtain ⟨sh', hsh', halike⟩ := h sh hsh
    exact ⟨sh', hsh', hleads.of_alike halike⟩

/-- The whole answer of the default oracle after any history. On a node of the machine the automaton
goes where the shadows that fire at the statement lead it, and stays if there are none. So it only
goes to nodes of the machine, and no shadow counts by its number. In particular the order in which
shadows are attached does not matter. A node of another machine is refused before any shadow is
looked for. -/
theorem successors_shadows_changeAll (hinitial : ∀ k ∈ c.initial, k ∈ c.tracematch.nodes) (id : Nat)
    (changes : List Change) (procedure : String) (s : Statement) :
    (∀ n ∈ c.tracematch.nodes, ∃ next,
      ((shadows ((empty id).changeAll changes) procedure).successors c n s).value = .ok next ∧
      (∀ m ∈ next, m ∈ c.tracematch.nodes) ∧
      ∀ m, m ∈ next ↔
        (¬∃ sh, Fires id changes procedure c.tracematch.signature s sh) ∧ m = n ∨
          ∃ sh, Fires id changes procedure c.tracematch.signature s sh ∧ sh.Leads c n m) ∧
    (∀ n ∈ c.tracematch.nodes, ∀ id' changes',
      (∀ sh, Fires id changes procedure c.tracematch.signature s sh →
        ∃ sh', Fires id' changes' procedure c.tracematch.signature s sh' ∧ sh.Alike sh') →
      (∀ sh, Fires id' changes' procedure c.tracematch.signature s sh →
        ∃ sh', Fires id changes procedure c.tracematch.signature s sh' ∧ sh.Alike sh') →
      ((shadows ((empty id').changeAll changes') procedure).successors c n s).value =
        ((shadows ((empty id).changeAll changes) procedure).successors c n s).value) ∧
    (∀ n ∈ c.tracematch.nodes, ∀ changes', changes.Perm changes' →
      (∀ k, .disable k ∉ changes) →
      ((shadows ((empty id).changeAll changes') procedure).successors c n s).value =
        ((shadows ((empty id).changeAll changes) procedure).successors c n s).value) ∧
    ∀ n, ¬c.tracematch.Owns n →
      (shadows ((empty id).changeAll changes) procedure).successors c n s =
        ⟨.error (.nodeOutside n c.tracematch.signature.name), []⟩ := by
  refine ⟨?_, ?_, ?_, ?_⟩
  · exact fun n hn => exists_successors_changeAll hinitial hn id changes procedure s
  · exact fun n hn id' changes' h h' => value_successors_changeAll_of_alike hinitial hn h h'
  · intro n hn changes' hperm hkept
    have hkept' : ∀ k, .disable k ∉ changes' := fun k hk => hkept k (hperm.mem_iff.mpr hk)
    exact value_successors_changeAll_of_alike hinitial hn
      (fun sh => exists_alike_of_perm hperm hkept) fun sh => exists_alike_of_perm hperm.symm hkept'
  · intro n hforeign
    have hnowhere : c.tracematch.find n = .error (.foreignNode n) :=
      dif_neg fun h => hforeign h.1
    simp only [shadows, hnowhere]
    rfl

end Oracle

namespace Lamp

open Shadow.Registry

/-- Where the lamp is reset, another lamp may be turned as well. -/
def crossing : List Change :=
  history ++ [.attach ⟨0, 3, .nop ""⟩ machine.signature "m" "turn" (.ofList [("v", y)])]

def tracking : Oracle.Context :=
  ⟨machine, .ofList machine.initialNodes, (setup x turnThenReset).bindings⟩

def answerAfter (changes : List Change) (n : Node) : Except Fault NodeSet :=
  ((Oracle.shadows ((empty 0).changeAll changes) "m").successors tracking n ⟨0, 3, .nop ""⟩).value

end Lamp

namespace Oracle

/-- The lit lamp may be either afterwards, in whatever order the shadows were attached. -/
theorem successors_shadows_changeAll_lamp :
    (∀ m ∈ Lamp.machine.nodes, ∃ sh,
      Shadow.Registry.Fires 0 Lamp.crossing "m" Lamp.machine.signature ⟨0, 3, .nop ""⟩ sh ∧
        sh.Leads Lamp.tracking ⟨0, 1, false, false⟩ m) ∧
    Lamp.answerAfter Lamp.crossing.reverse ⟨0, 1, false, false⟩ =
      Lamp.answerAfter Lamp.crossing ⟨0, 1, false, false⟩ ∧
    Lamp.answerAfter Lamp.crossing ⟨1, 1, false, false⟩ =
      .error (.nodeOutside ⟨1, 1, false, false⟩ "lamp") := by
  have hrun : ∃ next, Lamp.answerAfter Lamp.crossing ⟨0, 1, false, false⟩ = .ok next ∧
      ∀ m ∈ Lamp.machine.nodes, m ∈ next := by decide +kernel
  have hinitial : ∀ k ∈ Lamp.tracking.initial, k ∈ Lamp.tracking.tracematch.nodes := fun k hk =>
    Tracematch.mem_nodes_of_mem_initialNodes (NodeSet.mem_of_mem_ofList hk)
  obtain ⟨hanswers, -, horder, hforeign⟩ :=
    successors_shadows_changeAll hinitial 0 Lamp.crossing "m" ⟨0, 3, .nop ""⟩
  refine ⟨?_, ?_, ?_⟩
  · obtain ⟨next, hnext, hboth⟩ := hrun
    obtain ⟨answer, hanswer, -, hmem⟩ := hanswers ⟨0, 1, false, false⟩ (by decide)
    obtain rfl : next = answer := Except.ok.inj (hnext.symm.trans hanswer)
    -- The lamp that is put out cannot have stayed lit, so some shadow fires.
    obtain ⟨-, hstays⟩ | ⟨sh, hfires, -⟩ :=
      (hmem ⟨0, 0, true, false⟩).mp (hboth _ (by decide))
    · exact absurd hstays (by decide)
    · intro m hm
      exact ((hmem m).mp (hboth m hm)).resolve_left fun hidle => hidle.1 ⟨sh, hfires⟩
  · exact horder _ (by decide) _ Lamp.crossing.reverse_perm.symm
      (by simp [Lamp.crossing, Lamp.history])
  · exact congrArg Narrated.value (hforeign ⟨1, 1, false, false⟩ (by decide))

end Oracle
end MonitorElision
