import MonitorElision.CallGraph
import MonitorElision.Diagnostics
import MonitorElision.Fixpoint.GenKill
import MonitorElision.Oracle.Firing

/-!
# Events that can be printed

An event that can be printed under all settings ends no operation, so the settings do not matter for
a result that is narrated by such events alone. Those of the call graph, of the bindings, of the
oracles and of an iteration are of this kind.
-/
namespace MonitorElision

theorem Printed.exists_onRequest {text : Except Fault String} (h : ∃ made, text = .ok made)
    (asked : Bool) : ∃ printed, onRequest asked text = .ok printed := by
  obtain ⟨made, rfl⟩ := h
  cases asked with
  | false => exact ⟨_, rfl⟩
  | true => exact ⟨_, rfl⟩

namespace Event

/-- Whatever the settings, the event can be printed. -/
def Printable (e : Event) : Prop := ∀ d : Diagnostics, ∃ text, d.printed e = .ok text

variable {topic : Topic} {level : Nat} {text : Except Fault String}

theorem printable_log (h : ∃ made, text = .ok made) : (log topic text).Printable :=
  fun _ => Printed.exists_onRequest h _

theorem printable_report (h : ∃ made, text = .ok made) : (report level text).Printable :=
  fun _ => Printed.exists_onRequest h _

@[simp] theorem printable_log_ok (made : String) : (log topic (.ok made)).Printable :=
  printable_log ⟨made, rfl⟩

/-- A log message whose text is made already. -/
def IsMessage (e : Event) : Prop := ∃ topic made, e = log topic (.ok made)

@[simp] theorem isMessage_log_ok (made : String) : (log topic (.ok made)).IsMessage :=
  ⟨topic, made, rfl⟩

theorem IsMessage.printable {e : Event} (h : e.IsMessage) : e.Printable := by
  obtain ⟨topic, made, rfl⟩ := h
  exact printable_log_ok made

@[simp] theorem printable_warning (message : String) : (warning message).Printable :=
  fun _ => ⟨_, rfl⟩

@[simp] theorem printable_count (counter : String) : (count counter).Printable := fun _ => ⟨_, rfl⟩

@[simp] theorem printable_countMax (counter : String) (value : Nat) :
    (countMax counter value).Printable := fun _ => ⟨_, rfl⟩

@[simp] theorem printable_resume (timer : String) : (resume timer).Printable := fun _ => ⟨_, rfl⟩

@[simp] theorem printable_stop (timer : String) : (stop timer).Printable := fun _ => ⟨_, rfl⟩

end Event

namespace Narrated

variable {α β : Type} {x : Narrated α} {f : α → Narrated β}

def Printable (x : Narrated α) : Prop := ∀ e ∈ x.events, e.Printable

@[simp] theorem printable_pure (a : α) : (pure a : Narrated α).Printable := by simp [Printable]

theorem printable_tell {events : List Event} (h : ∀ e ∈ events, e.Printable) :
    (tell events).Printable := h

/-- All that is narrated are messages. -/
def Messages (x : Narrated α) : Prop := ∀ e ∈ x.events, e.IsMessage

@[simp] theorem messages_pure (a : α) : (pure a : Narrated α).Messages := by simp [Messages]

theorem Messages.bind (hx : x.Messages) (hf : (f x.value).Messages) : (x >>= f).Messages := by
  rw [Messages, events_bind]
  exact List.forall_mem_append.mpr ⟨hx, hf⟩

theorem Messages.printable (h : x.Messages) : x.Printable := fun e he => (h e he).printable

theorem Printable.bind (hx : x.Printable) (hf : (f x.value).Printable) : (x >>= f).Printable := by
  intro e he
  rw [events_bind, List.mem_append] at he
  exact he.elim (hx e) (hf e)

end Narrated

namespace Diagnostics

variable {α : Type} {result : Narrated (Except Fault α)} {events : List Event}

theorem fault_foldl_next {h : Hearing} (hnone : h.fault = none)
    (hevents : ∀ e ∈ events, e.Printable) : (events.foldl Hearing.next h).fault = none := by
  induction events generalizing h with
  | nil => exact hnone
  | cons e events ih =>
    rw [List.forall_mem_cons] at hevents
    obtain ⟨text, htext⟩ := hevents.1 h.diagnostics
    refine ih ?_ hevents.2
    simp only [Hearing.next, hnone, htext]

/-- A result that is narrated by printable events is reached under all settings. -/
theorem reached_eq_value (d : Diagnostics) (h : result.Printable) :
    d.reached result = result.value := by
  have hfault : (d.hear result.events).fault = none := fault_foldl_next rfl h
  simp only [reached, hfault]

end Diagnostics

namespace CallGraph

variable {G : Type} [GraphLibrary Vertex G]

theorem messages_enter {κ : Type} [DecidableEq κ] (label : κ → Vertex) (edges : G)
    (numbers : OrderedMap κ Nat) (k : κ) : (enter label edges numbers k).Messages := by
  unfold enter
  split
  · exact Narrated.messages_pure _
  · simp [Narrated.Messages]

theorem messages_link (edges : G) (source target : Nat) (site : Statement) (callee : String) :
    (link edges source target site callee).Messages := by
  unfold link
  intro e he
  dsimp only at he
  split at he
  · obtain rfl := List.mem_singleton.mp he
    exact Event.isMessage_log_ok _
  · cases he

theorem messages_record (cg : CallGraph G) (site : Statement) (callee : String) :
    (cg.record site callee).Messages := by
  unfold record
  split
  · exact Narrated.messages_pure _
  · refine (messages_enter _ _ _ site).bind ((messages_enter _ _ _ callee).bind ?_)
    exact (messages_link _ _ _ site callee).bind (Narrated.messages_pure _)

end CallGraph

theorem Bindings.messages_extract (g : FlowGraph) (group : Shadow.Group) (initial : Shadow) :
    (extract g group initial).Messages := by
  intro e he
  obtain ⟨finding, -, rfl⟩ := List.mem_map.mp he
  cases finding with
  | bound _ _ _ _ _ => exact Event.isMessage_log_ok _
  | unresolved _ _ _ => exact Event.isMessage_log_ok _

namespace Oracle

/-- All answers of the oracle are narrated by printable events. -/
def Printable (O : Oracle) : Prop := ∀ c n s, (O.successors c n s).Printable

/-- All answers of the oracle are narrated by messages. -/
def Messages (O : Oracle) : Prop := ∀ c n s, (O.successors c n s).Messages

theorem Messages.printable {O : Oracle} (h : O.Messages) : O.Printable :=
  fun c n s => (h c n s).printable

theorem isMessage_firings (c : Context) (i : Fin c.tracematch.size) (s : Statement)
    (acc : NodeSet) (shs : List Shadow) : ∀ e ∈ Shadow.firings c i s acc shs, e.IsMessage := by
  induction shs generalizing acc with
  | nil => exact fun _ he => nomatch he
  | cons sh shs ih => exact List.forall_mem_cons.mpr ⟨Event.isMessage_log_ok _, ih _⟩

theorem messages_shadows (r : Shadow.Registry) (procedure : String) :
    (shadows r procedure).Messages := by
  intro c n s
  simp only [shadows]
  split
  · exact Narrated.messages_pure _
  · split
    · exact Narrated.messages_pure _
    · exact isMessage_firings c _ s ∅ _

theorem messages_table (rows : List Row) : (table rows).Messages :=
  fun _ _ _ => Narrated.messages_pure _

end Oracle

namespace Fixpoint

theorem printable_opening : ∀ e ∈ opening, e.Printable := by simp [opening]

theorem printable_closing : ∀ e ∈ closing, e.Printable := by simp [closing]

theorem printable_summary (name : String) (g : FlowGraph) (visits : Nat) :
    ∀ e ∈ summary name g visits, e.Printable := by simp [summary]

end Fixpoint

theorem GenKill.printable_solve (p : GenKill) (g : FlowGraph) : (p.solve g).Printable := by
  intro e he
  rcases List.mem_append.mp he with he | he
  · rcases List.mem_append.mp he with he | he
    · exact Fixpoint.printable_opening e he
    · exact Fixpoint.printable_summary _ _ _ e he
  · exact Fixpoint.printable_closing e he

end MonitorElision
