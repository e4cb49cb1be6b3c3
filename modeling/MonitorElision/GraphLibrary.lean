import MonitorElision.OrderedSet

/-!
# Graph libraries

Call graphs are kept with a library of directed graphs. The laws are what is relied on: vertices are
numbered from 0 in the order of creation and keep their labels, and parallel edges are dropped. It
is left open in which order the edges from a vertex are listed.
-/
namespace MonitorElision

/-- What is used of a library of directed graphs. Vertices are known by number. -/
class GraphLibrary (L : outParam Type) (G : Type) where
  empty : G
  /-- How many vertices there are. -/
  order : G → Nat
  /-- How many edges there are. -/
  size : G → Nat
  label? : G → Nat → Option L
  /-- The ends of the edges from a vertex. -/
  targets : G → Nat → List Nat
  /-- The number of the new vertex, and the graph with it. -/
  addVertex : G → L → Nat × G
  /-- Whether the edge is new, and the graph with it. -/
  addEdge : G → Nat → Nat → Bool × G

open GraphLibrary

class LawfulGraphLibrary {L : outParam Type} (G : Type) [GraphLibrary L G] : Prop where
  order_empty : order (empty : G) = 0
  size_empty : size (empty : G) = 0
  number_addVertex (g : G) (l : L) : (addVertex g l).1 = order g
  order_addVertex (g : G) (l : L) : order (addVertex g l).2 = order g + 1
  size_addVertex (g : G) (l : L) : size (addVertex g l).2 = size g
  label?_addVertex (g : G) (l : L) : label? (addVertex g l).2 (order g) = some l
  label?_addVertex_of_lt {g : G} (l : L) {v : Nat} (hv : v < order g) :
    label? (addVertex g l).2 v = label? g v
  targets_addVertex (g : G) (l : L) : targets (addVertex g l).2 (order g) = []
  targets_addVertex_of_lt {g : G} (l : L) {v : Nat} (hv : v < order g) :
    targets (addVertex g l).2 v = targets g v
  order_addEdge {g : G} {v w : Nat} (hv : v < order g) (hw : w < order g) :
    order (addEdge g v w).2 = order g
  size_addEdge {g : G} {v w : Nat} (hv : v < order g) (hw : w < order g) :
    size (addEdge g v w).2 = if w ∈ targets g v then size g else size g + 1
  label?_addEdge {g : G} {v w u : Nat} (hv : v < order g) (hw : w < order g) (hu : u < order g) :
    label? (addEdge g v w).2 u = label? g u
  mem_targets_addEdge {g : G} {v w u x : Nat} (hv : v < order g) (hw : w < order g)
    (hu : u < order g) :
    x ∈ targets (addEdge g v w).2 u ↔ x ∈ targets g u ∨ u = v ∧ x = w
  nodup_targets {g : G} {v : Nat} (hv : v < order g) : (targets g v).Nodup

/-- The labels of the vertices, and the edges between them. -/
structure LabelledGraph (L : Type) where
  labels : Array L
  edges : OrderedSet (Nat × Nat)
  within : ∀ e ∈ edges, e.1 < labels.size ∧ e.2 < labels.size

namespace LabelledGraph

variable {L : Type} {g : LabelledGraph L} {v w : Nat}

def size (g : LabelledGraph L) : Nat := g.edges.size

def withVertex (g : LabelledGraph L) (l : L) : LabelledGraph L where
  labels := g.labels.push l
  edges := g.edges
  within e he := by
    have := g.within e he
    simp only [Array.size_push]
    omega

/-- There are edges between vertices only. -/
def withEdge (g : LabelledGraph L) (v w : Nat) : LabelledGraph L :=
  if h : v < g.labels.size ∧ w < g.labels.size then
    { g with
      edges := g.edges.insert (v, w)
      within := fun e he => by
        rcases OrderedSet.mem_insert.mp he with he | rfl
        · exact g.within e he
        · exact h }
  else g

instance : GraphLibrary L (LabelledGraph L) where
  empty := ⟨#[], ∅, by simp⟩
  order g := g.labels.size
  size := size
  label? g v := g.labels[v]?
  targets g v := (g.edges.toList.filter (·.1 = v)).map (·.2)
  addVertex g l := (g.labels.size, g.withVertex l)
  addEdge g v w := ((v, w) ∉ g.edges, g.withEdge v w)

theorem mem_targets : w ∈ targets g v ↔ (v, w) ∈ g.edges := by
  change w ∈ (g.edges.toList.filter (·.1 = v)).map (·.2) ↔ _
  simp

theorem withEdge_of_lt (hv : v < g.labels.size) (hw : w < g.labels.size) :
    (g.withEdge v w).labels = g.labels ∧ (g.withEdge v w).edges = g.edges.insert (v, w) := by
  rw [withEdge, dif_pos ⟨hv, hw⟩]
  exact ⟨rfl, rfl⟩

instance : LawfulGraphLibrary (LabelledGraph L) where
  order_empty := rfl
  size_empty := rfl
  number_addVertex _ _ := rfl
  order_addVertex g l := Array.size_push l
  size_addVertex _ _ := rfl
  label?_addVertex g l := by
    change (g.labels.push l)[g.labels.size]? = some l
    simp
  label?_addVertex_of_lt {g} l v hv := by
    have hne : v ≠ g.labels.size := Nat.ne_of_lt hv
    change (g.labels.push l)[v]? = g.labels[v]?
    rw [Array.getElem?_push, if_neg hne]
  targets_addVertex g l := by
    change targets g g.labels.size = []
    rw [List.eq_nil_iff_forall_not_mem]
    intro w hw
    exact Nat.lt_irrefl _ (g.within _ (mem_targets.mp hw)).1
  targets_addVertex_of_lt _ _ _ := rfl
  order_addEdge hv hw := congrArg Array.size (withEdge_of_lt hv hw).1
  size_addEdge {g v w} hv hw := by
    change (g.withEdge v w).edges.size = if w ∈ targets g v then g.edges.size else g.edges.size + 1
    rw [(withEdge_of_lt hv hw).2, OrderedSet.size_insert]
    simp only [mem_targets]
  label?_addEdge {g v w u} hv hw _ := by
    change (g.withEdge v w).labels[u]? = g.labels[u]?
    rw [(withEdge_of_lt hv hw).1]
  mem_targets_addEdge {g v w u x} hv hw _ := by
    change x ∈ targets (g.withEdge v w) u ↔ _
    rw [mem_targets, (withEdge_of_lt hv hw).2, OrderedSet.mem_insert, mem_targets, Prod.mk.injEq]
  nodup_targets {g v} _ := by
    refine List.pairwise_map.mpr ((g.edges.nodup.filter _).imp_of_mem ?_)
    intro a b ha hb hab heq
    have hav := of_decide_eq_true (List.mem_filter.mp ha).2
    have hbv := of_decide_eq_true (List.mem_filter.mp hb).2
    exact hab (Prod.ext (hav.trans hbv.symm) heq)

end LabelledGraph
end MonitorElision
