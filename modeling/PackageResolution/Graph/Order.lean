import PackageResolution.Graph.Basic
import PackageResolution.Graph.Reach

/-!
# PackageResolution.Graph.Order

An order in which packages can be installed: each one after what it depends on. The names come in
batches, which are taken out of a map of what is still to be done. A batch holds every name that has
no dependencies left. Where cycles leave none, it holds the members of the cycles that depend on
nothing outside.

* `Graph.remaining`: the packages of a graph with their dependencies.
* `nextBatch`, `drain`: one batch, and one after the other until there are no more.
* `Graph.topologicalOrder`: the names of a graph in order.
-/

namespace PackageResolution

/-- The vertices that have no children left. -/
def ready (remaining : EdgeMap Vertex) : List Vertex :=
  (remaining.entries.filter fun e => e.2.isEmpty).map Prod.fst

/-- The vertices to come next among those that are left. -/
def nextBatch (remaining : EdgeMap Vertex) : Except Vertex (List Vertex) :=
  match ready remaining with
  | v :: vs => .ok (v :: vs)
  | [] =>
    match remaining.terminal with
    | .error v => .error v
    | .ok vs => .ok (Graph.sortVertices vs)

theorem mem_of_mem_nextBatch {remaining : EdgeMap Vertex} {vs : List Vertex} {v : Vertex}
    (h : nextBatch remaining = .ok vs) (hv : v ∈ vs) : v ∈ remaining.keys := by
  rw [nextBatch] at h
  split at h
  · rename_i hready
    cases h
    rw [← hready] at hv
    exact (List.filter_sublist.map Prod.fst).subset hv
  · split at h
    · cases h
    · rename_i hterminal
      cases h
      exact (EdgeMap.sublist_of_terminal hterminal).subset (mem_stableSort.mp hv)

/-- Takes out one batch after the other, until nothing more can be done. -/
def drain (remaining : EdgeMap Vertex) : Except Vertex (List Vertex) :=
  match _h : nextBatch remaining with
  | .error v => .error v
  | .ok [] => .ok []
  | .ok (v :: vs) =>
    match drain (remaining.remove (v :: vs)) with
    | .error w => .error w
    | .ok rest => .ok (v :: vs ++ rest)
termination_by remaining.size
decreasing_by
  have hv : v ∈ remaining.keys := mem_of_mem_nextBatch _h List.mem_cons_self
  rw [OrderedMap.size_eq_length_keys, OrderedMap.size_eq_length_keys, EdgeMap.keys_remove]
  exact List.length_filter_lt_length_iff_exists.mpr ⟨v, hv, by simp⟩

namespace Graph

def names (g : Graph) : List String := sortNames (g.children.keys.filterMap Vertex.name?)

/-- A package with the vertices that it depends on. -/
def row? (g : Graph) (n : String) : Option (Vertex × List Vertex) :=
  (g.children.get? (.package n)).map fun vs => (.package n, vs)

/-- The packages, in the order of their names, with what they depend on. -/
def remaining (g : Graph) : EdgeMap Vertex := .ofList (g.names.filterMap g.row?)

/-- The packages, each one after its dependencies, members of a cycle together. The root is no
package, so an edge that leads to it is never done with, and looking up what it needs is an
error. -/
def topologicalOrder (g : Graph) : Except GraphError (List String) :=
  match drain g.remaining with
  | .error v => .error (.missing v)
  | .ok vs => .ok (vs.filterMap Vertex.name?)

end Graph
end PackageResolution
