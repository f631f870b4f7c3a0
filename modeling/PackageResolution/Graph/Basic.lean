import PackageResolution.OrderedMap
import PackageResolution.Sorting
import PackageResolution.Text.Quoted

/-!
# PackageResolution.Graph.Basic

Graphs of which package depends on which. One vertex, the root, stands for the requirements of the
user; the others are names of packages. Edges lead from a parent to a child that it depends on. They
are kept in both directions, and the root has no parents. Only `Graph.add` makes entries for
children, one for each vertex, so the vertices are the keys of those.

* `Graph.add`, `Graph.connect`: adding vertices and edges.
* `Graph.children?`, `Graph.parents?`: the neighbours of a vertex.
-/

namespace PackageResolution

inductive Vertex where
  | root
  | package (name : String)
  deriving DecidableEq, Repr

namespace Vertex

def name? : Vertex → Option String
  | .root => none
  | .package n => some n

/-- The root before all packages, packages by code point. -/
def upTo : Vertex → Vertex → Bool
  | .root, _ => true
  | .package _, .root => false
  | .package a, .package b => decide (a ≤ b)

def describe : Vertex → String
  | .root => "None"
  | .package n => Text.quote n

end Vertex

inductive GraphError where
  | vertexExists
  | missing (v : Vertex)
  deriving DecidableEq, Repr

def GraphError.message : GraphError → String
  | .vertexExists => "vertex exists"
  | .missing v => v.describe

structure Graph where
  children : OrderedMap Vertex (List Vertex)
  parents : OrderedMap String (List Vertex)

namespace Graph

def empty : Graph := ⟨OrderedMap.empty, OrderedMap.empty⟩

instance : Membership Vertex Graph := ⟨fun g v => v ∈ g.children⟩

instance (v : Vertex) (g : Graph) : Decidable (v ∈ g) :=
  inferInstanceAs (Decidable (v ∈ g.children))

def size (g : Graph) : Nat := g.children.size

/-- Adds a vertex that is not there yet. -/
def add (g : Graph) (v : Vertex) : Except GraphError Graph :=
  if v ∈ g then .error .vertexExists
  else
    match v with
    | .root => .ok { g with children := g.children.insert .root [] }
    | .package n =>
      .ok ⟨g.children.insert (.package n) [], g.parents.insert n []⟩

/-- Adds a vertex to a list of neighbours, once. -/
def join (v : Vertex) (vs : List Vertex) : List Vertex := if v ∈ vs then vs else vs ++ [v]

/-- Adds an edge between vertices that are there, forwards and then backwards. The result is the
graph afterwards, and why the edge could not be recorded in both directions. The root has no entry
for its parents; the packages that `Graph.add` has put there have one. -/
def connect (g : Graph) (parent child : Vertex) : Graph × Option GraphError :=
  match g.children.get? parent with
  | none => (g, some (.missing parent))
  | some vs =>
    if child ∈ g then
      let forwards := g.children.insert parent (join child vs)
      match child with
      | .root => ({ g with children := forwards }, some (.missing .root))
      | .package n =>
        match g.parents.get? n with
        | none => ({ g with children := forwards }, some (.missing (.package n)))
        | some ps => (⟨forwards, g.parents.insert n (join parent ps)⟩, none)
    else (g, some (.missing child))

/-- The vertices that `v` depends on. -/
def children? (g : Graph) (v : Vertex) : Except GraphError (List Vertex) :=
  match g.children.get? v with
  | none => .error (.missing v)
  | some vs => .ok vs

/-- The vertices that depend on `v`. -/
def parents? (g : Graph) (v : Vertex) : Except GraphError (List Vertex) :=
  match v with
  | .root => .error (.missing .root)
  | .package n =>
    match g.parents.get? n with
    | none => .error (.missing (.package n))
    | some vs => .ok vs

def edges (g : Graph) : List (Vertex × Vertex) :=
  g.children.entries.flatMap fun e => e.2.map fun child => (e.1, child)

def sortVertices (vs : List Vertex) : List Vertex := stableSort Vertex.upTo vs

/-- Edges by parent, then by child. -/
def sortEdges (es : List (Vertex × Vertex)) : List (Vertex × Vertex) :=
  stableSort (fun a b => if a.1 = b.1 then a.2.upTo b.2 else a.1.upTo b.1) es

end Graph
end PackageResolution
