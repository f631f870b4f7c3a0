import PackageResolution.Graph.Basic
import PackageResolution.Package

/-!
# PackageResolution.Graph.Build

The graph of a choice of releases: the root depends on the names that the user asked for, and each
chosen release on the names among its dependencies.

* `Graph.ofPackages`: the graph, or the first name that is asked for and not chosen.
-/

namespace PackageResolution
namespace Graph

def addAll : Graph → List Vertex → Except GraphError Graph
  | g, [] => .ok g
  | g, v :: vs =>
    match g.add v with
    | .error e => .error e
    | .ok g' => addAll g' vs

def connectAll : Graph → List (Vertex × Vertex) → Except GraphError Graph
  | g, [] => .ok g
  | g, e :: es =>
    match g.connect e.1 e.2 with
    | (_, some error) => .error error
    | (g', none) => connectAll g' es

/-- The edges that a choice of releases needs: from the root, then from each release. -/
def neededEdges (packages : OrderedMap String Package) (roots : List String) :
    List (Vertex × Vertex) :=
  (roots.map fun n => (Vertex.root, Vertex.package n)) ++
    packages.entries.flatMap fun e =>
      e.2.dependencies.keys.map fun d => (Vertex.package e.1, Vertex.package d)

def ofPackages (packages : OrderedMap String Package) (roots : List String) :
    Except GraphError Graph :=
  match empty.addAll (.root :: packages.keys.map .package) with
  | .error e => .error e
  | .ok g => g.connectAll (neededEdges packages roots)

end Graph
end PackageResolution
