import PackageResolution.Package

/-!
# PackageResolution.Catalog

The releases that a search may choose from: those of a repository that support the platform.

* `Catalog.preferred`: newest first. Releases of one precedence come in descending order of the text
  of their versions, and in the order of the repository if that is the same too.
* `Catalog.findCandidates`: the releases of a name that satisfy a constraint, best first. It takes
  the texts of all their versions, also of a single one, and fails where a version has none.
-/

namespace PackageResolution

open Text

/-- A repository and the platform that releases have to support, if it is known. -/
structure Catalog where
  repository : Repository
  platform : Option Version

namespace Catalog

/-- The release satisfies the constraint and supports the platform. -/
def admits (g : Catalog) (c : Constraint) (p : Package) : Bool :=
  c.contains p.version && p.supports g.platform

/-- Releases with the texts of their versions. -/
def withTexts : List Package → Except PrintError (List (Package × String))
  | [] => .ok []
  | p :: ps =>
    match p.version.text with
    | .error e => .error e
    | .ok t =>
      match withTexts ps with
      | .error e => .error e
      | .ok rest => .ok ((p, t) :: rest)

def preferred (a b : Package × String) : Bool :=
  match b.1.version.compare a.1.version with
  | .lt => true
  | .eq => decide (b.2 ≤ a.2)
  | .gt => false

/-- The releases in the order in which they are tried. -/
def bestFirst (ps : List Package) : Except PrintError (List Package) :=
  match withTexts ps with
  | .error e => .error e
  | .ok keyed => .ok ((stableSort preferred keyed).map Prod.fst)

def findCandidates (g : Catalog) (name : String) (c : Constraint) :
    Except PrintError (List Package) :=
  bestFirst ((g.repository.lookup name).filter (g.admits c))

end Catalog
end PackageResolution
