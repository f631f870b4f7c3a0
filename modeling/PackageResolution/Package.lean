import PackageResolution.Constraint.Printer
import PackageResolution.OrderedMap

/-!
# PackageResolution.Package

Releases of packages, and the repository of all that are known.

* `Package`: a release, with what it depends on and the platforms it supports.
* `Package.equiv`: same name and, up to precedence, same version, dependencies and platform.
* `Repository`: the releases under each name. `Repository.ofPackages` groups a list by name.
-/

namespace PackageResolution

structure Package where
  name : String
  version : Version
  dependencies : OrderedMap String Constraint
  platform : Option Constraint
  deriving DecidableEq

namespace Package

/-- The release can be used on a platform; where either side says nothing, it can. -/
def supports (p : Package) (platform : Option Version) : Bool :=
  match p.platform, platform with
  | some c, some v => c.contains v
  | _, _ => true

def platformEquiv : Option Constraint → Option Constraint → Bool
  | none, none => true
  | some a, some b => a.equiv b
  | _, _ => false

/-- Same release up to precedence of versions. The order of dependencies does not matter. -/
def equiv (a b : Package) : Bool :=
  a.name == b.name && a.version.equiv b.version &&
    OrderedMap.agrees Constraint.equiv a.dependencies b.dependencies &&
    platformEquiv a.platform b.platform

def describe (p : Package) : Except Text.PrintError String :=
  p.version.text.map fun t => "<" ++ p.name ++ "==" ++ t ++ ">"

end Package

/-- All known releases. The name that a release is filed under need not be its own. -/
structure Repository where
  releases : OrderedMap String (List Package)

namespace Repository

/-- Every release of `name`; an unknown name has none. -/
def lookup (r : Repository) (name : String) : List Package := (r.releases.get? name).getD []

theorem lookup_of_not_mem {r : Repository} {name : String} (h : name ∉ r.releases) :
    r.lookup name = [] := by
  rw [lookup, OrderedMap.get?_eq_none_iff.mpr h]
  rfl

/-- What holds of the empty list and of every list on file holds of all that can be looked up. -/
theorem forall_lookup {r : Repository} {P : String → List Package → Prop} (empty : ∀ n, P n [])
    (h : ∀ e ∈ r.releases.entries, P e.1 e.2) (name : String) : P name (r.lookup name) := by
  rw [lookup]
  cases hg : r.releases.get? name with
  | none => exact empty name
  | some ps => exact h (name, ps) (OrderedMap.get?_eq_some_iff.mp hg)

/-- Files a release under its name, behind those that are there. -/
def add (r : Repository) (p : Package) : Repository :=
  ⟨r.releases.insert p.name (r.lookup p.name ++ [p])⟩

def ofPackages (packages : List Package) : Repository := packages.foldl add ⟨OrderedMap.empty⟩

/-- The repository as a value, with its names in order. -/
def describe (r : Repository) : String :=
  "Repository(" ++ Text.quoteList (sortNames r.releases.keys) ++ ")"

end Repository
end PackageResolution
