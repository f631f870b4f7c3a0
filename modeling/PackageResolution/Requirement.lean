import PackageResolution.Package

/-!
# PackageResolution.Requirement

What is asked of a package, and by whom. Conflicts are explained by lists of requirements.

* `Requirement`: a constraint on a name, with the release that imposes it.
* `Package.requirements`: what a release imposes.
-/

namespace PackageResolution

/-- A constraint on the version of a package. Requirements of the root have no parent. -/
structure Requirement where
  name : String
  constraint : Constraint
  parent : Option Package
  deriving DecidableEq

/-- What a release asks of others, in the order of its dependencies. -/
def Package.requirements (p : Package) : List Requirement :=
  p.dependencies.entries.map fun e => ⟨e.1, e.2, some p⟩

namespace Requirement

open Text

/-- Both absent, or the same release up to precedence. -/
def parentEquiv : Option Package → Option Package → Bool
  | none, none => true
  | some a, some b => a.equiv b
  | _, _ => false

def equiv (a b : Requirement) : Bool :=
  a.name == b.name && a.constraint.equiv b.constraint && parentEquiv a.parent b.parent

def listEquiv : List Requirement → List Requirement → Bool
  | [], [] => true
  | a :: as, b :: bs => a.equiv b && listEquiv as bs
  | _, _ => false

def describeParent : Option Package → Except PrintError String
  | none => .ok "None"
  | some p => p.describe

def describe (r : Requirement) : Except PrintError String :=
  match r.constraint.describe with
  | .error e => .error e
  | .ok c =>
    (describeParent r.parent).map fun p =>
      "RequirementInformation(name=" ++ quote r.name ++ ", constraint=" ++ c ++ ", parent=" ++ p ++
        ")"

def describeList (rs : List Requirement) : Except PrintError String :=
  (rs.mapM describe).map fun ts => "[" ++ String.intercalate ", " ts ++ "]"

end Requirement
end PackageResolution
