import PackageResolution.ReadError
import PackageResolution.Sorting
import PackageResolution.Version.Identifier

/-!
# PackageResolution.Version.Basic

Versions of packages and their precedence. A version is a triple of numbers, the identifiers of a
pre-release and the parts of its build metadata. The metadata takes no part in precedence, so two
different versions can have the same one.

* `Version.ofParts`: the constructor, which refuses negative numbers and unreadable identifiers.
* `Version.compare`: precedence. The triple decides first; a pre-release comes before its release;
  identifiers are compared one by one, and a list that ends first comes first.
* `Version.equiv`: same precedence. Plain `=` also tells metadata apart.
-/

namespace PackageResolution

structure Version where
  major : Nat
  minor : Nat
  patch : Nat
  prerelease : List Identifier
  build : List String
  deriving DecidableEq

namespace Version

def ofParts (major minor patch : Int) (prerelease build : List String) :
    Except ReadError Version :=
  if major < 0 ∨ minor < 0 ∨ patch < 0 then .error .negativeComponent
  else
    match Identifier.ofTexts prerelease with
    | .error e => .error (.numeral e)
    | .ok identifiers =>
      .ok ⟨major.toNat, minor.toNat, patch.toNat, identifiers, build⟩

def isPrerelease (v : Version) : Bool := !v.prerelease.isEmpty

/-! ## Precedence -/

/-- The ranks of the pre-release identifiers. -/
def ranks (v : Version) : List Rank := v.prerelease.map (·.rank)

protected def compare : Version → Version → Ordering :=
  compareLex (compareOn major) <| compareLex (compareOn minor) <| compareLex (compareOn patch) <|
    compareLex (compareOn fun v => v.prerelease.isEmpty) (compareOn ranks)

instance : Std.TransCmp Version.compare :=
  inferInstanceAs (Std.TransCmp (compareLex _ _))

def equiv (a b : Version) : Bool := (a.compare b).isEq

/-- `a` does not come after `b`. -/
def upTo (a b : Version) : Bool := (a.compare b).isLE

theorem compare_eq (v w : Version) :
    v.compare w = (compare v.major w.major).then ((compare v.minor w.minor).then
      ((compare v.patch w.patch).then ((compare v.prerelease.isEmpty w.prerelease.isEmpty).then
        (compare v.ranks w.ranks)))) := rfl

theorem compare_self (v : Version) : v.compare v = .eq := Std.ReflCmp.compare_self

theorem compare_swap (a b : Version) : a.compare b = (b.compare a).swap :=
  Std.OrientedCmp.eq_swap

theorem equiv_iff {a b : Version} : a.equiv b = true ↔ a.compare b = .eq := by
  simp [equiv]

/-- Versions of one precedence stand in the same relation to every third version. -/
theorem compare_congr_left {a b : Version} (c : Version) (h : a.compare b = .eq) :
    a.compare c = b.compare c :=
  Std.TransCmp.congr_left h

/-! ## Lists of versions -/

/-- Ascending; versions of one precedence keep their order. -/
def sorted (vs : List Version) : List Version := stableSort upTo vs

/-- Descending; versions of one precedence keep their order. -/
def sortedDescending (vs : List Version) : List Version := stableSort (fun a b => upTo b a) vs

end Version
end PackageResolution
