import PackageResolution.Constraint.Basic
import PackageResolution.Constraint.Lexeme

/-!
# PackageResolution.Constraint.Comparison

Comparisons with a version, the conditions that constraints are written with.

* `Comparison`: a relation and a version; `Comparison.holds` is its meaning.
* `Constraint.ofComparisons?`: the range in which all of a list of comparisons hold.
-/

namespace PackageResolution

/-- The relation as a condition on the order of two versions. -/
def Relation.accepts : Relation → Ordering → Bool
  | .below, o => o.isLT
  | .atMost, o => o.isLE
  | .exactly, o => o.isEq
  | .atLeast, o => o.isGE
  | .above, o => o.isGT

structure Comparison where
  relation : Relation
  version : Version
  deriving DecidableEq

namespace Comparison

def holds (c : Comparison) (v : Version) : Bool := c.relation.accepts (v.compare c.version)

def lower? (c : Comparison) : Option Bound :=
  match c.relation with
  | .exactly | .atLeast => some ⟨c.version, true⟩
  | .above => some ⟨c.version, false⟩
  | .below | .atMost => none

def upper? (c : Comparison) : Option Bound :=
  match c.relation with
  | .exactly | .atMost => some ⟨c.version, true⟩
  | .below => some ⟨c.version, false⟩
  | .above | .atLeast => none

def tightestLower (cs : List Comparison) : Option Bound :=
  cs.foldl (fun b c => Bound.tighterLower b c.lower?) none

def tightestUpper (cs : List Comparison) : Option Bound :=
  cs.foldl (fun b c => Bound.tighterUpper b c.upper?) none

end Comparison

/-- The range in which all comparisons hold, if their bounds leave room. -/
def Constraint.ofComparisons? (cs : List Comparison) : Option Constraint :=
  Constraint.ofBounds? (Comparison.tightestLower cs) (Comparison.tightestUpper cs)

end PackageResolution
