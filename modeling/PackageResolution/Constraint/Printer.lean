import PackageResolution.Constraint.Basic

/-!
# PackageResolution.Constraint.Printer

The text of a range, with `v` for the versions in it: `1.0.0 <= v < 2.0.0`. A bound that is absent
is left out, and the range of all versions is a star. There is no text where a bound has none.

* `Constraint.text`: the text, or why there is none.
* `Constraint.describe`: the text as it is shown inside descriptions.
-/

namespace PackageResolution

/-- The sign between a bound and the versions inside. -/
def Bound.sign (b : Bound) : String := if b.inclusive then "<=" else "<"

namespace Constraint

open Text

def text (c : Constraint) : Except PrintError String :=
  match c.lower, c.upper with
  | none, none => .ok "*"
  | some l, none => l.version.text.map fun t => t ++ " " ++ l.sign ++ " v"
  | none, some u => u.version.text.map fun t => "v " ++ u.sign ++ " " ++ t
  | some l, some u =>
    match l.version.text with
    | .error e => .error e
    | .ok t => u.version.text.map fun t' => t ++ " " ++ l.sign ++ " v " ++ u.sign ++ " " ++ t'

def describe (c : Constraint) : Except PrintError String :=
  c.text.map fun t => "<Constraint(" ++ quote t ++ ")>"

end Constraint
end PackageResolution
