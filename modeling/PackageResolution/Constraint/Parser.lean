import PackageResolution.Constraint.Clause
import PackageResolution.Constraint.Comparison
import PackageResolution.Version.Parser

/-!
# PackageResolution.Constraint.Parser

Reading constraints. Blanks around the text do not count. Of several faults the leftmost one is
reported, and bounds that leave no room only in a text without other faults.

* `Clause.comparison`, `Clause.comparisons`: clauses with their versions read.
* `Constraint.parse`: the constraint that a text denotes.
-/

namespace PackageResolution

open Text

namespace Clause

/-- Reads the version of a clause. A malformed one is put down to the whole text of the
constraint. -/
def comparison (text : String) (c : Clause) : Except ReadError Comparison :=
  match Version.parse (String.ofList c.version) with
  | .ok v => .ok ⟨c.relation, v⟩
  | .error (.malformed _ _) => .error (.malformed .constraintVersion text)
  | .error e => .error e

/-- Reads the versions of clauses, from left to right. -/
def comparisons (text : String) : List Clause → Except ReadError (List Comparison)
  | [] => .ok []
  | c :: cs =>
    match c.comparison text with
    | .error e => .error e
    | .ok k =>
      match comparisons text cs with
      | .error e => .error e
      | .ok ks => .ok (k :: ks)

end Clause

def Constraint.parse (text : String) : Except ReadError Constraint :=
  let outline := Outline.ofChars (trim text.toList)
  match Clause.comparisons text outline.clauses with
  | .error e => .error e
  | .ok comparisons =>
    if outline.complete then
      match Constraint.ofComparisons? comparisons with
      | none => .error (.malformed .emptyRange text)
      | some c => .ok c
    else .error (.malformed .constraint text)

end PackageResolution
