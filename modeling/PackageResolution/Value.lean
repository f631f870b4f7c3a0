import PackageResolution.Package

/-!
# PackageResolution.Value

Comparing values of different kinds. Versions, constraints and packages are equal up to precedence,
values of different kinds never are, and only two versions have an order.

* `Value.equiv`: equality.
* `Value.compareBy`: the order relations, or why two values have none.
-/

namespace PackageResolution

/-- The kinds of values that are not of this library. -/
inductive PlainKind where
  | text
  | integer
  | boolean
  | list
  | null
  deriving DecidableEq, Repr

/-- A value that can be compared. A plain one is given by its kind and its written form. -/
inductive Value where
  | version (v : Version)
  | constraint (c : Constraint)
  | package (p : Package)
  | plain (kind : PlainKind) (written : String)
  deriving DecidableEq

inductive Inequality where
  | less
  | lessOrEqual
  | greater
  | greaterOrEqual
  deriving DecidableEq, Repr

namespace Inequality

def sign : Inequality → String
  | .less => "<"
  | .lessOrEqual => "<="
  | .greater => ">"
  | .greaterOrEqual => ">="

def accepts : Inequality → Ordering → Bool
  | .less, o => o.isLT
  | .lessOrEqual, o => o.isLE
  | .greater, o => o.isGT
  | .greaterOrEqual, o => o.isGE

end Inequality

/-- Two values have no order: the relation that was asked for, and their kinds in words. -/
structure Incomparable where
  relation : Inequality
  left : String
  right : String
  deriving DecidableEq, Repr

def Incomparable.message (e : Incomparable) : String :=
  Text.quote e.relation.sign ++ " not supported between instances of " ++ Text.quote e.left ++
    " and " ++ Text.quote e.right

namespace Value

def kindName : Value → String
  | .version _ => "Version"
  | .constraint _ => "Constraint"
  | .package _ => "Package"
  | .plain .text _ => "str"
  | .plain .integer _ => "int"
  | .plain .boolean _ => "bool"
  | .plain .list _ => "list"
  | .plain .null _ => "NoneType"

def equiv : Value → Value → Bool
  | .version a, .version b => a.equiv b
  | .constraint a, .constraint b => a.equiv b
  | .package a, .package b => a.equiv b
  | .plain k a, .plain l b => k == l && a == b
  | _, _ => false

def compareBy (relation : Inequality) : Value → Value → Except Incomparable Bool
  | .version a, .version b => .ok (relation.accepts (a.compare b))
  | a, b => .error ⟨relation, a.kindName, b.kindName⟩

end Value
end PackageResolution
