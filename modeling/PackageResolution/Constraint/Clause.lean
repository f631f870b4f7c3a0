import PackageResolution.Constraint.Lexeme

/-!
# PackageResolution.Constraint.Clause

The grammar of constraint texts. A constraint is written in one of four ways: a star for all
versions, bounds around the letter `v` (`1.0.0 <= v < 2.0.0`), comparisons with blanks or a comma
between them (`>=1.0.0, <2.0.0`), or a bare version. As patterns, with `\s` for a blank:

    range       word\s*(<=|<)\s*v\s*(<=|<)\s*word
    lower only  word\s*(<=|<)\s*v
    upper only  v\s*(<=|<)\s*word
    comparison  (<=|>=|==|<|>)\s*word
    separator   \s*,\s*|\s+

Lexemes leave out what `\s*` matches, so each of these is a list of tokens.

* `Clause`: a comparison whose version is still text.
* `Outline`: the clauses of a text, and whether the text goes on in a way that no rule allows.
* `Outline.ofChars`: the outline of a text. Which rule applies is decided by its lexemes alone,
  never by what its versions look like.
-/

namespace PackageResolution

structure Clause where
  relation : Relation
  version : List Char
  deriving DecidableEq, Repr

/-- The clauses of a text, up to its end or to the first place that no rule allows. -/
structure Outline where
  clauses : List Clause
  complete : Bool
  deriving DecidableEq, Repr

/-- The relation read from right to left, where it is one that may stand next to the letter `v`. -/
def Relation.flipped? : Relation → Option Relation
  | .below => some .above
  | .atMost => some .atLeast
  | _ => none

namespace Clause

def left? (version : List Char) (r : Relation) : Option Clause :=
  match r.flipped? with
  | some r' => some ⟨r', version⟩
  | none => none

def right? (r : Relation) (version : List Char) : Option Clause :=
  match r.flipped? with
  | some _ => some ⟨r, version⟩
  | none => none

/-- Bounds around the letter `v`: the range, the lower bound only, or the upper bound only. They are
tried in this order, so the lower bound of `v < v` is a version that is spelled `v`. -/
def interval? : List Token → Option (List Clause)
  | [.word l, .relation r, .word ['v'], .relation r', .word u] =>
    match left? l r, right? r' u with
    | some a, some b => some [a, b]
    | _, _ => none
  | [.word l, .relation r, .word u] =>
    if u = ['v'] then (left? l r).map ([·])
    else if l = ['v'] then (right? r u).map ([·])
    else none
  | _ => none

end Clause

namespace Outline

def cons (c : Clause) (o : Outline) : Outline := ⟨c :: o.clauses, o.complete⟩

/-- Comparisons with separators between them. The separator `\s*,\s*` is a comma, and `\s+` is what
sets off a lexeme that is no comma. -/
def comparisons : List Lexeme → Outline
  | ⟨_, .relation r⟩ :: ⟨_, .word w⟩ :: rest =>
    match rest with
    | [] => ⟨[⟨r, w⟩], true⟩
    | next :: rest' =>
      if next.token = .comma then cons ⟨r, w⟩ (comparisons rest')
      else if next.spaced then cons ⟨r, w⟩ (comparisons (next :: rest'))
      else ⟨[⟨r, w⟩], false⟩
  | _ => ⟨[], false⟩

/-- `[<>=]`. -/
def startsComparison (c : Char) : Bool := c == '<' || c == '>' || c == '='

/-- The outline of a text without blanks at its ends: a star, bounds around `v`, comparisons if a
sign stands in front, and otherwise a bare version. -/
def ofChars : List Char → Outline
  | [] => ⟨[], false⟩
  | c :: cs =>
    if c :: cs = ['*'] then ⟨[], true⟩
    else
      let lexemes := Lexeme.scan false (c :: cs)
      match Clause.interval? (lexemes.map (·.token)) with
      | some clauses => ⟨clauses, true⟩
      | none =>
        if startsComparison c then comparisons lexemes
        else ⟨[⟨.exactly, c :: cs⟩], true⟩

end Outline
end PackageResolution
