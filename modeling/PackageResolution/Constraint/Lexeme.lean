import PackageResolution.Text.Blank

/-!
# PackageResolution.Constraint.Lexeme

The words and signs of a constraint's text. The patterns for constraints are put together from these
pieces, with or without blanks between them. A pattern that takes a word takes all of it, since what
may follow a word there is a sign, a comma, a blank or the end.

* `Relation`: the five signs of comparison, `<=|>=|==|<|>`.
* `Lexeme`: a word, a sign or a comma, with a note whether blanks stand in front of it.
* `scan`: cuts a text into lexemes. It never fails: a character that belongs nowhere is a lexeme of
  its own.
-/

namespace PackageResolution

open Text

inductive Relation where
  | below
  | atMost
  | exactly
  | atLeast
  | above
  deriving DecidableEq, Repr

inductive Token where
  | word (chars : List Char)
  | relation (r : Relation)
  | comma
  /-- A character that no constraint has outside of a bare version. -/
  | stray (c : Char)
  deriving DecidableEq, Repr

/-- A piece of text, and whether it is set off from what comes before. -/
structure Lexeme where
  spaced : Bool
  token : Token
  deriving DecidableEq, Repr

namespace Lexeme

/-- A letter of the Latin alphabet, a digit from `0` to `9`, a dot, a plus sign or a hyphen. The
word of a bound is `[0-9A-Za-z.+-]+`. -/
def isWordChar (c : Char) : Bool := c.isAlphanum || c == '.' || c == '+' || c == '-'

/-- Adds a character to the front of a word that follows directly, or starts a new word. -/
def attach (spaced : Bool) (c : Char) : List Lexeme → List Lexeme
  | ⟨false, .word w⟩ :: rest => ⟨spaced, .word (c :: w)⟩ :: rest
  | rest => ⟨spaced, .word [c]⟩ :: rest

/-- The lexemes of a text; `spaced` tells whether blanks stand in front of it. Of two signs that fit
the longer one counts: no pattern goes on with `=` after `<` or `>`. -/
def scan (spaced : Bool) : List Char → List Lexeme
  | [] => []
  | c :: cs =>
    if isBlank c then scan true cs
    else if isWordChar c then attach spaced c (scan false cs)
    else
      match c, cs with
      | '<', '=' :: rest => ⟨spaced, .relation .atMost⟩ :: scan false rest
      | '>', '=' :: rest => ⟨spaced, .relation .atLeast⟩ :: scan false rest
      | '=', '=' :: rest => ⟨spaced, .relation .exactly⟩ :: scan false rest
      | '<', rest => ⟨spaced, .relation .below⟩ :: scan false rest
      | '>', rest => ⟨spaced, .relation .above⟩ :: scan false rest
      | ',', rest => ⟨spaced, .comma⟩ :: scan false rest
      | c, rest => ⟨spaced, .stray c⟩ :: scan false rest

theorem scan_blank {c : Char} (h : isBlank c = true) (spaced : Bool) (cs : List Char) :
    scan spaced (c :: cs) = scan true cs := by
  rw [scan.eq_def]
  simp [h]

theorem scan_wordChar {c : Char} (hb : isBlank c = false) (hw : isWordChar c = true) (spaced : Bool)
    (cs : List Char) : scan spaced (c :: cs) = attach spaced c (scan false cs) := by
  rw [scan.eq_def]
  simp [hb, hw]

end Lexeme
end PackageResolution
