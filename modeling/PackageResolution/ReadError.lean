import PackageResolution.Text.Numeral
import PackageResolution.Text.Quoted

/-!
# PackageResolution.ReadError

Why versions and constraints are refused, by text or by parts, and the wording of such failures.

* `Subject`: what a text was taken for when it turned out to be malformed.
* `ReadError`: the causes, with their wording in `ReadError.message`.
* `PrintError.message`: the wording where a number is too long to be written.
-/

namespace PackageResolution

open Text

inductive Subject where
  | version
  | constraint
  /-- A version inside a constraint. -/
  | constraintVersion
  /-- A constraint whose bounds leave no room between them. -/
  | emptyRange
  deriving DecidableEq, Repr

def Subject.words : Subject → String
  | .version => "version"
  | .constraint => "constraint"
  | .constraintVersion => "constraint version"
  | .emptyRange => "empty range"

inductive ReadError where
  /-- The text is not well formed; `text` is all of it, blanks included. -/
  | malformed (subject : Subject) (text : String)
  /-- A component of a version is below zero. -/
  | negativeComponent
  /-- The bounds given for a constraint leave no room between them. -/
  | crossedBounds
  /-- A number in a version cannot be read. -/
  | numeral (e : NumeralError)
  deriving DecidableEq, Repr

/-- The largest count of characters shown of a text that is not a number. -/
def shownNumeral : Nat := 200

/-- The notice that a number goes beyond the limit, with what is known of its length. -/
def Text.limitNotice (length : String) : String :=
  "Exceeds the limit (" ++ toString maxDigits ++ " digits) for integer string conversion" ++
    length ++ "; use sys.set_int_max_str_digits() to increase the limit"

def Text.PrintError.message : PrintError → String
  | .tooLong => limitNotice ""

def Text.NumeralError.message : NumeralError → String
  | .tooLong digits => limitNotice (": value has " ++ toString digits ++ " digits")
  | .unreadable text =>
    "invalid literal for int() with base 10: " ++
      String.ofList ((quote text).toList.take shownNumeral)

def ReadError.message : ReadError → String
  | .malformed subject text => "invalid " ++ subject.words ++ ": " ++ quote text
  | .negativeComponent => "version components must not be negative"
  | .crossedBounds => "constraint range is empty"
  | .numeral e => e.message

end PackageResolution
