import PackageResolution.Text.Digit

/-!
# PackageResolution.Version.Spelling

The grammar of version texts. A number is `0`, or a digit from `1` to `9` and then decimal digits
of any script. A pre-release identifier is a number, or decimal digits, then a letter or hyphen,
then letters, digits and hyphens. A build part has at least one letter, digit or hyphen.

As patterns, with `\d` for a decimal digit of any script:

    number      0|[1-9]\d*
    label       \d*[A-Za-z-][0-9A-Za-z-]*
    identifier  number|label
    part        [0-9A-Za-z-]+
    version     number\.number\.number(-identifier(\.identifier)*)?(\+part(\.part)*)?

* `isNumber`, `isLabel`, `isIdentifier`, `isBuildPart`: the parts.
* `Spelling`: a text cut into its parts; `Spelling.chars` puts them together again.
* `Spelling.ofChars?`: cuts a text, if it is well formed.
-/

namespace PackageResolution

open Text

/-- A letter of the Latin alphabet or a hyphen: `[A-Za-z-]`. -/
def isLetter (c : Char) : Bool := c.isAlpha || c == '-'

/-- A letter of the Latin alphabet, a digit from `0` to `9` or a hyphen: `[0-9A-Za-z-]`. -/
def isWordPart (c : Char) : Bool := c.isAlphanum || c == '-'

/-- The two alternatives of a number: `0`, and `[1-9]\d*`. -/
def isNumber : List Char → Bool
  | [] => false
  | c :: cs => (c == '0' && cs.isEmpty) || ('1' ≤ c && c ≤ '9' && cs.all isDecimal)

/-- `\d*[A-Za-z-][0-9A-Za-z-]*`. No letter is a decimal digit, so `\d*` takes all the digits in
front. -/
def isLabel (cs : List Char) : Bool :=
  match cs.dropWhile isDecimal with
  | [] => false
  | c :: rest => isLetter c && rest.all isWordPart

def isIdentifier (cs : List Char) : Bool := isNumber cs || isLabel cs

def isBuildPart (cs : List Char) : Bool := !cs.isEmpty && cs.all isWordPart

structure Spelling where
  major : List Char
  minor : List Char
  patch : List Char
  prerelease : List (List Char)
  build : List (List Char)
  deriving DecidableEq, Repr

namespace Spelling

/-- Every part is what its place in a version asks for. -/
def wellFormed (s : Spelling) : Bool :=
  isNumber s.major && isNumber s.minor && isNumber s.patch &&
    s.prerelease.all isIdentifier && s.build.all isBuildPart

/-- Parts behind their mark, with dots between them. -/
def markedChars (mark : Char) : List (List Char) → List Char
  | [] => []
  | p :: ps => mark :: ['.'].intercalate (p :: ps)

def chars (s : Spelling) : List Char :=
  ['.'].intercalate [s.major, s.minor, s.patch] ++ markedChars '-' s.prerelease ++
    markedChars '+' s.build

/-- The three sections of a text: up to the first hyphen or plus sign, from a hyphen there to the
first plus sign, and the rest. A section that is absent has no parts, one that is empty has one
empty part. Numbers have no hyphen, numbers and identifiers no plus sign and no part a dot, so the
pattern of a version can only divide a text in these places. -/
def sections (cs : List Char) : List (List Char) × List (List Char) × List (List Char) :=
  let triple := (cs.takeWhile fun c => c != '-' && c != '+').splitOn '.'
  match cs.dropWhile fun c => c != '-' && c != '+' with
  | [] => (triple, [], [])
  | mark :: rest =>
    if mark == '+' then (triple, [], rest.splitOn '.')
    else
      let prerelease := (rest.takeWhile fun c => c != '+').splitOn '.'
      match rest.dropWhile fun c => c != '+' with
      | [] => (triple, prerelease, [])
      | _ :: build => (triple, prerelease, build.splitOn '.')

/-- Cuts a text into the parts of a version. -/
def ofChars? (cs : List Char) : Option Spelling :=
  match sections cs with
  | ([major, minor, patch], prerelease, build) =>
    let s : Spelling := ⟨major, minor, patch, prerelease, build⟩
    if s.wellFormed then some s else none
  | _ => none

theorem wellFormed_of_ofChars? {cs : List Char} {s : Spelling} (h : ofChars? cs = some s) :
    s.wellFormed = true := by
  simp only [ofChars?] at h
  split at h
  · split at h
    · rename_i hw
      cases h
      exact hw
    · cases h
  · cases h

end Spelling
end PackageResolution
