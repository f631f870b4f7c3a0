import PackageResolution.Text.Blank
import PackageResolution.Version.Basic
import PackageResolution.Version.Spelling

/-!
# PackageResolution.Version.Parser

Reading versions. Blanks around the text do not count. A text that the grammar refuses is
malformed; one that it accepts can still hold a number with too many digits.

* `Spelling.version`: the version that the parts of a text denote.
* `Version.parse`: the version that a text denotes.
-/

namespace PackageResolution

open Text

/-- The version that the parts of a text denote. Of several bad numbers the first is reported. -/
def Spelling.version (s : Spelling) : Except NumeralError Version :=
  match readNumeral s.major with
  | .error e => .error e
  | .ok major =>
    match readNumeral s.minor with
    | .error e => .error e
    | .ok minor =>
      match readNumeral s.patch with
      | .error e => .error e
      | .ok patch =>
        match Identifier.ofTexts (s.prerelease.map String.ofList) with
        | .error e => .error e
        | .ok prerelease => .ok ⟨major, minor, patch, prerelease, s.build.map String.ofList⟩

def Version.parse (text : String) : Except ReadError Version :=
  match Spelling.ofChars? (trim text.toList) with
  | none => .error (.malformed .version text)
  | some s =>
    match s.version with
    | .error e => .error (.numeral e)
    | .ok v => .ok v

end PackageResolution
