import PackageResolution.Version.Basic

/-!
# PackageResolution.Version.Printer

The text of a version: `1.2.3-rc.1+build.5`. The pre-release is introduced by a hyphen, the build
metadata by a plus sign, and each is left out where there is none. A version with a number that is
too long to be written has no text.

* `Version.text`: the text, or why there is none.
* `Version.describe`: the text as it is shown inside descriptions.
* `Version.Printable`: there is a text. `Version.spelled` is what it says.
-/

namespace PackageResolution
namespace Version

open Text

/-- A list of parts behind its mark; nothing at all for no parts. -/
def marked (mark : String) : List String → String
  | [] => ""
  | p :: ps => mark ++ String.intercalate "." (p :: ps)

def text (v : Version) : Except PrintError String :=
  match printNumeral v.major with
  | .error e => .error e
  | .ok major =>
    match printNumeral v.minor with
    | .error e => .error e
    | .ok minor =>
      match printNumeral v.patch with
      | .error e => .error e
      | .ok patch =>
        .ok (major ++ "." ++ minor ++ "." ++ patch ++ marked "-" (v.prerelease.map (·.text)) ++
          marked "+" v.build)

def describe (v : Version) : Except PrintError String :=
  v.text.map fun t => "<Version(" ++ quote t ++ ")>"

/-! ## Versions with a text -/

/-- The numbers of the version are short enough to be written. -/
def Printable (v : Version) : Prop :=
  ∀ n ∈ [v.major, v.minor, v.patch], (toString n).length ≤ maxDigits

instance (v : Version) : Decidable v.Printable :=
  inferInstanceAs (Decidable (∀ n ∈ [v.major, v.minor, v.patch], (toString n).length ≤ maxDigits))

/-- What the text says, without regard to the length of the numbers. -/
def spelled (v : Version) : String :=
  toString v.major ++ "." ++ toString v.minor ++ "." ++ toString v.patch ++
    marked "-" (v.prerelease.map (·.text)) ++ marked "+" v.build

theorem printable_iff {v : Version} :
    v.Printable ↔ (toString v.major).length ≤ maxDigits ∧ (toString v.minor).length ≤ maxDigits ∧
      (toString v.patch).length ≤ maxDigits := by
  simp [Printable]

theorem text_of_printable {v : Version} (h : v.Printable) : v.text = .ok v.spelled := by
  obtain ⟨hmajor, hminor, hpatch⟩ := printable_iff.mp h
  simp only [text, printNumeral_of_le hmajor, printNumeral_of_le hminor, printNumeral_of_le hpatch]
  rfl

theorem text_of_not_printable {v : Version} (h : ¬ v.Printable) : v.text = .error .tooLong := by
  simp only [text]
  rcases Nat.lt_or_ge maxDigits (toString v.major).length with hmajor | hmajor
  · simp only [printNumeral_of_lt hmajor]
  · rcases Nat.lt_or_ge maxDigits (toString v.minor).length with hminor | hminor
    · simp only [printNumeral_of_le hmajor, printNumeral_of_lt hminor]
    · have hpatch := fun hp => h (printable_iff.mpr ⟨hmajor, hminor, hp⟩)
      simp only [printNumeral_of_le hmajor, printNumeral_of_le hminor,
        printNumeral_of_lt (Nat.lt_of_not_le hpatch)]

theorem text_eq_ok_iff {v : Version} {t : String} :
    v.text = .ok t ↔ v.Printable ∧ v.spelled = t := by
  by_cases h : v.Printable
  · simp [text_of_printable h, h]
  · simp [text_of_not_printable h, h]

theorem text_eq_error_iff {v : Version} {e : PrintError} : v.text = .error e ↔ ¬ v.Printable := by
  cases e
  by_cases h : v.Printable
  · simp [text_of_printable h, h]
  · simp [text_of_not_printable h, h]

end Version
end PackageResolution
