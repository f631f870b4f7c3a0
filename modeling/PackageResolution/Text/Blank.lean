import PackageResolution.Text.CodeRange

/-!
# PackageResolution.Text.Blank

White space: the characters that separate the words of a text and that are dropped at its ends.

* `isBlank`: the class, over all of Unicode. The information separators `U+001C` to `U+001F` belong
  to it, the zero-width characters do not.
* `trim`: a text without the blanks at its two ends. `Trimmed` says that there are none.
-/

namespace PackageResolution
namespace Text

def blankRanges : List CodeRange :=
  [⟨0x09, 0x0D⟩, ⟨0x1C, 0x20⟩, ⟨0x85, 0x85⟩, ⟨0xA0, 0xA0⟩, ⟨0x1680, 0x1680⟩, ⟨0x2000, 0x200A⟩,
   ⟨0x2028, 0x2029⟩, ⟨0x202F, 0x202F⟩, ⟨0x205F, 0x205F⟩, ⟨0x3000, 0x3000⟩]

def isBlank (c : Char) : Bool := inRanges blankRanges c

/-- The text from its first character that is not blank. -/
def dropBlanks (cs : List Char) : List Char := cs.dropWhile isBlank

/-- The text from its first to its last character that is not blank. -/
def trim (cs : List Char) : List Char := (dropBlanks (dropBlanks cs).reverse).reverse

theorem dropBlanks_cons_of_not {c : Char} {cs : List Char} (h : isBlank c = false) :
    dropBlanks (c :: cs) = c :: cs := by
  simp [dropBlanks, h]

/-- A text whose first and last characters are not blank is left as it is. -/
theorem trim_eq_self {cs : List Char} (first : dropBlanks cs = cs)
    (last : dropBlanks cs.reverse = cs.reverse) : trim cs = cs := by
  simp [trim, first, last]

/-- Neither the first nor the last character is blank. -/
structure Trimmed (cs : List Char) : Prop where
  first : ∀ c, cs.head? = some c → isBlank c = false
  last : ∀ c, cs.getLast? = some c → isBlank c = false

theorem head_dropBlanks {cs : List Char} {c : Char} (h : (dropBlanks cs).head? = some c) :
    isBlank c = false := by
  have hn := List.head?_dropWhile_not isBlank cs
  unfold dropBlanks at h
  rw [h] at hn
  exact hn

theorem dropBlanks_of_head {cs : List Char} (h : ∀ c, cs.head? = some c → isBlank c = false) :
    dropBlanks cs = cs := by
  cases cs with
  | nil => rfl
  | cons c cs => exact dropBlanks_cons_of_not (h c rfl)

theorem trimmed_trim (cs : List Char) : Trimmed (trim cs) := by
  constructor
  · intro c h
    rw [trim, List.head?_reverse] at h
    have hsuffix : dropBlanks (dropBlanks cs).reverse <:+ (dropBlanks cs).reverse :=
      List.dropWhile_suffix isBlank
    obtain ⟨before, hb⟩ := hsuffix
    -- the last character that is left stays the last one when the blanks are put back
    have hlast : (dropBlanks cs).reverse.getLast? = some c := by
      rw [← hb, List.getLast?_append, h]
      rfl
    rw [List.getLast?_reverse] at hlast
    exact head_dropBlanks hlast
  · intro c h
    rw [trim, List.getLast?_reverse] at h
    exact head_dropBlanks h

theorem trim_of_trimmed {cs : List Char} (h : Trimmed cs) : trim cs = cs := by
  refine trim_eq_self (dropBlanks_of_head h.first) (dropBlanks_of_head ?_)
  rw [List.head?_reverse]
  exact h.last

end Text
end PackageResolution
