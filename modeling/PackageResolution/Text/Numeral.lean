import PackageResolution.Text.Digit

/-!
# PackageResolution.Text.Numeral

Reading and writing a decimal number. Digits of any script are read, also mixed in one number, and a
number may have at most `maxDigits` of them. The same limit holds for a number that is written.

* `valueOf`: the number that a row of digits denotes.
* `readNumeral`: the same with its two failures, `NumeralError`.
* `printNumeral`: the digits of a number, with the one failure `PrintError`.
-/

namespace PackageResolution
namespace Text

inductive NumeralError where
  /-- It starts with this many decimal digits, more than `maxDigits`. -/
  | tooLong (digits : Nat)
  /-- It holds a character that is not a decimal digit. -/
  | unreadable (text : String)
  deriving DecidableEq, Repr

/-- Why a number cannot be written. -/
inductive PrintError where
  /-- It has more than `maxDigits` digits. -/
  | tooLong
  deriving DecidableEq, Repr

/-- The largest count of digits in one number, leading zeros included. -/
def maxDigits : Nat := 4300

/-- The number that a row of decimal digits denotes, the most significant first. -/
def valueOf (cs : List Char) : Nat :=
  cs.foldl (fun n c => 10 * n + (decimalValue? c).getD 0) 0

/-- Reads a number. Its length is looked at before the characters behind its leading digits. -/
def readNumeral (cs : List Char) : Except NumeralError Nat :=
  let digits := cs.takeWhile isDecimal
  if maxDigits < digits.length then .error (.tooLong digits.length)
  else if cs.isEmpty || digits.length < cs.length then .error (.unreadable (String.ofList cs))
  else .ok (valueOf cs)

def printNumeral (n : Nat) : Except PrintError String :=
  let digits := Nat.toDigits 10 n
  if maxDigits < digits.length then .error .tooLong else .ok (String.ofList digits)

theorem takeWhile_isDecimal_of_all {cs : List Char} (h : cs.all isDecimal = true) :
    cs.takeWhile isDecimal = cs := by
  induction cs with
  | nil => rfl
  | cons c cs ih =>
    simp only [List.all_cons, Bool.and_eq_true] at h
    simp [h.1, ih h.2]

/-- A row of decimal digits is read unless it is too long. -/
theorem readNumeral_of_all {cs : List Char} (hne : cs ≠ []) (h : cs.all isDecimal = true) :
    readNumeral cs =
      if maxDigits < cs.length then .error (.tooLong cs.length) else .ok (valueOf cs) := by
  simp [readNumeral, takeWhile_isDecimal_of_all h, hne]

theorem eq_valueOf_of_readNumeral {cs : List Char} {n : Nat} (h : readNumeral cs = .ok n) :
    n = valueOf cs := by
  simp only [readNumeral] at h
  split at h
  · cases h
  · split at h
    · cases h
    · cases h
      rfl

theorem printNumeral_of_le {n : Nat} (h : (toString n).length ≤ maxDigits) :
    printNumeral n = .ok (toString n) := by
  rw [Nat.toString_eq_ofList_toDigits, String.length_ofList] at h
  rw [Nat.toString_eq_ofList_toDigits, printNumeral, if_neg (Nat.not_lt_of_le h)]

theorem printNumeral_of_lt {n : Nat} (h : maxDigits < (toString n).length) :
    printNumeral n = .error .tooLong := by
  rw [Nat.toString_eq_ofList_toDigits, String.length_ofList] at h
  rw [printNumeral, if_pos h]

end Text
end PackageResolution
