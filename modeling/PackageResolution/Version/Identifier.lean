import PackageResolution.Text.Numeral

/-!
# PackageResolution.Version.Identifier

The dot-separated identifiers of a pre-release.

* `Rank`: what an identifier counts for in the order of versions, a number or a word.
* `Identifier`: an identifier's text together with its rank.
* `Rank.compare`: numbers by value and before all words, words by code point.
-/

namespace PackageResolution

open Text

/-- What a pre-release identifier counts for: a number if all its characters are digits. -/
inductive Rank where
  | number (n : Nat)
  | word (text : String)
  deriving DecidableEq, Repr

namespace Rank

/-- The rank of an identifier. Digits without a place value make the number unreadable. -/
def ofText (text : String) : Except NumeralError Rank :=
  if text.toList ≠ [] ∧ text.toList.all isDigit = true then
    match readNumeral text.toList with
    | .error e => .error e
    | .ok n => .ok (.number n)
  else .ok (.word text)

protected def compare : Rank → Rank → Ordering
  | .number a, .number b => Ord.compare a b
  | .number _, .word _ => .lt
  | .word _, .number _ => .gt
  | .word a, .word b => Ord.compare a b

instance : Ord Rank := ⟨Rank.compare⟩

instance : Std.OrientedOrd Rank where
  eq_swap := by
    intro a b
    cases a <;> cases b
    · exact Std.OrientedOrd.eq_swap (α := Nat)
    · rfl
    · rfl
    · exact Std.OrientedOrd.eq_swap (α := String)

instance : Std.TransOrd Rank where
  isLE_trans := by
    intro a b c hab hbc
    cases a <;> cases b <;> cases c
    · exact Std.TransOrd.isLE_trans (α := Nat) hab hbc
    · rfl
    · cases hbc
    · rfl
    · cases hab
    · cases hab
    · cases hbc
    · exact Std.TransOrd.isLE_trans (α := String) hab hbc

instance : Std.LawfulEqOrd Rank where
  eq_of_compare := by
    intro a b h
    cases a <;> cases b
    · exact congrArg number (Std.LawfulEqOrd.eq_of_compare (α := Nat) h)
    · cases h
    · cases h
    · exact congrArg word (Std.LawfulEqOrd.eq_of_compare (α := String) h)

end Rank

structure Identifier where
  text : String
  rank : Rank
  rank_eq : Rank.ofText text = .ok rank

namespace Identifier

theorem ext {a b : Identifier} (h : a.text = b.text) : a = b := by
  obtain ⟨ta, ra, ha⟩ := a
  obtain ⟨tb, rb, hb⟩ := b
  cases h
  have hr : ra = rb := Except.ok.inj (ha.symm.trans hb)
  cases hr
  rfl

instance : DecidableEq Identifier := fun a b =>
  if h : a.text = b.text then isTrue (ext h)
  else isFalse fun he => h (congrArg text he)

def ofText (text : String) : Except NumeralError Identifier :=
  match h : Rank.ofText text with
  | .error e => .error e
  | .ok rank => .ok ⟨text, rank, h⟩

/-- The identifiers with given texts; the first one that fails is the failure. -/
def ofTexts : List String → Except NumeralError (List Identifier)
  | [] => .ok []
  | t :: ts =>
    match ofText t with
    | .error e => .error e
    | .ok i =>
      match ofTexts ts with
      | .error e => .error e
      | .ok is => .ok (i :: is)

theorem text_of_ofText {t : String} {i : Identifier} (h : ofText t = .ok i) : i.text = t := by
  simp only [ofText] at h
  split at h
  · cases h
  · cases h
    rfl

theorem texts_of_ofTexts {ts : List String} {is : List Identifier} (h : ofTexts ts = .ok is) :
    is.map text = ts := by
  induction ts generalizing is with
  | nil => simp only [ofTexts] at h; cases h; rfl
  | cons t ts ih =>
    simp only [ofTexts] at h
    split at h
    · cases h
    · rename_i i hi
      split at h
      · cases h
      · rename_i js hjs
        cases h
        rw [List.map_cons, text_of_ofText hi, ih hjs]

end Identifier
end PackageResolution
