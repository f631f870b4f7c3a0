import Mathlib.Tactic.IntervalCases
import PackageResolution.Proofs.Lexemes
import PackageResolution.Proofs.VersionTexts
import PackageResolution.Version.Printer

/-!
# PackageResolution.Proofs.VersionPrinting

The text of a version is read as that version. The parts of a text can be told apart again wherever
they are well formed, and a number is printed with no more digits than it was read from.

* `Text.valueOf_toDigits`: the digits of a number denote it.
* `Spelling.ofChars?_chars`: well-formed parts are cut out of the text that they make up.
* `Spelling.normal`: the parts with their three numbers in the digits from `0` to `9`.
  `Spelling.toList_spelled` says that a version is printed in this form.
* `Version.text_of_parse`, `Version.parse_spelled`: a version that has been read has a text, and is
  read from it.
-/

namespace PackageResolution

open Text

/-! ## Numbers -/

namespace Text

theorem decimalValue?_of_isDigit {c : Char} (h : c.isDigit = true) :
    decimalValue? c = some (c.toNat - '0'.toNat) := by
  simp only [Char.isDigit, Bool.and_eq_true, decide_eq_true_eq] at h
  have hc : 48 ≤ c.toNat ∧ c.toNat ≤ 57 := h
  have hp : (decide (48 ≤ c.toNat) && decide (c.toNat < 48 + 10)) = true := by
    simp only [Bool.and_eq_true, decide_eq_true_eq]
    omega
  simp only [decimalValue?, zeros, List.find?_cons, hp]
  rfl

theorem isDecimal_of_isDigit {c : Char} (h : c.isDigit = true) : isDecimal c = true := by
  rw [isDecimal, decimalValue?_of_isDigit h]
  rfl

theorem valueOf_eq_ofDigitChars {cs : List Char} (h : ∀ c ∈ cs, c.isDigit = true) :
    valueOf cs = Nat.ofDigitChars 10 cs 0 := by
  have hfold (n : Nat) :
      cs.foldl (fun n c => 10 * n + (decimalValue? c).getD 0) n = Nat.ofDigitChars 10 cs n := by
    induction cs generalizing n with
    | nil => rfl
    | cons c cs ih =>
      rw [List.forall_mem_cons] at h
      rw [List.foldl_cons, Nat.ofDigitChars_cons, ih h.2, decimalValue?_of_isDigit h.1]
      rfl
  exact hfold 0

theorem isDigit_toDigits (n : Nat) : ∀ c ∈ Nat.toDigits 10 n, c.isDigit = true := fun _ hc =>
  Nat.isDigit_of_mem_toDigits (by decide) (by decide) hc

theorem valueOf_toDigits (n : Nat) : valueOf (Nat.toDigits 10 n) = n := by
  rw [valueOf_eq_ofDigitChars (isDigit_toDigits n), Nat.ofDigitChars_ten_toDigits]

theorem valueOf_lt (cs : List Char) : valueOf cs < 10 ^ cs.length := by
  have hfold (n : Nat) : cs.foldl (fun n c => 10 * n + (decimalValue? c).getD 0) n <
      (n + 1) * 10 ^ cs.length := by
    induction cs generalizing n with
    | nil => simp
    | cons c cs ih =>
      have hd : (decimalValue? c).getD 0 < 10 := by
        cases hv : decimalValue? c with
        | none => decide
        | some d => exact decimalValue?_lt hv
      calc (c :: cs).foldl (fun n c => 10 * n + (decimalValue? c).getD 0) n
          < (10 * n + (decimalValue? c).getD 0 + 1) * 10 ^ cs.length := ih _
        _ ≤ ((n + 1) * 10) * 10 ^ cs.length := Nat.mul_le_mul_right _ (by omega)
        _ = (n + 1) * 10 ^ (c :: cs).length := by
          rw [List.length_cons, Nat.pow_succ, Nat.mul_assoc, Nat.mul_comm 10]
  simpa [valueOf] using hfold 0

/-- A number is printed with no more digits than it was read from. -/
theorem length_toDigits_valueOf {cs : List Char} (h : cs ≠ []) :
    (Nat.toDigits 10 (valueOf cs)).length ≤ cs.length :=
  (Nat.length_toDigits_le_iff (by decide) (List.length_pos_iff.mpr h)).mpr (valueOf_lt cs)

theorem head_toDigits {n : Nat} (h : 0 < n) :
    ∃ c cs, Nat.toDigits 10 n = c :: cs ∧ '1' ≤ c ∧ c ≤ '9' := by
  induction n using Nat.strongRecOn with
  | ind n ih =>
    rw [Nat.toDigits_eq_if (by decide)]
    split
    · exact ⟨n.digitChar, [], rfl, by interval_cases n <;> decide⟩
    · obtain ⟨c, cs, hc, hb⟩ := ih (n / 10) (by omega) (by omega)
      exact ⟨c, cs ++ [(n % 10).digitChar], by rw [hc, List.cons_append], hb⟩

end Text

theorem isNumber_toDigits (n : Nat) : isNumber (Nat.toDigits 10 n) = true := by
  rcases Nat.eq_zero_or_pos n with rfl | h
  · rfl
  · obtain ⟨c, cs, hc, h₁, h₉⟩ := head_toDigits h
    have hall : cs.all isDecimal = true := by
      rw [List.all_eq_true]
      intro d hd
      exact isDecimal_of_isDigit (isDigit_toDigits n d (hc ▸ List.mem_cons_of_mem c hd))
    simp [hc, isNumber, h₁, h₉, hall]

/-! ## Telling the parts apart -/

theorem span_append {p : Char → Bool} {xs : List Char} (ys : List Char)
    (hx : ∀ c ∈ xs, p c = true) (hy : ∀ c, ys.head? = some c → p c = false) :
    (xs ++ ys).takeWhile p = xs ∧ (xs ++ ys).dropWhile p = ys := by
  rw [List.takeWhile_append_of_pos hx, List.dropWhile_append_of_pos hx]
  cases ys with
  | nil => simp
  | cons c ys => simp [hy c rfl]

namespace Spelling

theorem ne_of_mem_number {n : List Char} (h : isNumber n = true) {c : Char} (hc : c ∈ n) :
    c ≠ '.' ∧ c ≠ '-' ∧ c ≠ '+' := by
  have hd := List.all_eq_true.mp (isDecimal_of_isNumber h).2 c hc
  refine ⟨?_, ?_, ?_⟩ <;> rintro rfl <;> revert hd <;> decide

theorem ne_of_mem_identifier {i : List Char} (h : isIdentifier i = true) {c : Char} (hc : c ∈ i) :
    c ≠ '.' ∧ c ≠ '+' := by
  have hp := isPartChar_of_isIdentifier h c hc
  refine ⟨?_, ?_⟩ <;> rintro rfl <;> revert hp <;> decide

theorem ne_of_mem_buildPart {p : List Char} (h : isBuildPart p = true) {c : Char} (hc : c ∈ p) :
    c ≠ '.' := by
  rw [isBuildPart, Bool.and_eq_true] at h
  have hp := List.all_eq_true.mp h.2 c hc
  rintro rfl
  revert hp
  decide

theorem splitOn_parts {ps : List (List Char)} (hne : ps ≠ []) (h : ∀ p ∈ ps, ∀ c ∈ p, c ≠ '.') :
    (['.'].intercalate ps).splitOn '.' = ps :=
  List.splitOn_intercalate '.' (fun p hp hmem => h p hp '.' hmem rfl) hne

section Sections

variable {triple prerelease : List Char}

theorem sections_release (h : ∀ c ∈ triple, (c != '-' && c != '+') = true) :
    sections triple = (triple.splitOn '.', [], []) ∧
      ∀ build, sections (triple ++ '+' :: build) =
        (triple.splitOn '.', [], build.splitOn '.') := by
  constructor
  · obtain ⟨htake, hdrop⟩ := span_append [] h nofun
    rw [List.append_nil] at htake hdrop
    simp only [sections, htake, hdrop]
  · intro build
    obtain ⟨htake, hdrop⟩ := span_append ('+' :: build) h fun c hc => by cases hc; rfl
    simp only [sections, htake, hdrop]
    rfl

theorem sections_prerelease (h : ∀ c ∈ triple, (c != '-' && c != '+') = true)
    (hp : ∀ c ∈ prerelease, (c != '+') = true) :
    sections (triple ++ '-' :: prerelease) = (triple.splitOn '.', prerelease.splitOn '.', []) ∧
      ∀ build, sections (triple ++ '-' :: (prerelease ++ '+' :: build)) =
        (triple.splitOn '.', prerelease.splitOn '.', build.splitOn '.') := by
  constructor
  · obtain ⟨htake, hdrop⟩ := span_append ('-' :: prerelease) h fun c hc => by cases hc; rfl
    obtain ⟨htake', hdrop'⟩ := span_append [] hp nofun
    rw [List.append_nil] at htake' hdrop'
    simp only [sections, htake, hdrop, htake', hdrop']
    rfl
  · intro build
    obtain ⟨htake, hdrop⟩ := span_append ('-' :: (prerelease ++ '+' :: build)) h
      fun c hc => by cases hc; rfl
    obtain ⟨htake', hdrop'⟩ := span_append ('+' :: build) hp fun c hc => by cases hc; rfl
    simp only [sections, htake, hdrop, htake', hdrop']
    rfl

end Sections

theorem sections_chars {s : Spelling} (hw : s.wellFormed = true) :
    sections s.chars = ([s.major, s.minor, s.patch], s.prerelease, s.build) := by
  simp only [wellFormed, Bool.and_eq_true, List.all_eq_true] at hw
  obtain ⟨⟨⟨⟨hmajor, hminor⟩, hpatch⟩, hpre⟩, hbuild⟩ := hw
  have hnumber : ∀ n ∈ [s.major, s.minor, s.patch], isNumber n = true := by
    simp [hmajor, hminor, hpatch]
  have htriple : ∀ c ∈ ['.'].intercalate [s.major, s.minor, s.patch],
      (c != '-' && c != '+') = true := by
    intro c hc
    rcases mem_intercalate hc with rfl | ⟨n, hn, hc⟩
    · decide
    · simp [(ne_of_mem_number (hnumber n hn) hc).2]
  have hplus : ∀ c ∈ ['.'].intercalate s.prerelease, (c != '+') = true := by
    intro c hc
    rcases mem_intercalate hc with rfl | ⟨i, hi, hc⟩
    · decide
    · simpa using (ne_of_mem_identifier (hpre i hi) hc).2
  have hsplit : (['.'].intercalate [s.major, s.minor, s.patch]).splitOn '.' = _ :=
    splitOn_parts (List.cons_ne_nil _ _) fun n hn c hc => (ne_of_mem_number (hnumber n hn) hc).1
  have hsplit' (hne : s.prerelease ≠ []) := splitOn_parts hne fun i hi c hc =>
    (ne_of_mem_identifier (hpre i hi) hc).1
  have hsplit'' (hne : s.build ≠ []) := splitOn_parts hne fun p hp c hc =>
    ne_of_mem_buildPart (hbuild p hp) hc
  rw [chars]
  cases hp : s.prerelease with
  | nil =>
    cases hb : s.build with
    | nil => rw [markedChars, markedChars, List.append_nil, List.append_nil,
        (sections_release htriple).1, hsplit]
    | cons b bs =>
      rw [hb] at hsplit''
      rw [markedChars, markedChars, List.append_nil, (sections_release htriple).2, hsplit,
        hsplit'' (List.cons_ne_nil b bs)]
  | cons i is =>
    rw [hp] at hplus hsplit'
    rw [markedChars, List.append_assoc, List.cons_append]
    cases hb : s.build with
    | nil => rw [markedChars, List.append_nil, (sections_prerelease htriple hplus).1, hsplit,
        hsplit' (List.cons_ne_nil i is)]
    | cons b bs =>
      rw [hb] at hsplit''
      rw [markedChars, (sections_prerelease htriple hplus).2, hsplit,
        hsplit' (List.cons_ne_nil i is), hsplit'' (List.cons_ne_nil b bs)]

/-- Well-formed parts are cut out of the text that they make up. -/
theorem ofChars?_chars {s : Spelling} (hw : s.wellFormed = true) : ofChars? s.chars = some s := by
  simp only [ofChars?, sections_chars hw]
  exact if_pos hw

/-! ## Printing -/

/-- The parts with the numbers of the triple in the digits from `0` to `9`. -/
def normal (s : Spelling) : Spelling :=
  { s with
    major := Nat.toDigits 10 (valueOf s.major)
    minor := Nat.toDigits 10 (valueOf s.minor)
    patch := Nat.toDigits 10 (valueOf s.patch) }

theorem wellFormed_normal {s : Spelling} (hw : s.wellFormed = true) :
    s.normal.wellFormed = true := by
  simp only [wellFormed, Bool.and_eq_true] at hw
  simp [wellFormed, normal, isNumber_toDigits, hw.1.2, hw.2]

/-- What is read is a row of digits that is not too long. -/
theorem fits_of_readNumeral {cs : List Char} {n : Nat} (h : readNumeral cs = .ok n) :
    cs ≠ [] ∧ cs.length ≤ maxDigits := by
  simp only [readNumeral] at h
  split at h
  · cases h
  · rename_i hfit
    split at h
    · cases h
    · rename_i hall
      simp only [Bool.or_eq_true, List.isEmpty_iff, decide_eq_true_eq, not_or] at hall
      exact ⟨hall.1, by omega⟩

/-- The same number in other digits is not longer. -/
theorem length_toDigits_of_readNumeral {cs : List Char} {n : Nat} (h : readNumeral cs = .ok n) :
    (Nat.toDigits 10 n).length ≤ maxDigits := by
  obtain ⟨hne, hfit⟩ := fits_of_readNumeral h
  rw [eq_valueOf_of_readNumeral h]
  exact (length_toDigits_valueOf hne).trans hfit

/-- The same number in other digits is read as well. -/
theorem readNumeral_toDigits {cs : List Char} {n : Nat} (h : readNumeral cs = .ok n) :
    readNumeral (Nat.toDigits 10 (valueOf cs)) = .ok n := by
  have hfit := length_toDigits_of_readNumeral h
  rw [eq_valueOf_of_readNumeral h] at hfit
  rw [readNumeral_of_isNumber (isNumber_toDigits _) hfit, valueOf_toDigits,
    eq_valueOf_of_readNumeral h]

/-- What is read from the parts of a text. -/
theorem version_eq_ok {s : Spelling} {v : Version} (h : s.version = .ok v) :
    readNumeral s.major = .ok v.major ∧ readNumeral s.minor = .ok v.minor ∧
      readNumeral s.patch = .ok v.patch ∧
      Identifier.ofTexts (s.prerelease.map String.ofList) = .ok v.prerelease ∧
      s.build.map String.ofList = v.build := by
  simp only [version] at h
  split at h
  · cases h
  · rename_i hmajor
    split at h
    · cases h
    · rename_i hminor
      split at h
      · cases h
      · rename_i hpatch
        split at h
        · cases h
        · rename_i hpre
          cases h
          exact ⟨hmajor, hminor, hpatch, hpre, rfl⟩

theorem version_normal {s : Spelling} {v : Version} (h : s.version = .ok v) :
    s.normal.version = .ok v := by
  obtain ⟨hmajor, hminor, hpatch, hpre, hbuild⟩ := version_eq_ok h
  simp only [version, normal, readNumeral_toDigits hmajor, readNumeral_toDigits hminor,
    readNumeral_toDigits hpatch, hpre, hbuild]

theorem toList_marked (mark : Char) (ps : List (List Char)) :
    (Version.marked (String.singleton mark) (ps.map String.ofList)).toList =
      markedChars mark ps := by
  cases ps with
  | nil => rfl
  | cons p ps =>
    have hmap : ((p :: ps).map String.ofList).map String.toList = p :: ps := by
      simp [Function.comp_def]
    rw [List.map_cons, Version.marked, String.toList_append, String.toList_intercalate,
      ← List.map_cons, hmap, String.toList_singleton]
    rfl

/-- The numbers that have been read can be written. -/
theorem printable_version {s : Spelling} {v : Version} (h : s.version = .ok v) : v.Printable := by
  obtain ⟨hmajor, hminor, hpatch, _, _⟩ := version_eq_ok h
  have hlength {cs : List Char} {n : Nat} (hn : readNumeral cs = .ok n) :
      (toString n).length ≤ maxDigits := by
    rw [Nat.toString_eq_ofList_toDigits, String.length_ofList]
    exact length_toDigits_of_readNumeral hn
  exact Version.printable_iff.mpr ⟨hlength hmajor, hlength hminor, hlength hpatch⟩

/-- A version is printed in the parts that it was read from, with its numbers in the digits from `0`
to `9`. -/
theorem toList_spelled {s : Spelling} {v : Version} (h : s.version = .ok v) :
    v.spelled.toList = s.normal.chars := by
  obtain ⟨hmajor, hminor, hpatch, hpre, hbuild⟩ := version_eq_ok h
  have hnumber (n : Nat) : (toString n).toList = Nat.toDigits 10 n := by
    rw [Nat.toString_eq_ofList_toDigits, String.toList_ofList]
  have htriple (a b c : List Char) :
      ['.'].intercalate [a, b, c] = a ++ '.' :: (b ++ '.' :: c) := by simp
  rw [Version.spelled, Identifier.texts_of_ofTexts hpre, ← hbuild]
  simp only [String.toList_append, hnumber]
  have hminus : (Version.marked "-" (s.prerelease.map String.ofList)).toList = _ :=
    toList_marked '-' s.prerelease
  have hplus : (Version.marked "+" (s.build.map String.ofList)).toList = _ :=
    toList_marked '+' s.build
  rw [hminus, hplus, eq_valueOf_of_readNumeral hmajor, eq_valueOf_of_readNumeral hminor,
    eq_valueOf_of_readNumeral hpatch, chars, normal, htriple]
  simp

end Spelling

/-! ## Reading what has been printed -/

theorem Text.isBlank_of_isDecimal {c : Char} (h : isDecimal c = true) : isBlank c = false := by
  have hrows : ∀ z ∈ zeros, ∀ r ∈ blankRanges, r.last < z ∨ z + 10 ≤ r.first := by decide
  cases hb : isBlank c with
  | false => rfl
  | true =>
    obtain ⟨r, hr, hfirst, hlast⟩ := (inRanges_iff _ _).mp hb
    simp only [isDecimal, decimalValue?] at h
    split at h
    · rename_i z hf
      have hz := List.find?_some hf
      simp only [Bool.and_eq_true, decide_eq_true_eq] at hz
      rcases hrows z (List.mem_of_find?_eq_some hf) r hr with hd | hd <;> omega
    · cases h

theorem isBlank_of_isVersionChar {c : Char} (h : Spelling.isVersionChar c = true) :
    isBlank c = false := by
  simp only [Spelling.isVersionChar, Bool.or_eq_true, beq_iff_eq] at h
  rcases h with ((h | h) | rfl) | rfl
  · exact isBlank_of_isDecimal h
  · apply Lexeme.isBlank_of_isWordChar
    simp only [isWordPart, Bool.or_eq_true, beq_iff_eq] at h
    rcases h with h | rfl
    · simp [Lexeme.isWordChar, h]
    · rfl
  · rfl
  · rfl

namespace Version

theorem parse_eq_ok_iff {t : String} {v : Version} :
    parse t = .ok v ↔ ∃ s, Spelling.ofChars? (trim t.toList) = some s ∧ s.version = .ok v := by
  unfold parse
  cases Spelling.ofChars? (trim t.toList) with
  | none => simp
  | some s =>
    cases hs : s.version with
    | error e => simp [hs]
    | ok w => simp [hs]

/-- A version that has been read has a text. -/
theorem text_of_parse {t : String} {v : Version} (h : parse t = .ok v) :
    v.text = .ok v.spelled := by
  obtain ⟨s, _, hv⟩ := parse_eq_ok_iff.mp h
  exact text_of_printable (Spelling.printable_version hv)

/-- A version that has been read is printed in the characters of versions. -/
theorem isVersionChar_spelled {t : String} {v : Version} (h : parse t = .ok v) :
    ∀ c ∈ v.spelled.toList, Spelling.isVersionChar c = true := by
  obtain ⟨s, hs, hv⟩ := parse_eq_ok_iff.mp h
  intro c hc
  rw [Spelling.toList_spelled hv] at hc
  have hw := Spelling.wellFormed_normal (Spelling.wellFormed_of_ofChars? hs)
  exact Spelling.isVersionChar_of_mem_chars hw hc

theorem trimmed_spelled {t : String} {v : Version} (h : parse t = .ok v) :
    Trimmed v.spelled.toList where
  first c hc := isBlank_of_isVersionChar (isVersionChar_spelled h c (List.mem_of_mem_head? hc))
  last c hc := isBlank_of_isVersionChar (isVersionChar_spelled h c (List.mem_of_getLast? hc))

/-- The text of a version that has been read is read as that version. -/
theorem parse_spelled {t : String} {v : Version} (h : parse t = .ok v) :
    parse v.spelled = .ok v := by
  obtain ⟨s, hs, hv⟩ := parse_eq_ok_iff.mp h
  refine parse_eq_ok_iff.mpr ⟨s.normal, ?_, Spelling.version_normal hv⟩
  rw [trim_of_trimmed (trimmed_spelled h), Spelling.toList_spelled hv]
  exact Spelling.ofChars?_chars (Spelling.wellFormed_normal (Spelling.wellFormed_of_ofChars? hs))

end Version
end PackageResolution
