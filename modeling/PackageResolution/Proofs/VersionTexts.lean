import PackageResolution.Version.Parser

/-!
# PackageResolution.Proofs.VersionTexts

Which texts are read as versions, and why the others are not. A text that has the form of a version
is one, unless it writes a number with too many digits.

* `Spelling.chars_of_ofChars?`: the parts into which a text is cut make up that text.
* `Spelling.Bounded`: no number is too long. `Spelling.exists_version` says that such parts denote a
  version.
* `NumbersFit`: a text writes no number of a version with too many digits. `Version.parse_of_fit`
  says that then it is read, or malformed.
-/

namespace PackageResolution

open Text

/-! ## Characters -/

namespace Text

/-- Below `U+0080` the digits are those from `0` to `9`. -/
theorem isDigit_of_lt {c : Char} (hc : c.toNat < 128) (h : isDigit c = true) :
    48 ≤ c.toNat ∧ c.toNat ≤ 57 := by
  have hz : ∀ z ∈ zeros, z = 48 ∨ 128 ≤ z := by decide
  have hr : ∀ r ∈ signDigitRanges, 128 ≤ r.first := by decide
  simp only [isDigit, Bool.or_eq_true, isDecimal, decimalValue?] at h
  rcases h with h | h
  · split at h
    · rename_i z hf
      have hb := List.find?_some hf
      simp only [Bool.and_eq_true, decide_eq_true_eq] at hb
      rcases hz z (List.mem_of_find?_eq_some hf) with rfl | hz
      · omega
      · omega
    · cases h
  · obtain ⟨r, hmem, hfirst, _⟩ := (inRanges_iff _ _).mp h
    have := hr r hmem
    omega

theorem isDecimal_of_le {c : Char} (h : 48 ≤ c.toNat) (h' : c.toNat ≤ 57) :
    isDecimal c = true := by
  have hp : (decide (48 ≤ c.toNat) && decide (c.toNat < 48 + 10)) = true := by
    simp only [Bool.and_eq_true, decide_eq_true_eq]
    omega
  simp only [isDecimal, decimalValue?, zeros, List.find?_cons, hp]
  rfl

end Text

theorem isLetter_not_isDigit {c : Char} (h : isLetter c = true) : isDigit c = false := by
  cases hd : isDigit c with
  | false => rfl
  | true =>
    simp only [isLetter, Bool.or_eq_true, beq_iff_eq] at h
    have hb : c.toNat = 45 ∨ 65 ≤ c.toNat ∧ c.toNat ≤ 122 := by
      rcases h with halpha | rfl
      · exact .inr (toNat_of_isAlpha halpha)
      · exact .inl rfl
    have := isDigit_of_lt (by omega) hd
    omega

theorem isDecimal_of_isNumber {cs : List Char} (h : isNumber cs = true) :
    cs ≠ [] ∧ cs.all isDecimal = true := by
  cases cs with
  | nil => cases h
  | cons c cs =>
    refine ⟨nofun, ?_⟩
    simp only [isNumber, Bool.or_eq_true, Bool.and_eq_true, beq_iff_eq, decide_eq_true_eq,
      List.isEmpty_iff] at h
    rcases h with ⟨rfl, rfl⟩ | ⟨⟨h₁, h₂⟩, hall⟩
    · decide
    · rw [List.all_cons, isDecimal_of_le, hall]
      · rfl
      · exact Nat.le_trans (by decide) (show '1'.toNat ≤ c.toNat from h₁)
      · exact h₂

theorem not_all_isDigit_of_isLabel {cs : List Char} (h : isLabel cs = true) :
    cs.all isDigit = false := by
  simp only [isLabel] at h
  split at h
  · cases h
  · rename_i c rest hd
    rw [Bool.and_eq_true] at h
    have hmem : c ∈ cs := (List.dropWhile_sublist isDecimal).subset (hd ▸ List.mem_cons_self)
    rw [List.all_eq_false]
    exact ⟨c, hmem, by simp [isLetter_not_isDigit h.1]⟩

/-! ## Cutting a text into its parts -/

namespace Spelling

theorem markedChars_splitOn (mark : Char) (cs : List Char) :
    markedChars mark (cs.splitOn '.') = mark :: cs := by
  have h : ['.'].intercalate (cs.splitOn '.') = cs := List.intercalate_splitOn '.'
  cases hs : cs.splitOn '.' with
  | nil => exact absurd hs (List.splitOn_ne_nil _ _)
  | cons p ps =>
    rw [hs] at h
    rw [markedChars, h]

theorem sections_append (cs : List Char) :
    ['.'].intercalate (sections cs).1 ++ markedChars '-' (sections cs).2.1 ++
      markedChars '+' (sections cs).2.2 = cs := by
  have hcut := List.takeWhile_append_dropWhile (p := fun c => c != '-' && c != '+') (l := cs)
  have hmark := List.head?_dropWhile_not (fun c => c != '-' && c != '+') cs
  simp only [sections]
  split
  · rename_i hd
    rw [hd, List.append_nil] at hcut
    simp only [List.intercalate_splitOn, markedChars, List.append_nil, hcut]
  · rename_i mark rest hd
    rw [hd] at hcut hmark
    simp only [List.head?_cons, Bool.and_eq_false_iff, bne_eq_false_iff_eq] at hmark
    split
    · rename_i hplus
      rw [beq_iff_eq.mp hplus] at hcut
      simp only [List.intercalate_splitOn, markedChars_splitOn]
      simpa [markedChars] using hcut
    · rename_i hplus
      have hminus : mark = '-' := hmark.resolve_right fun h => hplus (beq_iff_eq.mpr h)
      have hcut' := List.takeWhile_append_dropWhile (p := fun c => c != '+') (l := rest)
      have hmark' := List.head?_dropWhile_not (fun c => c != '+') rest
      subst hminus
      split
      · rename_i hd'
        rw [hd', List.append_nil] at hcut'
        simp only [List.intercalate_splitOn, markedChars_splitOn, hcut']
        simpa [markedChars] using hcut
      · rename_i mark' build hd'
        rw [hd'] at hcut' hmark'
        simp only [List.head?_cons, bne_eq_false_iff_eq] at hmark'
        subst hmark'
        simp only [List.intercalate_splitOn, markedChars_splitOn, List.append_assoc,
          List.cons_append, hcut', hcut]

/-- The parts of a text make up the text. -/
theorem chars_of_ofChars? {cs : List Char} {s : Spelling} (h : ofChars? cs = some s) :
    s.chars = cs := by
  have happend := sections_append cs
  simp only [ofChars?] at h
  split at h
  · rename_i hs
    split at h
    · cases h
      rw [hs] at happend
      exact happend
    · cases h
  · cases h

/-! ## Numbers that are not too long -/

/-- No number of the triple and no identifier of digits alone has more than `maxDigits` digits. -/
structure Bounded (s : Spelling) : Prop where
  major : s.major.length ≤ maxDigits
  minor : s.minor.length ≤ maxDigits
  patch : s.patch.length ≤ maxDigits
  prerelease : ∀ i ∈ s.prerelease, i.all isDecimal = true → i.length ≤ maxDigits

theorem readNumeral_of_isNumber {cs : List Char} (h : isNumber cs = true)
    (hl : cs.length ≤ maxDigits) : readNumeral cs = .ok (valueOf cs) := by
  obtain ⟨hne, hall⟩ := isDecimal_of_isNumber h
  rw [readNumeral_of_all hne hall, if_neg (Nat.not_lt.mpr hl)]

theorem exists_rank {i : List Char} (h : isIdentifier i = true)
    (hl : i.all isDecimal = true → i.length ≤ maxDigits) :
    ∃ r, Rank.ofText (String.ofList i) = .ok r := by
  unfold Rank.ofText
  rw [String.toList_ofList]
  split
  · rename_i hdigits
    have hnum : isNumber i = true := by
      rw [isIdentifier, Bool.or_eq_true] at h
      refine h.resolve_right fun hlabel => ?_
      rw [not_all_isDigit_of_isLabel hlabel] at hdigits
      cases hdigits.2
    rw [readNumeral_of_isNumber hnum (hl (isDecimal_of_isNumber hnum).2)]
    exact ⟨_, rfl⟩
  · exact ⟨_, rfl⟩

theorem exists_identifier {t : String} {r : Rank} (h : Rank.ofText t = .ok r) :
    ∃ i, Identifier.ofText t = .ok i := by
  unfold Identifier.ofText
  split
  · rename_i e he
    rw [h] at he
    cases he
  · exact ⟨_, rfl⟩

theorem exists_identifiers {ps : List (List Char)} (h : ps.all isIdentifier = true)
    (hl : ∀ i ∈ ps, i.all isDecimal = true → i.length ≤ maxDigits) :
    ∃ is, Identifier.ofTexts (ps.map String.ofList) = .ok is := by
  induction ps with
  | nil => exact ⟨[], rfl⟩
  | cons p ps ih =>
    rw [List.all_cons, Bool.and_eq_true] at h
    obtain ⟨r, hr⟩ := exists_rank h.1 (hl p List.mem_cons_self)
    obtain ⟨i, hi⟩ := exists_identifier hr
    obtain ⟨is, his⟩ := ih h.2 fun j hj => hl j (List.mem_cons_of_mem p hj)
    exact ⟨i :: is, by simp only [List.map_cons, Identifier.ofTexts, hi, his]⟩

/-- Well-formed parts without too long a number denote a version. -/
theorem exists_version {s : Spelling} (hw : s.wellFormed = true) (hb : s.Bounded) :
    ∃ v, s.version = .ok v := by
  simp only [wellFormed, Bool.and_eq_true] at hw
  obtain ⟨⟨⟨⟨hmajor, hminor⟩, hpatch⟩, hpre⟩, _⟩ := hw
  obtain ⟨is, his⟩ := exists_identifiers hpre hb.prerelease
  simp only [version, readNumeral_of_isNumber hmajor hb.major,
    readNumeral_of_isNumber hminor hb.minor, readNumeral_of_isNumber hpatch hb.patch, his]
  exact ⟨_, rfl⟩

/-! ## The characters of a version -/

theorem mem_intercalate {sep c : Char} {ps : List (List Char)} (h : c ∈ [sep].intercalate ps) :
    c = sep ∨ ∃ p ∈ ps, c ∈ p := by
  induction ps with
  | nil => simp at h
  | cons p ps ih =>
    cases ps with
    | nil => exact .inr ⟨p, List.mem_cons_self, by simpa using h⟩
    | cons q ps =>
      simp only [List.intercalate_cons_cons, List.mem_append, List.mem_singleton] at h
      rcases h with (h | h) | h
      · exact .inr ⟨p, List.mem_cons_self, h⟩
      · exact .inl h
      · rcases ih h with h | ⟨r, hr, h⟩
        · exact .inl h
        · exact .inr ⟨r, List.mem_cons_of_mem p hr, h⟩

theorem isPartChar_of_isIdentifier {i : List Char} (h : isIdentifier i = true) :
    ∀ c ∈ i, (isDecimal c || isWordPart c) = true := by
  intro c hc
  rw [isIdentifier, Bool.or_eq_true] at h
  rcases h with h | h
  · have := List.all_eq_true.mp (isDecimal_of_isNumber h).2 c hc
    simp [this]
  · rw [← List.takeWhile_append_dropWhile (p := isDecimal) (l := i), List.mem_append] at hc
    rcases hc with hc | hc
    · have := List.all_eq_true.mp (List.all_takeWhile (p := isDecimal) (l := i)) c hc
      simp [this]
    · simp only [isLabel] at h
      split at h
      · cases h
      · rename_i d rest hd
        rw [Bool.and_eq_true] at h
        rw [hd, List.mem_cons] at hc
        rcases hc with rfl | hc
        · have hp : isWordPart c = true := by
            have hl := h.1
            simp only [isLetter, isWordPart, Char.isAlphanum, Bool.or_eq_true] at hl ⊢
            exact hl.imp .inl id
          simp [hp]
        · have := List.all_eq_true.mp h.2 c hc
          simp [this]

/-- The characters that a version can have. -/
def isVersionChar (c : Char) : Bool := isDecimal c || isWordPart c || c == '.' || c == '+'

theorem isVersionChar_of_isIdentifier {i : List Char} (h : isIdentifier i = true) :
    ∀ c ∈ i, isVersionChar c = true := by
  intro c hc
  rw [isVersionChar, isPartChar_of_isIdentifier h c hc]
  rfl

theorem isVersionChar_of_isBuildPart {p : List Char} (h : isBuildPart p = true) :
    ∀ c ∈ p, isVersionChar c = true := by
  intro c hc
  rw [isBuildPart, Bool.and_eq_true] at h
  have := List.all_eq_true.mp h.2 c hc
  simp [isVersionChar, this]

theorem isVersionChar_of_mem_marked {mark c : Char} {ps : List (List Char)}
    (hm : isVersionChar mark = true) (hp : ∀ p ∈ ps, ∀ c ∈ p, isVersionChar c = true)
    (h : c ∈ markedChars mark ps) : isVersionChar c = true := by
  cases ps with
  | nil => cases h
  | cons p ps =>
    rw [markedChars, List.mem_cons] at h
    rcases h with rfl | h
    · exact hm
    · rcases mem_intercalate h with rfl | ⟨q, hq, h⟩
      · rfl
      · exact hp q hq c h

theorem isVersionChar_of_mem_chars {s : Spelling} (hw : s.wellFormed = true) {c : Char}
    (h : c ∈ s.chars) : isVersionChar c = true := by
  simp only [wellFormed, Bool.and_eq_true, List.all_eq_true] at hw
  obtain ⟨⟨⟨⟨hmajor, hminor⟩, hpatch⟩, hpre⟩, hbuild⟩ := hw
  have hnumber {n : List Char} (hn : isNumber n = true) : ∀ c ∈ n, isVersionChar c = true :=
    isVersionChar_of_isIdentifier (by rw [isIdentifier, hn]; rfl)
  simp only [chars, List.mem_append] at h
  rcases h with (h | h) | h
  · rcases mem_intercalate h with rfl | ⟨n, hn, h⟩
    · rfl
    · simp only [List.mem_cons, List.not_mem_nil, or_false] at hn
      rcases hn with rfl | rfl | rfl
      · exact hnumber hmajor c h
      · exact hnumber hminor c h
      · exact hnumber hpatch c h
  · exact isVersionChar_of_mem_marked (by decide)
      (fun p hp => isVersionChar_of_isIdentifier (hpre p hp)) h
  · exact isVersionChar_of_mem_marked (by decide)
      (fun p hp => isVersionChar_of_isBuildPart (hbuild p hp)) h

end Spelling

/-! ## Reading -/

/-- Where a text has the form of a version, none of its numbers is too long. -/
def NumbersFit (cs : List Char) : Prop :=
  ∀ s : Spelling, s.wellFormed = true → s.chars = cs → s.Bounded

theorem Spelling.length_le_intercalate (sep : Char) {p : List Char} {ps : List (List Char)}
    (h : p ∈ ps) : p.length ≤ ([sep].intercalate ps).length := by
  induction ps with
  | nil => cases h
  | cons q ps ih =>
    cases ps with
    | nil =>
      rw [List.mem_singleton.mp h]
      simp
    | cons r ps =>
      rw [List.intercalate_cons_cons, List.length_append, List.length_append]
      rcases List.mem_cons.mp h with rfl | h
      · omega
      · have := ih h
        omega

/-- A text that is no longer than a number may be holds no number that is too long. -/
theorem NumbersFit.of_length {cs : List Char} (h : cs.length ≤ maxDigits) : NumbersFit cs := by
  rintro s - rfl
  simp only [Spelling.chars, List.length_append] at h
  have htriple {n : List Char} (hn : n ∈ [s.major, s.minor, s.patch]) : n.length ≤ maxDigits := by
    have := Spelling.length_le_intercalate '.' hn
    omega
  refine ⟨htriple (by simp), htriple (by simp), htriple (by simp), fun i hi _ => ?_⟩
  have hmarked : i.length ≤ (Spelling.markedChars '-' s.prerelease).length := by
    cases hp : s.prerelease with
    | nil => rw [hp] at hi; cases hi
    | cons q ps =>
      rw [hp] at hi
      rw [Spelling.markedChars, List.length_cons]
      have := Spelling.length_le_intercalate '.' hi
      omega
  omega

namespace Version

/-- A text whose numbers fit is a version, or malformed. -/
theorem parse_of_fit {t : String} (h : NumbersFit (trim t.toList)) :
    (∃ v, parse t = .ok v) ∨ parse t = .error (.malformed .version t) := by
  unfold parse
  cases hs : Spelling.ofChars? (trim t.toList) with
  | none => exact .inr rfl
  | some s =>
    have hw := Spelling.wellFormed_of_ofChars? hs
    obtain ⟨v, hv⟩ := Spelling.exists_version hw (h s hw (Spelling.chars_of_ofChars? hs))
    exact .inl ⟨v, by simp only [hv]⟩

theorem isVersionChar_of_parse {t : String} {v : Version} (h : parse t = .ok v) :
    ∀ c ∈ trim t.toList, Spelling.isVersionChar c = true := by
  intro c hc
  unfold parse at h
  split at h
  · cases h
  · rename_i s hs
    rw [← Spelling.chars_of_ofChars? hs] at hc
    exact Spelling.isVersionChar_of_mem_chars (Spelling.wellFormed_of_ofChars? hs) hc

theorem isVersionChar_of_trimmed {cs : List Char} {v : Version} (ht : Trimmed cs)
    (h : parse (String.ofList cs) = .ok v) : ∀ c ∈ cs, Spelling.isVersionChar c = true := by
  have hchars := isVersionChar_of_parse h
  rw [String.toList_ofList, trim_of_trimmed ht] at hchars
  exact hchars

end Version
end PackageResolution
