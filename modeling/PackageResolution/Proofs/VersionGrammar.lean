import Mathlib.Data.List.Basic
import Mathlib.Data.List.Induction
import Mathlib.Data.List.TakeWhile
import Mathlib.Data.Nat.Digits.Defs
import Mathlib.Data.Set.List
import PackageResolution.Proofs.VersionPrinting

/-!
# PackageResolution.Proofs.VersionGrammar

The grammar of version texts, written down apart from the reader. A derivation shows how each part
of a text comes about. The reader cuts at dots, hyphens and plus signs and looks at the pieces
afterwards; that it finds the derivation, and that there is only one, is what is proved here.

* `Numeral`, `Label`, `Tag`, `BuildPart`, `Derivation`: the grammar. `Derivation.chars` is the text
  that is derived.
* `isNumber_iff`, `isLabel_iff`, `isIdentifier_iff`, `isBuildPart_iff`: the pieces that the reader
  accepts are those that can be derived.
* `Derivation.chars_injective`: a text has at most one derivation.
* `Derivation.version_of_fit`, `Derivation.version_of_tooLong`: what a derivation denotes, and the
  failure if it writes a number with too many digits.
* `Version.parse_by_grammar`: how every text is read.
-/

namespace PackageResolution

open Text

/-! ## The grammar -/

/-- `0`, or a digit from `1` to `9` and then decimal digits. -/
inductive Numeral where
  | zero
  | digits (first : Char) (rest : List Char) (fromOne : '1' ≤ first ∧ first ≤ '9')
      (decimal : ∀ c ∈ rest, isDecimal c = true)

/-- Decimal digits, then a letter or hyphen, then letters, digits and hyphens. -/
structure Label where
  digits : List Char
  letter : Char
  rest : List Char
  decimal : ∀ c ∈ digits, isDecimal c = true
  lettered : isLetter letter = true
  wordParts : ∀ c ∈ rest, isWordPart c = true

/-- An identifier of a pre-release. -/
inductive Tag where
  | number (n : Numeral)
  | label (l : Label)

/-- At least one letter, digit or hyphen. -/
structure BuildPart where
  chars : List Char
  ne_nil : chars ≠ []
  wordParts : ∀ c ∈ chars, isWordPart c = true

/-- Three numbers, and the parts of the pre-release and of the build metadata, if there are any. -/
structure Derivation where
  major : Numeral
  minor : Numeral
  patch : Numeral
  prerelease : List Tag
  build : List BuildPart

def Numeral.chars : Numeral → List Char
  | .zero => ['0']
  | .digits first rest _ _ => first :: rest

def Label.chars (l : Label) : List Char := l.digits ++ l.letter :: l.rest

def Tag.chars : Tag → List Char
  | .number n => n.chars
  | .label l => l.chars

namespace Derivation

def spelling (d : Derivation) : Spelling where
  major := d.major.chars
  minor := d.minor.chars
  patch := d.patch.chars
  prerelease := d.prerelease.map Tag.chars
  build := d.build.map BuildPart.chars

/-- The text that is derived. -/
def chars (d : Derivation) : List Char := d.spelling.chars

end Derivation

/-! ## What is derived -/

namespace Numeral

/-- The number that is written, the digits of all scripts by their place value. -/
def value (n : Numeral) : Nat :=
  Nat.ofDigits 10 (n.chars.reverse.map fun c => (decimalValue? c).getD 0)

def tooLong (n : Numeral) : Bool := decide (maxDigits < n.chars.length)

end Numeral

def Tag.number? : Tag → Option Numeral
  | .number n => some n
  | .label _ => none

namespace Derivation

/-- All numbers of a version, in the order in which they are written. -/
def numbers (d : Derivation) : List Numeral :=
  [d.major, d.minor, d.patch] ++ d.prerelease.filterMap Tag.number?

/-- The version has just the numbers, identifiers and build parts that are derived. -/
structure Denotes (d : Derivation) (v : Version) : Prop where
  major : v.major = d.major.value
  minor : v.minor = d.minor.value
  patch : v.patch = d.patch.value
  prerelease : v.prerelease.map (·.text) = d.prerelease.map fun t => String.ofList t.chars
  build : v.build = d.build.map fun p => String.ofList p.chars

end Derivation

/-! ## Numbers -/

theorem Text.valueOf_concat (cs : List Char) (c : Char) :
    valueOf (cs ++ [c]) = 10 * valueOf cs + (decimalValue? c).getD 0 := by
  rw [valueOf, List.foldl_append]
  rfl

theorem Text.valueOf_eq_ofDigits (cs : List Char) :
    valueOf cs = Nat.ofDigits 10 (cs.reverse.map fun c => (decimalValue? c).getD 0) := by
  induction cs using List.reverseRecOn with
  | nil => rfl
  | append_singleton cs c ih =>
    rw [valueOf_concat, ih, List.reverse_concat, List.map_cons, Nat.ofDigits_cons, Nat.add_comm]

theorem Numeral.value_eq (n : Numeral) : n.value = valueOf n.chars :=
  (valueOf_eq_ofDigits n.chars).symm

theorem isNumber_iff {cs : List Char} : isNumber cs = true ↔ ∃ n : Numeral, n.chars = cs := by
  cases cs with
  | nil =>
    refine ⟨nofun, ?_⟩
    rintro ⟨_ | _, hn⟩ <;> cases hn
  | cons c cs =>
    simp only [isNumber, Bool.or_eq_true, Bool.and_eq_true, beq_iff_eq, decide_eq_true_eq,
      List.isEmpty_iff, List.all_eq_true]
    constructor
    · rintro (⟨rfl, rfl⟩ | ⟨hc, hcs⟩)
      · exact ⟨.zero, rfl⟩
      · exact ⟨.digits c cs hc hcs, rfl⟩
    · rintro ⟨_ | ⟨first, rest, hfirst, hrest⟩, hn⟩
      · cases hn
        exact .inl ⟨rfl, rfl⟩
      · cases hn
        exact .inr ⟨hfirst, hrest⟩

namespace Numeral

theorem isNumber_chars (n : Numeral) : isNumber n.chars = true := isNumber_iff.mpr ⟨n, rfl⟩

/-- `1` and then `k` zeros. -/
def powerOfTen (k : Nat) : Numeral :=
  .digits '1' (List.replicate k '0') (by decide) fun _ hc => List.eq_of_mem_replicate hc ▸ rfl

theorem length_powerOfTen (k : Nat) : (powerOfTen k).chars.length = k + 1 := by
  simp [powerOfTen, chars]

theorem all_isDecimal_chars (n : Numeral) : n.chars.all isDecimal = true :=
  (isDecimal_of_isNumber n.isNumber_chars).2

theorem chars_injective {n m : Numeral} (h : n.chars = m.chars) : n = m := by
  cases n with
  | zero =>
    cases m with
    | zero => rfl
    | digits first rest hfirst hrest =>
      cases h
      exact absurd hfirst (by decide)
  | digits first rest hfirst hrest =>
    cases m with
    | zero =>
      cases h
      exact absurd hfirst (by decide)
    | digits first' rest' _ _ =>
      cases h
      rfl

end Numeral

/-! ## Labels -/

namespace Label

theorem span_chars (l : Label) :
    l.chars.takeWhile isDecimal = l.digits ∧ l.chars.dropWhile isDecimal = l.letter :: l.rest := by
  refine span_append (l.letter :: l.rest) l.decimal ?_
  intro c hc
  cases hc
  cases hd : isDecimal l.letter with
  | false => rfl
  | true => exact absurd (isDigit_of_isDecimal hd) (by simp [isLetter_not_isDigit l.lettered])

theorem chars_injective {l m : Label} (h : l.chars = m.chars) : l = m := by
  obtain ⟨hdigits, hrest⟩ := l.span_chars
  rw [h, m.span_chars.1] at hdigits
  rw [h, m.span_chars.2] at hrest
  obtain ⟨digits, letter, rest, _, _, _⟩ := l
  obtain ⟨digits', letter', rest', _, _, _⟩ := m
  cases hdigits
  cases hrest
  rfl

end Label

theorem isLabel_iff {cs : List Char} : isLabel cs = true ↔ ∃ l : Label, l.chars = cs := by
  constructor
  · intro h
    have hcut := List.takeWhile_append_dropWhile (p := isDecimal) (l := cs)
    simp only [isLabel] at h
    split at h
    · cases h
    · rename_i letter rest hd
      rw [Bool.and_eq_true, List.all_eq_true] at h
      rw [hd] at hcut
      have hdigits := List.all_eq_true.mp (List.all_takeWhile (p := isDecimal) (l := cs))
      exact ⟨⟨cs.takeWhile isDecimal, letter, rest, hdigits, h.1, h.2⟩, hcut⟩
  · rintro ⟨l, rfl⟩
    rw [isLabel, l.span_chars.2]
    simp only [l.lettered, Bool.true_and, List.all_eq_true]
    exact l.wordParts

/-! ## Identifiers and build parts -/

theorem isIdentifier_iff {cs : List Char} : isIdentifier cs = true ↔ ∃ t : Tag, t.chars = cs := by
  rw [isIdentifier, Bool.or_eq_true, isNumber_iff, isLabel_iff]
  constructor
  · rintro (⟨n, rfl⟩ | ⟨l, rfl⟩)
    · exact ⟨.number n, rfl⟩
    · exact ⟨.label l, rfl⟩
  · rintro ⟨n | l, rfl⟩
    · exact .inl ⟨n, rfl⟩
    · exact .inr ⟨l, rfl⟩

theorem Tag.chars_injective : Function.Injective Tag.chars := by
  -- a number has decimal digits only, a label has a letter
  have hne (n : Numeral) (l : Label) : n.chars ≠ l.chars := by
    intro h
    have hdrop := l.span_chars.2
    rw [← h, List.dropWhile_eq_nil_iff.mpr (List.all_eq_true.mp n.all_isDecimal_chars)] at hdrop
    cases hdrop
  rintro (n | l) (m | k) h
  · exact congrArg _ (Numeral.chars_injective h)
  · exact absurd h (hne n k)
  · exact absurd h.symm (hne m l)
  · exact congrArg _ (Label.chars_injective h)

theorem isBuildPart_iff {cs : List Char} :
    isBuildPart cs = true ↔ ∃ p : BuildPart, p.chars = cs := by
  simp only [isBuildPart, Bool.and_eq_true, Bool.not_eq_true', List.isEmpty_eq_false_iff,
    List.all_eq_true]
  constructor
  · rintro ⟨hne, hcs⟩
    exact ⟨⟨cs, hne, hcs⟩, rfl⟩
  · rintro ⟨p, rfl⟩
    exact ⟨p.ne_nil, p.wordParts⟩

theorem BuildPart.chars_injective : Function.Injective BuildPart.chars := by
  rintro ⟨cs, _, _⟩ ⟨ds, _, _⟩ h
  cases h
  rfl

/-! ## Derivations -/

namespace Derivation

theorem spelling_injective {d d' : Derivation} (h : d.spelling = d'.spelling) : d = d' := by
  obtain ⟨major, minor, patch, pre, build⟩ := d
  obtain ⟨major', minor', patch', pre', build'⟩ := d'
  simp only [spelling, Spelling.mk.injEq] at h
  obtain ⟨hmajor, hminor, hpatch, hpre, hbuild⟩ := h
  rw [Numeral.chars_injective hmajor, Numeral.chars_injective hminor,
    Numeral.chars_injective hpatch, List.map_injective_iff.mpr Tag.chars_injective hpre,
    List.map_injective_iff.mpr BuildPart.chars_injective hbuild]

/-- Parts that can all be derived make up a list of derived parts. -/
theorem exists_map_eq_iff {α : Type} {f : α → List Char} {p : List Char → Bool}
    (h : ∀ {cs}, p cs = true ↔ ∃ a, f a = cs) (ps : List (List Char)) :
    ps.all p = true ↔ ∃ as : List α, as.map f = ps := by
  rw [List.all_eq_true]
  simp only [h]
  exact (Set.ext_iff.mp (Set.range_list_map f) ps).symm

theorem wellFormed_iff {s : Spelling} : s.wellFormed = true ↔ ∃ d : Derivation, d.spelling = s := by
  simp only [Spelling.wellFormed, Bool.and_eq_true, isNumber_iff,
    exists_map_eq_iff isIdentifier_iff, exists_map_eq_iff isBuildPart_iff]
  constructor
  · rintro ⟨⟨⟨⟨⟨major, hmajor⟩, minor, hminor⟩, patch, hpatch⟩, pre, hpre⟩, build, hbuild⟩
    exact ⟨⟨major, minor, patch, pre, build⟩, by
      rw [spelling, hmajor, hminor, hpatch, hpre, hbuild]⟩
  · rintro ⟨d, rfl⟩
    exact ⟨⟨⟨⟨⟨_, rfl⟩, _, rfl⟩, _, rfl⟩, _, rfl⟩, _, rfl⟩

theorem wellFormed_spelling (d : Derivation) : d.spelling.wellFormed = true :=
  wellFormed_iff.mpr ⟨d, rfl⟩

theorem ofChars?_chars (d : Derivation) : Spelling.ofChars? d.chars = some d.spelling :=
  Spelling.ofChars?_chars d.wellFormed_spelling

/-- A text that can be cut into the parts of a version has a derivation. -/
theorem exists_of_ofChars? {cs : List Char} {s : Spelling} (h : Spelling.ofChars? cs = some s) :
    ∃ d : Derivation, d.spelling = s ∧ d.chars = cs := by
  obtain ⟨d, rfl⟩ := wellFormed_iff.mp (Spelling.wellFormed_of_ofChars? h)
  exact ⟨d, rfl, Spelling.chars_of_ofChars? h⟩

/-- A text has at most one derivation. -/
theorem chars_injective {d d' : Derivation} (h : d.chars = d'.chars) : d = d' := by
  have hs := d.ofChars?_chars
  rw [h, ofChars?_chars] at hs
  exact spelling_injective (Option.some.inj hs).symm

/-- No blanks stand at the ends of a derived text. -/
theorem trimmed_chars (d : Derivation) : Trimmed d.chars where
  first _ hc := isBlank_of_isVersionChar
    (Spelling.isVersionChar_of_mem_chars d.wellFormed_spelling (List.mem_of_mem_head? hc))
  last _ hc := isBlank_of_isVersionChar
    (Spelling.isVersionChar_of_mem_chars d.wellFormed_spelling (List.mem_of_getLast? hc))

end Derivation

/-! ## Reading what is derived -/

theorem Numeral.readNumeral_chars (n : Numeral) :
    readNumeral n.chars =
      if n.tooLong = true then .error (.tooLong n.chars.length) else .ok n.value := by
  obtain ⟨hne, hall⟩ := isDecimal_of_isNumber n.isNumber_chars
  rw [readNumeral_of_all hne hall, tooLong, value_eq]
  simp only [decide_eq_true_eq]

theorem Identifier.ofText_eq_error {t : String} {e : NumeralError}
    (h : Rank.ofText t = .error e) : ofText t = .error e := by
  unfold ofText
  split
  · rename_i e' he
    rw [h] at he
    cases he
    rfl
  · rename_i r hr
    rw [h] at hr
    cases hr

namespace Tag

theorem rank_number (n : Numeral) :
    Rank.ofText (String.ofList n.chars) =
      if n.tooLong = true then .error (.tooLong n.chars.length) else .ok (.number n.value) := by
  obtain ⟨hne, hall⟩ := isDecimal_of_isNumber n.isNumber_chars
  have hdigits : n.chars.all isDigit = true :=
    List.all_eq_true.mpr fun c hc => isDigit_of_isDecimal (List.all_eq_true.mp hall c hc)
  rw [Rank.ofText, String.toList_ofList, if_pos ⟨hne, hdigits⟩, n.readNumeral_chars]
  cases n.tooLong <;> rfl

theorem rank_label (l : Label) :
    Rank.ofText (String.ofList l.chars) = .ok (.word (String.ofList l.chars)) := by
  have hdigits : l.chars.all isDigit = false :=
    not_all_isDigit_of_isLabel (isLabel_iff.mpr ⟨l, rfl⟩)
  rw [Rank.ofText, String.toList_ofList, if_neg (by simp [hdigits])]

/-- The first number that is too long is the failure. -/
theorem ofTexts_of_tooLong {ts : List Tag} {n : Numeral}
    (h : (ts.filterMap number?).find? Numeral.tooLong = some n) :
    Identifier.ofTexts (ts.map fun t => String.ofList t.chars) =
      .error (.tooLong n.chars.length) := by
  induction ts with
  | nil => cases h
  | cons t ts ih =>
    -- an identifier that can be read leaves the failure to the others
    have hrest {r : Rank} (hr : Rank.ofText (String.ofList t.chars) = .ok r)
        (h : (ts.filterMap number?).find? Numeral.tooLong = some n) :
        Identifier.ofTexts ((t :: ts).map fun t => String.ofList t.chars) =
          .error (.tooLong n.chars.length) := by
      obtain ⟨i, hi⟩ := Spelling.exists_identifier hr
      simp only [List.map_cons, Identifier.ofTexts, hi, ih h]
    cases t with
    | number m =>
      have hrank := rank_number m
      rw [show (number m :: ts).filterMap number? = m :: ts.filterMap number? from rfl,
        List.find?_cons] at h
      cases hm : m.tooLong with
      | true =>
        rw [hm] at h hrank
        cases h
        simp only [List.map_cons, Identifier.ofTexts, chars, Identifier.ofText_eq_error hrank]
      | false =>
        rw [hm] at h hrank
        exact hrest hrank h
    | label l => exact hrest (rank_label l) h

end Tag

namespace Derivation

theorem bounded_of_fit {d : Derivation} (h : ∀ n ∈ d.numbers, n.tooLong = false) :
    d.spelling.Bounded := by
  have hfit {n : Numeral} (hn : n ∈ d.numbers) : n.chars.length ≤ maxDigits := by
    simpa [Numeral.tooLong] using h n hn
  refine ⟨hfit (by simp [numbers]), hfit (by simp [numbers]), hfit (by simp [numbers]), ?_⟩
  intro i hi hall
  obtain ⟨t, ht, rfl⟩ := List.mem_map.mp hi
  cases t with
  | number n =>
    exact hfit (List.mem_append_right _ (List.mem_filterMap.mpr ⟨.number n, ht, rfl⟩))
  | label l =>
    have hletter : l.letter ∈ l.chars := by simp [Label.chars]
    have hdigit := isDigit_of_isDecimal (List.all_eq_true.mp hall l.letter hletter)
    rw [isLetter_not_isDigit l.lettered] at hdigit
    cases hdigit

/-- A derivation without a number that is too long denotes a version. -/
theorem version_of_fit {d : Derivation} (h : ∀ n ∈ d.numbers, n.tooLong = false) :
    ∃ v, d.spelling.version = .ok v ∧ d.Denotes v := by
  obtain ⟨v, hv⟩ := Spelling.exists_version d.wellFormed_spelling (bounded_of_fit h)
  obtain ⟨hmajor, hminor, hpatch, hpre, hbuild⟩ := Spelling.version_eq_ok hv
  have hvalue {n : Numeral} {k : Nat} (hk : readNumeral n.chars = .ok k) : k = n.value :=
    (eq_valueOf_of_readNumeral hk).trans n.value_eq.symm
  refine ⟨v, hv, ⟨hvalue hmajor, hvalue hminor, hvalue hpatch, ?_, ?_⟩⟩
  · rw [Identifier.texts_of_ofTexts hpre, spelling, List.map_map]
    rfl
  · rw [← hbuild, spelling, List.map_map]
    rfl

/-- The first number that is too long is the failure. -/
theorem version_of_tooLong {d : Derivation} {n : Numeral}
    (h : d.numbers.find? Numeral.tooLong = some n) :
    d.spelling.version = .error (.tooLong n.chars.length) := by
  simp only [numbers, List.cons_append, List.nil_append, List.find?_cons] at h
  simp only [Spelling.version, spelling, Numeral.readNumeral_chars]
  cases hmajor : d.major.tooLong with
  | true =>
    rw [hmajor] at h
    cases h
    rfl
  | false =>
    cases hminor : d.minor.tooLong with
    | true =>
      rw [hmajor, hminor] at h
      cases h
      rfl
    | false =>
      cases hpatch : d.patch.tooLong with
      | true =>
        rw [hmajor, hminor, hpatch] at h
        cases h
        rfl
      | false =>
        rw [hmajor, hminor, hpatch] at h
        have hpre := Tag.ofTexts_of_tooLong h
        rw [List.map_map]
        simp only [Bool.false_eq_true, if_false, Function.comp_def, hpre]

end Derivation

namespace Version

/-- How every text is read. Without the blanks around it, it has at most one derivation. That gives
the version, unless it writes a number with more than `maxDigits` digits; then the first such number
is the failure. A text without a derivation is malformed. -/
theorem parse_by_grammar (t : String) :
    (∀ d d' : Derivation, d.chars = trim t.toList → d'.chars = trim t.toList → d = d') ∧
    (∀ d : Derivation, d.chars = trim t.toList →
      (∀ n ∈ d.numbers, n.chars.length ≤ maxDigits) → ∃ v, parse t = .ok v ∧ d.Denotes v) ∧
    (∀ d : Derivation, d.chars = trim t.toList →
      (∃ n ∈ d.numbers, maxDigits < n.chars.length) →
        ∃ n, d.numbers.find? Numeral.tooLong = some n ∧
          parse t = .error (.numeral (.tooLong n.chars.length))) ∧
    ((¬ ∃ d : Derivation, d.chars = trim t.toList) → parse t = .error (.malformed .version t)) := by
  refine ⟨?_, ?_, ?_, ?_⟩
  · intro d d' h h'
    exact Derivation.chars_injective (h.trans h'.symm)
  · intro d hd hfit
    obtain ⟨v, hv, hdenotes⟩ := Derivation.version_of_fit (d := d) fun n hn =>
      decide_eq_false (Nat.not_lt.mpr (hfit n hn))
    refine ⟨v, ?_, hdenotes⟩
    simp only [parse, ← hd, d.ofChars?_chars, hv]
  · rintro d hd ⟨n, hn, hlong⟩
    obtain ⟨m, hm⟩ : ∃ m, d.numbers.find? Numeral.tooLong = some m := by
      rw [← Option.isSome_iff_exists, List.find?_isSome]
      exact ⟨n, hn, decide_eq_true hlong⟩
    refine ⟨m, hm, ?_⟩
    simp only [parse, ← hd, d.ofChars?_chars, Derivation.version_of_tooLong hm]
  · intro hnone
    cases hs : Spelling.ofChars? (trim t.toList) with
    | none => simp only [parse, hs]
    | some s =>
      obtain ⟨d, _, hd⟩ := Derivation.exists_of_ofChars? hs
      exact absurd ⟨d, hd⟩ hnone

/-- A text with hyphens in every place and a digit of another script, a number that has one digit
too many, and a text whose only fault is a leading zero. -/
theorem parse_by_grammar_hyphens :
    let d : Derivation :=
      ⟨.digits '1' [] (by decide) nofun,
        .digits '2' ['\u0660'] (by decide) (List.all_eq_true.mp rfl), .zero,
        [.label ⟨['0'], 'a', [], List.all_eq_true.mp rfl, rfl, nofun⟩,
          .number (.digits '1' ['0'] (by decide) (List.all_eq_true.mp rfl)),
          .label ⟨[], '-', ['-'], nofun, rfl, List.all_eq_true.mp rfl⟩],
        [⟨"x-".toList, by decide, List.all_eq_true.mp rfl⟩,
          ⟨"-01".toList, by decide, List.all_eq_true.mp rfl⟩]⟩
    let long : Derivation := ⟨.powerOfTen maxDigits, .zero, .zero, [], []⟩
    d.chars = trim " 1.2\u0660.0-0a.10.--+x-.-01\t".toList ∧
      (∃ v, parse " 1.2\u0660.0-0a.10.--+x-.-01\t" = .ok v ∧ d.Denotes v) ∧
      parse (String.ofList long.chars) = .error (.numeral (.tooLong (maxDigits + 1))) ∧
      parse "1.0.0-01" = .error (.malformed .version "1.0.0-01") := by
  intro d long
  have hd : d.chars = trim " 1.2\u0660.0-0a.10.--+x-.-01\t".toList := by decide +kernel
  have hfit : ∀ n ∈ d.numbers, n.chars.length ≤ maxDigits := by decide
  have hlong : long.chars = trim (String.ofList long.chars).toList := by
    rw [String.toList_ofList, trim_of_trimmed long.trimmed_chars]
  have hlength : long.major.chars.length = maxDigits + 1 := Numeral.length_powerOfTen maxDigits
  have hmajor : maxDigits < long.major.chars.length := by rw [hlength]; exact Nat.lt_succ_self _
  have hfirst : long.numbers.find? Numeral.tooLong = some long.major :=
    List.find?_cons_of_pos (decide_eq_true hmajor)
  have hnone : ¬ ∃ d : Derivation, d.chars = trim "1.0.0-01".toList := by
    rintro ⟨d, hd⟩
    have hparts : Spelling.ofChars? (trim "1.0.0-01".toList) = none := by decide +kernel
    rw [← hd, d.ofChars?_chars] at hparts
    cases hparts
  obtain ⟨n, hn, hp⟩ :=
    (parse_by_grammar _).2.2.1 long hlong ⟨long.major, List.mem_cons_self, hmajor⟩
  rw [← Option.some.inj (hfirst.symm.trans hn), hlength] at hp
  exact ⟨hd, (parse_by_grammar _).2.1 d hd hfit, hp, (parse_by_grammar _).2.2.2 hnone⟩

end Version
end PackageResolution
