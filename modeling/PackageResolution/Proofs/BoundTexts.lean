import PackageResolution.Proofs.ConstraintPrinting
import PackageResolution.Proofs.VersionPrinting

/-!
# PackageResolution.Proofs.BoundTexts

The texts of one bound. There are several ways to write it, and they agree on what the bound is.
They do not agree on which versions can stand there: a version alone can have decimal digits of any
script in it, and next to a sign of comparison only those from `0` to `9` make up a version.

* `Text.hasForeignDigit`: a text has a decimal digit of another script.
* `Constraint.boundTexts`: the ways to write a bound. `Constraint.parse_boundText_iff` says when one
  is read, and as what.
* `Constraint.parse_printed_iff`: when the text of a range that has been read is read again.
* `Constraint.bound_texts_agree`: both. `Constraint.foreign_digit_not_read_back` is a text that is
  read, and whose range is not read from its own text.
-/

namespace PackageResolution

open Text Lexeme

/-! ## Digits of other scripts -/

namespace Text

def isForeignDigit (c : Char) : Bool := isDecimal c && !c.isDigit

def hasForeignDigit (cs : List Char) : Bool := cs.any isForeignDigit

@[simp] theorem hasForeignDigit_append (xs ys : List Char) :
    hasForeignDigit (xs ++ ys) = (hasForeignDigit xs || hasForeignDigit ys) := List.any_append

@[simp] theorem hasForeignDigit_cons (c : Char) (cs : List Char) :
    hasForeignDigit (c :: cs) = (isForeignDigit c || hasForeignDigit cs) := rfl

theorem hasForeignDigit_eq_false_iff {cs : List Char} :
    hasForeignDigit cs = false ↔ ∀ c ∈ cs, isForeignDigit c = false := by
  simp [hasForeignDigit]

theorem isForeignDigit_of_isWordChar {c : Char} (h : isWordChar c = true) :
    isForeignDigit c = false := by
  cases hd : isDecimal c with
  | false => rw [isForeignDigit, hd, Bool.false_and]
  | true =>
    have hc := toNat_of_isWordChar h
    obtain ⟨h₁, h₂⟩ := isDigit_of_lt (by omega) (isDigit_of_isDecimal hd)
    have hdigit : c.isDigit = true := by
      simp only [Char.isDigit, Bool.and_eq_true, decide_eq_true_eq]
      exact ⟨h₁, h₂⟩
    rw [isForeignDigit, hdigit, Bool.not_true, Bool.and_false]

/-- The characters of versions are word characters and foreign digits. -/
theorem isWordChar_of_isVersionChar {c : Char} (h : Spelling.isVersionChar c = true)
    (hf : isForeignDigit c = false) : isWordChar c = true := by
  simp only [Spelling.isVersionChar, isWordPart, Bool.or_eq_true, beq_iff_eq] at h
  rcases h with ((h | h | rfl) | rfl) | rfl
  · rw [isForeignDigit, h, Bool.true_and, Bool.not_eq_false'] at hf
    simp [isWordChar, Char.isAlphanum, hf]
  · simp [isWordChar, h]
  · rfl
  · rfl
  · rfl

theorem hasForeignDigit_of_wordChars {w : List Char} (h : ∀ c ∈ w, isWordChar c = true) :
    hasForeignDigit w = false :=
  hasForeignDigit_eq_false_iff.mpr fun c hc => isForeignDigit_of_isWordChar (h c hc)

theorem hasForeignDigit_of_blanks {b : List Char} (h : Blanks b) : hasForeignDigit b = false := by
  refine hasForeignDigit_eq_false_iff.mpr fun c hc => ?_
  cases hd : isDecimal c with
  | false => rw [isForeignDigit, hd, Bool.false_and]
  | true =>
    have hb := isBlank_of_isDecimal hd
    rw [h c hc] at hb
    cases hb

end Text

@[simp] theorem Relation.hasForeignDigit_sign (r : Relation) : hasForeignDigit r.sign = false := by
  cases r <;> rfl

/-- A text that is read as a version is one in word characters where it has no foreign digit. -/
theorem reads_of_parse {w : List Char} {v : Version} (ht : Trimmed w)
    (h : Version.parse (String.ofList w) = .ok v) (hf : hasForeignDigit w = false) : Reads w v := by
  refine ⟨fun c hc => ?_, h⟩
  exact isWordChar_of_isVersionChar (Version.isVersionChar_of_trimmed ht h c hc)
    (hasForeignDigit_eq_false_iff.mp hf c hc)

theorem Separator.hasForeignDigit_eq_false {sep : List Char} (h : Separator sep) :
    hasForeignDigit sep = false := by
  cases h with
  | blanks _ hb => exact hasForeignDigit_of_blanks hb
  | comma hb hb' =>
    rw [hasForeignDigit_append, hasForeignDigit_cons, hasForeignDigit_of_blanks hb,
      hasForeignDigit_of_blanks hb']
    rfl

theorem Reads.hasForeignDigit_eq_false {w : List Char} {v : Version} (h : Reads w v) :
    hasForeignDigit w = false := hasForeignDigit_of_wordChars h.wordChars

theorem Listed.hasForeignDigit_eq_false {s : List Char} {ks : List Comparison} (h : Listed s ks) :
    hasForeignDigit s = false := by
  induction h with
  | one r hb hw => simp [hasForeignDigit_of_blanks hb, hw.hasForeignDigit_eq_false]
  | more r hb hw hsep _ ih =>
    simp [hasForeignDigit_of_blanks hb, hw.hasForeignDigit_eq_false,
      hsep.hasForeignDigit_eq_false, ih]

/-- Only a version alone can have a foreign digit. -/
theorem Written.hasForeignDigit_eq_false {s : List Char} {ks : List Comparison} (h : Written s ks)
    (ht : Trimmed s) (hsign : ∃ r : Relation, r.sign ⊆ s) : hasForeignDigit s = false := by
  have hletter : hasForeignDigit ['v'] = false := rfl
  cases h with
  | star => rfl
  | bare hp =>
    obtain ⟨r, hr⟩ := hsign
    obtain ⟨c, hc, hn⟩ := r.exists_not_isVersionChar
    rw [Version.isVersionChar_of_trimmed ht hp c (hr hc)] at hn
    cases hn
  | between strict strict' hl hb₁ hb₂ hb₃ hb₄ hu =>
    simp only [hasForeignDigit_append, hl.hasForeignDigit_eq_false, hu.hasForeignDigit_eq_false,
      hletter, hasForeignDigit_of_blanks hb₁, hasForeignDigit_of_blanks hb₂,
      hasForeignDigit_of_blanks hb₃, hasForeignDigit_of_blanks hb₄, Relation.hasForeignDigit_sign,
      Bool.or_false]
  | onward strict hl hb₁ hb₂ =>
    simp only [hasForeignDigit_append, hl.hasForeignDigit_eq_false, hletter,
      hasForeignDigit_of_blanks hb₁, hasForeignDigit_of_blanks hb₂, Relation.hasForeignDigit_sign,
      Bool.or_false]
  | upTo strict hb₁ hb₂ hu =>
    simp only [hasForeignDigit_append, hu.hasForeignDigit_eq_false, hletter,
      hasForeignDigit_of_blanks hb₁, hasForeignDigit_of_blanks hb₂, Relation.hasForeignDigit_sign,
      Bool.or_false]
  | listed hs => exact hs.hasForeignDigit_eq_false

/-! ## One bound -/

namespace Comparison

/-- The range in which the comparison holds. -/
def range (k : Comparison) : Constraint :=
  match k.relation with
  | .below => ⟨none, some ⟨k.version, false⟩, rfl⟩
  | .atMost => ⟨none, some ⟨k.version, true⟩, rfl⟩
  | .exactly => .exactly k.version
  | .atLeast => ⟨some ⟨k.version, true⟩, none, rfl⟩
  | .above => ⟨some ⟨k.version, false⟩, none, rfl⟩

theorem ofComparisons?_singleton (k : Comparison) :
    Constraint.ofComparisons? [k] = some k.range := by
  obtain ⟨r, v⟩ := k
  cases r with
  | exactly => exact Constraint.ofBounds?_self (.exactly v)
  | below => rfl
  | atMost => rfl
  | atLeast => rfl
  | above => rfl

theorem ofComparisons?_meeting (v : Version) :
    Constraint.ofComparisons? [⟨.atLeast, v⟩, ⟨.atMost, v⟩] = some (.exactly v) :=
  Constraint.ofBounds?_self (.exactly v)

theorem version_of_lower? {k : Comparison} {b : Bound} (h : k.lower? = some b) :
    b.version = k.version := by
  obtain ⟨r, v⟩ := k
  cases r <;> cases h <;> rfl

theorem version_of_upper? {k : Comparison} {b : Bound} (h : k.upper? = some b) :
    b.version = k.version := by
  obtain ⟨r, v⟩ := k
  cases r <;> cases h <;> rfl

end Comparison

namespace Constraint

/-- The ways to write one bound, each with the relation that it stands for. -/
def boundTexts (t : String) : List (Relation × String) :=
  [(.exactly, "==" ++ t), (.exactly, t ++ " <= v <= " ++ t), (.atLeast, ">=" ++ t),
    (.atLeast, t ++ " <= v"), (.above, ">" ++ t), (.above, t ++ " < v"), (.atMost, "<=" ++ t),
    (.atMost, "v <= " ++ t), (.below, "<" ++ t), (.below, "v < " ++ t)]

/-- The characters of such a text: a comparison, or a bound beside the letter `v`. -/
theorem mem_boundTexts {t : String} {e : Relation × String} (h : e ∈ boundTexts t) :
    e.2.toList = e.1.sign ++ [] ++ t.toList ∨
      (e.1 = .exactly ∧ e.2.toList = t.toList ++ [' '] ++ (Relation.less false).sign ++ [' '] ++
        ['v'] ++ [' '] ++ (Relation.less false).sign ++ [' '] ++ t.toList) ∨
      (∃ strict, e.1 = .greater strict ∧
        e.2.toList = t.toList ++ [' '] ++ (Relation.less strict).sign ++ [' '] ++ ['v']) ∨
      ∃ strict, e.1 = .less strict ∧
        e.2.toList = ['v'] ++ [' '] ++ (Relation.less strict).sign ++ [' '] ++ t.toList := by
  simp only [boundTexts, List.mem_cons, List.not_mem_nil, or_false] at h
  rcases h with rfl | rfl | rfl | rfl | rfl | rfl | rfl | rfl | rfl | rfl
  · exact .inl (by simp [Relation.sign])
  · exact .inr (.inl ⟨rfl, by simp [Relation.less, Relation.sign]⟩)
  · exact .inl (by simp [Relation.sign])
  · exact .inr (.inr (.inl ⟨false, rfl, by simp [Relation.less, Relation.sign]⟩))
  · exact .inl (by simp [Relation.sign])
  · exact .inr (.inr (.inl ⟨true, rfl, by simp [Relation.less, Relation.sign]⟩))
  · exact .inl (by simp [Relation.sign])
  · exact .inr (.inr (.inr ⟨false, rfl, by simp [Relation.less, Relation.sign]⟩))
  · exact .inl (by simp [Relation.sign])
  · exact .inr (.inr (.inr ⟨true, rfl, by simp [Relation.less, Relation.sign]⟩))

section

variable {t : String} {v : Version} {e : Relation × String}

theorem written_boundText (h : Reads t.toList v) (he : e ∈ boundTexts t) :
    ∃ ks, Written e.2.toList ks ∧ ofComparisons? ks = some (Comparison.range ⟨e.1, v⟩) := by
  have hblank : Blanks [' '] := List.all_eq_true.mp rfl
  have hone := Comparison.ofComparisons?_singleton ⟨e.1, v⟩
  rcases mem_boundTexts he with hs | ⟨hr, hs⟩ | ⟨strict, hr, hs⟩ | ⟨strict, hr, hs⟩ <;> rw [hs]
  · exact ⟨_, .listed (.one e.1 blanks_nil h), hone⟩
  · rw [hr]
    exact ⟨_, .between false false h hblank hblank hblank hblank h,
      Comparison.ofComparisons?_meeting v⟩
  · rw [hr] at hone ⊢
    exact ⟨_, .onward strict h hblank hblank, hone⟩
  · rw [hr] at hone ⊢
    exact ⟨_, .upTo strict hblank hblank h, hone⟩

theorem trimmed_sign (r : Relation) : Trimmed r.sign := by
  cases r <;> exact ⟨fun c hc => by cases hc; rfl, fun c hc => by cases hc; rfl⟩

theorem trimmed_boundText (ht : Trimmed t.toList) (hne : t.toList ≠ []) (he : e ∈ boundTexts t) :
    Trimmed e.2.toList := by
  have hsign : e.1.sign ≠ [] := by cases e.1 <;> nofun
  rcases mem_boundTexts he with hs | ⟨_, hs⟩ | ⟨strict, _, hs⟩ | ⟨strict, _, hs⟩ <;> rw [hs]
  · exact (trimmed_sign e.1).append ht hsign hne []
  · simpa using ht.append ht hne hne ([' '] ++ (Relation.less false).sign ++ [' '] ++ ['v'] ++ [' ']
      ++ (Relation.less false).sign ++ [' '])
  · simpa using ht.append trimmed_letter hne nofun ([' '] ++ (Relation.less strict).sign ++ [' '])
  · simpa using trimmed_letter.append ht nofun hne ([' '] ++ (Relation.less strict).sign ++ [' '])

theorem subset_boundText (he : e ∈ boundTexts t) :
    t.toList ⊆ e.2.toList ∧ ∃ r : Relation, r.sign ⊆ e.2.toList := by
  rcases mem_boundTexts he with hs | ⟨_, hs⟩ | ⟨strict, _, hs⟩ | ⟨strict, _, hs⟩ <;> rw [hs]
  · exact ⟨fun c hc => by simp [hc], e.1, fun c hc => by simp [hc]⟩
  · exact ⟨fun c hc => by simp [hc], .less false, fun c hc => by simp [hc]⟩
  · exact ⟨fun c hc => by simp [hc], .less strict, fun c hc => by simp [hc]⟩
  · exact ⟨fun c hc => by simp [hc], .less strict, fun c hc => by simp [hc]⟩

/-- No range is read from a text with a sign of comparison and a foreign digit somewhere in it. -/
theorem hasForeignDigit_of_parse {text : String} {w : List Char} {c : Constraint}
    (ht : Trimmed text.toList) (hw : w ⊆ text.toList)
    (hsign : ∃ r : Relation, r.sign ⊆ text.toList) (h : parse text = .ok c) :
    hasForeignDigit w = false := by
  obtain ⟨ks, hwritten, _⟩ := parse_eq_ok_iff.mp h
  rw [trim_of_trimmed ht] at hwritten
  have hf := hasForeignDigit_eq_false_iff.mp (hwritten.hasForeignDigit_eq_false ht hsign)
  exact hasForeignDigit_eq_false_iff.mpr fun d hd => hf d (hw hd)

theorem ne_nil_of_parse (h : Version.parse t = .ok v) : t.toList ≠ [] := by
  intro hnil
  rw [String.toList_eq_nil_iff.mp hnil] at h
  cases h

/-- A bound is read from its texts wherever the version has no foreign digit, and nowhere else. -/
theorem parse_boundText_iff (ht : Trimmed t.toList) (h : Version.parse t = .ok v)
    (he : e ∈ boundTexts t) (c : Constraint) :
    parse e.2 = .ok c ↔ hasForeignDigit t.toList = false ∧ c = Comparison.range ⟨e.1, v⟩ := by
  have htrimmed := trimmed_boundText ht (ne_nil_of_parse h) he
  obtain ⟨hsubset, hsign⟩ := subset_boundText he
  have hread (hf : hasForeignDigit t.toList = false) :
      parse e.2 = .ok (Comparison.range ⟨e.1, v⟩) := by
    have hreads : Reads t.toList v := reads_of_parse ht (by rwa [String.ofList_toList]) hf
    obtain ⟨ks, hw, hks⟩ := written_boundText hreads he
    exact parse_eq_ok_iff.mpr ⟨ks, by rwa [trim_of_trimmed htrimmed], hks⟩
  constructor
  · intro hc
    have hf := hasForeignDigit_of_parse htrimmed hsubset hsign hc
    rw [hread hf] at hc
    exact ⟨hf, (Except.ok.inj hc).symm⟩
  · rintro ⟨hf, rfl⟩
    exact hread hf

/-- A version alone is read with digits of any script. -/
theorem parse_bare (ht : Trimmed t.toList) (h : Version.parse t = .ok v) :
    parse t = .ok (.exactly v) := by
  have hrange := Comparison.ofComparisons?_singleton ⟨.exactly, v⟩
  refine parse_eq_ok_iff.mpr ⟨_, ?_, hrange⟩
  rw [trim_of_trimmed ht]
  exact .bare (by rwa [String.ofList_toList])

end

end Constraint

/-! ## Ranges that have been read -/

theorem Listed.parsed {s : List Char} {ks : List Comparison} (h : Listed s ks) :
    ∀ k ∈ ks, ∃ t, Version.parse t = .ok k.version := by
  induction h with
  | one r _ hw => exact List.forall_mem_singleton.mpr ⟨_, hw.parse⟩
  | more r _ hw _ _ ih => exact List.forall_mem_cons.mpr ⟨⟨_, hw.parse⟩, ih⟩

/-- The versions that are written in a text have been read from it. -/
theorem Written.parsed {s : List Char} {ks : List Comparison} (h : Written s ks) :
    ∀ k ∈ ks, ∃ t, Version.parse t = .ok k.version := by
  cases h with
  | star => exact nofun
  | bare hp => exact List.forall_mem_singleton.mpr ⟨_, hp⟩
  | between _ _ hl _ _ _ _ hu =>
    exact List.forall_mem_cons.mpr ⟨⟨_, hl.parse⟩, List.forall_mem_singleton.mpr ⟨_, hu.parse⟩⟩
  | onward _ hl _ _ => exact List.forall_mem_singleton.mpr ⟨_, hl.parse⟩
  | upTo _ _ _ hu => exact List.forall_mem_singleton.mpr ⟨_, hu.parse⟩
  | listed hs => exact hs.parsed

namespace Bound

/-- The version of the tighter bound is that of one of the two. -/
theorem version_of_tighter (cmp : Version → Version → Ordering) {a b : Option Bound} {x : Bound}
    (h : tighter cmp a b = some x) : ∃ y ∈ a.toList ++ b.toList, x.version = y.version := by
  cases a with
  | none => exact ⟨x, by simpa [tighter] using h, rfl⟩
  | some a =>
    cases b with
    | none => exact ⟨x, by simpa [tighter, eq_comm] using h, rfl⟩
    | some b =>
      simp only [tighter] at h
      split at h <;> cases h
      · exact ⟨x, by simp, rfl⟩
      · exact ⟨a, by simp, rfl⟩
      · exact ⟨x, by simp, rfl⟩

theorem version_of_foldl_tighter (cmp : Version → Version → Ordering) {bs : List (Option Bound)}
    {a : Option Bound} {x : Bound} (h : bs.foldl (tighter cmp) a = some x) :
    ∃ y, (some y = a ∨ some y ∈ bs) ∧ x.version = y.version := by
  induction bs generalizing a with
  | nil => exact ⟨x, .inl h.symm, rfl⟩
  | cons b bs ih =>
    obtain ⟨y, hy | hy, hx⟩ := ih h
    · obtain ⟨z, hz, hyz⟩ := version_of_tighter cmp hy.symm
      refine ⟨z, ?_, hx.trans hyz⟩
      rcases List.mem_append.mp hz with hz | hz
      · exact .inl (Option.mem_toList.mp hz).symm
      · exact .inr (List.mem_cons.mpr (.inl (Option.mem_toList.mp hz).symm))
    · exact ⟨y, .inr (List.mem_cons_of_mem b hy), hx⟩

theorem version_of_tightest (cmp : Version → Version → Ordering) {bs : List (Option Bound)}
    {x : Bound} (h : tightest cmp bs = some x) : ∃ y, some y ∈ bs ∧ x.version = y.version := by
  obtain ⟨y, hy | hy, hx⟩ := version_of_foldl_tighter cmp h
  · cases hy
  · exact ⟨y, hy, hx⟩

end Bound

namespace Constraint

/-- The bounds of a range that has been read have versions that have been read. -/
theorem exists_parse_of_mem_bounds {text : String} {c : Constraint} (h : parse text = .ok c) :
    ∀ b ∈ c.bounds, ∃ t, Version.parse t = .ok b.version := by
  obtain ⟨ks, hw, hks⟩ := parse_eq_ok_iff.mp h
  obtain ⟨hlower, hupper⟩ := bounds_of_ofBounds? hks
  intro b hb
  rcases List.mem_append.mp hb with hb | hb
  · rw [hlower, Comparison.tightestLower_eq, Option.mem_toList] at hb
    obtain ⟨y, hy, hb⟩ := Bound.version_of_tightest _ hb
    obtain ⟨k, hk, hky⟩ := List.mem_map.mp hy
    rw [hb, Comparison.version_of_lower? hky]
    exact hw.parsed k hk
  · rw [hupper, Comparison.tightestUpper_eq, Option.mem_toList] at hb
    obtain ⟨y, hy, hb⟩ := Bound.version_of_tightest _ hb
    obtain ⟨k, hk, hky⟩ := List.mem_map.mp hy
    rw [hb, Comparison.version_of_upper? hky]
    exact hw.parsed k hk

/-- Where a range has a bound, its text has that bound's version and a sign of comparison. -/
theorem subset_spelled {c : Constraint} {b : Bound} (hb : b ∈ c.bounds) :
    b.version.spelled.toList ⊆ c.spelled.toList ∧
      ∃ r : Relation, r.sign ⊆ c.spelled.toList := by
  rw [toList_spelled]
  unfold bounds at hb
  split
  · rename_i hl hu
    rw [hl, hu] at hb
    cases hb
  · rename_i l hl hu
    rw [hl, hu] at hb
    rw [l.toList_sign, List.mem_singleton.mp hb]
    exact ⟨fun c hc => by simp [hc], _, fun c hc => List.mem_append_left _
      (List.mem_append_left _ (List.mem_append_right _ hc))⟩
  · rename_i u hl hu
    rw [hl, hu] at hb
    rw [u.toList_sign, List.mem_singleton.mp hb]
    exact ⟨fun c hc => by simp [hc], _, fun c hc => List.mem_append_left _
      (List.mem_append_left _ (List.mem_append_right _ hc))⟩
  · rename_i l u hl hu
    rw [hl, hu] at hb
    rw [l.toList_sign, u.toList_sign]
    refine ⟨fun c hc => ?_, .less !l.inclusive, fun c hc => by simp [hc]⟩
    rcases List.mem_append.mp hb with hb | hb <;> rw [List.mem_singleton.mp hb] at hc <;> simp [hc]

/-- A range that has been read has a text, and is read from it wherever no bound of it has a foreign
digit; otherwise nothing is. -/
theorem parse_printed_iff {text : String} {c : Constraint} (h : parse text = .ok c) :
    c.text = .ok c.spelled ∧ ∀ d, parse c.spelled = .ok d ↔
      (∀ b ∈ c.bounds, hasForeignDigit b.version.spelled.toList = false) ∧ d = c := by
  have hversion (b : Bound) (hb : b ∈ c.bounds) : b.version.Printable ∧
      Trimmed b.version.spelled.toList ∧ Version.parse b.version.spelled = .ok b.version := by
    obtain ⟨t, ht⟩ := exists_parse_of_mem_bounds h b hb
    exact ⟨(Version.text_eq_ok_iff.mp (Version.text_of_parse ht)).1, Version.trimmed_spelled ht,
      Version.parse_spelled ht⟩
  have hread (hf : ∀ b ∈ c.bounds, hasForeignDigit b.version.spelled.toList = false) :
      parse c.spelled = .ok c := by
    refine parse_of_reads fun b hb => ?_
    obtain ⟨_, ht, hv⟩ := hversion b hb
    exact reads_of_parse ht (by rwa [String.ofList_toList]) (hf b hb)
  have htrimmed : Trimmed c.spelled.toList := trimmed_spelled fun b hb =>
    ⟨(hversion b hb).2.1, ne_nil_of_parse (hversion b hb).2.2⟩
  refine ⟨text_of_printable fun b hb => (hversion b hb).1, fun d => ⟨fun hd => ?_, ?_⟩⟩
  · have hf : ∀ b ∈ c.bounds, hasForeignDigit b.version.spelled.toList = false := by
      intro b hb
      obtain ⟨hsubset, hsign⟩ := subset_spelled hb
      exact hasForeignDigit_of_parse htrimmed hsubset hsign hd
    rw [hread hf] at hd
    exact ⟨hf, (Except.ok.inj hd).symm⟩
  · rintro ⟨hf, rfl⟩
    exact hread hf

/-- A version alone is read whatever its digits are. All other ways to write a bound agree, and are
read just where the version has no foreign digit. A range that has been read has a text, and is read
back from it just where no bound of it has one. -/
theorem bound_texts_agree (t : String) :
    (∀ v, Trimmed t.toList → Version.parse t = .ok v →
      parse t = .ok (.exactly v) ∧
      ∀ e ∈ boundTexts t, ∀ c, parse e.2 = .ok c ↔
        hasForeignDigit t.toList = false ∧ c = Comparison.range ⟨e.1, v⟩) ∧
    ∀ c, parse t = .ok c → ∃ printed, c.text = .ok printed ∧ ∀ d, parse printed = .ok d ↔
      (∀ b ∈ c.bounds, ∃ t, b.version.text = .ok t ∧ hasForeignDigit t.toList = false) ∧ d = c := by
  refine ⟨fun _ ht h => ⟨parse_bare ht h, fun _ he => parse_boundText_iff ht h he⟩, fun c h => ?_⟩
  obtain ⟨hprinted, hread⟩ := parse_printed_iff h
  refine ⟨c.spelled, hprinted, fun d => (hread d).trans (and_congr_left fun _ => ?_)⟩
  refine forall₂_congr fun b hb => ?_
  obtain ⟨u, hu⟩ := exists_parse_of_mem_bounds h b hb
  simp [Version.text_of_parse hu]

/-- A version with hyphens, the letter `v` and digits in it, in all the ways to write a bound. -/
theorem hyphenated_bound_texts :
    ∃ v : Version, v.text = .ok "1.0.0-v.1-x" ∧ Trimmed "1.0.0-v.1-x".toList ∧
      Version.parse "1.0.0-v.1-x" = .ok v ∧ parse "1.0.0-v.1-x" = .ok (.exactly v) ∧
      (∀ e ∈ boundTexts "1.0.0-v.1-x", parse e.2 = .ok (Comparison.range ⟨e.1, v⟩)) ∧
      ∃ printed, (exactly v).text = .ok printed ∧ parse printed = .ok (.exactly v) := by
  let v : Version := ⟨1, 0, 0, [⟨"v", .word "v", rfl⟩, ⟨"1-x", .word "1-x", rfl⟩], []⟩
  have htext : v.text = .ok "1.0.0-v.1-x" := by decide +kernel
  have ht : Trimmed "1.0.0-v.1-x".toList :=
    trimmed_of_wordChars (List.all_eq_true.mp (by decide +kernel))
  have hf : hasForeignDigit "1.0.0-v.1-x".toList = false :=
    hasForeignDigit_of_wordChars (List.all_eq_true.mp (by decide +kernel))
  have hv : Version.parse "1.0.0-v.1-x" = .ok v := by decide +kernel
  obtain ⟨hforms, hprinted⟩ := bound_texts_agree "1.0.0-v.1-x"
  obtain ⟨hbare, hforms⟩ := hforms v ht hv
  obtain ⟨printed, hprinted, hread⟩ := hprinted _ hbare
  refine ⟨v, htext, ht, hv, hbare, fun e he => (hforms e he _).mpr ⟨hf, rfl⟩, printed, hprinted, ?_⟩
  refine (hread _).mpr ⟨fun b hb => ?_, rfl⟩
  have hb : b.version = v := by
    rcases List.mem_cons.mp hb with rfl | hb
    · rfl
    · rw [List.mem_singleton.mp hb]
  rw [hb]
  exact ⟨_, htext, hf⟩

/-- An Arabic zero in a pre-release. The version alone is read, and nothing is read from the range's
own text, nor from any other way to write the bound. -/
theorem foreign_digit_not_read_back :
    ∃ v : Version, Trimmed "1.0.0-1\u0660".toList ∧ Version.parse "1.0.0-1\u0660" = .ok v ∧
      parse "1.0.0-1\u0660" = .ok (.exactly v) ∧
      (∃ printed, (exactly v).text = .ok printed ∧ ∀ c, parse printed ≠ .ok c) ∧
      ∀ e ∈ boundTexts "1.0.0-1\u0660", ∀ c, parse e.2 ≠ .ok c := by
  let v : Version := ⟨1, 0, 0, [⟨"1\u0660", .number 10, by decide +kernel⟩], []⟩
  have htext : v.spelled = "1.0.0-1\u0660" := by decide +kernel
  have ht : Trimmed "1.0.0-1\u0660".toList :=
    ⟨fun c hc => by cases hc; rfl, fun c hc => by cases hc; decide⟩
  have hf : hasForeignDigit "1.0.0-1\u0660".toList = true := by decide
  have hv : Version.parse "1.0.0-1\u0660" = .ok v := by decide +kernel
  have hbare : parse "1.0.0-1\u0660" = .ok (.exactly v) := parse_bare ht hv
  obtain ⟨hprinted, hread⟩ := parse_printed_iff hbare
  refine ⟨v, ht, hv, hbare, ⟨_, hprinted, fun c hc => ?_⟩, fun e he c hc => ?_⟩
  · have hplain := ((hread c).mp hc).1 ⟨v, true⟩ List.mem_cons_self
    rw [htext, hf] at hplain
    cases hplain
  · have hplain := ((parse_boundText_iff ht hv he c).mp hc).1
    rw [hf] at hplain
    cases hplain

end Constraint
end PackageResolution
