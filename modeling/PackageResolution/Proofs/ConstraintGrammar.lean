import Mathlib.Order.Basic
import PackageResolution.Constraint.Parser
import PackageResolution.Proofs.Lexemes
import PackageResolution.Proofs.VersionTexts

/-!
# PackageResolution.Proofs.ConstraintGrammar

The grammar of constraints, written down apart from the reader. The reader goes by the lexemes of a
text and never looks back; the grammar only says which texts there are.

* `Reads`, `Separator`, `Listed`, `Written`: the grammar. A text is related to the comparisons that
  are written in it.
* `Listed.outline`, `Written.outline`: the reader finds what is written.
* `Lexeme.Rendered.listed`, `written_of_outline`: what the reader finds is written.
* `written_iff`: both together. `Written.unique` says that a text states one list of comparisons.
-/

namespace PackageResolution

open Text Lexeme

/-! ## The grammar -/

/-- `<`, or `<=` where the version itself is let in. -/
def Relation.less (strict : Bool) : Relation := if strict then .below else .atMost

/-- `>`, or `>=` where the version itself is let in. -/
def Relation.greater (strict : Bool) : Relation := if strict then .above else .atLeast

/-- The text of a version in word characters only. -/
structure Reads (w : List Char) (v : Version) : Prop where
  wordChars : ∀ c ∈ w, isWordChar c = true
  parse : Version.parse (String.ofList w) = .ok v

/-- What stands between two comparisons: blanks, or a comma with or without blanks around it. -/
inductive Separator : List Char → Prop where
  | blanks {b : List Char} : b ≠ [] → Blanks b → Separator b
  | comma {b b' : List Char} : Blanks b → Blanks b' → Separator (b ++ ',' :: b')

/-- One or more comparisons, each a relation and a version. -/
inductive Listed : List Char → List Comparison → Prop where
  | one {b w : List Char} {v : Version} (r : Relation) : Blanks b → Reads w v →
      Listed (r.sign ++ b ++ w) [⟨r, v⟩]
  | more {b w sep s : List Char} {v : Version} {ks : List Comparison} (r : Relation) :
      Blanks b → Reads w v → Separator sep → Listed s ks →
      Listed (r.sign ++ b ++ w ++ sep ++ s) (⟨r, v⟩ :: ks)

/-- The texts of constraints, with the comparisons that they state: a star, a bare version, bounds
on one or both sides of the letter `v`, or a list of comparisons. -/
inductive Written : List Char → List Comparison → Prop where
  | star : Written ['*'] []
  | bare {s : List Char} {v : Version} : Version.parse (String.ofList s) = .ok v →
      Written s [⟨.exactly, v⟩]
  | between {l u b₁ b₂ b₃ b₄ : List Char} {v w : Version} (strict strict' : Bool) :
      Reads l v → Blanks b₁ → Blanks b₂ → Blanks b₃ → Blanks b₄ → Reads u w →
      Written (l ++ b₁ ++ (Relation.less strict).sign ++ b₂ ++ ['v'] ++ b₃ ++
        (Relation.less strict').sign ++ b₄ ++ u) [⟨.greater strict, v⟩, ⟨.less strict', w⟩]
  | onward {l b₁ b₂ : List Char} {v : Version} (strict : Bool) :
      Reads l v → Blanks b₁ → Blanks b₂ →
      Written (l ++ b₁ ++ (Relation.less strict).sign ++ b₂ ++ ['v']) [⟨.greater strict, v⟩]
  | upTo {u b₁ b₂ : List Char} {v : Version} (strict : Bool) :
      Blanks b₁ → Blanks b₂ → Reads u v →
      Written (['v'] ++ b₁ ++ (Relation.less strict).sign ++ b₂ ++ u) [⟨.less strict, v⟩]
  | listed {s : List Char} {ks : List Comparison} : Listed s ks → Written s ks

/-! ## Clauses -/

theorem Reads.ne_nil {w : List Char} {v : Version} (h : Reads w v) : w ≠ [] := by
  rintro rfl
  cases h.parse

theorem Reads.ne_letter {w : List Char} {v : Version} (h : Reads w v) : w ≠ ['v'] := by
  rintro rfl
  have hp : Version.parse (String.ofList ['v']) = .error (.malformed .version "v") := by
    decide +kernel
  have h' := h.parse
  rw [hp] at h'
  cases h'

namespace Clause

theorem comparisons_cons_eq_ok {text : String} {c : Clause} {cs : List Clause}
    {ks : List Comparison} :
    comparisons text (c :: cs) = .ok ks ↔ ∃ v ks', Version.parse (String.ofList c.version) = .ok v ∧
      comparisons text cs = .ok ks' ∧ ks = ⟨c.relation, v⟩ :: ks' := by
  simp only [comparisons, comparison]
  cases Version.parse (String.ofList c.version) with
  | error e => cases e <;> simp
  | ok v =>
    cases comparisons text cs with
    | error e => simp
    | ok ks' => simp [eq_comm]

theorem comparisons_singleton_eq_ok {text : String} {c : Clause} {ks : List Comparison} :
    comparisons text [c] = .ok ks ↔
      ∃ v, Version.parse (String.ofList c.version) = .ok v ∧ ks = [⟨c.relation, v⟩] := by
  rw [comparisons_cons_eq_ok]
  constructor
  · rintro ⟨v, _, hv, hnil, rfl⟩
    cases hnil
    exact ⟨v, hv, rfl⟩
  · rintro ⟨v, hv, rfl⟩
    exact ⟨v, [], hv, rfl, rfl⟩

theorem right?_less (strict : Bool) (u : List Char) :
    right? (.less strict) u = some ⟨.less strict, u⟩ := by
  cases strict <;> rfl

theorem less_of_left? {l : List Char} {r : Relation} {a : Clause} (h : left? l r = some a) :
    ∃ strict, r = .less strict ∧ a = ⟨.greater strict, l⟩ := by
  cases r with
  | below => cases h; exact ⟨true, rfl, rfl⟩
  | atMost => cases h; exact ⟨false, rfl, rfl⟩
  | exactly => cases h
  | atLeast => cases h
  | above => cases h

theorem less_of_right? {r : Relation} {u : List Char} {a : Clause} (h : right? r u = some a) :
    ∃ strict, r = .less strict ∧ a = ⟨.less strict, u⟩ := by
  cases r with
  | below => cases h; exact ⟨true, rfl, rfl⟩
  | atMost => cases h; exact ⟨false, rfl, rfl⟩
  | exactly => cases h
  | atLeast => cases h
  | above => cases h

/-- The lexemes of bounds around the letter `v`. -/
theorem interval?_eq_some {ts : List Token} {cs : List Clause} (h : interval? ts = some cs) :
    (∃ l u strict strict', ts = [.word l, .relation (.less strict), .word ['v'],
        .relation (.less strict'), .word u] ∧ cs = [⟨.greater strict, l⟩, ⟨.less strict', u⟩]) ∨
      (∃ l strict, ts = [.word l, .relation (.less strict), .word ['v']] ∧
        cs = [⟨.greater strict, l⟩]) ∨
      (∃ u strict, ts = [.word ['v'], .relation (.less strict), .word u] ∧
        cs = [⟨.less strict, u⟩]) := by
  unfold interval? at h
  split at h
  · rename_i l r r' u
    split at h
    · rename_i a b ha hb
      obtain ⟨strict, rfl, rfl⟩ := less_of_left? ha
      obtain ⟨strict', rfl, rfl⟩ := less_of_right? hb
      cases h
      exact .inl ⟨l, u, strict, strict', rfl, rfl⟩
    · cases h
  · rename_i l r u
    split at h
    · rename_i hu
      obtain ⟨a, ha, rfl⟩ := Option.map_eq_some_iff.mp h
      obtain ⟨strict, rfl, rfl⟩ := less_of_left? ha
      exact .inr (.inl ⟨l, strict, by rw [hu], rfl⟩)
    · split at h
      · rename_i hl
        obtain ⟨a, ha, rfl⟩ := Option.map_eq_some_iff.mp h
        obtain ⟨strict, rfl, rfl⟩ := less_of_right? ha
        exact .inr (.inr ⟨u, strict, by rw [hl], rfl⟩)
      · cases h
  · cases h

end Clause

/-! ## From the grammar to the reader -/

theorem endsWord_nil : EndsWord [] := by
  intro c hc
  cases hc

theorem endsWord_blanks {b rest : List Char} (hb : Blanks b) (h : EndsWord rest) :
    EndsWord (b ++ rest) := by
  cases b with
  | nil => exact h
  | cons c b =>
    intro d hd
    cases hd
    exact not_isWordChar_of_blanks hb _ List.mem_cons_self

theorem endsWord_sign (r : Relation) (rest : List Char) : EndsWord (r.sign ++ rest) := by
  intro c hc
  cases r <;> cases hc <;> rfl

theorem fits_word {w rest : List Char} {v : Version} (h : Reads w v) (hr : EndsWord rest) :
    (Token.word w).Fits rest :=
  ⟨h.ne_nil, h.wordChars, hr⟩

/-- Blanks and a word keep a sign from being read on. -/
theorem fits_relation (r : Relation) {b w : List Char} (hb : Blanks b) (hne : w ≠ [])
    (hw : ∀ c ∈ w, isWordChar c = true) (rest : List Char) :
    (Token.relation r).Fits (b ++ (w ++ rest)) := by
  have hhead : (b ++ (w ++ rest)).head? ≠ some '=' := by
    cases b with
    | nil =>
      cases w with
      | nil => exact absurd rfl hne
      | cons c w =>
        intro h
        cases h
        cases hw '=' List.mem_cons_self
    | cons c b =>
      intro h
      cases h
      cases hb '=' List.mem_cons_self
  cases r with
  | below => exact hhead
  | atMost => trivial
  | exactly => trivial
  | atLeast => trivial
  | above => exact hhead

theorem scan_comparison (r : Relation) {b w rest : List Char} (hb : Blanks b)
    (hf : (Token.word w).Fits rest) (spaced : Bool) :
    scan spaced (r.sign ++ (b ++ (w ++ rest))) =
      ⟨spaced, .relation r⟩ :: ⟨!b.isEmpty, .word w⟩ :: scan false rest := by
  have hrel : scan spaced (r.sign ++ (b ++ (w ++ rest))) =
      ⟨spaced, .relation r⟩ :: scan false (b ++ (w ++ rest)) :=
    scan_token (fits_relation r hb hf.1 hf.2.1 rest) spaced
  rw [hrel, scan_blanks hb, Bool.false_or, scan_word hf]

/-- The tokens of a text. -/
def tokens (s : List Char) : List Token := (scan false s).map (·.token)

theorem tokens_word {w rest : List Char} (hf : (Token.word w).Fits rest) :
    tokens (w ++ rest) = .word w :: tokens rest := by
  rw [tokens, scan_word hf]
  rfl

theorem tokens_comparison (r : Relation) {b b' w rest : List Char} (hb : Blanks b)
    (hb' : Blanks b') (hf : (Token.word w).Fits rest) :
    tokens (b ++ (r.sign ++ (b' ++ (w ++ rest)))) = .relation r :: .word w :: tokens rest := by
  rw [tokens, scan_blanks hb, scan_comparison r hb' hf]
  rfl

theorem tokens_last_comparison (r : Relation) {b b' w : List Char} (hb : Blanks b)
    (hb' : Blanks b') (hf : (Token.word w).Fits []) :
    tokens (b ++ (r.sign ++ (b' ++ w))) = [.relation r, .word w] := by
  have h := tokens_comparison r hb hb' hf
  rw [List.append_nil] at h
  exact h

theorem fits_letter {rest : List Char} (h : EndsWord rest) : (Token.word ['v']).Fits rest :=
  ⟨nofun, List.all_eq_true.mp rfl, h⟩

namespace Outline

theorem ofChars_of_interval {s : List Char} {cs : List Clause}
    (h : Clause.interval? (tokens s) = some cs) : ofChars s = ⟨cs, true⟩ := by
  cases s with
  | nil => cases h
  | cons c s =>
    have hstar : c :: s ≠ ['*'] := by
      intro he
      rw [he] at h
      cases h
    rw [tokens] at h
    rw [ofChars, if_neg hstar]
    simp only [h]

theorem ofChars_of_not_interval {c : Char} {s : List Char} (hs : c :: s ≠ ['*'])
    (h : Clause.interval? (tokens (c :: s)) = none) :
    ofChars (c :: s) = if startsComparison c then comparisons (scan false (c :: s))
      else ⟨[⟨.exactly, c :: s⟩], true⟩ := by
  rw [tokens] at h
  rw [ofChars, if_neg hs]
  simp only [h]

/-- The ways in which a text is read. -/
theorem ofChars_cases (s : List Char) :
    ofChars s = ⟨[], false⟩ ∨ (s = ['*'] ∧ ofChars s = ⟨[], true⟩) ∨
      (∃ cs, Clause.interval? (tokens s) = some cs ∧ ofChars s = ⟨cs, true⟩) ∨
      ofChars s = comparisons (scan false s) ∨ ofChars s = ⟨[⟨.exactly, s⟩], true⟩ := by
  cases s with
  | nil => exact .inl rfl
  | cons c s =>
    by_cases hstar : c :: s = ['*']
    · rw [hstar]
      exact .inr (.inl ⟨rfl, rfl⟩)
    · cases hi : Clause.interval? (tokens (c :: s)) with
      | some cs => exact .inr (.inr (.inl ⟨cs, rfl, ofChars_of_interval hi⟩))
      | none =>
        rw [ofChars_of_not_interval hstar hi]
        cases startsComparison c with
        | true => exact .inr (.inr (.inr (.inl rfl)))
        | false => exact .inr (.inr (.inr (.inr rfl)))

end Outline

theorem Separator.endsWord {sep : List Char} (h : Separator sep) (s : List Char) :
    EndsWord (sep ++ s) := by
  cases h with
  | blanks hne hb =>
    cases sep with
    | nil => exact absurd rfl hne
    | cons c b =>
      intro d hd
      cases hd
      exact not_isWordChar_of_blanks hb _ List.mem_cons_self
  | comma hb hb' =>
    rw [List.append_assoc]
    refine endsWord_blanks hb ?_
    intro d hd
    cases hd
    rfl

/-- The reader finds every comparison of a list. -/
theorem Listed.outline {s : List Char} {ks : List Comparison} (h : Listed s ks) (text : String)
    (spaced : Bool) :
    ∃ r ls cs, scan spaced s = ⟨spaced, .relation r⟩ :: ls ∧
      Outline.comparisons (scan spaced s) = ⟨cs, true⟩ ∧ Clause.comparisons text cs = .ok ks := by
  induction h generalizing spaced with
  | @one b w v r hb hw =>
    have hf : (Token.word w).Fits [] := fits_word hw endsWord_nil
    have hscan := scan_comparison r hb hf spaced
    rw [List.append_nil, ← List.append_assoc] at hscan
    refine ⟨r, _, [⟨r, w⟩], hscan, by rw [hscan]; rfl, ?_⟩
    exact Clause.comparisons_singleton_eq_ok.mpr ⟨v, hw.parse, rfl⟩
  | @more b w sep s v ks r hb hw hsep hs ih =>
    have hf : (Token.word w).Fits (sep ++ s) := fits_word hw (hsep.endsWord s)
    have hscan := scan_comparison r hb hf spaced
    simp only [List.append_assoc]
    have hcons {cs : List Clause} (hcs : Clause.comparisons text cs = .ok ks) :
        Clause.comparisons text (⟨r, w⟩ :: cs) = .ok (⟨r, v⟩ :: ks) :=
      Clause.comparisons_cons_eq_ok.mpr ⟨v, ks, hw.parse, hcs, rfl⟩
    cases hsep with
    | blanks hne hbs =>
      obtain ⟨r', ls, cs, hls, hout, hcs⟩ := ih true
      have hrest : scan false (sep ++ s) = scan true s := by
        rw [scan_blanks hbs, List.isEmpty_eq_false_iff.mpr hne]
        rfl
      refine ⟨r, _, ⟨r, w⟩ :: cs, hscan, ?_, hcons hcs⟩
      rw [hls] at hout
      rw [hscan, hrest, hls, Outline.comparisons]
      simp [hout, Outline.cons]
    | @comma b₁ b₂ hb₁ hb₂ =>
      obtain ⟨r', ls, cs, hls, hout, hcs⟩ := ih (!b₂.isEmpty)
      have hrest : scan false (b₁ ++ ',' :: b₂ ++ s) =
          ⟨!b₁.isEmpty, .comma⟩ :: scan (!b₂.isEmpty) s := by
        rw [List.append_assoc, scan_blanks hb₁]
        have hcomma : scan (!b₁.isEmpty) (',' :: (b₂ ++ s)) =
            ⟨!b₁.isEmpty, .comma⟩ :: scan false (b₂ ++ s) := scan_token (t := .comma) trivial _
        rw [scan_blanks hb₂] at hcomma
        exact hcomma
      refine ⟨r, _, ⟨r, w⟩ :: cs, hscan, ?_, hcons hcs⟩
      rw [hscan, hrest, Outline.comparisons]
      simp [hout, Outline.cons]

theorem Lexeme.Rendered.chars_subset {spaced : Bool} {ls : List Lexeme} {s : List Char}
    (h : Rendered spaced ls s) {t : Token} (ht : t ∈ ls.map (·.token)) : ∀ c ∈ t.chars, c ∈ s := by
  induction h with
  | nil => cases ht
  | cons _ _ _ _ ih =>
    intro c hc
    rw [List.map_cons, List.mem_cons] at ht
    rcases ht with rfl | ht
    · simp [hc]
    · simp [ih ht c hc]

/-- No sign can stand in a version. -/
theorem Relation.exists_not_isVersionChar (r : Relation) :
    ∃ c ∈ r.sign, Spelling.isVersionChar c = false := by
  cases r <;> exact ⟨_, List.mem_cons_self, by decide⟩

/-- So no bounds are found in one. -/
theorem interval?_of_isVersionChar {s : List Char}
    (h : ∀ c ∈ s, Spelling.isVersionChar c = true) : Clause.interval? (tokens s) = none := by
  cases hi : Clause.interval? (tokens s) with
  | none => rfl
  | some cs =>
    have hmem : ∃ strict, Token.relation (.less strict) ∈ tokens s := by
      rcases Clause.interval?_eq_some hi with ⟨l, u, strict, strict', ht, _⟩ | ⟨l, strict, ht, _⟩ |
        ⟨u, strict, ht, _⟩ <;> exact ⟨strict, by rw [ht]; simp⟩
    obtain ⟨strict, hmem⟩ := hmem
    obtain ⟨c, hc, hn⟩ := (Relation.less strict).exists_not_isVersionChar
    rw [h c ((rendered_scan false s).chars_subset hmem c hc)] at hn
    cases hn

theorem Outline.ofChars_of_parse {s : List Char} {v : Version} (ht : Trimmed s)
    (h : Version.parse (String.ofList s) = .ok v) : ofChars s = ⟨[⟨.exactly, s⟩], true⟩ := by
  have hchars := Version.isVersionChar_of_trimmed ht h
  cases s with
  | nil => cases h
  | cons c s =>
    have hc := hchars c List.mem_cons_self
    have hstar : c :: s ≠ ['*'] := by
      intro he
      cases he
      revert hc
      decide
    have hstart : startsComparison c = false := by
      cases hsc : startsComparison c with
      | false => rfl
      | true =>
        simp only [startsComparison, Bool.or_eq_true, beq_iff_eq] at hsc
        rcases hsc with (rfl | rfl) | rfl <;> revert hc <;> decide
    rw [ofChars_of_not_interval hstar (interval?_of_isVersionChar hchars), hstart]
    rfl

/-- A list starts with a sign of comparison, so it is neither a star nor bounds around a letter. -/
theorem Listed.ofChars {s : List Char} {ks : List Comparison} (h : Listed s ks) :
    Outline.ofChars s = Outline.comparisons (scan false s) := by
  obtain ⟨r, ls, _, hls, _, _⟩ := h.outline "" false
  have hinterval : Clause.interval? (tokens s) = none := by
    rw [tokens, hls]
    rfl
  have hsign : ∃ r : Relation, r.sign <+: s := by
    cases h with
    | one r _ _ => exact ⟨r, by simp only [List.append_assoc, List.prefix_append]⟩
    | more r _ _ _ _ => exact ⟨r, by simp only [List.append_assoc, List.prefix_append]⟩
  obtain ⟨r', rest, rfl⟩ := hsign
  have hstar : r'.sign ++ rest ≠ ['*'] := by cases r' <;> exact nofun
  cases r' <;> exact Outline.ofChars_of_not_interval hstar hinterval

/-- The reader finds what is written in a text. -/
theorem Written.outline {s : List Char} {ks : List Comparison} (h : Written s ks) (ht : Trimmed s)
    (text : String) :
    ∃ cs, Outline.ofChars s = ⟨cs, true⟩ ∧ Clause.comparisons text cs = .ok ks := by
  have hone {c : Clause} {v : Version} (hp : Version.parse (String.ofList c.version) = .ok v) :
      Clause.comparisons text [c] = .ok [⟨c.relation, v⟩] :=
    Clause.comparisons_singleton_eq_ok.mpr ⟨v, hp, rfl⟩
  cases h with
  | star => exact ⟨[], rfl, rfl⟩
  | bare hp => exact ⟨_, Outline.ofChars_of_parse ht hp, hone hp⟩
  | @between l u b₁ b₂ b₃ b₄ v w strict strict' hl hb₁ hb₂ hb₃ hb₄ hu =>
    refine ⟨[⟨.greater strict, l⟩, ⟨.less strict', u⟩], ?_, ?_⟩
    · apply Outline.ofChars_of_interval
      simp only [List.append_assoc]
      rw [tokens_word (fits_word hl (endsWord_blanks hb₁ (endsWord_sign _ _))),
        tokens_comparison _ hb₁ hb₂ (fits_letter (endsWord_blanks hb₃ (endsWord_sign _ _))),
        tokens_last_comparison _ hb₃ hb₄ (fits_word hu endsWord_nil)]
      cases strict <;> cases strict' <;> rfl
    · exact Clause.comparisons_cons_eq_ok.mpr ⟨v, _, hl.parse, hone hu.parse, rfl⟩
  | @onward l b₁ b₂ v strict hl hb₁ hb₂ =>
    refine ⟨[⟨.greater strict, l⟩], ?_, hone hl.parse⟩
    apply Outline.ofChars_of_interval
    simp only [List.append_assoc]
    rw [tokens_word (fits_word hl (endsWord_blanks hb₁ (endsWord_sign _ _))),
      tokens_last_comparison _ hb₁ hb₂ (fits_letter endsWord_nil)]
    cases strict <;> rfl
  | @upTo u b₁ b₂ v strict hb₁ hb₂ hu =>
    refine ⟨[⟨.less strict, u⟩], ?_, hone hu.parse⟩
    apply Outline.ofChars_of_interval
    simp only [List.append_assoc]
    rw [tokens_word (fits_letter (endsWord_blanks hb₁ (endsWord_sign _ _))),
      tokens_last_comparison _ hb₁ hb₂ (fits_word hu endsWord_nil), Clause.interval?,
      if_neg hu.ne_letter, if_pos rfl, Clause.right?_less]
    rfl
  | listed hs =>
    obtain ⟨_, _, cs, _, hout, hcs⟩ := hs.outline text false
    exact ⟨cs, hs.ofChars.trans hout, hcs⟩

/-! ## From the reader to the grammar -/

theorem last_of_append {p s : List Char}
    (h : ∀ c, (p ++ s).getLast? = some c → isBlank c = false) :
    ∀ c, s.getLast? = some c → isBlank c = false := by
  intro c hc
  apply h
  rw [List.getLast?_append, hc]
  rfl

theorem Blanks.eq_nil_of_last {b : List Char} (hb : Blanks b)
    (h : ∀ c, b.getLast? = some c → isBlank c = false) : b = [] := by
  cases hl : b.getLast? with
  | none => exact List.getLast?_eq_none_iff.mp hl
  | some c =>
    have hc := hb c (List.mem_of_getLast? hl)
    rw [h c hl] at hc
    cases hc

theorem Blanks.eq_nil_of_head {b rest : List Char} (hb : Blanks b)
    (h : ∀ c, (b ++ rest).head? = some c → isBlank c = false) : b = [] := by
  cases b with
  | nil => rfl
  | cons c b =>
    have hc := hb c List.mem_cons_self
    rw [h c rfl] at hc
    cases hc

theorem blanks_of_tokens {s : List Char} (h : tokens s = []) : Blanks s := by
  have hr := rendered_scan false s
  rw [List.map_eq_nil_iff.mp h] at hr
  cases hr with
  | nil hb => exact hb

/-- The text of the first token, and what follows it. -/
theorem exists_of_tokens_cons {s : List Char} {t : Token} {ts : List Token}
    (h : tokens s = t :: ts) :
    ∃ b rest, s = b ++ (t.chars ++ rest) ∧ Blanks b ∧ t.Fits rest ∧ tokens rest = ts := by
  have hr := rendered_scan false s
  rw [tokens] at h
  cases hs : scan false s with
  | nil =>
    rw [hs] at h
    cases h
  | cons l ls =>
    rw [hs] at h hr
    cases h
    cases hr with
    | cons hb _ hf hrest =>
      refine ⟨_, _, List.append_assoc _ _ _, hb, hf, ?_⟩
      rw [tokens, scan_of_rendered hrest]

/-- The texts of a sign with a word after it. -/
theorem exists_of_tokens_comparison {s w : List Char} {r : Relation} {ts : List Token}
    (h : tokens s = .relation r :: .word w :: ts) :
    ∃ b b' rest, s = b ++ (r.sign ++ (b' ++ (w ++ rest))) ∧ Blanks b ∧ Blanks b' ∧
      (Token.word w).Fits rest ∧ tokens rest = ts := by
  obtain ⟨b, rest, rfl, hb, _, hrest⟩ := exists_of_tokens_cons h
  obtain ⟨b', rest', rfl, hb', hf, hrest'⟩ := exists_of_tokens_cons hrest
  exact ⟨b, b', rest', rfl, hb, hb', hf, hrest'⟩

theorem reads_of_fits {w rest : List Char} {v : Version} (hf : (Token.word w).Fits rest)
    (h : Version.parse (String.ofList w) = .ok v) : Reads w v :=
  ⟨hf.2.1, h⟩

/-- A text that reads as comparisons, up to its end, is a list with blanks in front. -/
theorem Lexeme.Rendered.listed {spaced : Bool} {ls : List Lexeme} {s : List Char} {text : String}
    {ks : List Comparison} (h : Rendered spaced ls s)
    (hlast : ∀ c, s.getLast? = some c → isBlank c = false)
    (hcomplete : (Outline.comparisons ls).complete = true)
    (hks : Clause.comparisons text (Outline.comparisons ls).clauses = .ok ks) :
    ∃ b s', s = b ++ s' ∧ Blanks b ∧ Listed s' ks := by
  induction ls using Outline.comparisons.induct generalizing spaced s ks with
  | case1 sp r sp' w =>
    obtain ⟨v, hv, rfl⟩ := Clause.comparisons_singleton_eq_ok.mp hks
    cases h with | cons hb _ _ h =>
    cases h with | cons hb' _ hf h =>
    cases h with | nil hend =>
    have hnil := hend.eq_nil_of_last (last_of_append (last_of_append hlast))
    subst hnil
    refine ⟨_, _, ?_, hb, Listed.one r hb' (reads_of_fits hf hv)⟩
    simp only [List.append_assoc, List.append_nil]
    rfl
  | case2 sp r sp' w next ls hcomma ih =>
    rw [Outline.comparisons, if_pos hcomma] at hcomplete hks
    obtain ⟨v, ks', hv, hks', rfl⟩ := Clause.comparisons_cons_eq_ok.mp hks
    cases h with | cons hb _ _ h =>
    cases h with | cons hb' _ hf h =>
    cases h with | cons hb₁ _ _ h =>
    obtain ⟨b₂, s', rfl, hb₂, hl⟩ :=
      ih h (last_of_append (last_of_append (last_of_append hlast))) hcomplete hks'
    refine ⟨_, _, ?_, hb, Listed.more r hb' (reads_of_fits hf hv) (Separator.comma hb₁ hb₂) hl⟩
    rw [hcomma]
    simp only [Token.chars, List.append_assoc, List.cons_append, List.nil_append]
  | case3 sp r sp' w next ls hcomma hspaced ih =>
    rw [Outline.comparisons, if_neg hcomma, if_pos hspaced] at hcomplete hks
    obtain ⟨v, ks', hv, hks', rfl⟩ := Clause.comparisons_cons_eq_ok.mp hks
    cases h with | cons hb _ _ h =>
    cases h with | cons hb' _ hf h =>
    obtain ⟨b₁, s', rfl, hb₁, hl⟩ :=
      ih h (last_of_append (last_of_append hlast)) hcomplete hks'
    have hne : b₁ ≠ [] := by
      -- a list of its own starts with a sign that is not set off
      rintro rfl
      obtain ⟨r', ls', _, hscan, _, _⟩ := hl.outline text false
      cases (scan_of_rendered h).symm.trans hscan
      cases hspaced
    refine ⟨_, _, ?_, hb, Listed.more r hb' (reads_of_fits hf hv) (Separator.blanks hne hb₁) hl⟩
    simp only [Token.chars, List.append_assoc]
  | case4 sp r sp' w next ls hcomma hspaced =>
    rw [Outline.comparisons, if_neg hcomma, if_neg hspaced] at hcomplete
    cases hcomplete
  | case5 ls hne =>
    rw [Outline.comparisons] at hcomplete
    · cases hcomplete
    · exact hne

/-- Bounds that the reader finds around the letter `v` are written there. -/
theorem written_of_interval {s : List Char} {cs : List Clause} {text : String}
    {ks : List Comparison} (ht : Trimmed s) (hi : Clause.interval? (tokens s) = some cs)
    (hks : Clause.comparisons text cs = .ok ks) : Written s ks := by
  have hfirst {w : List Char} {ts : List Token} (h : tokens s = .word w :: ts) :
      ∃ rest, s = w ++ rest ∧ (Token.word w).Fits rest ∧ tokens rest = ts := by
    obtain ⟨b, rest, hs, hb, hf, hts⟩ := exists_of_tokens_cons h
    have hnil : b = [] := hb.eq_nil_of_head (hs ▸ ht.first)
    subst hnil
    exact ⟨rest, hs, hf, hts⟩
  have hend {p rest : List Char} (hs : s = p ++ rest) (h : tokens rest = []) : rest = [] :=
    (blanks_of_tokens h).eq_nil_of_last (last_of_append (hs ▸ ht.last))
  rcases Clause.interval?_eq_some hi with
    ⟨l, u, strict, strict', hts, rfl⟩ | ⟨l, strict, hts, rfl⟩ | ⟨u, strict, hts, rfl⟩
  · obtain ⟨v, ks', hv, hks', rfl⟩ := Clause.comparisons_cons_eq_ok.mp hks
    obtain ⟨v', hv', rfl⟩ := Clause.comparisons_singleton_eq_ok.mp hks'
    obtain ⟨_, hs, hl, hts⟩ := hfirst hts
    obtain ⟨b₁, b₂, _, rfl, hb₁, hb₂, _, hts⟩ := exists_of_tokens_comparison hts
    obtain ⟨b₃, b₄, rest, rfl, hb₃, hb₄, hu, hts⟩ := exists_of_tokens_comparison hts
    simp only [← List.append_assoc] at hs
    rw [hend hs hts, List.append_nil] at hs
    exact hs ▸ .between strict strict' (reads_of_fits hl hv) hb₁ hb₂ hb₃ hb₄ (reads_of_fits hu hv')
  · obtain ⟨v, hv, rfl⟩ := Clause.comparisons_singleton_eq_ok.mp hks
    obtain ⟨_, hs, hl, hts⟩ := hfirst hts
    obtain ⟨b₁, b₂, rest, rfl, hb₁, hb₂, _, hts⟩ := exists_of_tokens_comparison hts
    simp only [← List.append_assoc] at hs
    rw [hend hs hts, List.append_nil] at hs
    exact hs ▸ .onward strict (reads_of_fits hl hv) hb₁ hb₂
  · obtain ⟨v, hv, rfl⟩ := Clause.comparisons_singleton_eq_ok.mp hks
    obtain ⟨_, hs, _, hts⟩ := hfirst hts
    obtain ⟨b₁, b₂, rest, rfl, hb₁, hb₂, hu, hts⟩ := exists_of_tokens_comparison hts
    simp only [← List.append_assoc] at hs
    rw [hend hs hts, List.append_nil] at hs
    exact hs ▸ .upTo strict hb₁ hb₂ (reads_of_fits hu hv)

/-- What the reader finds in a text is written in it. -/
theorem written_of_outline {s : List Char} {text : String} {ks : List Comparison} (ht : Trimmed s)
    (hcomplete : (Outline.ofChars s).complete = true)
    (hks : Clause.comparisons text (Outline.ofChars s).clauses = .ok ks) : Written s ks := by
  rcases Outline.ofChars_cases s with
    hout | ⟨rfl, hout⟩ | ⟨cs, hi, hout⟩ | hout | hout <;> rw [hout] at hcomplete hks
  · cases hcomplete
  · cases hks
    exact .star
  · exact written_of_interval ht hi hks
  · obtain ⟨b, s', hs, hb, hl⟩ := (rendered_scan false s).listed ht.last hcomplete hks
    have hnil : b = [] := hb.eq_nil_of_head (hs ▸ ht.first)
    rw [hs, hnil]
    exact .listed hl
  · obtain ⟨v, hv, rfl⟩ := Clause.comparisons_singleton_eq_ok.mp hks
    exact .bare hv

/-- The reader finds just the comparisons that are written in a text. -/
theorem written_iff {s : List Char} (ht : Trimmed s) (text : String) (ks : List Comparison) :
    Written s ks ↔ (Outline.ofChars s).complete = true ∧
      Clause.comparisons text (Outline.ofChars s).clauses = .ok ks := by
  constructor
  · intro h
    obtain ⟨cs, hout, hcs⟩ := h.outline ht text
    rw [hout]
    exact ⟨rfl, hcs⟩
  · rintro ⟨hcomplete, hks⟩
    exact written_of_outline ht hcomplete hks

theorem Written.unique {s : List Char} {ks ks' : List Comparison} (h : Written s ks)
    (h' : Written s ks') (ht : Trimmed s) : ks = ks' := by
  have hks := ((written_iff ht "" ks).mp h).2
  have hks' := ((written_iff ht "" ks').mp h').2
  exact Except.ok.inj (hks.symm.trans hks')

end PackageResolution
