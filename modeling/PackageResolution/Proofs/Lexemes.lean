import PackageResolution.Constraint.Clause

/-!
# PackageResolution.Proofs.Lexemes

The texts of a list of lexemes. Reading is a function and writing is not: any number of blanks can
stand in front of a lexeme, and lexemes are told apart by what follows them.

* `Token.chars`, `Token.Fits`: the characters of a token, and where they are read as that token.
* `Lexeme.Rendered`: the texts with given lexemes. `Lexeme.scan_eq_iff` says that `Lexeme.scan`
  finds just these lexemes.
* `IsWordOf`: a run of word characters that cannot be made longer. `Lexeme.isWordOf_of_mem_scan`
  says that every word among the lexemes is one.
-/

namespace PackageResolution

open Text Lexeme

/-- How a relation is written. -/
def Relation.sign : Relation → List Char
  | .below => ['<']
  | .atMost => ['<', '=']
  | .exactly => ['=', '=']
  | .atLeast => ['>', '=']
  | .above => ['>']

def Blanks (b : List Char) : Prop := ∀ c ∈ b, isBlank c = true

/-- A word in front of `rest` ends there. -/
def EndsWord (rest : List Char) : Prop := ∀ c, rest.head? = some c → isWordChar c = false

namespace Token

def chars : Token → List Char
  | .word w => w
  | .relation r => r.sign
  | .comma => [',']
  | .stray c => [c]

/-- The token is not a word. -/
def isSign : Token → Bool
  | .word _ => false
  | _ => true

/-- The characters of the token are read as the token, where `rest` follows. -/
def Fits : Token → List Char → Prop
  | .word w, rest => w ≠ [] ∧ (∀ c ∈ w, isWordChar c = true) ∧ EndsWord rest
  | .relation .below, rest => rest.head? ≠ some '='
  | .relation .above, rest => rest.head? ≠ some '='
  | .relation _, _ => True
  | .comma, _ => True
  | .stray c, rest => isBlank c = false ∧ isWordChar c = false ∧ c ≠ '<' ∧ c ≠ '>' ∧ c ≠ ',' ∧
      (c = '=' → rest.head? ≠ some '=')

end Token

/-- A run of word characters in `s`, with no further one on either side. -/
def IsWordOf (s w : List Char) : Prop :=
  w ≠ [] ∧ (∀ c ∈ w, isWordChar c = true) ∧
    ∃ before after, s = before ++ w ++ after ∧ EndsWord before.reverse ∧ EndsWord after

namespace Lexeme

theorem toNat_of_isWordChar {c : Char} (h : isWordChar c = true) :
    43 ≤ c.toNat ∧ c.toNat ≤ 122 := by
  simp only [isWordChar, Char.isAlphanum, Char.isDigit, Bool.or_eq_true, Bool.and_eq_true,
    decide_eq_true_eq, beq_iff_eq, UInt32.le_iff_toNat_le] at h
  rcases h with (((halpha | ⟨h₁, h₂⟩) | rfl) | rfl) | rfl
  · have := toNat_of_isAlpha halpha
    omega
  · exact ⟨Nat.le_trans (by decide) h₁, Nat.le_trans h₂ (by decide)⟩
  · decide
  · decide
  · decide

theorem isBlank_of_isWordChar {c : Char} (h : isWordChar c = true) : isBlank c = false := by
  cases hb : isBlank c with
  | false => rfl
  | true =>
    have hr : ∀ r ∈ blankRanges, r.last < 43 ∨ 122 < r.first := by decide
    obtain ⟨r, hmem, hfirst, hlast⟩ := (inRanges_iff _ _).mp hb
    have hc := toNat_of_isWordChar h
    rcases hr r hmem with h | h <;> omega

/-- The texts in which `scan` finds given lexemes. -/
inductive Rendered : Bool → List Lexeme → List Char → Prop where
  | nil {spaced : Bool} {b : List Char} : Blanks b → Rendered spaced [] b
  | cons {spaced : Bool} {b rest : List Char} {l : Lexeme} {ls : List Lexeme} :
      Blanks b → l.spaced = (spaced || !b.isEmpty) → l.token.Fits rest → Rendered false ls rest →
      Rendered spaced (l :: ls) (b ++ l.token.chars ++ rest)

/-! ## From texts to lexemes -/

theorem blanks_nil : Blanks [] := by
  intro c hc
  cases hc

theorem scan_blanks {b : List Char} (hb : Blanks b) (spaced : Bool) (cs : List Char) :
    scan spaced (b ++ cs) = scan (spaced || !b.isEmpty) cs := by
  induction b generalizing spaced with
  | nil => rw [List.nil_append, List.isEmpty_nil, Bool.not_true, Bool.or_false]
  | cons c b ih =>
    rw [List.cons_append, scan_blank (hb c List.mem_cons_self),
      ih (fun d hd => hb d (List.mem_cons_of_mem c hd))]
    simp

theorem attach_eq (spaced : Bool) (c : Char) (ls : List Lexeme) :
    ∃ w ls', attach spaced c ls = ⟨spaced, .word (c :: w)⟩ :: ls' := by
  unfold attach
  split
  · exact ⟨_, _, rfl⟩
  · exact ⟨_, _, rfl⟩

theorem scan_angle {rest : List Char} (h : rest.head? ≠ some '=') (spaced : Bool) :
    scan spaced ('<' :: rest) = ⟨spaced, .relation .below⟩ :: scan false rest ∧
      scan spaced ('>' :: rest) = ⟨spaced, .relation .above⟩ :: scan false rest := by
  cases rest with
  | nil => exact ⟨rfl, rfl⟩
  | cons d ds =>
    have hd : d ≠ '=' := fun he => h (by rw [he]; rfl)
    constructor
    · rw [scan.eq_def]
      simp only [show isBlank '<' = false from rfl, show isWordChar '<' = false from rfl]
      simp [hd]
    · rw [scan.eq_def]
      simp only [show isBlank '>' = false from rfl, show isWordChar '>' = false from rfl]
      simp [hd]

theorem scan_sign {t : Token} {rest : List Char} (ht : t.isSign = true) (hf : t.Fits rest)
    (spaced : Bool) : scan spaced (t.chars ++ rest) = ⟨spaced, t⟩ :: scan false rest := by
  cases t with
  | word w => cases ht
  | comma => rfl
  | relation r =>
    cases r with
    | below => exact (scan_angle hf spaced).1
    | atMost => rfl
    | exactly => rfl
    | atLeast => rfl
    | above => exact (scan_angle hf spaced).2
  | stray c =>
    obtain ⟨hb, hw, hlt, hgt, hcomma, heq⟩ := hf
    show scan spaced (c :: rest) = _
    rw [scan.eq_def]
    simp only [hb, hw, Bool.false_eq_true, if_false]
    split
    · exact absurd rfl hlt
    · exact absurd rfl hgt
    · exact absurd rfl (heq rfl)
    · exact absurd rfl hlt
    · exact absurd rfl hgt
    · exact absurd rfl hcomma
    · rfl

/-- A text is empty, or starts with a blank, with a word character, or with a sign. -/
theorem scan_induction {P : Bool → List Char → Prop} (nil : ∀ spaced, P spaced [])
    (blank : ∀ spaced c cs, isBlank c = true → P true cs → P spaced (c :: cs))
    (word : ∀ spaced c cs, isWordChar c = true → P false cs → P spaced (c :: cs))
    (sign : ∀ spaced (t : Token) rest, t.isSign = true → t.Fits rest → P false rest →
      P spaced (t.chars ++ rest)) (spaced : Bool) (cs : List Char) : P spaced cs := by
  have hhead {rest : List Char} (h : ∀ ds, rest = '=' :: ds → False) : rest.head? ≠ some '=' := by
    intro he
    cases rest with
    | nil => cases he
    | cons d ds => cases he; exact h ds rfl
  induction spaced, cs using scan.induct with
  | case1 spaced => exact nil spaced
  | case2 spaced c cs hb ih => exact blank spaced c cs hb ih
  | case3 spaced c cs _ hw ih => exact word spaced c cs hw ih
  | case4 spaced rest _ _ ih => exact sign spaced (.relation .atMost) rest rfl trivial ih
  | case5 spaced rest _ _ ih => exact sign spaced (.relation .atLeast) rest rfl trivial ih
  | case6 spaced rest _ _ ih => exact sign spaced (.relation .exactly) rest rfl trivial ih
  | case7 spaced rest h _ _ ih => exact sign spaced (.relation .below) rest rfl (hhead h) ih
  | case8 spaced rest h _ _ ih => exact sign spaced (.relation .above) rest rfl (hhead h) ih
  | case9 spaced rest _ _ ih => exact sign spaced .comma rest rfl trivial ih
  | case10 spaced c rest _ _ heq hlt hgt hcomma hb hw ih =>
    refine sign spaced (.stray c) rest rfl ⟨?_, ?_, hlt, hgt, hcomma, fun hc => ?_⟩ ih
    · exact Bool.eq_false_iff.mpr hb
    · exact Bool.eq_false_iff.mpr hw
    · exact hhead fun ds => heq ds hc

theorem scan_word_cons {c : Char} (hw : isWordChar c = true) (spaced : Bool) (cs : List Char) :
    scan spaced (c :: cs) = attach spaced c (scan false cs) :=
  scan_wordChar (isBlank_of_isWordChar hw) hw spaced cs

/-- Blanks in front are noted. -/
theorem spaced_of_head_scan {spaced : Bool} {cs : List Char} {l : Lexeme} (hs : spaced = true)
    (h : (scan spaced cs).head? = some l) : l.spaced = true := by
  induction spaced, cs using scan_induction with
  | nil => cases h
  | blank spaced c cs hb ih =>
    rw [scan_blank hb] at h
    exact ih rfl h
  | word spaced c cs hw ih =>
    obtain ⟨w, ls, he⟩ := attach_eq spaced c (scan false cs)
    rw [scan_word_cons hw, he] at h
    cases h
    exact hs
  | sign spaced t rest ht hf ih =>
    rw [scan_sign ht hf] at h
    cases h
    exact hs

/-- Only a word character makes a word that is not set off. -/
theorem scan_ne_word {cs : List Char} (h : EndsWord cs) (spaced : Bool) (w : List Char)
    (ls : List Lexeme) : scan spaced cs ≠ ⟨false, .word w⟩ :: ls := by
  induction spaced, cs using scan_induction with
  | nil => nofun
  | blank spaced c cs hb _ =>
    intro hs
    rw [scan_blank hb] at hs
    have hhead : (scan true cs).head? = some ⟨false, .word w⟩ := by rw [hs]; rfl
    cases spaced_of_head_scan rfl hhead
  | word spaced c cs hw _ =>
    rw [h c rfl] at hw
    cases hw
  | sign spaced t rest ht hf _ =>
    intro hs
    rw [scan_sign ht hf] at hs
    cases hs
    cases ht

theorem scan_word {w rest : List Char} (hf : (Token.word w).Fits rest) (spaced : Bool) :
    scan spaced (w ++ rest) = ⟨spaced, .word w⟩ :: scan false rest := by
  obtain ⟨hne, hw, hrest⟩ := hf
  induction w generalizing spaced with
  | nil => exact absurd rfl hne
  | cons c w ih =>
    rw [List.cons_append, scan_word_cons (hw c List.mem_cons_self)]
    cases w with
    | nil =>
      rw [List.nil_append]
      unfold attach
      split
      · rename_i hs
        exact absurd hs (scan_ne_word hrest false _ _)
      · rfl
    | cons d w =>
      rw [ih false (List.cons_ne_nil d w) fun e he => hw e (List.mem_cons_of_mem c he)]
      rfl

theorem scan_token {t : Token} {rest : List Char} (hf : t.Fits rest) (spaced : Bool) :
    scan spaced (t.chars ++ rest) = ⟨spaced, t⟩ :: scan false rest := by
  cases ht : t.isSign with
  | true => exact scan_sign ht hf spaced
  | false =>
    cases t with
    | word w => exact scan_word hf spaced
    | relation r => cases ht
    | comma => cases ht
    | stray c => cases ht

theorem scan_of_rendered {spaced : Bool} {ls : List Lexeme} {cs : List Char}
    (h : Rendered spaced ls cs) : scan spaced cs = ls := by
  induction h with
  | @nil spaced b hb =>
    have hs := scan_blanks hb spaced []
    rw [List.append_nil] at hs
    rw [hs]
    rfl
  | cons hb hl hf _ ih => rw [List.append_assoc, scan_blanks hb, scan_token hf, ih, ← hl]

/-! ## From lexemes to texts -/

theorem blanks_cons {c : Char} {b : List Char} (hc : isBlank c = true) (hb : Blanks b) :
    Blanks (c :: b) := by
  intro d hd
  rcases List.mem_cons.mp hd with rfl | hd
  · exact hc
  · exact hb d hd

theorem Rendered.blank {spaced : Bool} {c : Char} {ls : List Lexeme} {cs : List Char}
    (hc : isBlank c = true) (h : Rendered true ls cs) : Rendered spaced ls (c :: cs) := by
  cases h with
  | nil hb => exact .nil (blanks_cons hc hb)
  | cons hb hl hf hr =>
    refine Rendered.cons (blanks_cons hc hb) ?_ hf hr
    rw [hl, List.isEmpty_cons, Bool.not_false, Bool.or_true, Bool.true_or]

theorem Rendered.token {spaced : Bool} {t : Token} {ls : List Lexeme} {rest : List Char}
    (hf : t.Fits rest) (h : Rendered false ls rest) :
    Rendered spaced (⟨spaced, t⟩ :: ls) (t.chars ++ rest) :=
  Rendered.cons blanks_nil (by simp) hf h

/-- A word character goes to the word that follows directly, if there is one. -/
theorem Rendered.attach {spaced : Bool} {c : Char} {cs : List Char} (hw : isWordChar c = true)
    (h : Rendered false (scan false cs) cs) :
    Rendered spaced (attach spaced c (scan false cs)) (c :: cs) := by
  unfold Lexeme.attach
  split
  · rename_i w ls hs
    rw [hs] at h
    cases h with
    | @cons _ b rest _ _ hb hl hf hr =>
      obtain ⟨_, hall, hrest⟩ := hf
      have hnil : b = [] := by
        cases b with
        | nil => rfl
        | cons d b => cases hl
      subst hnil
      refine Rendered.token (t := .word (c :: w)) ⟨List.cons_ne_nil c w, ?_, hrest⟩ hr
      intro d hd
      rcases List.mem_cons.mp hd with rfl | hd
      · exact hw
      · exact hall d hd
  · rename_i hs
    refine Rendered.token (t := .word [c]) ⟨List.cons_ne_nil c [], ?_, ?_⟩ h
    · intro d hd
      rw [List.mem_singleton.mp hd]
      exact hw
    · -- otherwise the text would go on with a word that is not set off
      intro d hd
      cases cs with
      | nil => cases hd
      | cons e cs =>
        cases hd
        cases hwd : isWordChar d with
        | false => rfl
        | true =>
          obtain ⟨w, ls, he⟩ := attach_eq false d (scan false cs)
          exact (hs _ _ ((scan_word_cons hwd false cs).trans he)).elim

theorem rendered_scan (spaced : Bool) (cs : List Char) : Rendered spaced (scan spaced cs) cs := by
  induction spaced, cs using scan_induction with
  | nil spaced => exact .nil blanks_nil
  | blank spaced c cs hb ih =>
    rw [scan_blank hb]
    exact ih.blank hb
  | word spaced c cs hw ih =>
    rw [scan_word_cons hw]
    exact ih.attach hw
  | sign spaced t rest ht hf ih =>
    rw [scan_sign ht hf]
    exact ih.token hf

/-- The lexemes of a text are those that it is a text of. -/
theorem scan_eq_iff {spaced : Bool} {ls : List Lexeme} {cs : List Char} :
    scan spaced cs = ls ↔ Rendered spaced ls cs :=
  ⟨fun h => h ▸ rendered_scan spaced cs, scan_of_rendered⟩

/-! ## Words -/

theorem endsWord_reverse_append {before after : List Char} (hne : after ≠ []) :
    EndsWord (before ++ after).reverse ↔ EndsWord after.reverse := by
  unfold EndsWord
  rw [List.reverse_append]
  cases h : after.reverse with
  | nil => exact absurd (List.reverse_eq_nil_iff.mp h) hne
  | cons c cs => exact Iff.rfl

theorem endsWord_reverse_of_forall {cs : List Char} (h : ∀ c ∈ cs, isWordChar c = false) :
    EndsWord cs.reverse := by
  intro c hc
  exact h c (List.mem_reverse.mp (List.mem_of_mem_head? hc))

theorem not_isWordChar_of_blanks {b : List Char} (hb : Blanks b) :
    ∀ c ∈ b, isWordChar c = false := by
  intro c hc
  cases hw : isWordChar c with
  | false => rfl
  | true =>
    have := isBlank_of_isWordChar hw
    rw [hb c hc] at this
    cases this

theorem not_isWordChar_of_isSign {t : Token} {rest : List Char} (ht : t.isSign = true)
    (hf : t.Fits rest) : ∀ c ∈ t.chars, isWordChar c = false := by
  cases t with
  | word w => cases ht
  | relation r =>
    have hall : (r.sign.all fun c => !isWordChar c) = true := by cases r <;> rfl
    intro c hc
    simpa only [Bool.not_eq_true'] using List.all_eq_true.mp hall c hc
  | comma =>
    intro c hc
    rw [List.mem_singleton.mp hc]
    rfl
  | stray c =>
    intro d hd
    rw [List.mem_singleton.mp hd]
    exact hf.2.1

/-- Between the text that is read and the rest no word is cut. -/
def Cut (before rest : List Char) : Prop := EndsWord before.reverse ∨ EndsWord rest

theorem cut_of_fits {t : Token} {rest : List Char} (hf : t.Fits rest) (before : List Char) :
    Cut (before ++ t.chars) rest := by
  cases ht : t.isSign with
  | true =>
    have hne : t.chars ≠ [] := by
      cases t with
      | word w => cases ht
      | relation r => cases r <;> exact nofun
      | comma => exact nofun
      | stray c => exact nofun
    left
    rw [endsWord_reverse_append hne]
    exact endsWord_reverse_of_forall (not_isWordChar_of_isSign ht hf)
  | false =>
    cases t with
    | word w => exact .inr hf.2.2
    | relation r => cases ht
    | comma => cases ht
    | stray c => cases ht

theorem isWordOf_of_rendered {spaced : Bool} {ls : List Lexeme} {cs : List Char}
    (h : Rendered spaced ls cs) (before w : List Char) (hcut : Cut before cs)
    (hw : Token.word w ∈ ls.map (·.token)) : IsWordOf (before ++ cs) w := by
  induction h generalizing before with
  | nil => cases hw
  | @cons spaced b rest l ls hb hl hf hr ih =>
    rw [List.map_cons, List.mem_cons] at hw
    rcases hw with hw | hw
    · rw [← hw] at hf hcut ⊢
      obtain ⟨hne, hall, hrest⟩ := hf
      refine ⟨hne, hall, before ++ b, rest, by simp [Token.chars], ?_, hrest⟩
      cases hbn : b with
      | nil =>
        rw [List.append_nil]
        refine hcut.resolve_right fun he => ?_
        -- the word itself would have to start with another character
        subst hbn
        cases w with
        | nil => exact hne rfl
        | cons c w =>
          have := hall c List.mem_cons_self
          rw [he c rfl] at this
          cases this
      | cons c cs =>
        rw [← hbn, endsWord_reverse_append (by rw [hbn]; nofun)]
        exact endsWord_reverse_of_forall (not_isWordChar_of_blanks hb)
    · have happ :
          before ++ (b ++ l.token.chars ++ rest) = before ++ b ++ l.token.chars ++ rest := by
        simp only [List.append_assoc]
      rw [happ]
      exact ih _ (cut_of_fits hf _) hw

/-- Every word among the lexemes of a text is a word of the text. -/
theorem isWordOf_of_mem_scan {cs w : List Char}
    (h : Token.word w ∈ (scan false cs).map (·.token)) : IsWordOf cs w :=
  isWordOf_of_rendered (rendered_scan false cs) [] w (.inl nofun) h

end Lexeme
end PackageResolution
