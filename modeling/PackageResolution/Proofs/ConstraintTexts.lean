import PackageResolution.Proofs.Accumulation
import PackageResolution.Proofs.ConstraintGrammar
import PackageResolution.Proofs.Gaps

/-!
# PackageResolution.Proofs.ConstraintTexts

What the texts of constraints mean, and why the others are refused.

* `Comparison.Clash`: two comparisons that leave no room between their bounds.
  `Comparison.crossed_tightest_iff` says that the tightest bounds of a list cross iff two of its
  comparisons clash.
* `Outline.version_of_mem_ofChars`: every version that is read is the whole text or a word of it.
* `Constraint.parse_eq_ok_iff`, `Constraint.parse_of_not_written`: reading goes by the grammar.
* `Constraint.parse_exact`: which texts are read, which versions lie in the range, and which error
  the other texts have.
-/

namespace PackageResolution

open Text Lexeme

/-! ## Bounds of comparisons -/

namespace Comparison

open PackageResolution.Bound

/-- The first comparison asks for versions from a bound on, the second one up to a bound, and the
first bound lies after the second one, or at the same place with one of them exclusive. -/
def Clash (k k' : Comparison) : Prop := crossed k.lower? k'.upper? = true

instance (k k' : Comparison) : Decidable (Clash k k') :=
  inferInstanceAs (Decidable (crossed k.lower? k'.upper? = true))

theorem tightestLower_eq (ks : List Comparison) :
    tightestLower ks = tightest Version.compare (ks.map lower?) := by
  have hf : (fun b k => tighterLower b (lower? k)) =
      fun b k => tighter Version.compare b (lower? k) := by
    funext b k
    exact tighterLower_eq b k.lower?
  rw [tightestLower, tightest, List.foldl_map, hf]

theorem tightestUpper_eq (ks : List Comparison) :
    tightestUpper ks = tightest downward (ks.map upper?) := by
  have hf : (fun b k => tighterUpper b (upper? k)) = fun b k => tighter downward b (upper? k) := by
    funext b k
    exact tighterUpper_eq b k.upper?
  rw [tightestUpper, tightest, List.foldl_map, hf]

/-- The tightest bounds cross iff two bounds do. -/
theorem crossed_tightest_iff (ks : List Comparison) :
    crossed (tightestLower ks) (tightestUpper ks) = true ↔ ∃ k ∈ ks, ∃ k' ∈ ks, Clash k k' := by
  rw [tightestLower_eq, tightestUpper_eq]
  constructor
  · intro h
    rcases exists_tightest_laxer Version.compare (ks.map lower?) with hl | ⟨l, hl, hlax⟩
    · rw [hl] at h
      cases h
    · rcases exists_tightest_laxer downward (ks.map upper?) with hu | ⟨u, hu, hlax'⟩
      · rw [hu] at h
        cases hx : tightest Version.compare (ks.map lower?) <;> rw [hx] at h <;> cases h
      · obtain ⟨k, hk, rfl⟩ := List.mem_map.mp hl
        obtain ⟨k', hk', rfl⟩ := List.mem_map.mp hu
        exact ⟨k, hk, k', hk', crossed_of_laxer hlax hlax' h⟩
  · rintro ⟨k, hk, k', hk', h⟩
    exact crossed_of_laxer (laxer_tightest _ (List.mem_map_of_mem hk))
      (laxer_tightest _ (List.mem_map_of_mem hk')) h

end Comparison

/-! ## Texts that are refused -/

/-- Where the numbers fit, a bad version is put down to the text. -/
theorem Clause.comparisons_of_fit (text : String) {cs : List Clause}
    (h : ∀ c ∈ cs, NumbersFit (trim c.version)) :
    (∃ ks, comparisons text cs = .ok ks) ∨
      comparisons text cs = .error (.malformed .constraintVersion text) := by
  induction cs with
  | nil => exact .inl ⟨[], rfl⟩
  | cons c cs ih =>
    have hc : NumbersFit (trim (String.ofList c.version).toList) := by
      rw [String.toList_ofList]
      exact h c List.mem_cons_self
    simp only [comparisons, comparison]
    rcases Version.parse_of_fit hc with ⟨v, hv⟩ | he
    · rw [hv]
      rcases ih fun d hd => h d (List.mem_cons_of_mem c hd) with ⟨ks, hks⟩ | he
      · exact .inl ⟨_, by rw [hks]⟩
      · exact .inr (by rw [he])
    · exact .inr (by rw [he])

theorem Clause.version_mem_of_interval? {ts : List Token} {cs : List Clause} {c : Clause}
    (hi : interval? ts = some cs) (h : c ∈ cs) : Token.word c.version ∈ ts := by
  rcases interval?_eq_some hi with ⟨l, u, strict, strict', rfl, rfl⟩ | ⟨l, strict, rfl, rfl⟩ |
    ⟨u, strict, rfl, rfl⟩
  · simp only [List.mem_cons, List.not_mem_nil, or_false] at h
    rcases h with rfl | rfl <;> simp
  · rw [List.mem_singleton.mp h]
    simp
  · rw [List.mem_singleton.mp h]
    simp

theorem Outline.version_mem_of_comparisons {ls : List Lexeme} {c : Clause}
    (h : c ∈ (Outline.comparisons ls).clauses) : Token.word c.version ∈ ls.map (·.token) := by
  induction ls using Outline.comparisons.induct with
  | case1 sp r sp' w =>
    rw [List.mem_singleton.mp h]
    exact List.mem_cons_of_mem _ List.mem_cons_self
  | case2 sp r sp' w next ls hcomma ih =>
    rw [Outline.comparisons, if_pos hcomma] at h
    rcases List.mem_cons.mp h with rfl | h
    · exact List.mem_cons_of_mem _ List.mem_cons_self
    · exact List.mem_cons_of_mem _ (List.mem_cons_of_mem _ (List.mem_cons_of_mem _ (ih h)))
  | case3 sp r sp' w next ls hcomma hspaced ih =>
    rw [Outline.comparisons, if_neg hcomma, if_pos hspaced] at h
    rcases List.mem_cons.mp h with rfl | h
    · exact List.mem_cons_of_mem _ List.mem_cons_self
    · exact List.mem_cons_of_mem _ (List.mem_cons_of_mem _ (ih h))
  | case4 sp r sp' w next ls hcomma hspaced =>
    rw [Outline.comparisons, if_neg hcomma, if_neg hspaced] at h
    rw [List.mem_singleton.mp h]
    exact List.mem_cons_of_mem _ List.mem_cons_self
  | case5 ls hne =>
    rw [Outline.comparisons] at h
    · cases h
    · exact hne

/-- The version of a clause is the whole text, or a word of it. -/
theorem Outline.version_of_mem_ofChars {s : List Char} {c : Clause}
    (h : c ∈ (Outline.ofChars s).clauses) : c.version = s ∨ IsWordOf s c.version := by
  rcases Outline.ofChars_cases s with
    hout | ⟨_, hout⟩ | ⟨cs, hi, hout⟩ | hout | hout <;> rw [hout] at h
  · cases h
  · cases h
  · exact .inr (isWordOf_of_mem_scan (Clause.version_mem_of_interval? hi h))
  · exact .inr (isWordOf_of_mem_scan (version_mem_of_comparisons h))
  · rw [List.mem_singleton.mp h]
    exact .inl rfl

/-- A word of a text, or the text itself, has no blanks at its ends. -/
theorem trimmed_of_word {s w : List Char} (ht : Trimmed s) (h : w = s ∨ IsWordOf s w) :
    Trimmed w := by
  rcases h with rfl | ⟨_, hw, _⟩
  · exact ht
  · constructor
    · intro c hc
      exact isBlank_of_isWordChar (hw c (List.mem_of_mem_head? hc))
    · intro c hc
      exact isBlank_of_isWordChar (hw c (List.mem_of_getLast? hc))

/-! ## Reading constraints -/

namespace Constraint

theorem parse_of_written {text : String} {ks : List Comparison}
    (h : Written (trim text.toList) ks) :
    parse text = (ofComparisons? ks).elim (.error (.malformed .emptyRange text)) .ok := by
  obtain ⟨hcomplete, hks⟩ := (written_iff (trimmed_trim _) text ks).mp h
  simp only [parse, hks, hcomplete, if_true]
  cases ofComparisons? ks <;> rfl

theorem parse_eq_ok_iff {text : String} {c : Constraint} :
    parse text = .ok c ↔ ∃ ks, Written (trim text.toList) ks ∧ ofComparisons? ks = some c := by
  constructor
  · intro h
    unfold parse at h
    dsimp only at h
    split at h
    · cases h
    · rename_i ks hks
      split at h
      · rename_i hcomplete
        have hw := (written_iff (trimmed_trim _) text ks).mpr ⟨hcomplete, hks⟩
        split at h
        · cases h
        · rename_i hc
          cases h
          exact ⟨ks, hw, hc⟩
      · cases h
  · rintro ⟨ks, hw, hc⟩
    rw [parse_of_written hw, hc]
    rfl

/-- A text in which nothing is written is refused, and not for its bounds. -/
theorem parse_of_not_written {text : String}
    (hfit : ∀ w, w = trim text.toList ∨ IsWordOf (trim text.toList) w → NumbersFit w)
    (h : ∀ ks, ¬ Written (trim text.toList) ks) :
    ∃ subject, subject ≠ .emptyRange ∧ parse text = .error (.malformed subject text) := by
  have ht := trimmed_trim text.toList
  have hclauses : ∀ c ∈ (Outline.ofChars (trim text.toList)).clauses,
      NumbersFit (trim c.version) := by
    intro c hc
    have hv := Outline.version_of_mem_ofChars hc
    rw [trim_of_trimmed (trimmed_of_word ht hv)]
    exact hfit _ hv
  rcases Clause.comparisons_of_fit text hclauses with ⟨ks, hks⟩ | he
  · cases hc : (Outline.ofChars (trim text.toList)).complete with
    | true => exact absurd ((written_iff ht text ks).mpr ⟨hc, hks⟩) (h ks)
    | false => exact ⟨.constraint, by decide, by simp only [parse, hks, hc]; rfl⟩
  · exact ⟨.constraintVersion, by decide, by simp only [parse, he]⟩

theorem ofComparisons?_eq_none_iff {ks : List Comparison} :
    ofComparisons? ks = none ↔ ∃ k ∈ ks, ∃ k' ∈ ks, k.Clash k' := by
  rw [ofComparisons?, ofBounds?_eq_none_iff, Comparison.crossed_tightest_iff]

theorem exists_ofComparisons?_iff {ks : List Comparison} :
    (∃ c, ofComparisons? ks = some c) ↔ ∀ k ∈ ks, ∀ k' ∈ ks, ¬ k.Clash k' := by
  rw [← Option.ne_none_iff_exists', ne_eq, ofComparisons?_eq_none_iff]
  simp only [not_exists, not_and]

theorem contains_of_ofComparisons? {ks : List Comparison} {c : Constraint}
    (h : ofComparisons? ks = some c) (v : Version) :
    c.contains v = true ↔ ∀ k ∈ ks, k.holds v = true := by
  obtain ⟨hl, hu⟩ := bounds_of_ofBounds? h
  rw [← List.all_eq_true, Comparison.all_holds, contains, hl, hu]
  rfl

/-- A constraint is read from just those texts in which comparisons are written whose bounds leave
room, and it is the range in which all of them hold. Every other text is refused as a whole, and for
its bounds only if nothing else is wrong with it. -/
theorem parse_exact (text : String)
    (h : ∀ w, w = trim text.toList ∨ IsWordOf (trim text.toList) w → NumbersFit w) :
    ((∃ c, parse text = .ok c) ↔
      ∃ ks, Written (trim text.toList) ks ∧ ∀ k ∈ ks, ∀ k' ∈ ks, ¬ k.Clash k') ∧
    (∀ c ks, parse text = .ok c → Written (trim text.toList) ks →
      ∀ v, c.contains v = true ↔ ∀ k ∈ ks, k.holds v = true) ∧
    ((¬ ∃ c, parse text = .ok c) → ∃ subject, parse text = .error (.malformed subject text) ∧
      (subject = .emptyRange ↔
        ∃ ks, Written (trim text.toList) ks ∧ ∃ k ∈ ks, ∃ k' ∈ ks, k.Clash k')) := by
  refine ⟨?_, ?_, ?_⟩
  · simp only [parse_eq_ok_iff, ← exists_ofComparisons?_iff]
    constructor
    · rintro ⟨c, ks, hw, hc⟩
      exact ⟨ks, hw, c, hc⟩
    · rintro ⟨ks, hw, c, hc⟩
      exact ⟨c, ks, hw, hc⟩
  · intro c ks hc hw v
    obtain ⟨ks', hw', hc'⟩ := parse_eq_ok_iff.mp hc
    rw [hw.unique hw' (trimmed_trim _)]
    exact contains_of_ofComparisons? hc' v
  · intro hnot
    by_cases hw : ∃ ks, Written (trim text.toList) ks
    · obtain ⟨ks, hw⟩ := hw
      have hnone : ofComparisons? ks = none :=
        Option.eq_none_iff_forall_ne_some.mpr fun c hc => hnot ⟨c, parse_eq_ok_iff.mpr ⟨ks, hw, hc⟩⟩
      refine ⟨.emptyRange, by rw [parse_of_written hw, hnone]; rfl, fun _ => ?_, fun _ => rfl⟩
      exact ⟨ks, hw, ofComparisons?_eq_none_iff.mp hnone⟩
    · obtain ⟨subject, hne, hparse⟩ := parse_of_not_written h (not_exists.mp hw)
      exact ⟨subject, hparse, fun he => absurd he hne, fun ⟨ks, hks, _⟩ => absurd ⟨ks, hks⟩ hw⟩

theorem numbersFit_of_word {s w : List Char} (h : w = s ∨ IsWordOf s w)
    (hs : s.length ≤ maxDigits) : NumbersFit w := by
  apply NumbersFit.of_length
  rcases h with rfl | ⟨_, _, before, after, rfl, _⟩
  · exact hs
  · simp only [List.length_append] at hs
    omega

/-- Two bounds with a comma and a blank between them. -/
theorem listed_bounds_read :
    (∃ c, parse " >= 1.0.0, <2.0.0" = .ok c) ∧ ∀ c, parse " >= 1.0.0, <2.0.0" = .ok c →
      ∀ v, c.contains v = true ↔ ∀ k ∈ [(⟨.atLeast, ⟨1, 0, 0, [], []⟩⟩ : Comparison),
        ⟨.below, ⟨2, 0, 0, [], []⟩⟩], k.holds v = true := by
  have hs : trim " >= 1.0.0, <2.0.0".toList = ">= 1.0.0, <2.0.0".toList := by decide +kernel
  have hv : Reads "1.0.0".toList ⟨1, 0, 0, [], []⟩ := ⟨List.all_eq_true.mp rfl, by decide +kernel⟩
  have hw : Reads "2.0.0".toList ⟨2, 0, 0, [], []⟩ := ⟨List.all_eq_true.mp rfl, by decide +kernel⟩
  have hblank : Blanks [' '] := List.all_eq_true.mp rfl
  have hsep : Separator ", ".toList := .comma blanks_nil hblank
  have hlast : Listed "<2.0.0".toList [⟨.below, ⟨2, 0, 0, [], []⟩⟩] := .one .below blanks_nil hw
  have hwritten : Written ">= 1.0.0, <2.0.0".toList _ :=
    .listed (.more .atLeast hblank hv hsep hlast)
  have h := parse_exact " >= 1.0.0, <2.0.0" fun w hw =>
    numbersFit_of_word hw (by rw [hs]; decide)
  rw [hs] at h
  refine ⟨h.1.mpr ⟨_, hwritten, by decide⟩, fun c hc => h.2.1 c _ hc hwritten⟩

end Constraint
end PackageResolution
