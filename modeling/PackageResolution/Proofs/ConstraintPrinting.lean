import Mathlib.Data.List.Basic
import PackageResolution.Constraint.Printer
import PackageResolution.Proofs.ConstraintTexts

/-!
# PackageResolution.Proofs.ConstraintPrinting

The text of a range is read as that range. It is bounds around the letter `v`, whatever the versions
of the bounds look like, as long as these are read from their own texts.

* `Constraint.comparisons`: what the text of a range states. `Constraint.written_spelled` says that
  it is written there.
* `Constraint.trimmed_spelled`: the text has no blanks at its ends, so all of it is read.
* `Constraint.parse_of_reads`: reading gives the range back.
-/

namespace PackageResolution

open Text Lexeme

/-! ## Texts without blanks at their ends -/

theorem trimmed_of_wordChars {w : List Char} (h : ∀ c ∈ w, isWordChar c = true) : Trimmed w :=
  ⟨fun c hc => isBlank_of_isWordChar (h c (List.mem_of_mem_head? hc)),
    fun c hc => isBlank_of_isWordChar (h c (List.mem_of_getLast? hc))⟩

/-- Whatever stands between two such texts. -/
theorem Text.Trimmed.append {w w' : List Char} (h : Trimmed w) (h' : Trimmed w') (hne : w ≠ [])
    (hne' : w' ≠ []) (between : List Char) : Trimmed (w ++ between ++ w') := by
  constructor
  · intro c hc
    rw [List.append_assoc, List.head?_append_of_ne_nil _ hne] at hc
    exact h.first c hc
  · intro c hc
    rw [List.getLast?_append_of_ne_nil _ hne'] at hc
    exact h'.last c hc

theorem trimmed_letter : Trimmed ['v'] := trimmed_of_wordChars (List.all_eq_true.mp rfl)

namespace Bound

theorem toList_sign (b : Bound) : b.sign.toList = (Relation.less (!b.inclusive)).sign := by
  unfold sign
  cases b.inclusive <;> rfl

end Bound

namespace Constraint

/-- The bounds that there are, the lower one first. -/
def bounds (c : Constraint) : List Bound := c.lower.toList ++ c.upper.toList

/-- The comparisons that the text of the range states. -/
def comparisons (c : Constraint) : List Comparison :=
  (c.lower.map fun b => ⟨.greater !b.inclusive, b.version⟩).toList ++
    (c.upper.map fun b => ⟨.less !b.inclusive, b.version⟩).toList

theorem ofComparisons?_comparisons (c : Constraint) : ofComparisons? c.comparisons = some c := by
  have hgreater (b : Bound) : Comparison.lower? ⟨.greater !b.inclusive, b.version⟩ = some b ∧
      Comparison.upper? ⟨.greater !b.inclusive, b.version⟩ = none := by
    obtain ⟨v, _ | _⟩ := b <;> exact ⟨rfl, rfl⟩
  have hless (b : Bound) : Comparison.lower? ⟨.less !b.inclusive, b.version⟩ = none ∧
      Comparison.upper? ⟨.less !b.inclusive, b.version⟩ = some b := by
    obtain ⟨v, _ | _⟩ := b <;> exact ⟨rfl, rfl⟩
  have hbounds : Comparison.tightestLower c.comparisons = c.lower ∧
      Comparison.tightestUpper c.comparisons = c.upper := by
    unfold comparisons Comparison.tightestLower Comparison.tightestUpper
    cases c.lower with
    | none =>
      cases c.upper with
      | none => exact ⟨rfl, rfl⟩
      | some u => simp [hless, Bound.tighterLower, Bound.tighterUpper]
    | some l =>
      cases c.upper with
      | none => simp [hgreater, Bound.tighterLower, Bound.tighterUpper]
      | some u => simp [hgreater, hless, Bound.tighterLower, Bound.tighterUpper]
  rw [ofComparisons?, hbounds.1, hbounds.2, ofBounds?_self]

/-- What the text of a range says, without regard to the length of its numbers. -/
def spelled (c : Constraint) : String :=
  match c.lower, c.upper with
  | none, none => "*"
  | some l, none => l.version.spelled ++ " " ++ l.sign ++ " v"
  | none, some u => "v " ++ u.sign ++ " " ++ u.version.spelled
  | some l, some u =>
    l.version.spelled ++ " " ++ l.sign ++ " v " ++ u.sign ++ " " ++ u.version.spelled

/-- A range has a text where its bounds have. -/
theorem text_of_printable {c : Constraint} (h : ∀ b ∈ c.bounds, b.version.Printable) :
    c.text = .ok c.spelled := by
  unfold bounds at h
  unfold text spelled
  cases hl : c.lower with
  | none =>
    cases hu : c.upper with
    | none => rfl
    | some u =>
      rw [hl, hu] at h
      simp only [Version.text_of_printable (h u (by simp)), Except.map]
  | some l =>
    rw [hl] at h
    have hlower := Version.text_of_printable (h l (by simp))
    cases hu : c.upper with
    | none => simp only [hlower, Except.map]
    | some u =>
      rw [hu] at h
      simp only [hlower, Version.text_of_printable (h u (by simp)), Except.map]

/-- The text of a range between blanks, as the grammar has it. -/
theorem toList_spelled (c : Constraint) : c.spelled.toList =
    match c.lower, c.upper with
    | none, none => ['*']
    | some l, none => l.version.spelled.toList ++ [' '] ++ l.sign.toList ++ [' '] ++ ['v']
    | none, some u => ['v'] ++ [' '] ++ u.sign.toList ++ [' '] ++ u.version.spelled.toList
    | some l, some u => l.version.spelled.toList ++ [' '] ++ l.sign.toList ++ [' '] ++ ['v'] ++
        [' '] ++ u.sign.toList ++ [' '] ++ u.version.spelled.toList := by
  obtain ⟨l, u, _⟩ := c
  cases l <;> cases u <;> simp [spelled]

theorem written_spelled {c : Constraint}
    (h : ∀ b ∈ c.bounds, Reads b.version.spelled.toList b.version) :
    Written c.spelled.toList c.comparisons := by
  have hblank : Blanks [' '] := List.all_eq_true.mp rfl
  rw [toList_spelled]
  unfold bounds at h
  unfold comparisons
  split
  · rename_i hl hu
    rw [hl, hu]
    exact .star
  · rename_i l hl hu
    rw [hl, hu] at h ⊢
    rw [l.toList_sign]
    exact .onward _ (h l (by simp)) hblank hblank
  · rename_i u hl hu
    rw [hl, hu] at h ⊢
    rw [u.toList_sign]
    exact .upTo _ hblank hblank (h u (by simp))
  · rename_i l u hl hu
    rw [hl, hu] at h ⊢
    rw [l.toList_sign, u.toList_sign]
    exact .between _ _ (h l (by simp)) hblank hblank hblank hblank (h u (by simp))

theorem trimmed_spelled {c : Constraint}
    (h : ∀ b ∈ c.bounds, Trimmed b.version.spelled.toList ∧ b.version.spelled.toList ≠ []) :
    Trimmed c.spelled.toList := by
  rw [toList_spelled]
  unfold bounds at h
  split
  · exact ⟨fun c hc => by cases hc; rfl, fun c hc => by cases hc; rfl⟩
  · rename_i l hl hu
    rw [hl, hu] at h
    obtain ⟨ht, hne⟩ := h l (by simp)
    simpa using ht.append trimmed_letter hne nofun ([' '] ++ l.sign.toList ++ [' '])
  · rename_i u hl hu
    rw [hl, hu] at h
    obtain ⟨ht, hne⟩ := h u (by simp)
    simpa using trimmed_letter.append ht nofun hne ([' '] ++ u.sign.toList ++ [' '])
  · rename_i l u hl hu
    rw [hl, hu] at h
    obtain ⟨ht, hne⟩ := h l (by simp)
    obtain ⟨ht', hne'⟩ := h u (by simp)
    simpa using ht.append ht' hne hne'
      ([' '] ++ l.sign.toList ++ [' '] ++ ['v'] ++ [' '] ++ u.sign.toList ++ [' '])

/-- A range whose bounds are read from their texts is read from its own text. -/
theorem parse_of_reads {c : Constraint}
    (h : ∀ b ∈ c.bounds, Reads b.version.spelled.toList b.version) : parse c.spelled = .ok c := by
  have ht : Trimmed c.spelled.toList :=
    trimmed_spelled fun b hb => ⟨trimmed_of_wordChars (h b hb).wordChars, (h b hb).ne_nil⟩
  refine parse_eq_ok_iff.mpr ⟨c.comparisons, ?_, ofComparisons?_comparisons c⟩
  rw [trim_of_trimmed ht]
  exact written_spelled h

theorem equiv_self (c : Constraint) : c.equiv c = true := by
  have hoption (b : Option Bound) : Bound.optionEquiv b b = true := by
    cases b with
    | none => rfl
    | some b => simp [Bound.optionEquiv, Bound.equiv, Version.equiv, Version.compare_self]
  rw [equiv, hoption, hoption]
  rfl

/-- A range whose versions are printed in word characters and read back from that has a text, and is
itself read back from it: the same bounds, let in or kept out alike, so it has the same text
again. -/
theorem printed_range_is_read_back (c : Constraint)
    (h : ∀ b ∈ c.bounds, ∃ t, b.version.text = .ok t ∧ Reads t.toList b.version) :
    ∃ t, c.text = .ok t ∧ parse t = .ok c ∧ c.equiv c = true := by
  have hprintable : ∀ b ∈ c.bounds, b.version.Printable := by
    intro b hb
    obtain ⟨t, ht, _⟩ := h b hb
    exact (Version.text_eq_ok_iff.mp ht).1
  have hreads : ∀ b ∈ c.bounds, Reads b.version.spelled.toList b.version := by
    intro b hb
    obtain ⟨t, ht, hr⟩ := h b hb
    rwa [(Version.text_eq_ok_iff.mp ht).2]
  exact ⟨c.spelled, text_of_printable hprintable, parse_of_reads hreads, equiv_self c⟩

/-- Bounds with hyphens, the letter `v` and digits in their pre-release and their metadata. -/
theorem hyphenated_range_is_read_back :
    ∃ c : Constraint, (∀ b ∈ c.bounds, ∃ t, b.version.text = .ok t ∧ Reads t.toList b.version) ∧
      c.text = .ok "1.0.0-v.1-x <= v < 2.0.0+b-v" ∧
      parse "1.0.0-v.1-x <= v < 2.0.0+b-v" = .ok c ∧ c.equiv c = true := by
  let l : Version := ⟨1, 0, 0, [⟨"v", .word "v", rfl⟩, ⟨"1-x", .word "1-x", rfl⟩], []⟩
  let u : Version := ⟨2, 0, 0, [], ["b-v"]⟩
  have hl : Reads "1.0.0-v.1-x".toList l :=
    ⟨List.all_eq_true.mp (by decide +kernel), by decide +kernel⟩
  have hu : Reads "2.0.0+b-v".toList u :=
    ⟨List.all_eq_true.mp (by decide +kernel), by decide +kernel⟩
  let c : Constraint := ⟨some ⟨l, true⟩, some ⟨u, false⟩, rfl⟩
  have h : ∀ b ∈ c.bounds, ∃ t, b.version.text = .ok t ∧ Reads t.toList b.version := by
    intro b hb
    rcases List.mem_cons.mp hb with rfl | hb
    · exact ⟨_, by decide +kernel, hl⟩
    · rw [List.mem_singleton.mp hb]
      exact ⟨_, by decide +kernel, hu⟩
  have htext : c.text = .ok "1.0.0-v.1-x <= v < 2.0.0+b-v" := by decide +kernel
  obtain ⟨t, ht, hread⟩ := printed_range_is_read_back c h
  cases htext.symm.trans ht
  exact ⟨c, h, htext, hread⟩

end Constraint
end PackageResolution
