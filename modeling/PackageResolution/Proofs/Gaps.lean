import Mathlib.Order.Basic
import PackageResolution.Constraint.Parser
import PackageResolution.Proofs.Intersection

/-!
# PackageResolution.Proofs.Gaps

Where no version lies between two bounds. Precedence is neither dense nor unbounded below: there is
a first version, `0.0.0-0`, and every version has a next one. `1.2.3-a` is followed by `1.2.3-a.0`,
and `1.2.3` by `1.2.4-0`. Bounds that do not cross can therefore have a gap between them, which no
version fills, and a range with such bounds is empty.

* `Version.least`, `Version.next`: the first version, and the one right after a version.
* `Bound.start`: the first version that a lower bound admits. If any version lies between two
  bounds, this one does.
* `Bound.gap`, `Bound.crossed_iff`: bounds cross iff no version lies between them for another reason
  than a gap.
* `Comparison.all_holds`: comparisons hold of the versions between their tightest bounds.
* `Constraint.empty_iff_gap`: the empty ranges are those with a gap, and for every way to make a
  range, what is refused is what leaves no version and has no gap.
-/

namespace PackageResolution

/-! ## Neighbours in the order of versions -/

def Identifier.zero : Identifier := ⟨"0", .number 0, by decide +kernel⟩

theorem isLE_then {a b : Ordering} (ha : a.isLE = true) (hb : b.isLE = true) :
    (a.then b).isLE = true :=
  Ordering.isLE_then_iff_and.mpr ⟨ha, .inr hb⟩

theorem isLE_then_iff {a b c : Ordering} (h : b.isLE = true ↔ c = .lt) :
    (a.then b).isLE = true ↔ a.then c = .lt := by
  cases a with
  | lt => simp
  | eq => exact h
  | gt => simp

namespace Rank

theorem isLE_zero_compare (r : Rank) : (compare (number 0) r).isLE = true := by
  cases r with
  | number n =>
    have h : compare (number 0) (number n) = compare 0 n := rfl
    rw [h, Nat.isLE_compare]
    omega
  | word t => rfl

/-- Nothing lies between a list of identifiers and the same list with a zero at its end. -/
theorem isLE_compare_append_zero (xs ys : List Rank) :
    (compare (xs ++ [number 0]) ys).isLE = true ↔ compare xs ys = .lt := by
  induction xs generalizing ys with
  | nil =>
    cases ys with
    | nil => decide
    | cons y ys =>
      have hnil : (compare [] ys).isLE = true := by cases ys <;> rfl
      have h := isLE_then (isLE_zero_compare y) hnil
      rw [← List.compare_cons_cons] at h
      simpa [List.compare_nil_cons] using h
  | cons x xs ih =>
    cases ys with
    | nil => simp
    | cons y ys =>
      rw [List.cons_append, List.compare_cons_cons, List.compare_cons_cons]
      exact isLE_then_iff (ih ys)

end Rank

namespace Version

/-- The version that no other comes before. -/
def least : Version := ⟨0, 0, 0, [Identifier.zero], []⟩

/-- The version right after `v`, up to build metadata. -/
def next (v : Version) : Version :=
  if v.prerelease = [] then ⟨v.major, v.minor, v.patch + 1, [Identifier.zero], []⟩
  else ⟨v.major, v.minor, v.patch, v.prerelease ++ [Identifier.zero], []⟩

/-- Of all that can follow a triple, the pre-release `0` comes first. -/
theorem isLE_zero_ranks (w : Version) :
    ((compare false w.prerelease.isEmpty).then
      (compare [Rank.number 0] w.ranks)).isLE = true := by
  unfold ranks
  cases w.prerelease with
  | nil => rfl
  | cons i is => exact (Rank.isLE_compare_append_zero [] _).mpr rfl

theorem isLE_least_compare (w : Version) : (least.compare w).isLE = true := by
  have hz (n : Nat) : (compare 0 n).isLE = true := by
    rw [Nat.isLE_compare]
    omega
  exact isLE_then (hz w.major) (isLE_then (hz w.minor) (isLE_then (hz w.patch) (isLE_zero_ranks w)))

theorem isLE_succ_compare_then (m n : Nat) {b c : Ordering} (hb : b.isLE = true) (hc : c ≠ .lt) :
    ((compare (m + 1) n).then b).isLE = true ↔ (compare m n).then c = .lt := by
  rcases Nat.lt_trichotomy m n with h | rfl | h
  · have hs : (compare (m + 1) n).isLE = true := by
      rw [Nat.isLE_compare]
      omega
    simp [isLE_then hs hb, Nat.compare_eq_lt.mpr h]
  · simp [Nat.compare_eq_gt.mpr (Nat.lt_succ_self m), hc]
  · have hs : n < m + 1 := by omega
    simp [Nat.compare_eq_gt.mpr h, Nat.compare_eq_gt.mpr hs]

/-- What comes after `v` is `v.next` and the versions that do not come before it. -/
theorem isLE_next_compare (v w : Version) : (v.next.compare w).isLE = true ↔ v.compare w = .lt := by
  rw [compare_eq, compare_eq]
  unfold next
  split
  · rename_i hv
    refine isLE_then_iff (isLE_then_iff (isLE_succ_compare_then _ _ (isLE_zero_ranks w) ?_))
    -- a release comes after its pre-releases
    simp only [ranks, hv]
    cases w.prerelease with
    | nil => decide
    | cons i is =>
      show Ordering.gt ≠ .lt
      decide
  · rename_i hv
    refine isLE_then_iff (isLE_then_iff (isLE_then_iff ?_))
    have he : (v.prerelease ++ [Identifier.zero]).isEmpty = v.prerelease.isEmpty := by
      cases hp : v.prerelease with
      | nil => exact absurd hp hv
      | cons i is => rfl
    have hr : (v.prerelease ++ [Identifier.zero]).map (·.rank) = v.ranks ++ [Rank.number 0] := by
      rw [List.map_append]
      rfl
    simp only [he]
    refine isLE_then_iff ?_
    show (compare ((v.prerelease ++ [Identifier.zero]).map (·.rank)) w.ranks).isLE = true ↔ _
    rw [hr]
    exact Rank.isLE_compare_append_zero _ _

end Version

/-! ## Bounds -/

namespace Bound

variable {b u : Bound} {v w : Version}

def between (lower upper : Option Bound) (v : Version) : Bool :=
  lower.all (·.admitsAbove v) && upper.all (·.admitsBelow v)

/-- The first version that a lower bound admits. -/
def start : Option Bound → Version
  | none => .least
  | some b => if b.inclusive then b.version else b.version.next

/-- Bounds that keep out two neighbours, or an upper bound that keeps out the first version. -/
def gap (lower : Option Bound) : Option Bound → Bool
  | none => false
  | some u => lower.all (!·.inclusive) && !u.inclusive && (start lower).equiv u.version

theorem admitsAbove_iff : b.admitsAbove v = true ↔
    if b.inclusive then (b.version.compare v).isLE = true else b.version.compare v = .lt := by
  unfold admitsAbove
  rw [Version.compare_swap v b.version]
  cases b.version.compare v <;> cases b.inclusive <;> simp

theorem admitsBelow_iff : b.admitsBelow v = true ↔
    if b.inclusive then (v.compare b.version).isLE = true else v.compare b.version = .lt := by
  unfold admitsBelow
  cases v.compare b.version <;> cases b.inclusive <;> simp

theorem all_admitsAbove (l : Option Bound) (v : Version) :
    l.all (·.admitsAbove v) = true ↔ ((start l).compare v).isLE = true := by
  cases l with
  | none => simp [start, Version.isLE_least_compare]
  | some b =>
    rw [Option.all_some, admitsAbove_iff]
    cases hi : b.inclusive with
    | true => simp [start, hi]
    | false => simp [start, hi, Version.isLE_next_compare]

theorem admitsBelow_of_isLE (hv : (w.compare v).isLE = true) (h : u.admitsBelow v = true) :
    u.admitsBelow w = true := by
  rw [admitsBelow_iff] at h ⊢
  split
  · rename_i hi
    rw [if_pos hi] at h
    exact Std.TransCmp.isLE_trans hv h
  · rename_i hi
    rw [if_neg hi] at h
    exact Std.TransCmp.lt_of_isLE_of_lt hv h

/-- If any version lies between two bounds, then the first one that the lower bound admits. -/
theorem exists_between_iff_start (l u : Option Bound) :
    (∃ v, between l u v = true) ↔ u.all (·.admitsBelow (start l)) = true := by
  unfold between
  constructor
  · rintro ⟨v, hv⟩
    rw [Bool.and_eq_true, all_admitsAbove] at hv
    cases u with
    | none => rfl
    | some u => exact admitsBelow_of_isLE hv.1 hv.2
  · intro h
    have hs : l.all (·.admitsAbove (start l)) = true := by
      rw [all_admitsAbove, Version.compare_self]
      rfl
    exact ⟨start l, by rw [hs, h]; rfl⟩

theorem crossed_eq_false_iff (l : Option Bound) (u : Bound) :
    crossed l (some u) = false ↔
      if l.all (!·.inclusive) then ((start l).compare u.version).isLE = true
      else u.admitsBelow (start l) = true := by
  cases l with
  | none => simp [crossed, start, Version.isLE_least_compare]
  | some l =>
    cases hi : l.inclusive with
    | true =>
      simp only [crossed, start, admitsBelow, Option.all_some, hi, if_true]
      cases l.version.compare u.version <;> simp
    | false =>
      simp only [crossed, start, Option.all_some, hi]
      simp only [Bool.not_false, if_true, Bool.false_eq_true, if_false, Version.isLE_next_compare]
      cases l.version.compare u.version <;> simp

theorem exists_between_iff (l u : Option Bound) :
    (∃ v, between l u v = true) ↔ crossed l u = false ∧ gap l u = false := by
  rw [exists_between_iff_start]
  cases u with
  | none => cases l <;> simp [crossed, gap]
  | some u =>
    rw [crossed_eq_false_iff, Option.all_some]
    simp only [gap, Version.equiv]
    cases l.all (!·.inclusive) with
    | false => simp
    | true =>
      rw [if_pos rfl, admitsBelow_iff]
      cases (start l).compare u.version <;> cases u.inclusive <;> simp

/-- Bounds that cross leave no room for a gap. -/
theorem gap_eq_false_of_crossed {l u : Option Bound} (h : crossed l u = true) :
    gap l u = false := by
  cases u with
  | none => rfl
  | some u =>
    simp only [gap, Version.equiv]
    cases hl : l.all (!·.inclusive) with
    | false => rfl
    | true =>
      have hx : ¬ crossed l (some u) = false := by simp [h]
      rw [crossed_eq_false_iff, hl, if_pos rfl] at hx
      cases hc : (start l).compare u.version with
      | lt => simp
      | eq => simp [hc] at hx
      | gt => simp

/-- The test for crossed bounds finds all pairs of bounds with no version between them, except for
those with a gap. -/
theorem crossed_iff (l u : Option Bound) :
    crossed l u = true ↔ (∀ v, between l u v = false) ∧ gap l u = false := by
  have hb := exists_between_iff l u
  constructor
  · intro h
    refine ⟨fun v => not_admits_of_crossed h v, gap_eq_false_of_crossed h⟩
  · rintro ⟨hv, hg⟩
    -- bounds that neither cross nor have a gap have a version between them
    cases hc : crossed l u with
    | true => rfl
    | false =>
      obtain ⟨v, hv'⟩ := hb.mpr ⟨hc, hg⟩
      rw [hv v] at hv'
      cases hv'

end Bound

/-! ## Comparisons -/

namespace Comparison

theorem holds_eq (c : Comparison) (v : Version) :
    c.holds v = Bound.between c.lower? c.upper? v := by
  obtain ⟨r, w⟩ := c
  unfold holds Bound.between
  cases r <;>
    simp only [lower?, upper?, Relation.accepts, Option.all_some, Option.all_none,
      Bound.admitsAbove, Bound.admitsBelow] <;>
    cases v.compare w <;> rfl

theorem all_tightestLower (cs : List Comparison) (b : Option Bound) (v : Version) :
    (cs.foldl (fun b c => Bound.tighterLower b c.lower?) b).all (·.admitsAbove v) =
      (b.all (·.admitsAbove v) && cs.all fun c => c.lower?.all (·.admitsAbove v)) := by
  induction cs generalizing b with
  | nil => simp
  | cons c cs ih =>
    rw [List.foldl_cons, ih, Bound.all_tighterLower, List.all_cons, Bool.and_assoc]

theorem all_tightestUpper (cs : List Comparison) (b : Option Bound) (v : Version) :
    (cs.foldl (fun b c => Bound.tighterUpper b c.upper?) b).all (·.admitsBelow v) =
      (b.all (·.admitsBelow v) && cs.all fun c => c.upper?.all (·.admitsBelow v)) := by
  induction cs generalizing b with
  | nil => simp
  | cons c cs ih =>
    rw [List.foldl_cons, ih, Bound.all_tighterUpper, List.all_cons, Bool.and_assoc]

/-- All of a list of comparisons hold of the versions between its tightest bounds. -/
theorem all_holds (cs : List Comparison) (v : Version) :
    cs.all (·.holds v) = Bound.between (tightestLower cs) (tightestUpper cs) v := by
  unfold Bound.between tightestLower tightestUpper
  rw [all_tightestLower, all_tightestUpper, Option.all_none, Option.all_none, Bool.true_and,
    Bool.true_and]
  induction cs with
  | nil => rfl
  | cons c cs ih =>
    rw [List.all_cons, List.all_cons, List.all_cons, ih, holds_eq, Bound.between]
    ac_rfl

end Comparison

/-! ## Ranges -/

namespace Constraint

theorem contains_eq (c : Constraint) (v : Version) :
    c.contains v = Bound.between c.lower c.upper v := rfl

theorem exists_contains_iff (c : Constraint) :
    (∃ v, c.contains v = true) ↔ Bound.gap c.lower c.upper = false := by
  have h := Bound.exists_between_iff c.lower c.upper
  rw [c.uncrossed] at h
  simpa [contains_eq] using h

theorem contains_exactly (v : Version) : (exactly v).contains v = true := by
  simp [contains, exactly, Bound.admitsAbove, Bound.admitsBelow, Version.compare_self]

theorem ofParts_eq_error_iff {lower upper : Option Version} {li ui : Bool} :
    ofParts lower upper li ui = .error .crossedBounds ↔
      Bound.crossed (lower.map (⟨·, li⟩)) (upper.map (⟨·, ui⟩)) = true := by
  rw [← ofBounds?_eq_none_iff]
  unfold ofParts
  split
  · rename_i h
    simp [h]
  · rename_i c h
    simp [h]

theorem between_of_intersect (a b : Constraint) (v : Version) :
    Bound.between (Bound.tighterLower a.lower b.lower) (Bound.tighterUpper a.upper b.upper) v =
      (a.contains v && b.contains v) := by
  rw [Bound.between, Bound.all_tighterLower, Bound.all_tighterUpper, contains, contains]
  ac_rfl

theorem comparison_ne_emptyRange {text : String} {c : Clause} :
    c.comparison text ≠ .error (.malformed .emptyRange text) := by
  unfold Clause.comparison
  cases Version.parse (String.ofList c.version) with
  | ok v => simp
  | error e => cases e <;> simp

theorem comparisons_ne_emptyRange {text : String} (cs : List Clause) :
    Clause.comparisons text cs ≠ .error (.malformed .emptyRange text) := by
  induction cs with
  | nil => simp [Clause.comparisons]
  | cons c cs ih =>
    unfold Clause.comparisons
    split
    · rename_i e he
      intro h
      cases h
      exact comparison_ne_emptyRange he
    · split
      · rename_i e he
        intro h
        cases h
        exact ih he
      · simp

/-- A text is refused for its range only if it is otherwise well formed and its bounds cross. -/
theorem parse_eq_emptyRange_iff {text : String} :
    parse text = .error (.malformed .emptyRange text) ↔
      ∃ ks, Clause.comparisons text (Outline.ofChars (Text.trim text.toList)).clauses = .ok ks ∧
        (Outline.ofChars (Text.trim text.toList)).complete = true ∧
        Bound.crossed (Comparison.tightestLower ks) (Comparison.tightestUpper ks) = true := by
  unfold parse
  simp only
  cases hk : Clause.comparisons text (Outline.ofChars (Text.trim text.toList)).clauses with
  | error e =>
    have he : e ≠ .malformed .emptyRange text := by
      rintro rfl
      exact comparisons_ne_emptyRange _ hk
    simp [he]
  | ok ks =>
    simp only [Except.ok.injEq, exists_eq_left', ← ofBounds?_eq_none_iff, ofComparisons?]
    cases (Outline.ofChars (Text.trim text.toList)).complete with
    | false => simp
    | true =>
      cases ofBounds? (Comparison.tightestLower ks) (Comparison.tightestUpper ks) <;> simp

/-- A range is empty iff its bounds have a gap, and a gap is the only thing that is let through:
the constructor, the common part of two ranges and the reader refuse all other bounds with no
version between them, and no bounds that have one. -/
theorem empty_iff_gap (c a b : Constraint) (v : Version) (lower upper : Option Version)
    (lowerInclusive upperInclusive : Bool) (text : String) :
    ((∃ w, c.contains w = true) ↔ Bound.gap c.lower c.upper = false) ∧
    (exactly v).contains v = true ∧
    (ofParts lower upper lowerInclusive upperInclusive = .error .crossedBounds ↔
      (∀ w, Bound.between (lower.map (⟨·, lowerInclusive⟩))
        (upper.map (⟨·, upperInclusive⟩)) w = false) ∧
      Bound.gap (lower.map (⟨·, lowerInclusive⟩)) (upper.map (⟨·, upperInclusive⟩)) = false) ∧
    (a.intersect b = none ↔
      (∀ w, (a.contains w && b.contains w) = false) ∧
      Bound.gap (Bound.tighterLower a.lower b.lower)
        (Bound.tighterUpper a.upper b.upper) = false) ∧
    (parse text = .error (.malformed .emptyRange text) ↔
      ∃ ks, Clause.comparisons text (Outline.ofChars (Text.trim text.toList)).clauses = .ok ks ∧
        (Outline.ofChars (Text.trim text.toList)).complete = true ∧
        (∀ w, ks.all (·.holds w) = false) ∧
        Bound.gap (Comparison.tightestLower ks) (Comparison.tightestUpper ks) = false) := by
  refine ⟨exists_contains_iff c, contains_exactly v, ?_, ?_, ?_⟩
  · rw [ofParts_eq_error_iff, Bound.crossed_iff]
  · rw [intersect, ofBounds?_eq_none_iff, Bound.crossed_iff]
    simp only [between_of_intersect]
  · rw [parse_eq_emptyRange_iff]
    simp only [Bound.crossed_iff, Comparison.all_holds]

/-- The text `v < 0.0.0-0` is read as a range, and no version lies in it. -/
theorem parse_below_least :
    ∃ c, parse "v < 0.0.0-0" = .ok c ∧ ∀ v, c.contains v = false := by
  have hp : parse "v < 0.0.0-0" = .ok ⟨none, some ⟨.least, false⟩, rfl⟩ := by
    decide +kernel
  refine ⟨_, hp, ?_⟩
  intro v
  cases hv : contains ⟨none, some ⟨.least, false⟩, rfl⟩ v with
  | false => rfl
  | true =>
    have hb := (Bound.exists_between_iff none (some ⟨.least, false⟩)).mp ⟨v, hv⟩
    simp [Bound.gap, Bound.start, Version.equiv, Version.compare_self] at hb

end Constraint
end PackageResolution
