import PackageResolution.Constraint.Basic

/-!
# PackageResolution.Proofs.Intersection

Ranges as sets of versions. The common part of two ranges holds the versions that lie in both of
them, and it is missing only where there is no such version.

* `Bound.all_tighterLower`, `Bound.all_tighterUpper`: the stricter bound admits what both admit.
* `Bound.not_admits_of_crossed`: no version lies between bounds that leave no room.
* `Constraint.contains_intersect`, `Constraint.not_contains_of_intersect_eq_none`: the same for
  ranges. `Constraint.intersect_exact` adds that no common part is refused by the constructor.
-/

namespace PackageResolution
namespace Bound

variable {a b : Bound} {v : Version}

theorem isGE_of_admitsAbove (h : b.admitsAbove v = true) : (v.compare b.version).isGE = true := by
  simp only [admitsAbove] at h
  split at h
  · cases h
  · rename_i he; rw [he]; rfl
  · rename_i hg; rw [hg]; rfl

theorem isLE_of_admitsBelow (h : b.admitsBelow v = true) : (v.compare b.version).isLE = true := by
  simp only [admitsBelow] at h
  split at h
  · rename_i hl; rw [hl]; rfl
  · rename_i he; rw [he]; rfl
  · cases h

theorem admitsAbove_of_lt (h : a.version.compare b.version = .lt) (hv : b.admitsAbove v = true) :
    a.admitsAbove v = true := by
  have hg : v.compare a.version = .gt :=
    Std.TransCmp.gt_of_isGE_of_gt (isGE_of_admitsAbove hv) (Std.OrientedCmp.gt_of_lt h)
  simp [admitsAbove, hg]

theorem admitsBelow_of_lt (h : a.version.compare b.version = .lt) (hv : a.admitsBelow v = true) :
    b.admitsBelow v = true := by
  have hl : v.compare b.version = .lt :=
    Std.TransCmp.lt_of_isLE_of_lt (isLE_of_admitsBelow hv) h
  simp [admitsBelow, hl]

theorem admitsAbove_both (h : a.version.compare b.version = .eq) :
    Bound.admitsAbove ⟨a.version, a.inclusive && b.inclusive⟩ v =
      (a.admitsAbove v && b.admitsAbove v) := by
  simp only [admitsAbove, ← Std.TransCmp.congr_right (a := v) h]
  split <;> rfl

theorem admitsBelow_both (h : a.version.compare b.version = .eq) :
    Bound.admitsBelow ⟨a.version, a.inclusive && b.inclusive⟩ v =
      (a.admitsBelow v && b.admitsBelow v) := by
  simp only [admitsBelow, ← Std.TransCmp.congr_right (a := v) h]
  split <;> rfl

theorem all_tighterLower (a b : Option Bound) (v : Version) :
    (tighterLower a b).all (·.admitsAbove v) =
      (a.all (·.admitsAbove v) && b.all (·.admitsAbove v)) := by
  cases a with
  | none => simp [tighterLower]
  | some a =>
    cases b with
    | none => simp [tighterLower]
    | some b =>
      simp only [tighterLower, Option.all_some]
      split
      · rename_i h
        rw [Option.all_some]; exact (Bool.and_eq_right_iff_imp.mpr (admitsAbove_of_lt h)).symm
      · rename_i h; exact admitsAbove_both h
      · rename_i h
        rw [Option.all_some]
        have hba := admitsAbove_of_lt (v := v) (Std.OrientedCmp.lt_of_gt h)
        exact (Bool.and_eq_left_iff_imp.mpr hba).symm

theorem all_tighterUpper (a b : Option Bound) (v : Version) :
    (tighterUpper a b).all (·.admitsBelow v) =
      (a.all (·.admitsBelow v) && b.all (·.admitsBelow v)) := by
  cases a with
  | none => simp [tighterUpper]
  | some a =>
    cases b with
    | none => simp [tighterUpper]
    | some b =>
      simp only [tighterUpper, Option.all_some]
      split
      · rename_i h
        rw [Option.all_some]; exact (Bool.and_eq_left_iff_imp.mpr (admitsBelow_of_lt h)).symm
      · rename_i h; exact admitsBelow_both h
      · rename_i h
        rw [Option.all_some]
        have hba := admitsBelow_of_lt (v := v) (Std.OrientedCmp.lt_of_gt h)
        exact (Bool.and_eq_right_iff_imp.mpr hba).symm

/-- Bounds that cross, or that meet where one is exclusive, have no version between them. -/
theorem not_admits_of_crossed {l u : Option Bound} (h : crossed l u = true) (v : Version) :
    (l.all (·.admitsAbove v) && u.all (·.admitsBelow v)) = false := by
  cases l with
  | none => simp [crossed] at h
  | some l =>
    cases u with
    | none => simp [crossed] at h
    | some u =>
      simp only [crossed] at h
      rw [Option.all_some, Option.all_some]
      split at h
      · cases h
      · rename_i he
        simp only [admitsAbove, admitsBelow, ← Std.TransCmp.congr_right (a := v) he]
        cases v.compare l.version with
        | lt => rfl
        | eq => rw [Bool.not_eq_true'] at h; exact h
        | gt => simp
      · rename_i hg
        cases hl : l.admitsAbove v with
        | false => rfl
        | true =>
          have : v.compare u.version = .gt :=
            Std.TransCmp.gt_of_isGE_of_gt (isGE_of_admitsAbove hl) hg
          simp [admitsBelow, this]

end Bound

namespace Constraint

theorem contains_intersect {a b c : Constraint} (h : a.intersect b = some c) (v : Version) :
    c.contains v = (a.contains v && b.contains v) := by
  obtain ⟨hl, hu⟩ := bounds_of_ofBounds? h
  simp only [contains, hl, hu, Bound.all_tighterLower, Bound.all_tighterUpper]
  ac_rfl

theorem not_contains_of_intersect_eq_none {a b : Constraint} (h : a.intersect b = none)
    (v : Version) : (a.contains v && b.contains v) = false := by
  have hx := Bound.not_admits_of_crossed (ofBounds?_eq_none_iff.mp h) v
  rw [Bound.all_tighterLower, Bound.all_tighterUpper] at hx
  rw [← hx]
  simp only [contains]
  ac_rfl

/-- Whether the lower bound lets its version in; an absent one does not. -/
def lowerInclusive (c : Constraint) : Bool := c.lower.any (·.inclusive)

/-- Whether the upper bound lets its version in; an absent one does not. -/
def upperInclusive (c : Constraint) : Bool := c.upper.any (·.inclusive)

theorem map_bound_inclusive (b : Option Bound) (absent : Bool) :
    (b.map (·.version)).map (⟨·, (b.map (·.inclusive)).getD absent⟩) = b := by
  cases b <;> rfl

/-- The constructor makes a range of two bounds, whatever it is told of an absent one. -/
theorem ofParts_bounds (lower upper : Option Bound) (absentLower absentUpper : Bool) :
    ofParts (lower.map (·.version)) (upper.map (·.version))
        ((lower.map (·.inclusive)).getD absentLower) ((upper.map (·.inclusive)).getD absentUpper) =
      (ofBounds? lower upper).elim (.error .crossedBounds) .ok := by
  rw [ofParts, map_bound_inclusive, map_bound_inclusive]
  cases ofBounds? lower upper <;> rfl

/-- The common part of two ranges holds the versions in both, and is missing only where there are
none. It is what the constructor makes of the stricter bounds, which it refuses in no other case. An
absent bound is shown as exclusive. -/
theorem intersect_exact (a b : Constraint) :
    (∀ c, a.intersect b = some c →
      (∀ v, c.contains v = true ↔ a.contains v = true ∧ b.contains v = true) ∧
      (c.lower = none → c.lowerInclusive = false) ∧
      (c.upper = none → c.upperInclusive = false)) ∧
    (a.intersect b = none → ∀ v, ¬ (a.contains v = true ∧ b.contains v = true)) ∧
    (∀ absentLower absentUpper,
      ofParts ((Bound.tighterLower a.lower b.lower).map (·.version))
          ((Bound.tighterUpper a.upper b.upper).map (·.version))
          (((Bound.tighterLower a.lower b.lower).map (·.inclusive)).getD absentLower)
          (((Bound.tighterUpper a.upper b.upper).map (·.inclusive)).getD absentUpper) =
        (a.intersect b).elim (.error .crossedBounds) .ok) := by
  refine ⟨?_, ?_, ofParts_bounds _ _⟩
  · intro c h
    refine ⟨?_, ?_, ?_⟩
    · intro v
      rw [contains_intersect h, Bool.and_eq_true]
    · intro hn
      rw [lowerInclusive, hn]
      rfl
    · intro hn
      rw [upperInclusive, hn]
      rfl
  · intro h v hv
    rw [← Bool.and_eq_true, not_contains_of_intersect_eq_none h] at hv
    cases hv

/-- Up to a version and from it on: one version is in both. Without it there is none. -/
theorem halves_intersect :
    ∃ v : Version, ∃ upTo before onward : Constraint,
      upTo.intersect onward = some (exactly v) ∧
      (∀ w, (exactly v).contains w = true ↔ upTo.contains w = true ∧ onward.contains w = true) ∧
      before.intersect onward = none ∧
      (∀ w, ¬ (before.contains w = true ∧ onward.contains w = true)) := by
  let v : Version := ⟨1, 0, 0, [], []⟩
  let upTo : Constraint := ⟨none, some ⟨v, true⟩, rfl⟩
  let before : Constraint := ⟨none, some ⟨v, false⟩, rfl⟩
  let onward : Constraint := ⟨some ⟨v, true⟩, none, rfl⟩
  have hsome : upTo.intersect onward = some (exactly v) := rfl
  have hnone : before.intersect onward = none := rfl
  refine ⟨v, upTo, before, onward, hsome, ?_, hnone, ?_⟩
  · exact ((intersect_exact upTo onward).1 (exactly v) hsome).1
  · exact (intersect_exact before onward).2.1 hnone

end Constraint
end PackageResolution
