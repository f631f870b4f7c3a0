import Mathlib.Data.Option.Basic
import Mathlib.Order.Basic
import PackageResolution.Constraint.Printer

/-!
# PackageResolution.Proofs.Accumulation

Many ranges with one common part. Bounds are ordered by how strict they are, the stricter of two
bounds is their least upper bound, and crossed bounds stay crossed when they become stricter. So the
common part of many ranges depends on which ranges they are, and not on how it is put together.

* `Bound.Laxer`: the order of bounds, for lower and upper ones alike. `Bound.laxer_tighter_iff` says
  that `Bound.tighter` is a least upper bound.
* `Constraint.meet`: the common part, missing as soon as one of the two is.
* `Grouping`: ranges in some order and bracketing. `Grouping.meet_eq` reads their common part off
  the strictest of their bounds.
* `Constraint.accumulation_order_irrelevant`: the algebra of `meet`, up to the equality of ranges.
-/

namespace PackageResolution

/-! ## Strictness of bounds -/

namespace Bound

section Strictness

/- `cmp` leads from the versions of lax bounds to those of strict ones: upwards for lower bounds,
downwards for upper ones. -/
variable (cmp : Version → Version → Ordering)

/-- `a` keeps out no more than `b`. -/
def Laxer : Option Bound → Option Bound → Prop
  | none, _ => True
  | some _, none => False
  | some a, some b =>
    cmp a.version b.version = .lt ∨
      cmp a.version b.version = .eq ∧ (b.inclusive = true → a.inclusive = true)

/-- The stricter of two bounds. -/
def tighter : Option Bound → Option Bound → Option Bound
  | none, b => b
  | some a, none => some a
  | some a, some b =>
    match cmp a.version b.version with
    | .lt => some b
    | .eq => some ⟨a.version, a.inclusive && b.inclusive⟩
    | .gt => some a

variable [Std.TransCmp cmp]

theorem Laxer.refl (a : Option Bound) : Laxer cmp a a := by
  cases a with
  | none => trivial
  | some a => exact .inr ⟨Std.ReflCmp.compare_self, id⟩

theorem Laxer.trans {a b c : Option Bound} (hab : Laxer cmp a b) (hbc : Laxer cmp b c) :
    Laxer cmp a c := by
  cases a with
  | none => trivial
  | some a =>
    cases b with
    | none => exact hab.elim
    | some b =>
      cases c with
      | none => exact hbc.elim
      | some c =>
        rcases hab with hab | ⟨hab, iab⟩
        · rcases hbc with hbc | ⟨hbc, _⟩
          · exact .inl (Std.TransCmp.lt_trans hab hbc)
          · exact .inl (Std.TransCmp.lt_of_lt_of_eq hab hbc)
        · rcases hbc with hbc | ⟨hbc, ibc⟩
          · exact .inl (Std.TransCmp.lt_of_eq_of_lt hab hbc)
          · exact .inr ⟨Std.TransCmp.eq_trans hab hbc, fun h => iab (ibc h)⟩

theorem laxer_tighter_iff (a b c : Option Bound) :
    Laxer cmp (tighter cmp a b) c ↔ Laxer cmp a c ∧ Laxer cmp b c := by
  cases a with
  | none => exact ⟨fun h => ⟨trivial, h⟩, fun h => h.2⟩
  | some a =>
    cases b with
    | none => exact ⟨fun h => ⟨h, trivial⟩, fun h => h.1⟩
    | some b =>
      cases hab : cmp a.version b.version with
      | lt =>
        have hlax : Laxer cmp (some a) (some b) := .inl hab
        simp only [tighter, hab]
        exact ⟨fun h => ⟨hlax.trans cmp h, h⟩, fun h => h.2⟩
      | gt =>
        have hlax : Laxer cmp (some b) (some a) := .inl (Std.OrientedCmp.lt_of_gt hab)
        simp only [tighter, hab]
        exact ⟨fun h => ⟨h, hlax.trans cmp h⟩, fun h => h.1⟩
      | eq =>
        simp only [tighter, hab]
        cases c with
        | none => exact ⟨False.elim, fun h => h.1.elim⟩
        | some c =>
          simp only [Laxer, Std.TransCmp.congr_left (c := c.version) hab]
          cases cmp b.version c.version <;> cases a.inclusive <;> cases b.inclusive <;>
            cases c.inclusive <;> simp

/-- Bounds that are as strict as each other are equal, if `cmp` tells versions apart like
precedence. -/
theorem optionEquiv_of_laxer (hcmp : ∀ v w, cmp v w = .eq → v.equiv w = true) {a b : Option Bound}
    (hab : Laxer cmp a b) (hba : Laxer cmp b a) : optionEquiv a b = true := by
  cases a with
  | none =>
    cases b with
    | none => rfl
    | some b => exact hba.elim
  | some a =>
    cases b with
    | none => exact hab.elim
    | some b =>
      have hne : cmp a.version b.version ≠ .lt := by
        intro hlt
        have hgt := Std.OrientedCmp.gt_of_lt hlt
        rcases hba with h | ⟨h, _⟩ <;> rw [h] at hgt <;> cases hgt
      obtain ⟨heq, hi⟩ := hab.resolve_left hne
      obtain ⟨_, hi'⟩ := hba.resolve_left fun h => by
        rw [Std.OrientedCmp.eq_symm heq] at h
        cases h
      have hincl : a.inclusive = b.inclusive := Bool.eq_iff_iff.mpr ⟨hi', hi⟩
      simp [optionEquiv, equiv, hcmp _ _ heq, hincl]

theorem laxer_tighter_left (a b : Option Bound) : Laxer cmp a (tighter cmp a b) :=
  ((laxer_tighter_iff cmp a b _).mp (.refl cmp _)).1

theorem laxer_tighter_right (a b : Option Bound) : Laxer cmp b (tighter cmp a b) :=
  ((laxer_tighter_iff cmp a b _).mp (.refl cmp _)).2

/-- The strictest of a list of bounds. -/
def tightest (bs : List (Option Bound)) : Option Bound := bs.foldl (tighter cmp) none

theorem laxer_foldl_iff (bs : List (Option Bound)) (a c : Option Bound) :
    Laxer cmp (bs.foldl (tighter cmp) a) c ↔ Laxer cmp a c ∧ ∀ b ∈ bs, Laxer cmp b c := by
  induction bs generalizing a with
  | nil => simp
  | cons b bs ih =>
    rw [List.foldl_cons, ih, laxer_tighter_iff, List.forall_mem_cons, and_assoc]

theorem laxer_tightest {bs : List (Option Bound)} {b : Option Bound} (h : b ∈ bs) :
    Laxer cmp b (tightest cmp bs) :=
  ((laxer_foldl_iff cmp bs none _).mp (.refl cmp _)).2 b h

theorem tighter_laxer (a b : Option Bound) :
    Laxer cmp (tighter cmp a b) a ∨ Laxer cmp (tighter cmp a b) b := by
  cases a with
  | none => exact .inr (.refl cmp b)
  | some a =>
    cases b with
    | none => exact .inl (.refl cmp (some a))
    | some b =>
      cases hab : cmp a.version b.version with
      | lt =>
        simp only [tighter, hab]
        exact .inr (.refl cmp (some b))
      | gt =>
        simp only [tighter, hab]
        exact .inl (.refl cmp (some a))
      | eq =>
        simp only [tighter, hab, Laxer, Std.ReflCmp.compare_self]
        cases a.inclusive <;> cases b.inclusive <;> simp

/-- The strictest bound is as strict as one of the list, if it is there at all. -/
theorem exists_tightest_laxer (bs : List (Option Bound)) :
    tightest cmp bs = none ∨ ∃ b ∈ bs, Laxer cmp (tightest cmp bs) b := by
  have hfold (a : Option Bound) : Laxer cmp (bs.foldl (tighter cmp) a) a ∨
      ∃ b ∈ bs, Laxer cmp (bs.foldl (tighter cmp) a) b := by
    induction bs generalizing a with
    | nil => exact .inl (.refl cmp a)
    | cons b bs ih =>
      rcases ih (tighter cmp a b) with h | ⟨d, hd, h⟩
      · rcases tighter_laxer cmp a b with h' | h'
        · exact .inl (h.trans cmp h')
        · exact .inr ⟨b, List.mem_cons_self, h.trans cmp h'⟩
      · exact .inr ⟨d, List.mem_cons_of_mem b hd, h⟩
  rcases hfold none with h | h
  · left
    unfold tightest
    cases hb : bs.foldl (tighter cmp) none with
    | none => rfl
    | some b =>
      rw [hb] at h
      exact h.elim
  · exact .inr h

end Strictness

/-- Stricter upper bounds have earlier versions. -/
def downward (a b : Version) : Ordering := b.compare a

instance : Std.TransCmp downward := inferInstanceAs (Std.TransCmp fun a b : Version => b.compare a)

theorem tighterLower_eq (a b : Option Bound) : tighterLower a b = tighter Version.compare a b := by
  cases a <;> cases b <;> rfl

theorem tighterUpper_eq (a b : Option Bound) : tighterUpper a b = tighter downward a b := by
  cases a with
  | none => rfl
  | some a =>
    cases b with
    | none => rfl
    | some b =>
      simp only [tighterUpper, tighter, downward, Version.compare_swap a.version b.version]
      cases b.version.compare a.version <;> rfl

theorem crossed_iff_lt (l u : Bound) :
    crossed (some l) (some u) = false ↔ l.version.compare u.version = .lt ∨
      l.version.compare u.version = .eq ∧ l.inclusive = true ∧ u.inclusive = true := by
  simp only [crossed]
  cases l.version.compare u.version <;> simp

/-- Bounds that leave no room leave none when they become stricter. -/
theorem crossed_of_laxer {l l' u u' : Option Bound} (hl : Laxer Version.compare l l')
    (hu : Laxer downward u u') (h : crossed l u = true) : crossed l' u' = true := by
  cases l with
  | none => cases h
  | some l =>
    cases u with
    | none => cases h
    | some u =>
      cases l' with
      | none => exact hl.elim
      | some l' =>
        cases u' with
        | none => exact hu.elim
        | some u' =>
          rw [← Bool.not_eq_false, crossed_iff_lt] at h ⊢
          intro hroom
          apply h
          -- the chain of versions is `l`, `l'`, `u'`, `u`
          rcases hl with hl | ⟨hl, il⟩ <;> rcases hu with hu | ⟨hu, iu⟩ <;>
            rcases hroom with hr | ⟨hr, ir, ir'⟩
          · exact .inl (Std.TransCmp.lt_trans (Std.TransCmp.lt_trans hl hr) hu)
          · exact .inl (Std.TransCmp.lt_trans (Std.TransCmp.lt_of_lt_of_eq hl hr) hu)
          · exact .inl (Std.TransCmp.lt_of_lt_of_eq (Std.TransCmp.lt_trans hl hr) hu)
          · exact .inl (Std.TransCmp.lt_of_lt_of_eq (Std.TransCmp.lt_of_lt_of_eq hl hr) hu)
          · exact .inl (Std.TransCmp.lt_trans (Std.TransCmp.lt_of_eq_of_lt hl hr) hu)
          · exact .inl (Std.TransCmp.lt_of_eq_of_lt (Std.TransCmp.eq_trans hl hr) hu)
          · exact .inl (Std.TransCmp.lt_of_lt_of_eq (Std.TransCmp.lt_of_eq_of_lt hl hr) hu)
          · exact .inr ⟨Std.TransCmp.eq_trans (Std.TransCmp.eq_trans hl hr) hu, il ir, iu ir'⟩

end Bound

/-! ## Common parts -/

namespace Constraint

open PackageResolution.Bound

/-- Equal up to precedence, or both missing. -/
abbrev Same : Option Constraint → Option Constraint → Prop := Option.Rel fun a b => a.equiv b = true

def meet : Option Constraint → Option Constraint → Option Constraint
  | some a, some b => a.intersect b
  | _, _ => none

/-- Bounds that are as strict as each other make the same range. -/
theorem same_ofBounds? {l l' u u' : Option Bound}
    (hl : Laxer Version.compare l l') (hl' : Laxer Version.compare l' l)
    (hu : Laxer downward u u') (hu' : Laxer downward u' u) :
    Same (ofBounds? l u) (ofBounds? l' u') := by
  cases h : ofBounds? l u with
  | none =>
    have h' := crossed_of_laxer hl hu (ofBounds?_eq_none_iff.mp h)
    rw [ofBounds?_eq_none_iff.mpr h']
    exact .none
  | some c =>
    cases h' : ofBounds? l' u' with
    | none =>
      have hx := crossed_of_laxer hl' hu' (ofBounds?_eq_none_iff.mp h')
      rw [ofBounds?_eq_none_iff.mpr hx] at h
      cases h
    | some d =>
      obtain ⟨rfl, rfl⟩ := bounds_of_ofBounds? h
      obtain ⟨rfl, rfl⟩ := bounds_of_ofBounds? h'
      refine .some ?_
      rw [equiv, optionEquiv_of_laxer _ (fun _ _ => Version.equiv_iff.mpr) hl hl',
        optionEquiv_of_laxer _
          (fun _ _ h => Version.equiv_iff.mpr (Std.OrientedCmp.eq_symm h)) hu hu']
      rfl

theorem meet_ofBounds? (l u l' u' : Option Bound) :
    meet (ofBounds? l u) (ofBounds? l' u') = ofBounds? (tighterLower l l') (tighterUpper u u') := by
  have hleft (h : crossed l u = true) : crossed (tighterLower l l') (tighterUpper u u') = true := by
    rw [tighterLower_eq, tighterUpper_eq]
    exact crossed_of_laxer (laxer_tighter_left _ l l') (laxer_tighter_left _ u u') h
  have hright (h : crossed l' u' = true) :
      crossed (tighterLower l l') (tighterUpper u u') = true := by
    rw [tighterLower_eq, tighterUpper_eq]
    exact crossed_of_laxer (laxer_tighter_right _ l l') (laxer_tighter_right _ u u') h
  cases h : ofBounds? l u with
  | none => exact (ofBounds?_eq_none_iff.mpr (hleft (ofBounds?_eq_none_iff.mp h))).symm
  | some c =>
    cases h' : ofBounds? l' u' with
    | none => exact (ofBounds?_eq_none_iff.mpr (hright (ofBounds?_eq_none_iff.mp h'))).symm
    | some d =>
      obtain ⟨rfl, rfl⟩ := bounds_of_ofBounds? h
      obtain ⟨rfl, rfl⟩ := bounds_of_ofBounds? h'
      rfl

theorem meet_any (a : Option Constraint) : meet a (some any) = a := by
  cases a with
  | none => rfl
  | some a =>
    have hl : tighterLower a.lower none = a.lower := by cases a.lower <;> rfl
    have hu : tighterUpper a.upper none = a.upper := by cases a.upper <;> rfl
    show ofBounds? (tighterLower a.lower none) (tighterUpper a.upper none) = some a
    rw [hl, hu, ofBounds?_self]

theorem any_meet (a : Option Constraint) : meet (some any) a = a := by
  cases a with
  | none => rfl
  | some a => exact ofBounds?_self a

end Constraint

/-! ## Order and bracketing -/

/-- One or more ranges, as they are put together pair by pair. -/
inductive Grouping where
  | one (c : Constraint)
  | both (g h : Grouping)

namespace Grouping

open Constraint PackageResolution.Bound

variable {g h : Grouping}

/-- The ranges from left to right. -/
def constraints : Grouping → List Constraint
  | one c => [c]
  | both g h => g.constraints ++ h.constraints

/-- The common part, taken pair by pair. -/
def meet : Grouping → Option Constraint
  | one c => some c
  | both g h => Constraint.meet g.meet h.meet

def lower : Grouping → Option Bound
  | one c => c.lower
  | both g h => tighterLower g.lower h.lower

def upper : Grouping → Option Bound
  | one c => c.upper
  | both g h => tighterUpper g.upper h.upper

/-- The ranges of a list, each put to those before it. -/
def inOrder (c : Constraint) (cs : List Constraint) : Grouping :=
  cs.foldl (fun g d => both g (one d)) (one c)

theorem meet_eq (g : Grouping) : g.meet = ofBounds? g.lower g.upper := by
  induction g with
  | one c => exact (ofBounds?_self c).symm
  | both g h ihg ihh => rw [meet, ihg, ihh, meet_ofBounds?, lower, upper]

theorem laxer_lower_iff (g : Grouping) (b : Option Bound) :
    Laxer Version.compare g.lower b ↔ ∀ c ∈ g.constraints, Laxer Version.compare c.lower b := by
  induction g with
  | one c => simp [lower, constraints]
  | both g h ihg ihh =>
    rw [lower, tighterLower_eq, laxer_tighter_iff, ihg, ihh, constraints, List.forall_mem_append]

theorem laxer_upper_iff (g : Grouping) (b : Option Bound) :
    Laxer downward g.upper b ↔ ∀ c ∈ g.constraints, Laxer downward c.upper b := by
  induction g with
  | one c => simp [upper, constraints]
  | both g h ihg ihh =>
    rw [upper, tighterUpper_eq, laxer_tighter_iff, ihg, ihh, constraints, List.forall_mem_append]

theorem laxer_of_subset (hs : ∀ c ∈ g.constraints, c ∈ h.constraints) :
    Laxer Version.compare g.lower h.lower ∧ Laxer downward g.upper h.upper := by
  rw [laxer_lower_iff, laxer_upper_iff]
  exact ⟨fun c hc => (laxer_lower_iff h _).mp (.refl _ _) c (hs c hc),
    fun c hc => (laxer_upper_iff h _).mp (.refl _ _) c (hs c hc)⟩

/-- The common part depends on which ranges there are. -/
theorem same_meet (hm : ∀ c, c ∈ g.constraints ↔ c ∈ h.constraints) : Same g.meet h.meet := by
  obtain ⟨hl, hu⟩ := laxer_of_subset fun c hc => (hm c).mp hc
  obtain ⟨hl', hu'⟩ := laxer_of_subset fun c hc => (hm c).mpr hc
  rw [meet_eq, meet_eq]
  exact same_ofBounds? hl hl' hu hu'

theorem meet_foldl (g : Grouping) (cs : List Constraint) :
    (cs.foldl (fun g d => both g (one d)) g).meet =
      cs.foldl (fun m d => Constraint.meet m (some d)) g.meet := by
  induction cs generalizing g with
  | nil => rfl
  | cons d cs ih => rw [List.foldl_cons, List.foldl_cons, ih, meet, meet]

theorem constraints_foldl (g : Grouping) (cs : List Constraint) :
    (cs.foldl (fun g d => both g (one d)) g).constraints = g.constraints ++ cs := by
  induction cs generalizing g with
  | nil => rw [List.foldl_nil, List.append_nil]
  | cons d cs ih =>
    rw [List.foldl_cons, ih, constraints, constraints, List.append_assoc, List.singleton_append]

theorem meet_inOrder (c : Constraint) (cs : List Constraint) :
    (inOrder c cs).meet = cs.foldl (fun m d => Constraint.meet m (some d)) (some c) :=
  meet_foldl (one c) cs

theorem constraints_inOrder (c : Constraint) (cs : List Constraint) :
    (inOrder c cs).constraints = c :: cs :=
  constraints_foldl (one c) cs

end Grouping

namespace Constraint

open Grouping

theorem meet_comm (a b : Option Constraint) : Same (meet a b) (meet b a) := by
  cases a with
  | none => cases b <;> exact .none
  | some a =>
    cases b with
    | none => exact .none
    | some b =>
      exact same_meet (g := both (one a) (one b)) (h := both (one b) (one a))
        (by simp [constraints, or_comm])

theorem meet_assoc (a b c : Option Constraint) : Same (meet (meet a b) c) (meet a (meet b c)) := by
  cases a with
  | none => exact .none
  | some a =>
    cases b with
    | none => exact .none
    | some b =>
      cases c with
      | none =>
        show Same (meet (a.intersect b) none) none
        cases a.intersect b <;> exact .none
      | some c =>
        exact same_meet (g := both (both (one a) (one b)) (one c))
          (h := both (one a) (both (one b) (one c))) (by simp [constraints])

theorem meet_self (a : Option Constraint) : Same (meet a a) a := by
  cases a with
  | none => exact .none
  | some a => exact same_meet (g := both (one a) (one a)) (h := one a) (by simp [constraints])

/-- The common part is the same in any order, but of two equal bounds it shows the first. -/
theorem exists_text_ne : ∃ (a b c d : Constraint) (t u : String), a.intersect b = some c ∧
    b.intersect a = some d ∧ c.equiv d = true ∧ c.text = .ok t ∧ d.text = .ok u ∧ t ≠ u := by
  let a := exactly ⟨1, 0, 0, [], ["x"]⟩
  let b := exactly ⟨1, 0, 0, [], ["y"]⟩
  have hab : a.intersect b = some a := rfl
  have hba : b.intersect a = some b := rfl
  have ha : a.text = .ok "1.0.0+x <= v <= 1.0.0+x" := by decide +kernel
  have hb : b.text = .ok "1.0.0+y <= v <= 1.0.0+y" := by decide +kernel
  exact ⟨a, b, a, b, _, _, hab, hba, rfl, ha, hb, by decide⟩

/-- `meet` is commutative, associative and idempotent up to equality, with the range of all versions
as its unit and the missing range as its zero. So the common part of one or more ranges is the same,
or missing, in every order and bracketing, only that equal ranges can differ in their texts. -/
theorem accumulation_order_irrelevant (a b c : Option Constraint) (g h : Grouping)
    (hp : g.constraints.Perm h.constraints) :
    Same (meet a b) (meet b a) ∧
    Same (meet (meet a b) c) (meet a (meet b c)) ∧
    Same (meet a a) a ∧
    (meet a (some any) = a ∧ meet (some any) a = a) ∧
    (meet a none = none ∧ meet none a = none) ∧
    Same g.meet h.meet ∧
    (∀ d ds, (d :: ds).Perm g.constraints →
      Same (ds.foldl (fun m e => meet m (some e)) (some d)) g.meet) ∧
    (∃ (a b c d : Constraint) (t u : String), a.intersect b = some c ∧ b.intersect a = some d ∧
      c.equiv d = true ∧ c.text = .ok t ∧ d.text = .ok u ∧ t ≠ u) := by
  have hnone : meet a none = none := by cases a <;> rfl
  refine ⟨meet_comm a b, meet_assoc a b c, meet_self a, ⟨meet_any a, any_meet a⟩, ⟨hnone, rfl⟩,
    same_meet fun _ => hp.mem_iff, ?_, exists_text_ne⟩
  intro d ds hd
  rw [← meet_inOrder]
  refine same_meet fun e => ?_
  rw [constraints_inOrder, hd.mem_iff]

/-- Three ranges with equal bounds, put together in two ways. -/
theorem regrouped_accumulation :
    ∃ a b c : Constraint,
      (both (both (one a) (one b)) (one c)).constraints.Perm
        (both (one c) (both (one b) (one a))).constraints ∧
      Same (both (both (one a) (one b)) (one c)).meet (both (one c) (both (one b) (one a))).meet ∧
      (both (one c) (both (one b) (one a))).meet = some c ∧
      Same (meet (meet (some a) (some b)) (some c)) (some c) := by
  let a : Constraint := ⟨some ⟨⟨1, 0, 0, [], ["x"]⟩, true⟩, none, rfl⟩
  let b : Constraint := ⟨none, some ⟨⟨1, 0, 0, [], []⟩, true⟩, rfl⟩
  let c : Constraint := exactly ⟨1, 0, 0, [], ["y"]⟩
  have hp : (both (both (one a) (one b)) (one c)).constraints.Perm
      (both (one c) (both (one b) (one a))).constraints :=
    (List.reverse_perm [c, b, a])
  have hsame := (accumulation_order_irrelevant none none none _ _ hp).2.2.2.2.2.1
  have hc : (both (one c) (both (one b) (one a))).meet = some c := rfl
  exact ⟨a, b, c, hp, hsame, hc, hsame⟩

end Constraint
end PackageResolution
