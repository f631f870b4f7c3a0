import PackageResolution.Proofs.Accumulation
import PackageResolution.Proofs.Lockstep

/-!
# PackageResolution.Proofs.EqualRanges

Ranges are equal if their bounds are, up to precedence. Neither membership nor intersection can tell
equal ranges apart, only that an intersection shows the one text or the other. So releases with
equal ranges in their dependencies and platforms can stand for each other.

* `Constraint.contains_congr`, `Constraint.intersect_congr`: what ranges are used for.
* `Package.Interchangeable`, `Requirement.Interchangeable`: the same but for equal ranges.
* `Catalog.Interchangeable`: the same releases but for equal ranges, and equal platforms. Such
  catalogs offer interchangeable candidates, in the same order.
* `Catalog.annotated`: a catalog with other build metadata in its ranges, as an instance.
-/

namespace PackageResolution

/-! ## Ranges -/

theorem Version.compare_congr {a a' b b' : Version} (ha : a.equiv a' = true)
    (hb : b.equiv b' = true) : a.compare b = a'.compare b' := by
  rw [compare_congr_left b (equiv_iff.mp ha)]
  exact Std.TransCmp.congr_right (equiv_iff.mp hb)

theorem Version.equiv_self (v : Version) : v.equiv v = true := equiv_iff.mpr (compare_self v)

namespace Bound

variable {a a' b b' : Bound} {o o' p p' : Option Bound} {v v' : Version}

theorem equiv_iff : a.equiv b = true ↔ a.version.equiv b.version = true ∧
    a.inclusive = b.inclusive := by
  simp [equiv]

theorem optionEquiv_iff :
    optionEquiv o p = true ↔ Option.Rel (fun a b => a.equiv b = true) o p := by
  cases o <;> cases p <;> simp [optionEquiv]

theorem all_congr {f f' : Bound → Bool} (hf : ∀ {a a'}, a.equiv a' = true → f a = f' a')
    (h : optionEquiv o o' = true) : o.all f = o'.all f' := by
  cases optionEquiv_iff.mp h with
  | none => rfl
  | some hb => exact hf hb

theorem admitsAbove_congr (hb : b.equiv b' = true) (hv : v.equiv v' = true) :
    b.admitsAbove v = b'.admitsAbove v' := by
  obtain ⟨hversion, hincl⟩ := equiv_iff.mp hb
  rw [admitsAbove, admitsAbove, Version.compare_congr hv hversion, hincl]

theorem admitsBelow_congr (hb : b.equiv b' = true) (hv : v.equiv v' = true) :
    b.admitsBelow v = b'.admitsBelow v' := by
  obtain ⟨hversion, hincl⟩ := equiv_iff.mp hb
  rw [admitsBelow, admitsBelow, Version.compare_congr hv hversion, hincl]

section Strictness

variable {cmp : Version → Version → Ordering} [Std.TransCmp cmp]

/-- Equal bounds are as strict as each other. -/
theorem laxer_of_equiv (hcmp : ∀ {v w : Version}, v.equiv w = true → cmp v w = .eq)
    (h : optionEquiv o p = true) : Laxer cmp o p ∧ Laxer cmp p o := by
  cases optionEquiv_iff.mp h with
  | none => exact ⟨trivial, trivial⟩
  | some hab =>
    obtain ⟨hversion, hincl⟩ := equiv_iff.mp hab
    have heq := hcmp hversion
    have heq' := Std.OrientedCmp.eq_symm heq
    exact ⟨.inr ⟨heq, fun hi => hincl ▸ hi⟩, .inr ⟨heq', fun hi => hincl ▸ hi⟩⟩

theorem tighter_mono (ho : Laxer cmp o o') (hp : Laxer cmp p p') :
    Laxer cmp (tighter cmp o p) (tighter cmp o' p') :=
  (laxer_tighter_iff cmp o p _).mpr ⟨ho.trans cmp (laxer_tighter_left cmp o' p'),
    hp.trans cmp (laxer_tighter_right cmp o' p')⟩

end Strictness

theorem tighterLower_congr (ho : optionEquiv o o' = true) (hp : optionEquiv p p' = true) :
    Laxer Version.compare (tighterLower o p) (tighterLower o' p') ∧
      Laxer Version.compare (tighterLower o' p') (tighterLower o p) := by
  have ho := laxer_of_equiv Version.equiv_iff.mp ho
  have hp := laxer_of_equiv Version.equiv_iff.mp hp
  rw [tighterLower_eq, tighterLower_eq]
  exact ⟨tighter_mono ho.1 hp.1, tighter_mono ho.2 hp.2⟩

theorem tighterUpper_congr (ho : optionEquiv o o' = true) (hp : optionEquiv p p' = true) :
    Laxer downward (tighterUpper o p) (tighterUpper o' p') ∧
      Laxer downward (tighterUpper o' p') (tighterUpper o p) := by
  have hcmp : ∀ {v w : Version}, v.equiv w = true → downward v w = .eq :=
    fun h => Std.OrientedCmp.eq_symm (Version.equiv_iff.mp h)
  have ho := laxer_of_equiv hcmp ho
  have hp := laxer_of_equiv hcmp hp
  rw [tighterUpper_eq, tighterUpper_eq]
  exact ⟨tighter_mono ho.1 hp.1, tighter_mono ho.2 hp.2⟩

end Bound

namespace Constraint

open PackageResolution.Bound

variable {a a' b b' : Constraint} {v v' : Version}

theorem equiv_iff : a.equiv b = true ↔ optionEquiv a.lower b.lower = true ∧
    optionEquiv a.upper b.upper = true := by
  simp [equiv]

theorem contains_congr (ha : a.equiv a' = true) (hv : v.equiv v' = true) :
    a.contains v = a'.contains v' := by
  obtain ⟨hl, hu⟩ := equiv_iff.mp ha
  have hlower : a.lower.all (·.admitsAbove v) = a'.lower.all (·.admitsAbove v') :=
    all_congr (fun h => admitsAbove_congr h hv) hl
  have hupper : a.upper.all (·.admitsBelow v) = a'.upper.all (·.admitsBelow v') :=
    all_congr (fun h => admitsBelow_congr h hv) hu
  rw [contains, contains, hlower, hupper]

theorem intersect_congr (ha : a.equiv a' = true) (hb : b.equiv b' = true) :
    Same (a.intersect b) (a'.intersect b') := by
  obtain ⟨hal, hau⟩ := equiv_iff.mp ha
  obtain ⟨hbl, hbu⟩ := equiv_iff.mp hb
  obtain ⟨hl, hl'⟩ := tighterLower_congr hal hbl
  obtain ⟨hu, hu'⟩ := tighterUpper_congr hau hbu
  exact same_ofBounds? hl hl' hu hu'

end Constraint

/-! ## Releases and requirements -/

namespace OrderedMap

/-- The same keys in the same order, with equal ranges. -/
abbrev SameRanges (m m' : OrderedMap String Constraint) : Prop :=
  m.Related (fun a b => a.equiv b = true) m'

theorem agrees_of_related {κ α : Type} [DecidableEq κ] {same : α → α → Bool}
    {m m' : OrderedMap κ α} (h : m.Related (fun a b => same a b = true) m') :
    agrees same m m' = true := by
  have hsize : m.size = m'.size := List.Forall₂.length_eq h
  unfold agrees
  rw [hsize, beq_self_eq_true, Bool.true_and, List.all_eq_true]
  intro e he
  have hget := h.get? e.1
  rw [get?_eq_some_iff.mpr he] at hget
  generalize m'.get? e.1 = o at hget
  cases hget with
  | some hb => exact hb

end OrderedMap

namespace Package

/-- The same release, but for equal ranges in place of others. -/
structure Interchangeable (p q : Package) : Prop where
  name : p.name = q.name
  version : p.version = q.version
  dependencies : p.dependencies.SameRanges q.dependencies
  platform : Constraint.Same p.platform q.platform

namespace Interchangeable

variable {p q : Package}

theorem equiv (h : p.Interchangeable q) : p.equiv q = true := by
  have hplatform : platformEquiv p.platform q.platform = true := by
    have hp := h.platform
    generalize p.platform = o, q.platform = o' at hp
    cases hp with
    | none => rfl
    | some hc => exact hc
  simp [Package.equiv, h.name, h.version, Version.equiv_self, hplatform,
    OrderedMap.agrees_of_related h.dependencies]

theorem supports (h : p.Interchangeable q) {platform platform' : Option Version}
    (hp : Option.Rel (fun v w => v.equiv w = true) platform platform') :
    p.supports platform = q.supports platform' := by
  have hc := h.platform
  unfold Package.supports
  generalize p.platform = o, q.platform = o' at hc
  cases hc with
  | none => rfl
  | some hc =>
    cases hp with
    | none => rfl
    | some hv => exact Constraint.contains_congr hc hv

end Interchangeable
end Package

namespace Requirement

structure Interchangeable (r r' : Requirement) : Prop where
  name : r.name = r'.name
  constraint : r.constraint.equiv r'.constraint = true
  parent : Option.Rel Package.Interchangeable r.parent r'.parent

theorem Interchangeable.equiv {r r' : Requirement} (h : r.Interchangeable r') :
    r.equiv r' = true := by
  have hparent : parentEquiv r.parent r'.parent = true := by
    have hp := h.parent
    generalize r.parent = o, r'.parent = o' at hp
    cases hp with
    | none => rfl
    | some hp => exact hp.equiv
  simp [Requirement.equiv, h.name, h.constraint, hparent]

theorem listEquiv_of_interchangeable {rs rs' : List Requirement}
    (h : List.Forall₂ Interchangeable rs rs') : listEquiv rs rs' = true := by
  induction h with
  | nil => rfl
  | cons hr _ ih => rw [listEquiv, hr.equiv, ih, Bool.and_self]

end Requirement

theorem Package.Interchangeable.requirements {p q : Package} (h : p.Interchangeable q) :
    List.Forall₂ Requirement.Interchangeable p.requirements q.requirements := by
  have hdeps : List.Forall₂ (OrderedMap.EntryRelated fun a b => Constraint.equiv a b = true)
    p.dependencies.entries q.dependencies.entries := h.dependencies
  unfold Package.requirements
  rw [List.forall₂_map_left_iff, List.forall₂_map_right_iff]
  exact hdeps.imp fun _ _ he => ⟨he.1, he.2, .some h⟩

/-- The same releases for equal platforms, but for equal ranges in place of others. -/
structure Catalog.Interchangeable (g g' : Catalog) : Prop where
  platform : Option.Rel (fun v w => v.equiv w = true) g.platform g'.platform
  releases : ∀ n,
    List.Forall₂ Package.Interchangeable (g.repository.lookup n) (g'.repository.lookup n)

theorem Catalog.Interchangeable.findCandidates {g g' : Catalog} (h : g.Interchangeable g')
    (n : String) {c c' : Constraint} (hc : c.equiv c' = true) :
    Concur (· = ·) (List.Forall₂ Package.Interchangeable) (g.findCandidates n c)
      (g'.findCandidates n c') := by
  have hadmits : ∀ p q, p.Interchangeable q → g.admits c p = g'.admits c' q := by
    intro p q hpq
    rw [admits, admits, hpq.version, hpq.supports h.platform,
      Constraint.contains_congr hc (Version.equiv_self q.version)]
  exact bestFirst_related (fun _ _ hpq => hpq.version) (forall₂_filter hadmits (h.releases n))

/-! ## Other build metadata -/

/-- The version with other build metadata. -/
def Version.annotated (build : List String) (v : Version) : Version := { v with build := build }

/-- The range with other build metadata in its bounds. -/
def Constraint.annotated (build : List String) (c : Constraint) : Constraint where
  lower := c.lower.map fun b => { b with version := b.version.annotated build }
  upper := c.upper.map fun b => { b with version := b.version.annotated build }
  uncrossed := by
    have h := c.uncrossed
    generalize c.lower = l, c.upper = u at h
    cases l <;> cases u <;> exact h

def OrderedMap.annotated (build : List String) (m : OrderedMap String Constraint) :
    OrderedMap String Constraint :=
  m.mapValues fun _ c => c.annotated build

/-- The release as it is, with other build metadata in what it asks for. -/
def Package.annotated (build : List String) (p : Package) : Package where
  name := p.name
  version := p.version
  dependencies := p.dependencies.annotated build
  platform := p.platform.map (Constraint.annotated build)

def Catalog.annotated (build : List String) (g : Catalog) : Catalog where
  repository := ⟨g.repository.releases.mapValues fun _ ps => ps.map (Package.annotated build)⟩
  platform := g.platform.map (Version.annotated build)

variable (build : List String)

theorem Constraint.equiv_annotated (c : Constraint) : c.equiv (c.annotated build) = true := by
  have hbound (o : Option Bound) : Bound.optionEquiv o
      (o.map fun b => { b with version := b.version.annotated build }) = true := by
    cases o with
    | none => rfl
    | some b => exact Bound.equiv_iff.mpr ⟨Version.equiv_self b.version, rfl⟩
  exact equiv_iff.mpr ⟨hbound c.lower, hbound c.upper⟩

theorem OrderedMap.sameRanges_annotated (m : OrderedMap String Constraint) :
    m.SameRanges (m.annotated build) :=
  List.forall₂_map_right_iff.mpr
    (List.forall₂_same.mpr fun e _ => ⟨rfl, e.2.equiv_annotated build⟩)

theorem Package.interchangeable_annotated (p : Package) :
    p.Interchangeable (p.annotated build) := by
  refine ⟨rfl, rfl, p.dependencies.sameRanges_annotated build, ?_⟩
  unfold annotated
  cases p.platform with
  | none => exact .none
  | some c => exact .some (c.equiv_annotated build)

theorem Catalog.interchangeable_annotated (g : Catalog) :
    g.Interchangeable (g.annotated build) := by
  constructor
  · unfold annotated
    cases g.platform with
    | none => exact .none
    | some v => exact .some (Version.equiv_self v)
  · intro n
    unfold annotated Repository.lookup
    rw [OrderedMap.get?_mapValues]
    cases g.repository.releases.get? n with
    | none => exact .nil
    | some ps =>
      exact List.forall₂_map_right_iff.mpr
        (List.forall₂_same.mpr fun p _ => p.interchangeable_annotated build)

end PackageResolution
