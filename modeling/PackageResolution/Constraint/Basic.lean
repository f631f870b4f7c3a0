import PackageResolution.Version.Printer

/-!
# PackageResolution.Constraint.Basic

Ranges of versions. A range has at most one lower and at most one upper bound, each of which lets
its own version in or keeps it out. Bounds are compared by precedence, so their build metadata does
not matter.

* `Constraint`: a range whose bounds leave room between them; `Constraint.ofBounds?` checks that.
* `Constraint.contains`: the versions inside.
* `Constraint.intersect`: the common part of two ranges, if the tighter bounds leave room.
* `Constraint.equiv`: same bounds up to precedence.
-/

namespace PackageResolution

structure Bound where
  version : Version
  inclusive : Bool
  deriving DecidableEq

namespace Bound

/-- `v` is on the right side of a lower bound. -/
def admitsAbove (b : Bound) (v : Version) : Bool :=
  match v.compare b.version with
  | .lt => false
  | .eq => b.inclusive
  | .gt => true

/-- `v` is on the right side of an upper bound. -/
def admitsBelow (b : Bound) (v : Version) : Bool :=
  match v.compare b.version with
  | .lt => true
  | .eq => b.inclusive
  | .gt => false

/-- The stricter of two lower bounds. At one version the first is kept, made exclusive if either
is. -/
def tighterLower : Option Bound → Option Bound → Option Bound
  | none, b => b
  | some a, none => some a
  | some a, some b =>
    match a.version.compare b.version with
    | .lt => some b
    | .eq => some ⟨a.version, a.inclusive && b.inclusive⟩
    | .gt => some a

/-- The stricter of two upper bounds. At one version the first is kept, made exclusive if either
is. -/
def tighterUpper : Option Bound → Option Bound → Option Bound
  | none, b => b
  | some a, none => some a
  | some a, some b =>
    match a.version.compare b.version with
    | .lt => some a
    | .eq => some ⟨a.version, a.inclusive && b.inclusive⟩
    | .gt => some b

/-- The bounds leave no room: they cross, or meet where one of them is exclusive. -/
def crossed : Option Bound → Option Bound → Bool
  | some l, some u =>
    match l.version.compare u.version with
    | .lt => false
    | .eq => !(l.inclusive && u.inclusive)
    | .gt => true
  | _, _ => false

/-- Same version up to precedence, let in or kept out alike. -/
def equiv (a b : Bound) : Bool := a.version.equiv b.version && a.inclusive == b.inclusive

def optionEquiv : Option Bound → Option Bound → Bool
  | none, none => true
  | some a, some b => a.equiv b
  | _, _ => false

end Bound

structure Constraint where
  lower : Option Bound
  upper : Option Bound
  uncrossed : Bound.crossed lower upper = false
  deriving DecidableEq

namespace Constraint

/-- The range between two bounds, if they leave room. -/
def ofBounds? (lower upper : Option Bound) : Option Constraint :=
  if h : Bound.crossed lower upper = false then some ⟨lower, upper, h⟩ else none

/-- The range between two versions. What is said about an absent version does not matter. -/
def ofParts (lower upper : Option Version) (lowerInclusive upperInclusive : Bool) :
    Except ReadError Constraint :=
  match ofBounds? (lower.map (⟨·, lowerInclusive⟩)) (upper.map (⟨·, upperInclusive⟩)) with
  | none => .error .crossedBounds
  | some c => .ok c

def any : Constraint := ⟨none, none, rfl⟩

instance : Inhabited Constraint := ⟨any⟩

/-- The versions of the precedence of `v`. -/
def exactly (v : Version) : Constraint :=
  ⟨some ⟨v, true⟩, some ⟨v, true⟩, by simp [Bound.crossed, Version.compare_self]⟩

/-- `v` lies in the range. -/
def contains (c : Constraint) (v : Version) : Bool :=
  c.lower.all (·.admitsAbove v) && c.upper.all (·.admitsBelow v)

def intersect (a b : Constraint) : Option Constraint :=
  ofBounds? (Bound.tighterLower a.lower b.lower) (Bound.tighterUpper a.upper b.upper)

def equiv (a b : Constraint) : Bool :=
  Bound.optionEquiv a.lower b.lower && Bound.optionEquiv a.upper b.upper

theorem bounds_of_ofBounds? {lower upper : Option Bound} {c : Constraint}
    (h : ofBounds? lower upper = some c) : c.lower = lower ∧ c.upper = upper := by
  simp only [ofBounds?] at h
  split at h
  · cases h
    exact ⟨rfl, rfl⟩
  · cases h

theorem ofBounds?_eq_none_iff {lower upper : Option Bound} :
    ofBounds? lower upper = none ↔ Bound.crossed lower upper = true := by
  simp only [ofBounds?]
  split
  · rename_i h
    simp [h]
  · rename_i h
    simpa using h

theorem ofBounds?_self (c : Constraint) : ofBounds? c.lower c.upper = some c := by
  simp [ofBounds?, c.uncrossed]

end Constraint
end PackageResolution
