/-!
# PackageResolution.Sorting

Sorting that keeps the order of elements which the order does not tell apart, and removal of
repetitions.

* `stableSort`: insertion sort by a relation `le`. `stableSort_perm` says that nothing is lost.
* `distinct`: the first element of every class of elements that `same` identifies.
-/

namespace PackageResolution

variable {α : Type}

/-- Puts `x` in front of the first element that it may precede. -/
def place (le : α → α → Bool) (x : α) : List α → List α
  | [] => [x]
  | y :: ys => if le x y then x :: y :: ys else y :: place le x ys

/-- The list in the order of `le`; elements that may precede each other stay as they stood. -/
def stableSort (le : α → α → Bool) : List α → List α
  | [] => []
  | x :: xs => place le x (stableSort le xs)

/-- Keeps an element if it is not the `same` as an earlier one. -/
def distinct (same : α → α → Bool) : List α → List α
  | [] => []
  | x :: xs => x :: (distinct same xs).filter fun y => !same x y

/-- Names in the order of their code points. -/
def sortNames (names : List String) : List String :=
  stableSort (fun a b => decide (a ≤ b)) names

theorem place_perm (le : α → α → Bool) (x : α) (ys : List α) : (place le x ys).Perm (x :: ys) := by
  induction ys with
  | nil => exact List.Perm.refl _
  | cons y ys ih =>
    simp only [place]
    split
    · exact List.Perm.refl _
    · exact (ih.cons y).trans (List.Perm.swap x y ys)

theorem stableSort_perm (le : α → α → Bool) (xs : List α) : (stableSort le xs).Perm xs := by
  induction xs with
  | nil => exact List.Perm.refl _
  | cons x xs ih => exact (place_perm le x _).trans (ih.cons x)

theorem mem_stableSort {le : α → α → Bool} {x : α} {xs : List α} :
    x ∈ stableSort le xs ↔ x ∈ xs :=
  (stableSort_perm le xs).mem_iff

theorem length_stableSort (le : α → α → Bool) (xs : List α) :
    (stableSort le xs).length = xs.length :=
  (stableSort_perm le xs).length_eq

end PackageResolution
