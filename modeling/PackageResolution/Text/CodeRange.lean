/-!
# PackageResolution.Text.CodeRange

Character classes given as ranges of code points.

* `CodeRange`: the code points from `first` to `last`, both included.
* `inRanges`: membership of a character in a list of ranges.
* `toNat_of_isAlpha`: where the letters of the Latin alphabet lie.
-/

namespace PackageResolution
namespace Text

structure CodeRange where
  first : Nat
  last : Nat
  deriving DecidableEq, Repr

def CodeRange.contains (r : CodeRange) (c : Char) : Bool :=
  r.first ≤ c.toNat && c.toNat ≤ r.last

def inRanges (ranges : List CodeRange) (c : Char) : Bool :=
  ranges.any fun r => r.contains c

theorem inRanges_iff (ranges : List CodeRange) (c : Char) :
    inRanges ranges c = true ↔ ∃ r ∈ ranges, r.first ≤ c.toNat ∧ c.toNat ≤ r.last := by
  simp [inRanges, CodeRange.contains]

/-- The letters of the Latin alphabet have their code points between those of `A` and `z`. -/
theorem toNat_of_isAlpha {c : Char} (h : c.isAlpha = true) : 65 ≤ c.toNat ∧ c.toNat ≤ 122 := by
  rcases (Bool.or_eq_true _ _).mp h with hupper | hlower
  · obtain ⟨h₁, h₂⟩ : 'A' ≤ c ∧ c ≤ 'Z' := of_decide_eq_true hupper
    exact ⟨h₁, Nat.le_trans h₂ (by decide)⟩
  · obtain ⟨h₁, h₂⟩ := (Bool.and_eq_true _ _).mp hlower
    have hfirst : 'a' ≤ c := of_decide_eq_true h₁
    have hlast : c ≤ 'z' := of_decide_eq_true h₂
    exact ⟨Nat.le_trans (by decide) hfirst, hlast⟩

end Text
end PackageResolution
