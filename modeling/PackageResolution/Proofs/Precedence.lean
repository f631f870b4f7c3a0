import Mathlib.Tactic.Common
import PackageResolution.Value

/-!
# PackageResolution.Proofs.Precedence

The order of versions. The reference rules of semantic versioning are written down as relations, and
`Version.compare` is proved to decide them; it is a total order up to build metadata.

* `Identifier.Precedes`, `Identifier.Ties`: the rules for two identifiers. `Identifier.ListPrecedes`
  carries them to lists, `Version.Precedes` to versions.
* `SortKey`: numbers, texts and rows of these, with a comparison that fails where a number meets a
  text. `Version.compare?_sortKey`: on the keys of versions it never does.
* `Version.precedence_total_order`: all laws of the order together.
-/

namespace PackageResolution

open Text

/-! ## Identifiers -/

namespace Identifier

variable {a b : Identifier}

/-- There are characters, and all of them are digits. -/
def IsNumber (i : Identifier) : Prop := i.text.toList ≠ [] ∧ i.text.toList.all isDigit = true

/-- The number that the characters denote, if they are digits. -/
def value (i : Identifier) : Nat := valueOf i.text.toList

/-- Numbers go by their value and come before words, words go by code point. -/
inductive Precedes : Identifier → Identifier → Prop where
  | value {a b : Identifier} : a.IsNumber → b.IsNumber → a.value < b.value → Precedes a b
  | kind {a b : Identifier} : a.IsNumber → ¬ b.IsNumber → Precedes a b
  | text {a b : Identifier} : ¬ a.IsNumber → ¬ b.IsNumber → a.text < b.text → Precedes a b

/-- Numbers of one value, or one word. -/
inductive Ties : Identifier → Identifier → Prop where
  | value {a b : Identifier} : a.IsNumber → b.IsNumber → a.value = b.value → Ties a b
  | text {a b : Identifier} : ¬ a.IsNumber → ¬ b.IsNumber → a.text = b.text → Ties a b

/-- The first pair that does not tie decides; a list that ends before that comes first. -/
inductive ListPrecedes : List Identifier → List Identifier → Prop where
  | ended (b : Identifier) (bs : List Identifier) : ListPrecedes [] (b :: bs)
  | differ {a b : Identifier} (as bs : List Identifier) :
      a.Precedes b → ListPrecedes (a :: as) (b :: bs)
  | tied {a b : Identifier} {as bs : List Identifier} :
      a.Ties b → ListPrecedes as bs → ListPrecedes (a :: as) (b :: bs)

theorem rank_of_isNumber (h : a.IsNumber) : a.rank = .number a.value := by
  have hr := a.rank_eq
  unfold IsNumber at h
  rw [Rank.ofText, if_pos h] at hr
  split at hr
  · cases hr
  · rename_i n hn
    rw [eq_valueOf_of_readNumeral hn] at hr
    exact (Except.ok.inj hr).symm

theorem rank_of_not_isNumber (h : ¬ a.IsNumber) : a.rank = .word a.text := by
  have hr := a.rank_eq
  unfold IsNumber at h
  rw [Rank.ofText, if_neg h] at hr
  exact (Except.ok.inj hr).symm

theorem compare_rank_lt_iff (a b : Identifier) :
    compare a.rank b.rank = .lt ↔ a.Precedes b := by
  by_cases ha : a.IsNumber <;> by_cases hb : b.IsNumber
  · rw [rank_of_isNumber ha, rank_of_isNumber hb]
    show compare a.value b.value = .lt ↔ _
    rw [Nat.compare_eq_lt]
    refine ⟨Precedes.value ha hb, ?_⟩
    intro h
    cases h with
    | value _ _ hv => exact hv
    | kind _ hn => exact absurd hb hn
    | text hn _ _ => exact absurd ha hn
  · rw [rank_of_isNumber ha, rank_of_not_isNumber hb]
    exact ⟨fun _ => .kind ha hb, fun _ => rfl⟩
  · rw [rank_of_not_isNumber ha, rank_of_isNumber hb]
    show Ordering.gt = .lt ↔ _
    refine ⟨nofun, ?_⟩
    intro h
    cases h with
    | value hn _ _ => exact absurd hn ha
    | kind hn _ => exact absurd hn ha
    | text _ hn _ => exact absurd hb hn
  · rw [rank_of_not_isNumber ha, rank_of_not_isNumber hb]
    show compare a.text b.text = .lt ↔ _
    refine ⟨fun h => .text ha hb (compareOfLessAndEq_eq_lt.mp h), ?_⟩
    intro h
    cases h with
    | value hn _ _ => exact absurd hn ha
    | kind hn _ => exact absurd hn ha
    | text _ _ ht => exact compareOfLessAndEq_eq_lt.mpr ht

theorem compare_rank_eq_iff (a b : Identifier) : compare a.rank b.rank = .eq ↔ a.Ties b := by
  rw [Std.compare_eq_iff_eq]
  by_cases ha : a.IsNumber <;> by_cases hb : b.IsNumber
  · rw [rank_of_isNumber ha, rank_of_isNumber hb, Rank.number.injEq]
    refine ⟨Ties.value ha hb, ?_⟩
    intro h
    cases h with
    | value _ _ hv => exact hv
    | text hn _ _ => exact absurd ha hn
  · rw [rank_of_isNumber ha, rank_of_not_isNumber hb]
    refine ⟨nofun, ?_⟩
    intro h
    cases h with
    | value _ hn _ => exact absurd hn hb
    | text hn _ _ => exact absurd ha hn
  · rw [rank_of_not_isNumber ha, rank_of_isNumber hb]
    refine ⟨nofun, ?_⟩
    intro h
    cases h with
    | value hn _ _ => exact absurd hn ha
    | text _ hn _ => exact absurd hb hn
  · rw [rank_of_not_isNumber ha, rank_of_not_isNumber hb, Rank.word.injEq]
    refine ⟨Ties.text ha hb, ?_⟩
    intro h
    cases h with
    | value hn _ _ => exact absurd hn ha
    | text _ _ ht => exact ht

theorem compare_ranks_lt_iff (as bs : List Identifier) :
    compare (as.map (·.rank)) (bs.map (·.rank)) = .lt ↔ ListPrecedes as bs := by
  induction as generalizing bs with
  | nil =>
    cases bs with
    | nil => exact ⟨nofun, nofun⟩
    | cons b bs => exact ⟨fun _ => .ended b bs, fun _ => rfl⟩
  | cons a as ih =>
    cases bs with
    | nil => exact ⟨nofun, nofun⟩
    | cons b bs =>
      rw [List.map_cons, List.map_cons, List.compare_cons_cons, Ordering.then_eq_lt,
        compare_rank_lt_iff, compare_rank_eq_iff, ih]
      constructor
      · rintro (h | ⟨ht, h⟩)
        · exact .differ as bs h
        · exact .tied ht h
      · intro h
        cases h with
        | differ _ _ h => exact .inl h
        | tied ht h => exact .inr ⟨ht, h⟩

theorem ofText_text (i : Identifier) : ofText i.text = .ok i := by
  unfold ofText
  split
  · rename_i e he
    rw [i.rank_eq] at he
    cases he
  · rename_i r hr
    exact congrArg Except.ok (Identifier.ext rfl)

theorem ofTexts_map_text (is : List Identifier) : ofTexts (is.map (·.text)) = .ok is := by
  induction is with
  | nil => rfl
  | cons i is ih => simp only [List.map_cons, ofTexts, ofText_text, ih]

end Identifier

/-! ## Keys -/

/-- What versions are compared by: numbers, texts, and rows of keys. -/
inductive SortKey where
  | number (n : Nat)
  | text (s : String)
  | row (keys : List SortKey)

namespace SortKey

mutual

/-- The order of two keys of one kind. Keys of different kinds have none. -/
def compare? : SortKey → SortKey → Option Ordering
  | .number a, .number b => some (compare a b)
  | .text a, .text b => some (compare a b)
  | .row as, .row bs => compareRows? as bs
  | _, _ => none

/-- The first two keys that differ decide, and a row that ends before that comes first. -/
def compareRows? : List SortKey → List SortKey → Option Ordering
  | [], [] => some .eq
  | [], _ :: _ => some .lt
  | _ :: _, [] => some .gt
  | a :: as, b :: bs =>
    match compare? a b with
    | some .eq => compareRows? as bs
    | some o => some o
    | none => none

end

theorem compareRows?_cons {a b : SortKey} {as bs : List SortKey} {o o' : Ordering}
    (h : compare? a b = some o) (h' : compareRows? as bs = some o') :
    compareRows? (a :: as) (b :: bs) = some (o.then o') := by
  rw [compareRows?, h]
  cases o with
  | lt => rfl
  | eq => exact h'
  | gt => rfl

end SortKey

open SortKey

/-- Words are told from numbers by the digit in front. -/
def Rank.sortKey : Rank → SortKey
  | .number n => .row [.number 0, .number n]
  | .word t => .row [.number 1, .text t]

theorem Rank.compare?_sortKey (r s : Rank) : r.sortKey.compare? s.sortKey = some (compare r s) := by
  cases r with
  | number m =>
    cases s with
    | number n =>
      have h := compareRows?_cons (a := .number m) (b := .number n) rfl
        (show compareRows? [] [] = some .eq from rfl)
      rw [Ordering.then_eq] at h
      exact h
    | word t => rfl
  | word t =>
    cases s with
    | number n => rfl
    | word u =>
      have h := compareRows?_cons (a := .text t) (b := .text u) rfl
        (show compareRows? [] [] = some .eq from rfl)
      rw [Ordering.then_eq] at h
      exact h

theorem Rank.compareRows?_sortKey (rs ss : List Rank) :
    compareRows? (rs.map sortKey) (ss.map sortKey) = some (compare rs ss) := by
  induction rs generalizing ss with
  | nil => cases ss <;> rfl
  | cons r rs ih =>
    cases ss with
    | nil => rfl
    | cons s ss =>
      rw [List.compare_cons_cons]
      exact compareRows?_cons (compare?_sortKey r s) (ih ss)

/-! ## Versions -/

namespace Version

variable {a b : Version}

/-- The triple decides; with the same triple a pre-release comes before its release, and of two
pre-releases the one whose identifiers come first. -/
inductive Precedes (a b : Version) : Prop where
  | major : a.major < b.major → Precedes a b
  | minor : a.major = b.major → a.minor < b.minor → Precedes a b
  | patch : a.major = b.major → a.minor = b.minor → a.patch < b.patch → Precedes a b
  | release : a.major = b.major → a.minor = b.minor → a.patch = b.patch →
      a.prerelease ≠ [] → b.prerelease = [] → Precedes a b
  | identifiers : a.major = b.major → a.minor = b.minor → a.patch = b.patch →
      a.prerelease ≠ [] → b.prerelease ≠ [] →
      Identifier.ListPrecedes a.prerelease b.prerelease → Precedes a b

/-- A comparison of two versions by `r` is answered with yes. -/
def Related (r : Inequality) (a b : Version) : Prop :=
  Value.compareBy r (.version a) (.version b) = .ok true

/-- The triple, a zero for a pre-release and a one for a release, and the identifiers. -/
def sortKey (v : Version) : SortKey :=
  .row [.number v.major, .number v.minor, .number v.patch,
    .number (if v.prerelease.isEmpty then 1 else 0), .row (v.ranks.map Rank.sortKey)]

theorem compare_lt_iff (a b : Version) : a.compare b = .lt ↔ a.Precedes b := by
  have hranks := Identifier.compare_ranks_lt_iff a.prerelease b.prerelease
  rw [compare_eq]
  simp only [Ordering.then_eq_lt, Nat.compare_eq_lt, Nat.compare_eq_eq]
  constructor
  · rintro (h | ⟨h₁, h | ⟨h₂, h | ⟨h₃, h | ⟨h₄, h⟩⟩⟩⟩)
    · exact .major h
    · exact .minor h₁ h
    · exact .patch h₁ h₂ h
    · cases ha : a.prerelease <;> cases hb : b.prerelease <;> rw [ha, hb] at h
      · cases h
      · cases h
      · exact .release h₁ h₂ h₃ (by rw [ha]; nofun) hb
      · cases h
    · cases ha : a.prerelease <;> cases hb : b.prerelease
      · simp [ranks, ha, hb] at h
      · simp [ha, hb] at h₄
      · simp [ha, hb] at h₄
      · exact .identifiers h₁ h₂ h₃ (by rw [ha]; nofun) (by rw [hb]; nofun) (hranks.mp h)
  · intro h
    cases h with
    | major h => exact .inl h
    | minor h₁ h => exact .inr ⟨h₁, .inl h⟩
    | patch h₁ h₂ h => exact .inr ⟨h₁, .inr ⟨h₂, .inl h⟩⟩
    | release h₁ h₂ h₃ ha hb =>
      refine .inr ⟨h₁, .inr ⟨h₂, .inr ⟨h₃, .inl ?_⟩⟩⟩
      rw [List.isEmpty_eq_false_iff.mpr ha, hb]
      rfl
    | identifiers h₁ h₂ h₃ ha hb h =>
      refine .inr ⟨h₁, .inr ⟨h₂, .inr ⟨h₃, .inr ⟨?_, hranks.mpr h⟩⟩⟩⟩
      rw [List.isEmpty_eq_false_iff.mpr ha, List.isEmpty_eq_false_iff.mpr hb]
      rfl

theorem compare_flag (p q : Bool) :
    compare (if p then 1 else 0) (if q then 1 else 0) = compare p q := by
  cases p <;> cases q <;> rfl

theorem compare?_sortKey (a b : Version) :
    a.sortKey.compare? b.sortKey = some (a.compare b) := by
  have hrow : compare? (.row (a.ranks.map Rank.sortKey)) (.row (b.ranks.map Rank.sortKey)) =
      some (compare a.ranks b.ranks) := Rank.compareRows?_sortKey a.ranks b.ranks
  have hlast := compareRows?_cons hrow (show compareRows? [] [] = some .eq from rfl)
  rw [Ordering.then_eq] at hlast
  rw [compare_eq, ← compare_flag]
  exact compareRows?_cons rfl (compareRows?_cons rfl (compareRows?_cons rfl
    (compareRows?_cons rfl hlast)))

theorem equiv_iff_sortKey (a b : Version) : a.equiv b = true ↔ a.sortKey = b.sortKey := by
  rw [equiv_iff]
  constructor
  · intro h
    rw [compare_eq] at h
    simp only [Ordering.then_eq_eq, Std.compare_eq_iff_eq] at h
    obtain ⟨h₁, h₂, h₃, h₄, h₅⟩ := h
    simp only [sortKey, h₁, h₂, h₃, h₄, h₅]
  · intro h
    have hc := compare?_sortKey a b
    rw [h, compare?_sortKey, compare_self] at hc
    exact (Option.some.inj hc).symm

/-- Every version is what the constructor makes of its parts. -/
theorem ofParts_self (v : Version) :
    ofParts v.major v.minor v.patch (v.prerelease.map (·.text)) v.build = .ok v := by
  have hn : ¬ ((v.major : Int) < 0 ∨ (v.minor : Int) < 0 ∨ (v.patch : Int) < 0) := by omega
  simp only [ofParts, if_neg hn, Identifier.ofTexts_map_text, Int.toNat_natCast]

theorem related_iff (r : Inequality) (a b : Version) :
    Related r a b ↔ r.accepts (a.compare b) = true := by
  simp [Related, Value.compareBy]

theorem related_less_iff (a b : Version) : Related .less a b ↔ a.compare b = .lt := by
  rw [related_iff, Inequality.accepts, Ordering.isLT_iff_eq_lt]

theorem related_greater_iff (a b : Version) : Related .greater a b ↔ a.compare b = .gt := by
  rw [related_iff, Inequality.accepts, Ordering.isGT_iff_eq_gt]

theorem related_trichotomy (a b : Version) :
    (Related .less a b ∧ a.equiv b = false ∧ ¬ Related .greater a b) ∨
      (¬ Related .less a b ∧ a.equiv b = true ∧ ¬ Related .greater a b) ∨
      (¬ Related .less a b ∧ a.equiv b = false ∧ Related .greater a b) := by
  rw [related_less_iff, related_greater_iff, equiv]
  cases a.compare b with
  | lt => exact .inl ⟨rfl, rfl, by decide⟩
  | eq => exact .inr (.inl ⟨by decide, rfl, by decide⟩)
  | gt => exact .inr (.inr ⟨by decide, rfl, rfl⟩)

theorem equivalence_equiv : Equivalence fun a b : Version => a.equiv b = true where
  refl v := equiv_iff.mpr (compare_self v)
  symm h := equiv_iff.mpr (Std.OrientedCmp.eq_symm (equiv_iff.mp h))
  trans h h' := equiv_iff.mpr (Std.TransCmp.eq_trans (equiv_iff.mp h) (equiv_iff.mp h'))

/-- `Related` is a total order of versions up to `equiv`, derived from precedence by the reference
rules. Build metadata takes no part in it, and no number is ever compared with a text. -/
theorem precedence_total_order (a b c : Version) :
    ofParts a.major a.minor a.patch (a.prerelease.map (·.text)) a.build = .ok a ∧
    ((Related .less a b ∧ a.equiv b = false ∧ ¬ Related .greater a b) ∨
      (¬ Related .less a b ∧ a.equiv b = true ∧ ¬ Related .greater a b) ∨
      (¬ Related .less a b ∧ a.equiv b = false ∧ Related .greater a b)) ∧
    (Related .less a b → Related .less b c → Related .less a c) ∧
    Equivalence (fun v w : Version => v.equiv w = true) ∧
    (a.equiv b = true →
      (Related .less a c ↔ Related .less b c) ∧ (Related .less c a ↔ Related .less c b)) ∧
    (Related .lessOrEqual a b ↔ Related .less a b ∨ a.equiv b = true) ∧
    (Related .greaterOrEqual a b ↔ Related .greater a b ∨ a.equiv b = true) ∧
    (Related .greater a b ↔ Related .less b a) ∧
    (a.equiv b = false ↔ Related .less a b ∨ Related .less b a) ∧
    (Related .less a b ↔ a.Precedes b) ∧
    (∀ build build', { a with build := build }.compare { b with build := build' } = a.compare b) ∧
    a.sortKey.compare? b.sortKey = some (a.compare b) ∧
    (a.equiv b = true ↔ a.sortKey = b.sortKey) := by
  have hswap : a.compare b = .gt ↔ b.compare a = .lt := Std.OrientedCmp.gt_iff_lt
  refine ⟨ofParts_self a, related_trichotomy a b, ?_, equivalence_equiv, ?_, ?_, ?_, ?_, ?_, ?_,
    fun _ _ => rfl, compare?_sortKey a b, equiv_iff_sortKey a b⟩
  · rw [related_less_iff, related_less_iff, related_less_iff]
    exact Std.TransCmp.lt_trans
  · intro h
    rw [equiv_iff] at h
    simp only [related_less_iff, compare_congr_left c h, Std.TransCmp.congr_right h, and_self]
  · rw [related_iff, related_less_iff, equiv_iff]
    exact Ordering.isLE_iff_eq_lt_or_eq_eq
  · rw [related_iff, related_greater_iff, equiv_iff]
    exact Ordering.isGE_iff_eq_gt_or_eq_eq
  · rw [related_greater_iff, related_less_iff, hswap]
  · rw [related_less_iff, related_less_iff, ← hswap, equiv]
    cases a.compare b <;> simp
  · rw [related_less_iff, compare_lt_iff]

/-- Pre-releases with a number and with a word, their release, and the release with other
metadata. -/
theorem candidates_precede_release :
    ∃ a b c d, ofParts 1 0 0 ["2"] [] = .ok a ∧ ofParts 1 0 0 ["rc"] [] = .ok b ∧
      ofParts 1 0 0 [] ["x"] = .ok c ∧ ofParts 1 0 0 [] ["y"] = .ok d ∧
      Related .less a b ∧ Related .less b c ∧ Related .less a c ∧
      c.equiv d = true ∧ (Related .less c a ↔ Related .less d a) := by
  let a : Version := ⟨1, 0, 0, [⟨"2", .number 2, by decide +kernel⟩], []⟩
  let b : Version := ⟨1, 0, 0, [⟨"rc", .word "rc", by decide +kernel⟩], []⟩
  let c : Version := ⟨1, 0, 0, [], ["x"]⟩
  let d : Version := ⟨1, 0, 0, [], ["y"]⟩
  have ha : ofParts 1 0 0 ["2"] [] = .ok a := by decide +kernel
  have hb : ofParts 1 0 0 ["rc"] [] = .ok b := by decide +kernel
  have hab : Related .less a b := (related_less_iff a b).mpr rfl
  have hbc : Related .less b c := (related_less_iff b c).mpr rfl
  have hcd : c.equiv d = true := rfl
  refine ⟨a, b, c, d, ha, hb, rfl, rfl, hab, hbc, ?_, hcd, ?_⟩
  · exact (precedence_total_order a b c).2.2.1 hab hbc
  · exact ((precedence_total_order c d a).2.2.2.2.1 hcd).1

end Version
end PackageResolution
