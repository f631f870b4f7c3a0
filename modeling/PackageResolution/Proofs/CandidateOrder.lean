import Mathlib.Algebra.Group.Nat.Defs
import Mathlib.Data.List.Sort
import PackageResolution.Catalog

/-!
# PackageResolution.Proofs.CandidateOrder

The order in which the releases of a name are tried. Sorting is stable: releases that the order does
not tell apart stay as the repository lists them.

* `pairwise_stableSort`, `filter_stableSort`: a sorted list is in order, and a class of elements
  that may all precede each other is left as it was.
* `Catalog.candidates`: the candidates without regard to whether all their versions have a text.
  `Catalog.findCandidates_eq_ok_iff` says that they are found if all have.
* `Package.Precedes`: `p` is tried before `q`; newest first, then by text, then as listed.
* `Catalog.precedes_of_findCandidates`: that is how the candidates stand.
-/

namespace PackageResolution

section Stability

variable {α : Type} (le : α → α → Bool)

theorem place_eq_orderedInsert (x : α) (ys : List α) :
    place le x ys = ys.orderedInsert (fun a b => le a b = true) x := by
  induction ys with
  | nil => rfl
  | cons y ys ih => rw [place, List.orderedInsert_cons, ih]

theorem stableSort_eq_insertionSort (xs : List α) :
    stableSort le xs = xs.insertionSort fun a b => le a b = true := by
  induction xs with
  | nil => rfl
  | cons x xs ih => rw [stableSort, List.insertionSort_cons, place_eq_orderedInsert, ih]

theorem pairwise_stableSort [Std.Total fun a b => le a b = true]
    [IsTrans α fun a b => le a b = true] (xs : List α) :
    (stableSort le xs).Pairwise fun a b => le a b = true := by
  rw [stableSort_eq_insertionSort]
  exact List.pairwise_insertionSort _ xs

/-- Sorting moves no two members of a class in which each may precede each. -/
theorem filter_stableSort {p : α → Bool} (h : ∀ a b, p a = true → p b = true → le a b = true)
    (xs : List α) : (stableSort le xs).filter p = xs.filter p := by
  have hp : (xs.filter p).Pairwise fun a b => le a b = true :=
    List.pairwise_of_forall_mem_list fun a ha b hb =>
      h a b (List.mem_filter.mp ha).2 (List.mem_filter.mp hb).2
  have hs : (xs.filter p).Sublist (stableSort le xs) := by
    rw [stableSort_eq_insertionSort]
    exact List.sublist_insertionSort hp List.filter_sublist
  have hf : (xs.filter p).Sublist ((stableSort le xs).filter p) := by
    have := hs.filter p
    rwa [List.filter_filter, List.filter_congr fun x _ => Bool.and_self (p x)] at this
  exact (hf.eq_of_length ((stableSort_perm le xs).filter p).length_eq.symm).symm

theorem stableSort_map {β : Type} (f : β → α) (xs : List β) :
    stableSort le (xs.map f) = (stableSort (fun a b => le (f a) (f b)) xs).map f := by
  rw [stableSort_eq_insertionSort, stableSort_eq_insertionSort]
  exact (List.map_insertionSort _ _ f xs fun _ _ _ _ => Iff.rfl).symm

end Stability

section FirstPlace

variable {α : Type}

/-- What stands in front of every `q` in a part of a list does so in the whole list. -/
theorem split_of_filter {f : α → Bool} {xs pre post : List α} {p q : α}
    (h : xs.filter f = pre ++ p :: post) (hq : f q = true) (hpre : q ∉ pre) :
    ∃ pre' post', xs = pre' ++ p :: post' ∧ q ∉ pre' := by
  obtain ⟨l₁, l₂, rfl, h₁, h₂⟩ := List.filter_eq_append_iff.mp h
  obtain ⟨m₁, m₂, rfl, hm, _, _⟩ := List.filter_eq_cons_iff.mp h₂
  refine ⟨l₁ ++ m₁, m₂, (List.append_assoc ..).symm, ?_⟩
  rw [List.mem_append]
  rintro (hl | hm')
  · exact hpre (h₁ ▸ List.mem_filter.mpr ⟨hl, hq⟩)
  · exact absurd hq (hm q hm')

theorem idxOf_lt_of_split [DecidableEq α] {pre post : List α} {p q : α} (hpre : q ∉ pre)
    (hne : q ≠ p) :
    (pre ++ p :: post).idxOf p < (pre ++ p :: post).idxOf q := by
  induction pre with
  | nil => simp [Ne.symm hne]
  | cons x pre ih =>
    rw [List.mem_cons, not_or] at hpre
    rw [List.cons_append, List.idxOf_cons_ne _ (Ne.symm hpre.1)]
    by_cases hx : x = p
    · rw [hx, List.idxOf_cons_self]; exact Nat.succ_pos _
    · rw [List.idxOf_cons_ne _ hx]; exact Nat.succ_lt_succ (ih hpre.2)

end FirstPlace

namespace Package

/-- `a` may be tried before `b`, where the texts of their versions are taken for granted. -/
def preferred (a b : Package) : Bool :=
  Catalog.preferred (a, a.version.spelled) (b, b.version.spelled)

theorem preferred_iff {a b : Package} :
    a.preferred b = true ↔ b.version.compare a.version = .lt ∨
      b.version.compare a.version = .eq ∧ b.version.spelled ≤ a.version.spelled := by
  simp only [preferred, Catalog.preferred]
  split
  · rename_i h; simp [h]
  · rename_i h; simp [h]
  · rename_i h; simp [h]

instance : Std.Total fun a b : Package => a.preferred b = true where
  total a b := by
    simp only [preferred_iff]
    cases h : b.version.compare a.version with
    | lt => exact .inl (.inl rfl)
    | gt => exact .inr (.inl (Std.OrientedCmp.lt_of_gt h))
    | eq =>
      rcases String.le_total b.version.spelled a.version.spelled with ht | ht
      · exact .inl (.inr ⟨rfl, ht⟩)
      · exact .inr (.inr ⟨Std.OrientedCmp.eq_symm h, ht⟩)

instance : IsTrans Package fun a b : Package => a.preferred b = true where
  trans a b c := by
    simp only [preferred_iff]
    rintro (hab | ⟨hab, tab⟩) (hbc | ⟨hbc, tbc⟩)
    · exact .inl (Std.TransCmp.lt_trans hbc hab)
    · exact .inl (Std.TransCmp.lt_of_eq_of_lt hbc hab)
    · exact .inl (Std.TransCmp.lt_of_lt_of_eq hbc hab)
    · exact .inr ⟨Std.TransCmp.eq_trans hbc hab, String.le_trans tbc tab⟩

/-- Same precedence and same text: only the repository's order tells the two apart. -/
def tied (p q : Package) : Bool :=
  (q.version.compare p.version).isEq && q.version.spelled == p.version.spelled

theorem tied_iff {p q : Package} :
    p.tied q = true ↔
      q.version.compare p.version = .eq ∧ q.version.spelled = p.version.spelled := by
  simp [tied]

theorem preferred_of_tied {p a b : Package} (ha : p.tied a = true) (hb : p.tied b = true) :
    a.preferred b = true := by
  rw [tied_iff] at ha hb
  refine preferred_iff.mpr (.inr ⟨?_, ?_⟩)
  · exact Std.TransCmp.eq_trans hb.1 (Std.OrientedCmp.eq_symm ha.1)
  · have htext : b.version.spelled = a.version.spelled := hb.2.trans ha.2.symm
    exact htext ▸ String.le_refl _

/-- Releases that may each precede the other are those that only the repository tells apart. -/
theorem tied_iff_preferred {p q : Package} :
    p.tied q = true ↔ p.preferred q = true ∧ q.preferred p = true := by
  have hself : p.tied p = true := tied_iff.mpr ⟨Version.compare_self _, rfl⟩
  constructor
  · intro h
    exact ⟨preferred_of_tied hself h, preferred_of_tied h hself⟩
  · rintro ⟨hpq, hqp⟩
    rw [preferred_iff] at hpq hqp
    rw [Version.compare_swap p.version q.version] at hqp
    cases hc : q.version.compare p.version with
    | lt => simp [hc] at hqp
    | eq =>
      simp only [hc, reduceCtorEq, true_and, false_or] at hpq
      simp only [hc, Ordering.swap, reduceCtorEq, true_and, false_or] at hqp
      exact tied_iff.mpr ⟨hc, String.le_antisymm hpq hqp⟩
    | gt => simp [hc] at hpq

/-- Among the releases of a name, `p` is tried before `q`: it is newer, or of one precedence with a
greater text, or has the same text and is listed first. -/
def Precedes (releases : List Package) (p q : Package) : Prop :=
  q.version.compare p.version = .lt ∨
    q.version.compare p.version = .eq ∧ ∃ t u, p.version.text = .ok t ∧ q.version.text = .ok u ∧
      (u < t ∨ u = t ∧ releases.idxOf p < releases.idxOf q)

end Package

namespace Catalog

open Text

/-! ## What is found -/

/-- The releases of a name that satisfy a constraint, best first, where the texts of their versions
are taken for granted. -/
def candidates (g : Catalog) (name : String) (c : Constraint) : List Package :=
  stableSort Package.preferred ((g.repository.lookup name).filter (g.admits c))

theorem withTexts_of_printable {ps : List Package} (h : ∀ p ∈ ps, p.version.Printable) :
    withTexts ps = .ok (ps.map fun p => (p, p.version.spelled)) := by
  induction ps with
  | nil => rfl
  | cons p ps ih =>
    rw [List.forall_mem_cons] at h
    simp only [withTexts, Version.text_of_printable h.1, ih h.2, List.map_cons]

theorem withTexts_of_not_printable {ps : List Package} {p : Package} (hp : p ∈ ps)
    (h : ¬ p.version.Printable) : withTexts ps = .error .tooLong := by
  induction ps with
  | nil => cases hp
  | cons q qs ih =>
    by_cases hq : q.version.Printable
    · have hmem : p ∈ qs := by
        rcases List.mem_cons.mp hp with rfl | hp
        · exact absurd hq h
        · exact hp
      simp only [withTexts, Version.text_of_printable hq, ih hmem]
    · simp only [withTexts, Version.text_of_not_printable hq]

/-- Releases are put in order where all their versions have a text. -/
theorem bestFirst_eq_ok_iff {ps qs : List Package} :
    bestFirst ps = .ok qs ↔
      (∀ p ∈ ps, p.version.Printable) ∧ stableSort Package.preferred ps = qs := by
  by_cases h : ∀ p ∈ ps, p.version.Printable
  · have hid : (Prod.fst ∘ fun p : Package => (p, p.version.spelled)) = id := rfl
    have hsort : bestFirst ps = .ok (stableSort Package.preferred ps) := by
      simp only [bestFirst, withTexts_of_printable h, stableSort_map, List.map_map, hid,
        List.map_id]
      rfl
    rw [hsort]
    exact ⟨fun he => ⟨h, Except.ok.inj he⟩, fun he => congrArg Except.ok he.2⟩
  · push Not at h
    obtain ⟨p, hp, hn⟩ := h
    simp only [bestFirst, withTexts_of_not_printable hp hn, reduceCtorEq, false_iff, not_and]
    exact fun hall => absurd (hall p hp) hn

theorem bestFirst_eq_error_iff {ps : List Package} {e : PrintError} :
    bestFirst ps = .error e ↔ ∃ p ∈ ps, ¬ p.version.Printable := by
  cases e
  constructor
  · intro he
    by_contra h
    push Not at h
    rw [bestFirst_eq_ok_iff.mpr ⟨h, rfl⟩] at he
    cases he
  · rintro ⟨p, hp, hn⟩
    simp only [bestFirst, withTexts_of_not_printable hp hn]

variable {g : Catalog} {name : String} {c : Constraint}

theorem mem_candidates {p : Package} :
    p ∈ g.candidates name c ↔
      p ∈ g.repository.lookup name ∧ c.contains p.version = true ∧
        p.supports g.platform = true := by
  simp [candidates, mem_stableSort, admits]

theorem findCandidates_eq_ok_iff {ps : List Package} :
    g.findCandidates name c = .ok ps ↔
      (∀ p ∈ g.candidates name c, p.version.Printable) ∧ g.candidates name c = ps := by
  simp only [findCandidates, bestFirst_eq_ok_iff, candidates, mem_stableSort]

theorem findCandidates_eq_error_iff {e : PrintError} :
    g.findCandidates name c = .error e ↔ ∃ p ∈ g.candidates name c, ¬ p.version.Printable := by
  simp only [findCandidates, bestFirst_eq_error_iff, candidates, mem_stableSort]

section Found

variable {ps : List Package} (h : g.findCandidates name c = .ok ps)
include h

theorem candidates_of_found : g.candidates name c = ps := (findCandidates_eq_ok_iff.mp h).2

theorem printable_of_found {p : Package} (hp : p ∈ ps) : p.version.Printable := by
  obtain ⟨hall, rfl⟩ := findCandidates_eq_ok_iff.mp h
  exact hall p hp

theorem mem_of_found {p : Package} :
    p ∈ ps ↔
      p ∈ g.repository.lookup name ∧ c.contains p.version = true ∧
        p.supports g.platform = true := by
  rw [← candidates_of_found h, mem_candidates]

end Found

/-! ## The order of what is found -/

theorem pairwise_candidates :
    (g.candidates name c).Pairwise fun a b => a.preferred b = true :=
  pairwise_stableSort Package.preferred _

theorem filter_tied_candidates (g : Catalog) (name : String) (c : Constraint) (p : Package) :
    (g.candidates name c).filter p.tied =
      ((g.repository.lookup name).filter (g.admits c)).filter p.tied :=
  filter_stableSort Package.preferred (fun _ _ => Package.preferred_of_tied) _

theorem idxOf_lt_of_candidates {p q : Package} {pre post : List Package}
    (h : g.candidates name c = pre ++ p :: post) (hpre : q ∉ pre) (hpost : q ∈ post) (hne : q ≠ p)
    (ht : p.tied q = true) :
    (g.repository.lookup name).idxOf p < (g.repository.lookup name).idxOf q := by
  have hp : p.tied p = true := Package.tied_iff.mpr ⟨Version.compare_self _, rfl⟩
  have hadm : g.admits c q = true := by
    have hq : q ∈ g.candidates name c := by
      rw [h]; exact List.mem_append_right _ (List.mem_cons_of_mem _ hpost)
    obtain ⟨_, hc, hs⟩ := mem_candidates.mp hq
    simp [admits, hc, hs]
  have hf := filter_tied_candidates g name c p
  rw [h, List.filter_append, List.filter_cons_of_pos hp, List.filter_filter] at hf
  obtain ⟨pre', post', hl, hpre'⟩ := split_of_filter hf.symm (by rw [ht, hadm]; rfl)
    fun hm => hpre (List.mem_filter.mp hm).1
  rw [hl]
  exact idxOf_lt_of_split hpre' hne

theorem precedes_of_findCandidates {p q : Package} {pre post : List Package}
    (h : g.findCandidates name c = .ok (pre ++ p :: post)) (hpre : q ∉ pre) (hpost : q ∈ post)
    (hne : q ≠ p) : Package.Precedes (g.repository.lookup name) p q := by
  have hc := candidates_of_found h
  have hpw : (pre ++ p :: post).Pairwise fun a b => a.preferred b = true := hc ▸ pairwise_candidates
  have hpq : p.preferred q = true :=
    List.rel_of_pairwise_cons (List.pairwise_append.mp hpw).2.1 hpost
  rcases Package.preferred_iff.mp hpq with hlt | ⟨heq, htext⟩
  · exact .inl hlt
  · have hp : p.version.Printable := printable_of_found h (by simp)
    have hq : q.version.Printable := printable_of_found h (by simp [hpost])
    refine .inr ⟨heq, _, _, Version.text_of_printable hp, Version.text_of_printable hq, ?_⟩
    by_cases hsame : q.version.spelled = p.version.spelled
    · have ht : p.tied q = true := Package.tied_iff.mpr ⟨heq, hsame⟩
      exact .inr ⟨hsame, idxOf_lt_of_candidates hc hpre hpost hne ht⟩
    · exact .inl (String.not_le.mp fun hle => hsame (String.le_antisymm htext hle))

end Catalog

/-! ## A version without a text -/

/-- A version whose first number has one digit too many. -/
def Version.oversized : Version := ⟨10 ^ Text.maxDigits, 0, 0, [], []⟩

theorem Version.text_oversized : oversized.text = .error .tooLong := by
  refine text_of_not_printable fun h => ?_
  have hfits := (printable_iff.mp h).1
  rw [Nat.toString_eq_ofList_toDigits, String.length_ofList,
    Nat.length_toDigits_le_iff (by decide) (by decide)] at hfits
  exact Nat.lt_irrefl _ hfits

def Package.oversized : Package := ⟨"a", .oversized, .empty, none⟩

def Catalog.oversized : Catalog := ⟨.ofPackages [.oversized], none⟩

theorem Catalog.findCandidates_oversized :
    oversized.findCandidates "a" .any = .error .tooLong := by
  have hlisted : oversized.repository.lookup "a" = [.oversized] := rfl
  have hcandidate : Package.oversized ∈ oversized.candidates "a" .any :=
    mem_candidates.mpr ⟨hlisted ▸ List.mem_singleton_self _, rfl, rfl⟩
  exact findCandidates_eq_error_iff.mpr
    ⟨_, hcandidate, Version.text_eq_error_iff.mp Version.text_oversized⟩

end PackageResolution
