import Mathlib.Data.List.Forall2
import PackageResolution.Proofs.CandidateOrder

/-!
# PackageResolution.Proofs.Rearrangement

Catalogs that list the same releases in a different order. Candidates are sorted, and where all
releases of a name have different texts the sorted order is the only one, so it does not matter how
the repository lists them.

* `Rearranged`: the same elements up to a relation, in whatever order.
* `Concur`: two results that are both failures or both successes, up to relations.
* `Package.Alike`: releases that differ at most in the order of their dependencies.
* `stableSort_eq_of_perm`, `forall₂_stableSort`: what sorting makes of rearranged lists.
* `Catalog.Alike`, `Catalog.findCandidates_alike`: rearranged catalogs offer the same candidates,
  and in the same order.
-/

namespace PackageResolution

/-- `l'` is `l` in some order, with related elements. -/
def Rearranged {α : Type} (R : α → α → Prop) (l l' : List α) : Prop :=
  ∃ m, l.Perm m ∧ List.Forall₂ R m l'

/-- Both refused, for related reasons, or both granted, with related values. -/
inductive Concur {ε α : Type} (E : ε → ε → Prop) (R : α → α → Prop) :
    Except ε α → Except ε α → Prop where
  | granted {a b : α} : R a b → Concur E R (.ok a) (.ok b)
  | refused {e e' : ε} : E e e' → Concur E R (.error e) (.error e')

/-! ## Sorting rearranged lists -/

section Sorting

variable {α : Type} {le : α → α → Bool} {R : α → α → Prop}

/-- Where no two different elements may precede each other there is only one way to sort. -/
theorem stableSort_eq_of_perm [Std.Total fun a b => le a b = true]
    [IsTrans α fun a b => le a b = true] {l m : List α} (h : l.Perm m)
    (antisymm : ∀ a ∈ l, ∀ b ∈ l, le a b = true → le b a = true → a = b) :
    stableSort le l = stableSort le m := by
  have hp : (stableSort le l).Perm (stableSort le m) :=
    (stableSort_perm le l).trans (h.trans (stableSort_perm le m).symm)
  refine hp.eq_of_pairwise ?_ (pairwise_stableSort le l) (pairwise_stableSort le m)
  intro a b ha hb hab hba
  rw [mem_stableSort] at ha hb
  exact antisymm a ha b (h.mem_iff.mpr hb) hab hba

theorem forall₂_place (hle : ∀ a a' b b', R a a' → R b b' → le a b = le a' b') {x x' : α}
    {ys ys' : List α} (hx : R x x') (hys : List.Forall₂ R ys ys') :
    List.Forall₂ R (place le x ys) (place le x' ys') := by
  induction hys with
  | nil => exact .cons hx .nil
  | @cons y y' ys ys' hy hys ih =>
    simp only [place, hle x x' y y' hx hy]
    split
    · exact .cons hx (.cons hy hys)
    · exact .cons hy ih

theorem forall₂_stableSort (hle : ∀ a a' b b', R a a' → R b b' → le a b = le a' b')
    {l l' : List α} (h : List.Forall₂ R l l') :
    List.Forall₂ R (stableSort le l) (stableSort le l') := by
  induction h with
  | nil => exact .nil
  | cons hx _ ih => exact forall₂_place hle hx ih

theorem forall₂_filter {p p' : α → Bool} (hp : ∀ a a', R a a' → p a = p' a') {l l' : List α}
    (h : List.Forall₂ R l l') : List.Forall₂ R (l.filter p) (l'.filter p') := by
  induction h with
  | nil => exact .nil
  | @cons a a' l l' ha _ ih =>
    rw [List.filter_cons, List.filter_cons, hp a a' ha]
    split
    · exact .cons ha ih
    · exact ih

end Sorting

/-! ## Releases -/

namespace Package

/-- The same release, but for the order of its dependencies. That is the same too if `fixed`. -/
structure Alike (fixed : Prop) (p q : Package) : Prop where
  name : p.name = q.name
  version : p.version = q.version
  platform : p.platform = q.platform
  dependencies : p.dependencies.entries.Perm q.dependencies.entries
  order : fixed → p.dependencies = q.dependencies

namespace Alike

variable {fixed : Prop} {p q : Package}

theorem refl (p : Package) : p.Alike fixed p := ⟨rfl, rfl, rfl, .refl _, fun _ => rfl⟩

theorem eq (h : p.Alike fixed q) (hf : fixed) : p = q := by
  obtain ⟨n, v, d, f⟩ := p
  obtain ⟨n', v', d', f'⟩ := q
  obtain ⟨rfl, rfl, rfl, _, hd⟩ := h
  cases hd hf
  rfl

theorem supports (h : p.Alike fixed q) (platform : Option Version) :
    p.supports platform = q.supports platform := by
  simp only [Package.supports, h.platform]

end Alike

/-- Releases with different texts cannot both be preferred to each other. -/
theorem eq_of_preferred {l : List Package} (hl : (l.map fun p => p.version.spelled).Nodup)
    {a b : Package} (ha : a ∈ l) (hb : b ∈ l) (hab : a.preferred b = true)
    (hba : b.preferred a = true) : a = b :=
  List.inj_on_of_nodup_map hl ha hb (tied_iff.mp (tied_iff_preferred.mpr ⟨hba, hab⟩)).2

/-- The texts of the versions that have one. -/
def texts (ps : List Package) : List String := ps.filterMap fun p => p.version.text.toOption

theorem nodup_spelled {ps : List Package} (h : (texts ps).Nodup)
    (hp : ∀ p ∈ ps, p.version.Printable) : (ps.map fun p => p.version.spelled).Nodup := by
  have heq : texts ps = ps.map fun p => p.version.spelled := by
    rw [texts, ← List.filterMap_eq_map]
    refine List.filterMap_congr fun p hmem => ?_
    rw [Version.text_of_printable (hp p hmem)]
    rfl
  exact heq ▸ h

end Package

/-! ## Catalogs -/

/-- No two releases under one name have the same text of their versions. -/
def Repository.TextsDistinct (r : Repository) : Prop :=
  ∀ n, (Package.texts (r.lookup n)).Nodup

namespace Catalog

/-- The same platform and, under every name, the same releases in whatever order. -/
structure Alike (fixed : Prop) (g g' : Catalog) : Prop where
  platform : g.platform = g'.platform
  releases : ∀ n, Rearranged (Package.Alike fixed) (g.repository.lookup n) (g'.repository.lookup n)

/-- The names may come in any order, and so may the releases under each of them. -/
theorem alike_of_entries {fixed : Prop} {g g' : Catalog} (hp : g.platform = g'.platform)
    (h : Rearranged (fun e e' => e.1 = e'.1 ∧ Rearranged (Package.Alike fixed) e.2 e'.2)
      g.repository.releases.entries g'.repository.releases.entries) : g.Alike fixed g' := by
  refine ⟨hp, ?_⟩
  intro n
  obtain ⟨m, hperm, hm⟩ := h
  unfold Repository.lookup OrderedMap.get?
  rw [OrderedMap.find?_eq_of_perm hperm g.repository.releases.nodup]
  generalize g'.repository.releases.entries = es at hm
  clear hperm
  induction hm with
  | nil => exact ⟨[], .refl _, .nil⟩
  | @cons e e' m es he _ ih =>
    simp only [OrderedMap.find?, he.1]
    split
    · exact he.2
    · exact ih

/-- Where all texts are different, the order in which releases are listed does not matter. -/
theorem bestFirst_eq_of_perm {ps qs : List Package} (h : ps.Perm qs)
    (hd : (Package.texts ps).Nodup) : bestFirst ps = bestFirst qs := by
  by_cases hp : ∀ p ∈ ps, p.version.Printable
  · have hq : ∀ q ∈ qs, q.version.Printable := fun q hq => hp q (h.mem_iff.mpr hq)
    rw [bestFirst_eq_ok_iff.mpr ⟨hp, rfl⟩, bestFirst_eq_ok_iff.mpr ⟨hq, rfl⟩]
    refine congrArg _ (stableSort_eq_of_perm h ?_)
    intro a ha b hb
    exact Package.eq_of_preferred (Package.nodup_spelled hd hp) ha hb
  · push Not at hp
    obtain ⟨p, hmem, hn⟩ := hp
    have hq : bestFirst qs = .error .tooLong :=
      bestFirst_eq_error_iff.mpr ⟨p, h.mem_iff.mp hmem, hn⟩
    rw [hq, bestFirst_eq_error_iff.mpr ⟨p, hmem, hn⟩]

section Related

variable {R : Package → Package → Prop} (hR : ∀ p q, R p q → p.version = q.version)
  {ps qs : List Package}
include hR

theorem withTexts_related (h : List.Forall₂ R ps qs) :
    Concur (· = ·) (List.Forall₂ fun a b => R a.1 b.1 ∧ a.2 = b.2) (withTexts ps)
      (withTexts qs) := by
  induction h with
  | nil => exact .granted .nil
  | @cons p q ps qs hpq _ ih =>
    unfold withTexts
    rw [hR p q hpq]
    cases q.version.text with
    | error e => exact .refused rfl
    | ok t =>
      dsimp only
      generalize withTexts ps = x, withTexts qs = y at ih
      cases ih with
      | refused he => exact .refused he
      | granted hrest => exact .granted (.cons ⟨hpq, rfl⟩ hrest)

/-- Releases of the same versions, in the same order, are put in the same order. -/
theorem bestFirst_related (h : List.Forall₂ R ps qs) :
    Concur (· = ·) (List.Forall₂ R) (bestFirst ps) (bestFirst qs) := by
  have htexts := withTexts_related hR h
  unfold bestFirst
  generalize withTexts ps = x, withTexts qs = y at htexts
  cases htexts with
  | refused he => exact .refused he
  | granted hkeyed =>
    refine .granted ?_
    rw [List.forall₂_map_left_iff, List.forall₂_map_right_iff]
    refine (forall₂_stableSort ?_ hkeyed).imp fun _ _ h => h.1
    intro a a' b b' ha hb
    simp only [preferred, hR _ _ ha.1, hR _ _ hb.1, ha.2, hb.2]

end Related

theorem findCandidates_alike {fixed : Prop} {g g' : Catalog} (h : g.Alike fixed g')
    (hd : g.repository.TextsDistinct) (n : String) (c : Constraint) :
    Concur (· = ·) (List.Forall₂ (Package.Alike fixed)) (g.findCandidates n c)
      (g'.findCandidates n c) := by
  obtain ⟨m, hperm, hm⟩ := h.releases n
  have hadmits : ∀ p q, p.Alike fixed q → g.admits c p = g'.admits c q := by
    intro p q hpq
    simp only [admits, hpq.version, hpq.supports, h.platform]
  have hsort : g.findCandidates n c = bestFirst (m.filter (g.admits c)) :=
    bestFirst_eq_of_perm (hperm.filter _) ((List.filter_sublist.filterMap _).nodup (hd n))
  rw [hsort]
  exact bestFirst_related (fun _ _ hpq => hpq.version) (forall₂_filter hadmits hm)

end Catalog
end PackageResolution
