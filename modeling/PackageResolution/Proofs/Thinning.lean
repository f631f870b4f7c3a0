import PackageResolution.Proofs.CandidateOrder

/-!
# PackageResolution.Proofs.Thinning

Catalogs from which releases have been taken away. What is left of a list comes in the same order,
and so does what is left of the sorted list. That a release is still there does not say that it is
still as good as before: where the list has it twice, the copy that comes first has to be kept.

* `Retains`: a part of a list that keeps the first copy of an element.
* `sublist_stableSort`, `Retains.stableSort`: sorting a list and taking elements away can be
  swapped.
* `Catalog.Thinned`: what removal makes of a catalog, and `Catalog.Thinned.findCandidates` of a
  choice.
-/

namespace PackageResolution

/-- The second list is the first one without some of its elements, but with its first `p`. -/
inductive Retains {α : Type} (p : α) : List α → List α → Prop where
  | here {l l' : List α} : l'.Sublist l → Retains p (p :: l) (p :: l')
  | keep {x : α} {l l' : List α} : x ≠ p → Retains p l l' → Retains p (x :: l) (x :: l')
  | drop {x : α} {l l' : List α} : x ≠ p → Retains p l l' → Retains p (x :: l) l'

namespace Retains

variable {α : Type} {p x : α} {l l' : List α}

theorem sublist (h : Retains p l l') : l'.Sublist l := by
  induction h with
  | here hs => exact hs.cons_cons p
  | keep _ _ ih => exact ih.cons_cons _
  | drop _ _ ih => exact ih.cons _

theorem mem (h : Retains p l l') : p ∈ l' := by
  induction h with
  | here _ => exact List.mem_cons_self
  | keep _ _ ih => exact List.mem_cons_of_mem _ ih
  | drop _ _ ih => exact ih

theorem exists_cons (h : Retains p (p :: l) l') : ∃ rest, l' = p :: rest := by
  cases h with
  | here _ => exact ⟨_, rfl⟩
  | keep hp _ => exact absurd rfl hp
  | drop hp _ => exact absurd rfl hp

/-- Without repetitions it is enough that the element is still there. -/
theorem iff_of_nodup (hl : l.Nodup) : Retains p l l' ↔ l'.Sublist l ∧ p ∈ l' := by
  refine ⟨fun h => ⟨h.sublist, h.mem⟩, ?_⟩
  rintro ⟨hs, hp⟩
  induction hs with
  | slnil => cases hp
  | @cons l' l x hs ih =>
    rw [List.nodup_cons] at hl
    refine .drop ?_ (ih hl.2 hp)
    rintro rfl
    exact hl.1 (hs.subset hp)
  | @cons_cons l' l x hs ih =>
    rw [List.nodup_cons] at hl
    rcases List.mem_cons.mp hp with rfl | hp
    · exact .here hs
    · refine .keep ?_ (ih hl.2 hp)
      rintro rfl
      exact hl.1 (hs.subset hp)

theorem filter {f : α → Bool} (hp : f p = true) (h : Retains p l l') :
    Retains p (l.filter f) (l'.filter f) := by
  induction h with
  | here hs =>
    rw [List.filter_cons_of_pos hp, List.filter_cons_of_pos hp]
    exact .here (hs.filter f)
  | @keep x l l' hx _ ih =>
    rw [List.filter_cons, List.filter_cons]
    split
    · exact .keep hx ih
    · exact ih
  | @drop x l l' hx _ ih =>
    rw [List.filter_cons]
    split
    · exact .drop hx ih
    · exact ih

end Retains

/-! ## Sorting what is left -/

section Sorting

variable {α : Type} {le : α → α → Bool} {p x : α} {l l' : List α}

theorem place_of_forall_le (h : ∀ y ∈ l, le x y = true) : place le x l = x :: l := by
  cases l with
  | nil => rfl
  | cons y ys => rw [place, if_pos (h y List.mem_cons_self)]

theorem sublist_place (x : α) (l : List α) : l.Sublist (place le x l) := by
  rw [place_eq_orderedInsert]
  exact List.sublist_orderedInsert x l

theorem Retains.place_left (hx : x ≠ p) (h : Retains p l l') : Retains p (place le x l) l' := by
  induction h with
  | here hs =>
    rw [place]
    split
    · exact .drop hx (.here hs)
    · exact .here (hs.trans (sublist_place x _))
  | keep hy h ih =>
    rw [place]
    split
    · exact .drop hx (.keep hy h)
    · exact .keep hy ih
  | drop hy h ih =>
    rw [place]
    split
    · exact .drop hx (.drop hy h)
    · exact .drop hy ih

section Ordered

variable [IsTrans α fun a b => le a b = true]

/-- An element that may precede the head of a sorted list may precede all of it. -/
theorem place_of_le_head {y : α} (hl : (y :: l).Pairwise fun a b => le a b = true)
    (hs : l'.Sublist (y :: l)) (hxy : le x y = true) : place le x l' = x :: l' := by
  apply place_of_forall_le
  intro z hz
  rcases List.mem_cons.mp (hs.subset hz) with rfl | hz
  · exact hxy
  · exact IsTrans.trans (r := fun a b => le a b = true) x y z hxy (List.rel_of_pairwise_cons hl hz)

theorem sublist_place_place (hl : l.Pairwise fun a b => le a b = true) (hs : l'.Sublist l) :
    (place le x l').Sublist (place le x l) := by
  rw [place_eq_orderedInsert, place_eq_orderedInsert]
  exact hs.orderedInsert_sublist x hl

namespace Retains

theorem place_both (hl : l.Pairwise fun a b => le a b = true) (hx : x ≠ p) (h : Retains p l l') :
    Retains p (place le x l) (place le x l') := by
  induction h with
  | here hs =>
    simp only [place]
    split
    · exact .keep hx (.here hs)
    · exact .here (sublist_place_place hl.of_cons hs)
  | keep hy h ih =>
    simp only [place]
    split
    · exact .keep hx (.keep hy h)
    · exact .keep hy (ih hl.of_cons)
  | @drop y l l' hy h ih =>
    rw [place]
    split
    · rename_i hxy
      rw [place_of_le_head hl (h.sublist.cons y) hxy]
      exact .keep hx (.drop hy h)
    · exact .drop hy (ih hl.of_cons)

/-- The element itself is put in front of its other copies, whichever of them are left. -/
theorem place_self [Std.Total fun a b => le a b = true]
    (hl : l.Pairwise fun a b => le a b = true) (hs : l'.Sublist l) :
    Retains p (place le p l) (place le p l') := by
  have hne : ∀ y, ¬ le p y = true → y ≠ p := by
    rintro y hy rfl
    exact hy ((Std.Total.total (r := fun a b => le a b = true) y y).elim id id)
  induction hs with
  | slnil => exact .here .slnil
  | @cons l' l y hs ih =>
    rw [place]
    split
    · rename_i hy
      rw [place_of_le_head hl (hs.cons y) hy]
      exact .here (hs.cons y)
    · rename_i hy
      exact .drop (hne y hy) (ih hl.of_cons)
  | @cons_cons l' l y hs ih =>
    simp only [place]
    split
    · exact .here (hs.cons_cons y)
    · rename_i hy
      exact .keep (hne y hy) (ih hl.of_cons)

end Retains

end Ordered

variable [Std.Total fun a b => le a b = true] [IsTrans α fun a b => le a b = true]

theorem sublist_stableSort (h : l'.Sublist l) :
    (stableSort le l').Sublist (stableSort le l) := by
  induction h with
  | slnil => exact .slnil
  | cons x _ ih => exact ih.trans (sublist_place x _)
  | cons_cons x _ ih => exact sublist_place_place (pairwise_stableSort le _) ih

theorem Retains.stableSort (h : Retains p l l') :
    Retains p (stableSort le l) (stableSort le l') := by
  induction h with
  | here hs => exact .place_self (pairwise_stableSort le _) (sublist_stableSort hs)
  | keep hx _ ih => exact ih.place_both (pairwise_stableSort le _) hx
  | drop hx _ ih => exact ih.place_left hx

end Sorting

/-! ## Candidates -/

/-- `g'` lists some of the releases of `g`, in the same order and for the same platform. -/
structure Catalog.Thinned (g g' : Catalog) : Prop where
  platform : g'.platform = g.platform
  lookup : ∀ n, (g'.repository.lookup n).Sublist (g.repository.lookup n)

namespace Catalog.Thinned

variable {g g' : Catalog} {name : String} {c : Constraint}

theorem admits_eq (h : g.Thinned g') (c : Constraint) : g'.admits c = g.admits c := by
  funext p
  rw [admits, admits, h.platform]

theorem candidates (h : g.Thinned g') (name : String) (c : Constraint) :
    (g'.candidates name c).Sublist (g.candidates name c) := by
  rw [Catalog.candidates, Catalog.candidates, h.admits_eq]
  exact sublist_stableSort ((h.lookup name).filter _)

theorem retains_candidates (h : g.Thinned g') {p : Package} (hp : p ∈ g.candidates name c)
    (hr : Retains p (g.repository.lookup name) (g'.repository.lookup name)) :
    Retains p (g.candidates name c) (g'.candidates name c) := by
  obtain ⟨_, hc, hs⟩ := mem_candidates.mp hp
  have hadm : g.admits c p = true := by rw [admits, hc, hs]; rfl
  rw [Catalog.candidates, Catalog.candidates, h.admits_eq]
  exact (hr.filter hadm).stableSort

/-- What can be put in order can still be put in order when releases have been taken away. -/
theorem findCandidates (h : g.Thinned g') {ps : List Package}
    (hf : g.findCandidates name c = .ok ps) :
    ∃ ps', g'.findCandidates name c = .ok ps' ∧ ps'.Sublist ps ∧
      ∀ p ∈ ps, Retains p (g.repository.lookup name) (g'.repository.lookup name) →
        Retains p ps ps' := by
  obtain ⟨hall, rfl⟩ := findCandidates_eq_ok_iff.mp hf
  have hs := h.candidates name c
  exact ⟨_, findCandidates_eq_ok_iff.mpr ⟨fun p hp => hall p (hs.subset hp), rfl⟩, hs,
    fun p => h.retains_candidates⟩

end Catalog.Thinned
end PackageResolution
