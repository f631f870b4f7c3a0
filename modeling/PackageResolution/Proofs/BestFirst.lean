import PackageResolution.Proofs.Precedence
import PackageResolution.Proofs.Rearrangement

/-!
# PackageResolution.Proofs.BestFirst

Which releases of a name are tried, and in which order. A stable sort is the only arrangement of a
list that is in order and leaves ties as they stood, and so the candidates are determined by what is
said of them. Where no two releases have one text nothing hangs on the list at all. A version that
cannot be written leaves the releases of its name without an order.

* `eq_of_pairwise_of_ties`: lists in order with the same ties in the same order are equal.
* `Package.BestFirst`: an arrangement of releases, newest first. Releases of one precedence go by
  the text of their versions, and if that is the same, too, as they are listed.
* `Catalog.candidates_best_first`: the candidates are such an arrangement, and the only one.
* `Catalog.oversized_without_order`: one release that cannot be put in order.
-/

namespace PackageResolution

/-! ## Arrangements in order -/

section Sorting

variable {α : Type} {le tie : α → α → Bool}

/-- The head of a list in order may precede all of it. -/
theorem le_of_mem_of_head [Std.Total fun a b => le a b = true] {a b : α} {l : List α}
    (hl : (a :: l).Pairwise fun a b => le a b = true) (hb : b ∈ a :: l) : le a b = true := by
  rcases List.mem_cons.mp hb with rfl | hb
  · exact or_self_iff.mp (Std.Total.total (r := fun a b => le a b = true) b b)
  · exact List.rel_of_pairwise_cons hl hb

theorem mem_of_ties (hself : ∀ a, tie a a = true) {l m : List α}
    (h : ∀ a, l.filter (tie a) = m.filter (tie a)) {a : α} (ha : a ∈ l) : a ∈ m := by
  have ha' : a ∈ l.filter (tie a) := List.mem_filter.mpr ⟨ha, hself a⟩
  rw [h a] at ha'
  exact (List.mem_filter.mp ha').1

theorem filter_eq_of_filter_cons {p : α → Bool} {a : α} {l m : List α}
    (h : (a :: l).filter p = (a :: m).filter p) : l.filter p = m.filter p := by
  cases hp : p a with
  | true =>
    rw [List.filter_cons_of_pos hp, List.filter_cons_of_pos hp] at h
    exact (List.cons.inj h).2
  | false =>
    rwa [List.filter_cons_of_neg (by simp [hp]), List.filter_cons_of_neg (by simp [hp])] at h

theorem eq_of_pairwise_of_ties [Std.Total fun a b => le a b = true]
    (htie : ∀ a b, tie a b = true ↔ le a b = true ∧ le b a = true) {l m : List α}
    (hl : l.Pairwise fun a b => le a b = true) (hm : m.Pairwise fun a b => le a b = true)
    (h : ∀ a, l.filter (tie a) = m.filter (tie a)) : l = m := by
  have hself (a : α) : tie a a = true := (htie a a).mpr <| and_self_iff.mpr <|
    or_self_iff.mp (Std.Total.total (r := fun a b => le a b = true) a a)
  induction l generalizing m with
  | nil =>
    symm
    rw [List.eq_nil_iff_forall_not_mem]
    exact fun a ha => List.not_mem_nil (mem_of_ties hself (fun a => (h a).symm) ha)
  | cons a l ih =>
    cases m with
    | nil => exact absurd (mem_of_ties hself h List.mem_cons_self) List.not_mem_nil
    | cons b m =>
      -- the heads may precede each other, so they are the first of the same ties
      have hba : b ∈ a :: l := mem_of_ties hself (fun a => (h a).symm) List.mem_cons_self
      have hab : a ∈ b :: m := mem_of_ties hself h List.mem_cons_self
      have ht : tie a b = true :=
        (htie a b).mpr ⟨le_of_mem_of_head hl hba, le_of_mem_of_head hm hab⟩
      have heads := h a
      rw [List.filter_cons_of_pos (hself a), List.filter_cons_of_pos ht] at heads
      obtain ⟨rfl, _⟩ := List.cons.inj heads
      exact congrArg (a :: ·) (ih hl.of_cons hm.of_cons fun x => filter_eq_of_filter_cons (h x))

end Sorting

/-! ## Releases -/

namespace Package

theorem preferred_iff_precedes {p q : Package} :
    p.preferred q = true ↔ q.version.Precedes p.version ∨
      q.version.equiv p.version = true ∧ q.version.spelled ≤ p.version.spelled := by
  rw [preferred_iff, Version.compare_lt_iff, Version.equiv_iff]

/-- The listed releases, newest first. Those of one precedence come in descending order of the texts
of their versions, and those that have the same text as well come as they are listed. -/
structure BestFirst (listed tried : List Package) : Prop where
  perm : tried.Perm listed
  descending : tried.IsChain fun p q => q.version.Precedes p.version ∨
    q.version.equiv p.version = true ∧ q.version.spelled ≤ p.version.spelled
  ties : ∀ p : Package, tried.filter p.tied = listed.filter p.tied

theorem bestFirst_iff {listed tried : List Package} :
    BestFirst listed tried ↔ tried = stableSort preferred listed := by
  constructor
  · intro h
    have hpairwise : tried.Pairwise fun p q => p.preferred q = true := by
      have := h.descending
      simp only [← preferred_iff_precedes] at this
      exact List.isChain_iff_pairwise.mp this
    refine eq_of_pairwise_of_ties (fun p q => tied_iff_preferred) hpairwise
      (pairwise_stableSort preferred listed) fun p => ?_
    rw [h.ties p, filter_stableSort preferred fun _ _ => preferred_of_tied]
  · rintro rfl
    refine ⟨stableSort_perm preferred listed, ?_, fun p =>
      filter_stableSort preferred (fun _ _ => preferred_of_tied) listed⟩
    simp only [← preferred_iff_precedes]
    exact List.isChain_iff_pairwise.mpr (pairwise_stableSort preferred listed)

end Package

namespace Catalog

/-- Where each release that satisfies the constraint and supports the platform has a version with a
text, the candidates are the only arrangement of them that is best first; otherwise there are none.
Where no two releases of the name have the same text, the candidates do not hang on the order in
which the repository lists these. -/
theorem candidates_best_first (g : Catalog) (name : String) (c : Constraint) :
    (∀ tried, g.findCandidates name c = .ok tried ↔
      (∀ p ∈ tried, p.version.text = .ok p.version.spelled) ∧
        Package.BestFirst ((g.repository.lookup name).filter
          fun p => c.contains p.version && p.supports g.platform) tried) ∧
    (∀ e, g.findCandidates name c = .error e ↔
      ∃ p ∈ g.repository.lookup name, c.contains p.version = true ∧
        p.supports g.platform = true ∧ p.version.text = .error e) ∧
    ∀ g' : Catalog, g'.platform = g.platform →
      (g'.repository.lookup name).Perm (g.repository.lookup name) →
      (Package.texts (g.repository.lookup name)).Nodup →
        g'.findCandidates name c = g.findCandidates name c := by
  refine ⟨fun tried => ?_, fun e => ?_, fun g' hp hperm hd => ?_⟩
  · rw [findCandidates, bestFirst_eq_ok_iff, Package.bestFirst_iff, eq_comm (b := tried)]
    refine and_congr_left fun h => ?_
    subst h
    simp only [mem_stableSort, Version.text_eq_ok_iff, and_true]
  · rw [findCandidates_eq_error_iff]
    simp only [mem_candidates, Version.text_eq_error_iff, and_assoc]
  · have hadmits : g'.admits c = g.admits c := by
      funext p
      rw [admits, admits, hp]
    rw [findCandidates, findCandidates, hadmits]
    exact (bestFirst_eq_of_perm (hperm.symm.filter _)
      ((List.filter_sublist.filterMap _).nodup hd)).symm

/-- Two releases that differ in build metadata only, a newer one that does not support the platform,
and the three of them in another order. -/
theorem candidates_best_first_metadata :
    let x : Package := ⟨"a", ⟨1, 0, 0, [], ["x"]⟩, .empty, none⟩
    let y : Package := ⟨"a", ⟨1, 0, 0, [], ["y"]⟩, .empty, none⟩
    let newer : Package := ⟨"a", ⟨1, 5, 0, [], []⟩, .empty, some (.exactly ⟨2, 0, 0, [], []⟩)⟩
    let g : Catalog := ⟨.ofPackages [x, newer, y], some ⟨1, 0, 0, [], []⟩⟩
    let g' : Catalog := ⟨.ofPackages [y, x, newer], some ⟨1, 0, 0, [], []⟩⟩
    (g'.repository.lookup "a").Perm (g.repository.lookup "a") ∧
      (Package.texts (g.repository.lookup "a")).Nodup ∧
      g.findCandidates "a" .any = .ok [y, x] ∧ g'.findCandidates "a" .any = .ok [y, x] ∧
      Package.BestFirst ([x, newer, y].filter
        fun p => Constraint.any.contains p.version && p.supports g.platform) [y, x] := by
  intro x y newer g g'
  have hperm : (g'.repository.lookup "a").Perm (g.repository.lookup "a") := by decide +kernel
  have hd : (Package.texts (g.repository.lookup "a")).Nodup := by decide +kernel
  have hg : g.findCandidates "a" .any = .ok [y, x] :=
    findCandidates_eq_ok_iff.mpr ⟨by decide +kernel, by decide +kernel⟩
  obtain ⟨hbest, _, hsame⟩ := candidates_best_first g "a" .any
  exact ⟨hperm, hd, hg, (hsame g' rfl hperm hd).trans hg, ((hbest [y, x]).mp hg).2⟩

/-- A release that satisfies the constraint, and a search for candidates that fails on it. -/
theorem oversized_without_order :
    oversized.repository.lookup "a" = [.oversized] ∧
      Constraint.any.contains Version.oversized = true ∧
      Package.oversized.supports oversized.platform = true ∧
      oversized.findCandidates "a" .any = .error .tooLong ∧
      ¬ ∃ tried, oversized.findCandidates "a" .any = .ok tried ∧ tried.Perm [.oversized] := by
  refine ⟨rfl, rfl, rfl, findCandidates_oversized, ?_⟩
  rintro ⟨tried, htried, _⟩
  rw [findCandidates_oversized] at htried
  cases htried

end Catalog
end PackageResolution
