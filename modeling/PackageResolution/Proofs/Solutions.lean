import PackageResolution.Proofs.Rounds
import PackageResolution.Proofs.CandidateOrder
import PackageResolution.Solver

/-!
# PackageResolution.Proofs.Solutions

Resolutions against all assignments of releases to names.

* `Valid`: an assignment that gives the roots and each chosen release what they ask for.
* `Needed`: the names reached from the roots through the chosen releases.
-/

namespace PackageResolution

open Search

/-- The assignment takes only releases that may be used, and all that is asked for is met by what it
takes. -/
structure Valid (g : Catalog) (roots : OrderedMap String Constraint)
    (A : String → Option Package) : Prop where
  listed : ∀ n p, A n = some p → p ∈ g.repository.lookup n ∧ p.supports g.platform = true
  roots : ∀ n c, roots.get? n = some c → ∃ p, A n = some p ∧ c.contains p.version = true
  closed : ∀ n p d c, A n = some p → p.dependencies.get? d = some c →
    ∃ q, A d = some q ∧ c.contains q.version = true

inductive Needed (roots : OrderedMap String Constraint) (A : String → Option Package) :
    String → Prop where
  | root {n : String} : n ∈ roots → Needed roots A n
  | dependency {n d : String} {p : Package} : Needed roots A n → A n = some p →
      d ∈ p.dependencies → Needed roots A d

/-- The versions that an assignment takes. -/
def versions (A : String → Option Package) (n : String) : Option Version :=
  (A n).map fun p => p.version

variable {g : Catalog} {roots : OrderedMap String Constraint} {A B : String → Option Package}

theorem meets_versions_iff {n : String} {c : Constraint} :
    Meets (versions A) n c ↔ ∃ p, A n = some p ∧ c.contains p.version = true := by
  simp only [Meets, versions, Option.map_eq_some_iff]
  constructor
  · rintro ⟨_, ⟨p, hp, rfl⟩, hc⟩; exact ⟨p, hp, hc⟩
  · rintro ⟨p, hp, hc⟩; exact ⟨_, ⟨p, hp, rfl⟩, hc⟩

/-- Whether a finite map is valid is found out by going through its entries. -/
theorem valid_get?_iff {m : OrderedMap String Package} :
    Valid g roots m.get? ↔
      (∀ e ∈ m.entries, e.2 ∈ g.repository.lookup e.1 ∧ e.2.supports g.platform = true) ∧
      (∀ e ∈ roots.entries, ((m.get? e.1).any fun p => e.2.contains p.version) = true) ∧
      ∀ e ∈ m.entries, ∀ d ∈ e.2.dependencies.entries,
        ((m.get? d.1).any fun p => d.2.contains p.version) = true := by
  simp only [Option.any_eq_true]
  constructor
  · intro h
    refine ⟨fun e he => ?_, fun e he => ?_, fun e he d hd => ?_⟩
    · exact h.listed e.1 e.2 (OrderedMap.get?_eq_some_iff.mpr he)
    · exact h.roots e.1 e.2 (OrderedMap.get?_eq_some_iff.mpr he)
    · exact h.closed e.1 e.2 d.1 d.2 (OrderedMap.get?_eq_some_iff.mpr he)
        (OrderedMap.get?_eq_some_iff.mpr hd)
  · rintro ⟨hlisted, hroots, hclosed⟩
    refine ⟨fun n p hp => ?_, fun n c hc => ?_, fun n p d c hp hc => ?_⟩
    · exact hlisted (n, p) (OrderedMap.get?_eq_some_iff.mp hp)
    · exact hroots (n, c) (OrderedMap.get?_eq_some_iff.mp hc)
    · exact hclosed (n, p) (OrderedMap.get?_eq_some_iff.mp hp) (d, c)
        (OrderedMap.get?_eq_some_iff.mp hc)

instance (m : OrderedMap String Package) : Decidable (Valid g roots m.get?) :=
  decidable_of_iff _ valid_get?_iff.symm

theorem Valid.satisfies_roots (h : Valid g roots A) : Satisfies (versions A) roots :=
  fun n c hc => meets_versions_iff.mpr (h.roots n c hc)

theorem Valid.satisfies_dependencies (h : Valid g roots A) {n : String} {p : Package}
    (hp : A n = some p) : Satisfies (versions A) p.dependencies :=
  fun d c hc => meets_versions_iff.mpr (h.closed n p d c hp hc)

theorem Needed.mono (hAB : ∀ n p, A n = some p → B n = some p) {n : String}
    (h : Needed roots A n) : Needed roots B n := by
  induction h with
  | root hn => exact .root hn
  | dependency _ hp hd ih => exact .dependency ih (hAB _ _ hp) hd

/-! ## The releases of a branch -/

section Branch

variable {fs : List Frame} {s : State}

theorem Search.Branch.get?_choices (h : Branch g roots fs s) {n : String} {p : Package} :
    (OrderedMap.ofList (choices fs)).get? n = some p ↔ (n, p) ∈ choices fs := by
  rw [OrderedMap.get?_eq_some_iff, OrderedMap.entries_ofList h.nodup_choices]

theorem Search.Branch.keys_packages (h : Branch g roots fs s) :
    (OrderedMap.ofList (choices fs)).keys = s.solutions.keys := by
  rw [h.keys_solutions, OrderedMap.keys, OrderedMap.entries_ofList h.nodup_choices]

theorem Search.Branch.versions_choices (h : Branch g roots fs s) :
    versions (OrderedMap.ofList (choices fs)).get? = s.solutions.get? := by
  funext n
  refine Option.ext fun v => ?_
  rw [versions, Option.map_eq_some_iff, OrderedMap.get?_eq_some_iff, h.entries_solutions,
    List.mem_map]
  constructor
  · rintro ⟨p, hp, rfl⟩
    exact ⟨(n, p), h.get?_choices.mp hp, rfl⟩
  · rintro ⟨e, he, hev⟩
    cases hev
    exact ⟨e.2, h.get?_choices.mpr he, rfl⟩

/-- With nothing pending, the releases chosen meet all that they and the roots ask. -/
theorem Search.Branch.valid (h : Branch g roots fs s) (hn : s.next? = none) :
    Valid g roots (OrderedMap.ofList (choices fs)).get? := by
  have hfit : s.Fits (versions (OrderedMap.ofList (choices fs)).get?) := by
    rw [h.versions_choices]
    exact State.fits_solutions hn
  obtain ⟨hroots, hchoices⟩ := h.fits_iff.mp hfit
  refine ⟨?_, ?_, ?_⟩
  · intro n p hp
    exact h.listed (h.get?_choices.mp hp)
  · intro n c hc
    exact meets_versions_iff.mp (hroots n c hc)
  · intro n p d c hp hc
    exact meets_versions_iff.mp ((hchoices _ (h.get?_choices.mp hp)).2 d c hc)

theorem Search.Branch.needed_of_mentions (h : Branch g roots fs s) {n : String}
    (hn : s.Mentions n) : Needed roots (OrderedMap.ofList (choices fs)).get? n := by
  induction h generalizing n with
  | start =>
    rcases hn with hn | hn
    · exact .root hn
    · cases hn
  | @pin fs s s' name c p tried rest hb hnext hc ht hp ih =>
    have h' := Branch.pin hb hnext hc ht hp
    have hmono : ∀ m q, (OrderedMap.ofList (choices fs)).get? m = some q →
        (OrderedMap.ofList (choices (⟨name, rest, s.withdraw name, some p⟩ :: fs))).get? m =
          some q := by
      intro m q hq
      rw [h'.get?_choices, choices_cons]
      exact List.mem_append_left _ (hb.get?_choices.mp hq)
    rcases (State.mentions_pin hnext hp).mp hn with hn | hn
    · exact (ih hn).mono hmono
    · refine .dependency ((ih (.inl (State.mem_of_next? hnext))).mono hmono) ?_ hn
      rw [h'.get?_choices, choices_cons]
      exact List.mem_append_right _ List.mem_cons_self

theorem Search.Branch.mentions_iff_needed (h : Branch g roots fs s) {n : String} :
    s.Mentions n ↔ Needed roots (OrderedMap.ofList (choices fs)).get? n := by
  refine ⟨h.needed_of_mentions, fun hn => ?_⟩
  induction hn with
  | root hn => exact h.mentions_iff.mpr (.inl hn)
  | dependency _ hp hd _ =>
    exact h.mentions_iff.mpr (.inr ⟨_, h.get?_choices.mp hp, hd⟩)

end Branch

/-! ## Outcomes -/

theorem solved_of_resolved {maxRounds : Int} {r : Resolution}
    (h : (solve g roots maxRounds).result = .ok (.resolved r)) :
    ∃ s, (run g roots maxRounds.toNat).ending = .solved s ∧ r.mapping = s.solutions ∧
      r.packages = (run g roots maxRounds.toNat).packages := by
  simp only [solve, Run.report] at h
  split at h
  · cases h
  · cases h
  · cases h
  · rename_i s he
    split at h
    · cases h
    · cases h
      exact ⟨s, he, rfl, rfl⟩

theorem branch_of_resolved {maxRounds : Int} {r : Resolution}
    (h : (solve g roots maxRounds).result = .ok (.resolved r)) :
    ∃ fs s, Branch g roots fs s ∧ s.next? = none ∧ r.mapping = s.solutions ∧
      r.packages = OrderedMap.ofList (choices fs) := by
  obtain ⟨s, he, hm, hp⟩ := solved_of_resolved h
  obtain ⟨hb, hn⟩ := branch_of_solved he
  exact ⟨_, s, hb, hn, hm, hp⟩

theorem exists_detour :
    ∃ r, (solve Detour.catalog Detour.demands 10).result = .ok (.resolved r) ∧
      r.mapping.keys = ["a", "b"] ∧
      r.packages.entries = [("a", Detour.a₁), ("b", Detour.b₂)] :=
  ⟨_, rfl, rfl, rfl⟩

theorem deadEnd_of_unsatisfiable {maxRounds : Int} {causes : List Requirement}
    (h : (solve g roots maxRounds).result = .ok (.unsatisfiable causes)) :
    DeadEnd g (State.initial roots) :=
  deadEnd_of_exhausted (unsatisfiable_report_iff.mp h).1

/-- A solution meets all that is asked for, with releases that may be used, and covers exactly the
names that its releases make necessary. -/
theorem resolution_sound_and_closed {maxRounds : Int} {r : Resolution}
    (h : (solve g roots maxRounds).result = .ok (.resolved r)) :
    Satisfies r.mapping.get? roots ∧
      (∀ n v, r.mapping.get? n = some v →
        ∃ p, r.packages.get? n = some p ∧ p ∈ g.repository.lookup n ∧
          p.supports g.platform = true ∧ p.version = v ∧ Satisfies r.mapping.get? p.dependencies) ∧
      r.packages.keys = r.mapping.keys ∧
      ∀ n, n ∈ r.mapping ↔ Needed roots r.packages.get? n := by
  obtain ⟨fs, s, hb, hn, hm, hp⟩ := branch_of_resolved h
  have hvalid := hb.valid hn
  rw [hm, hp, ← hb.versions_choices]
  refine ⟨hvalid.satisfies_roots, ?_, hb.keys_packages, ?_⟩
  · intro n v hv
    obtain ⟨p, hget, rfl⟩ := Option.map_eq_some_iff.mp hv
    obtain ⟨hl, hs⟩ := hvalid.listed n p hget
    exact ⟨p, hget, hl, hs, rfl, hvalid.satisfies_dependencies hget⟩
  · intro n
    rw [← hb.mentions_iff_needed, State.mentions_iff_of_next?_eq_none hn]

theorem detour_sound_and_closed :
    ∃ r, (solve Detour.catalog Detour.demands 10).result = .ok (.resolved r) ∧
      r.mapping.keys = ["a", "b"] ∧ Satisfies r.mapping.get? Detour.demands ∧
      (∀ n v, r.mapping.get? n = some v →
        ∃ p, r.packages.get? n = some p ∧ p ∈ Detour.catalog.repository.lookup n ∧
          p.supports Detour.catalog.platform = true ∧ p.version = v ∧
          Satisfies r.mapping.get? p.dependencies) ∧
      r.packages.keys = r.mapping.keys ∧
      ∀ n, n ∈ r.mapping ↔ Needed Detour.demands r.packages.get? n := by
  obtain ⟨r, h, hk, _⟩ := exists_detour
  exact ⟨r, h, hk, resolution_sound_and_closed h⟩

end PackageResolution
