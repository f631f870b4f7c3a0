import PackageResolution.Proofs.GraphBuild
import PackageResolution.Proofs.Solutions

/-!
# PackageResolution.Proofs.Completeness

A valid assignment is never overlooked. As long as a state can be completed to it, its release for
the next name is among the candidates, is not refused, and leads to a state that can still be
completed to it; so no such state is a dead end.
-/

namespace PackageResolution

open Search

variable {g : Catalog} {roots : OrderedMap String Constraint} {A : String → Option Package}
  {s : State}

/-! ## Following a valid assignment -/

theorem Valid.fits_initial (hA : Valid g roots A) : (State.initial roots).Fits (versions A) :=
  ⟨hA.satisfies_roots, fun n v hv => by cases hv⟩

theorem Valid.exists_pin (hA : Valid g roots A) {name : String} {c : Constraint} (hs : s.Apart)
    (hn : s.next? = some (name, c)) (hf : s.Fits (versions A)) :
    ∃ p ∈ g.candidates name c, A name = some p ∧
      ∃ s', (s.withdraw name).pin name p = .ok s' ∧ s'.Fits (versions A) := by
  obtain ⟨p, hp, hc⟩ := meets_versions_iff.mp (hf.pending name c (State.get?_of_next? hn))
  obtain ⟨hl, hsupp⟩ := hA.listed name p hp
  have hv : versions A name = some p.version := by simp [versions, hp]
  have hd := hA.satisfies_dependencies hp
  obtain ⟨s', hpin⟩ := State.exists_pin_of_fits hs hn hc hf hv hd
  refine ⟨p, Catalog.mem_candidates.mpr ⟨hl, hc, hsupp⟩, hp, s', hpin, ?_⟩
  exact (State.fits_pin hs hn hc hpin).mpr ⟨hf, hv, hd⟩

theorem Valid.not_fits_of_deadEnd (hA : Valid g roots A) (h : DeadEnd g s) (hs : s.Apart) :
    ¬ s.Fits (versions A) := by
  induction h with
  | intro hn _ ih =>
    intro hf
    obtain ⟨p, hmem, _, s', hpin, hf'⟩ := hA.exists_pin hs hn hf
    exact ih p hmem s' hpin (State.apart_pin hs hpin) hf'

theorem Detour.valid_older : Valid Detour.catalog Detour.demands Detour.older.get? := by
  decide

/-! ## Outcomes -/

theorem exists_graph_of_solved {limit : Nat} (h : (run g roots limit).ending = .solved s) :
    ∃ graph, Graph.ofPackages (run g roots limit).packages roots.keys = .ok graph := by
  obtain ⟨hb, hn⟩ := branch_of_solved h
  have hchosen : ∀ n, s.Mentions n → n ∈ (run g roots limit).packages := by
    intro n hm
    rw [OrderedMap.mem_iff, Run.packages, ← choices, hb.keys_packages]
    exact (State.mentions_iff_of_next?_eq_none hn).mp hm
  apply Graph.exists_ofPackages
  · intro n hr
    exact hchosen n (hb.mentions_iff.mpr (.inl hr))
  · intro n p d hp hd
    exact hchosen d (hb.mentions_iff.mpr (.inr ⟨_, hb.get?_choices.mp hp, hd⟩))

/-- A search that has decided everything gives a resolution, with its graph. -/
theorem exists_resolution_of_solved {maxRounds : Int}
    (h : (run g roots maxRounds.toNat).ending = .solved s) :
    ∃ graph, Graph.ofPackages (run g roots maxRounds.toNat).packages roots.keys = .ok graph ∧
      (solve g roots maxRounds).result =
        .ok (.resolved ⟨s.solutions, (run g roots maxRounds.toNat).packages, graph⟩) := by
  obtain ⟨graph, hg⟩ := exists_graph_of_solved h
  refine ⟨graph, hg, ?_⟩
  simp only [solve, Run.report, h, hg]

/-- A search fails on the candidates for some name. -/
theorem exists_of_failed {limit : Nat} {e : Text.PrintError}
    (h : (run g roots limit).ending = .failed e) :
    ∃ name c, g.findCandidates name c = .error e := by
  have he := ends_run g roots limit
  generalize run g roots limit = r at h he
  cases he with
  | idle _ => cases h
  | solved _ _ _ _ => cases h
  | exhausted _ _ _ => cases h
  | outOfRounds _ => cases h
  | failedAtStart _ hf => cases h; exact ⟨_, _, hf⟩
  | failed _ _ _ _ hf => cases h; exact ⟨_, _, hf⟩

theorem solve_cases (g : Catalog) (roots : OrderedMap String Constraint) (maxRounds : Int) :
    (∃ r, (solve g roots maxRounds).result = .ok (.resolved r)) ∨
      (∃ causes, (solve g roots maxRounds).result = .ok (.unsatisfiable causes)) ∨
      (solve g roots maxRounds).result = .error (.tooDeep maxRounds) ∨
      ∃ e name c, (solve g roots maxRounds).result = .error (.text e) ∧
        g.findCandidates name c = .error e := by
  cases he : (run g roots maxRounds.toNat).ending with
  | solved s =>
    obtain ⟨_, _, hr⟩ := exists_resolution_of_solved he
    exact .inl ⟨_, hr⟩
  | exhausted => exact .inr (.inl ⟨_, unsatisfiable_report_iff.mpr ⟨he, rfl⟩⟩)
  | outOfRounds => exact .inr (.inr (.inl (result_report_iff.mpr he)))
  | failed e =>
    obtain ⟨name, c, hf⟩ := exists_of_failed he
    exact .inr (.inr (.inr ⟨e, name, c, failed_report_iff.mpr he, hf⟩))

/-- A release that a search may come to has a version that cannot be written. -/
def Catalog.HoldsUnprintable (g : Catalog) (e : Text.PrintError) : Prop :=
  ∃ name, ∃ p ∈ g.repository.lookup name, p.supports g.platform = true ∧ p.version.text = .error e

theorem Catalog.holdsUnprintable_of_error {name : String} {c : Constraint} {e : Text.PrintError}
    (h : g.findCandidates name c = .error e) : g.HoldsUnprintable e := by
  obtain ⟨p, hp, hn⟩ := findCandidates_eq_error_iff.mp h
  obtain ⟨hl, _, hs⟩ := mem_candidates.mp hp
  exact ⟨name, p, hl, hs, Version.text_eq_error_iff.mpr hn⟩

/-- A problem that is called unsatisfiable has no valid assignment. One that has a valid assignment
is solved, unless the rounds are used up or the search fails on a release whose version cannot be
written. -/
theorem solve_complete (g : Catalog) (roots : OrderedMap String Constraint) (maxRounds : Int) :
    (∀ causes, (solve g roots maxRounds).result = .ok (.unsatisfiable causes) →
      ¬ ∃ A, Valid g roots A) ∧
    ((∃ A, Valid g roots A) →
      (∃ r, (solve g roots maxRounds).result = .ok (.resolved r)) ∨
        (solve g roots maxRounds).result = .error (.tooDeep maxRounds) ∨
        ∃ e, (solve g roots maxRounds).result = .error (.text e) ∧ g.HoldsUnprintable e) := by
  have hnone : ∀ causes, (solve g roots maxRounds).result = .ok (.unsatisfiable causes) →
      ¬ ∃ A, Valid g roots A := by
    rintro causes h ⟨A, hA⟩
    have hs : (State.initial roots).Apart := (Branch.start (g := g)).apart
    exact hA.not_fits_of_deadEnd (deadEnd_of_unsatisfiable h) hs hA.fits_initial
  refine ⟨hnone, fun hA => ?_⟩
  rcases solve_cases g roots maxRounds with hr | ⟨causes, hc⟩ | ht | ⟨e, name, c, he, hf⟩
  · exact .inl hr
  · exact absurd hA (hnone causes hc)
  · exact .inr (.inl ht)
  · exact .inr (.inr ⟨e, he, Catalog.holdsUnprintable_of_error hf⟩)

theorem detour_complete :
    (∃ causes, (solve Detour.catalog Detour.newerOnly 10).result = .ok (.unsatisfiable causes)) ∧
      (¬ ∃ A, Valid Detour.catalog Detour.newerOnly A) ∧
      (∃ A, Valid Detour.catalog Detour.demands A) ∧
      ((∃ r, (solve Detour.catalog Detour.demands 10).result = .ok (.resolved r)) ∨
        (solve Detour.catalog Detour.demands 10).result = .error (.tooDeep 10) ∨
        ∃ e, (solve Detour.catalog Detour.demands 10).result = .error (.text e) ∧
          Detour.catalog.HoldsUnprintable e) := by
  have hnewer : ∃ causes,
      (solve Detour.catalog Detour.newerOnly 10).result = .ok (.unsatisfiable causes) := ⟨_, rfl⟩
  have hvalid : ∃ A, Valid Detour.catalog Detour.demands A := ⟨_, Detour.valid_older⟩
  refine ⟨hnewer, ?_, hvalid, (solve_complete _ _ _).2 hvalid⟩
  obtain ⟨causes, hc⟩ := hnewer
  exact (solve_complete _ _ _).1 causes hc

theorem solve_oversized (maxRounds : Int) :
    (solve .oversized (.ofList [("a", .any)]) maxRounds).result = .error (.text .tooLong) := by
  have hn : (State.initial (.ofList [("a", .any)])).next? = some ("a", .any) := rfl
  exact failed_report_iff.mpr (congrArg Run.ending
    (run_of_failedAtStart hn Catalog.findCandidates_oversized))

/-- A problem with a valid assignment, on whose only release the search fails. -/
theorem oversized_not_resolved :
    let roots : OrderedMap String Constraint := .ofList [("a", .any)]
    (∃ A, Valid .oversized roots A) ∧
      (solve .oversized roots 10).result = .error (.text .tooLong) := by
  intro roots
  refine ⟨⟨(OrderedMap.ofList [("a", Package.oversized)]).get?, valid_get?_iff.mpr ?_⟩,
    solve_oversized 10⟩
  have hlisted : Catalog.oversized.repository.lookup "a" = [.oversized] := rfl
  refine ⟨?_, ?_, ?_⟩
  · rintro e (_ | ⟨_, ⟨⟩⟩)
    exact ⟨hlisted ▸ List.mem_singleton_self _, rfl⟩
  · rintro e (_ | ⟨_, ⟨⟩⟩)
    rfl
  · rintro e (_ | ⟨_, ⟨⟩⟩) d (⟨⟩)

end PackageResolution
