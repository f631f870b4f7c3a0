import PackageResolution.Proofs.SearchSpace

/-!
# PackageResolution.Proofs.RoundLimit

Where the limit on the rounds cuts a search off. Every round makes one choice, apart from the round
in which a search finds out that nothing is left to try. That round counts as well, so a problem
without a solution needs a limit above the number of its choices, and one with a solution does not.

* `unlimitedRun`: the search without a limit.
* `Completes`: the run that a search makes of its own accord, and how many rounds it takes.
* `solve_within_limit`: the limits that are too small, in terms of the choices of the whole search.
-/

namespace PackageResolution

open Search

/-- Makes choices until nothing is pending, nothing is left to try or the candidates for a name
cannot be put in order. -/
def Catalog.unlimitedRounds (g : Catalog) (index : Nat) (frames : List Frame) (j : Journal) :
    Option Run :=
  match advance frames (j.record (.round index)) with
  | (none, j') => some ⟨.exhausted, [], j'⟩
  | (some (s, frames'), j') =>
    match s.next? with
    | none => some ⟨.solved s, frames', j'⟩
    | some (name, c) =>
      match openFrame g s name c j' with
      | .error e => some ⟨.failed e, frames', j'⟩
      | .ok (f, j'') => g |>.unlimitedRounds (index + 1) (f :: frames') j''
partial_fixpoint

namespace Search

/-- The search from the requirements of the root, in as many rounds as it takes. -/
def unlimitedRun (g : Catalog) (roots : OrderedMap String Constraint) : Option Run :=
  match (State.initial roots).next? with
  | none => some ⟨.solved (State.initial roots), [], Journal.empty⟩
  | some (name, c) =>
    match openFrame g (State.initial roots) name c Journal.empty with
    | .error e => some ⟨.failed e, [], Journal.empty⟩
    | .ok (f, j) => g.unlimitedRounds 0 [f] j

variable {g : Catalog} {roots : OrderedMap String Constraint} {k m : Nat} {frames fs : List Frame}
  {s : State} {j j' : Journal}

theorem unlimitedRun_of_reaches (h : Reaches g roots k frames j) :
    unlimitedRun g roots = g.unlimitedRounds k frames j := by
  induction h with
  | start hn hf => rw [unlimitedRun, hn]; simp only [hf]
  | next _ ha hn hf ih => rw [ih, Catalog.unlimitedRounds]; simp only [ha, hn, hf]

/-- Of its own accord the search ends with `r`, for which it takes `t` rounds. -/
structure Completes (g : Catalog) (roots : OrderedMap String Constraint) (r : Run) (t : Nat) :
    Prop where
  unlimited : unlimitedRun g roots = some r
  run_of_le : ∀ m, t ≤ m → run g roots m = r
  outOfRounds_of_lt : ∀ m, m < t → (run g roots m).ending = .outOfRounds
  ending_ne : r.ending ≠ .outOfRounds
  rounds_eq : t = pins r.journal.events ∧ r.ending ≠ .exhausted ∨
    t = pins r.journal.events + 1 ∧ r.ending = .exhausted

theorem completes_of_idle (hn : (State.initial roots).next? = none) :
    Completes g roots ⟨.solved (State.initial roots), [], Journal.empty⟩ 0 where
  unlimited := by rw [unlimitedRun, hn]
  run_of_le m _ := by rw [run, hn]
  outOfRounds_of_lt m hm := absurd hm (Nat.not_lt_zero m)
  ending_ne h := by cases h
  rounds_eq := .inl ⟨rfl, fun h => by cases h⟩

theorem completes_of_solved (hr : Reaches g roots k frames j)
    (ha : advance frames (j.record (.round k)) = (some (s, fs), j')) (hn : s.next? = none) :
    Completes g roots ⟨.solved s, fs, j'⟩ (k + 1) where
  unlimited := by
    rw [unlimitedRun_of_reaches hr, Catalog.unlimitedRounds]
    simp only [ha, hn]
  run_of_le m hm := run_of_solved hr ha hn hm
  outOfRounds_of_lt m hm := outOfRounds_of_reaches hr (Nat.le_of_lt_succ hm)
  ending_ne h := by cases h
  rounds_eq := by
    refine .inl ⟨?_, fun h => by cases h⟩
    rw [pins_events, pins_of_advance ha, pins_record, pins_of_reaches hr]
    rfl

theorem completes_of_exhausted (hr : Reaches g roots k frames j)
    (ha : advance frames (j.record (.round k)) = (none, j')) :
    Completes g roots ⟨.exhausted, [], j'⟩ (k + 1) where
  unlimited := by
    rw [unlimitedRun_of_reaches hr, Catalog.unlimitedRounds]
    simp only [ha]
  run_of_le m hm := run_of_exhausted hr ha hm
  outOfRounds_of_lt m hm := outOfRounds_of_reaches hr (Nat.le_of_lt_succ hm)
  ending_ne h := by cases h
  rounds_eq := by
    refine .inr ⟨?_, rfl⟩
    rw [pins_events, pins_of_advance_eq_none ha, pins_record, pins_of_reaches hr]
    rfl

theorem completes_of_failedAtStart {name : String} {c : Constraint} {e : Text.PrintError}
    (hn : (State.initial roots).next? = some (name, c)) (hf : g.findCandidates name c = .error e) :
    Completes g roots ⟨.failed e, [], Journal.empty⟩ 0 where
  unlimited := by
    rw [unlimitedRun, hn]
    simp only [openFrame_eq_error_iff.mpr hf]
  run_of_le m _ := run_of_failedAtStart hn hf
  outOfRounds_of_lt m hm := absurd hm (Nat.not_lt_zero m)
  ending_ne h := by cases h
  rounds_eq := .inl ⟨rfl, fun h => by cases h⟩

theorem completes_of_failed {name : String} {c : Constraint} {e : Text.PrintError}
    (hr : Reaches g roots k frames j)
    (ha : advance frames (j.record (.round k)) = (some (s, fs), j')) (hn : s.next? = some (name, c))
    (hf : g.findCandidates name c = .error e) :
    Completes g roots ⟨.failed e, fs, j'⟩ (k + 1) where
  unlimited := by
    rw [unlimitedRun_of_reaches hr, Catalog.unlimitedRounds]
    simp only [ha, hn, openFrame_eq_error_iff.mpr hf]
  run_of_le m hm := run_of_failed hr ha hn hf hm
  outOfRounds_of_lt m hm := outOfRounds_of_reaches hr (Nat.le_of_lt_succ hm)
  ending_ne h := by cases h
  rounds_eq := by
    refine .inl ⟨?_, fun h => by cases h⟩
    rw [pins_events, pins_of_advance ha, pins_record, pins_of_reaches hr]
    rfl

/-- A search that ends within its rounds ends as it would without a limit. -/
theorem completes_of_ends {limit : Nat} {r : Run} (he : Ends g roots limit r)
    (h : r.ending ≠ .outOfRounds) : ∃ t, Completes g roots r t := by
  cases he with
  | idle hn => exact ⟨_, completes_of_idle hn⟩
  | solved hr _ ha hn => exact ⟨_, completes_of_solved hr ha hn⟩
  | exhausted hr _ ha => exact ⟨_, completes_of_exhausted hr ha⟩
  | outOfRounds _ => exact absurd rfl h
  | failedAtStart hn hf => exact ⟨_, completes_of_failedAtStart hn hf⟩
  | failed hr _ ha hn hf => exact ⟨_, completes_of_failed hr ha hn hf⟩

theorem exists_completes (g : Catalog) (roots : OrderedMap String Constraint) :
    ∃ r t, Completes g roots r t := by
  have he := ends_run g roots g.repository.partialAssignments
  have hne : (run g roots g.repository.partialAssignments).ending ≠ .outOfRounds := by
    intro h
    exact Nat.lt_irrefl _ (lt_of_outOfRounds h)
  exact ⟨_, completes_of_ends he hne⟩

/-- The limits that are too small. -/
theorem Completes.lt_iff {r : Run} {t : Nat} (h : Completes g roots r t) :
    m < t ↔ m < pins r.journal.events ∨ m = pins r.journal.events ∧ r.ending = .exhausted := by
  rcases h.rounds_eq with ⟨rfl, hne⟩ | ⟨rfl, he⟩
  · simp [hne]
  · rw [Nat.lt_succ_iff_lt_or_eq]
    simp [he]

theorem Completes.result_iff {r : Run} {t : Nat} (h : Completes g roots r t) (m : Nat) :
    (solve g roots m).result = .error (.tooDeep m) ↔ m < t := by
  rw [solve, result_report_iff, Int.toNat_natCast]
  constructor
  · intro hdeep
    by_contra hle
    rw [h.run_of_le m (Nat.not_lt.mp hle)] at hdeep
    exact h.ending_ne hdeep
  · exact h.outOfRounds_of_lt m

end Search

/-- A limit of `m` rounds is too small exactly if the whole search makes more than `m` choices, or
if it makes `m` choices and then finds nothing left to try. Otherwise the limit changes nothing. -/
theorem solve_within_limit (g : Catalog) (roots : OrderedMap String Constraint) :
    ∃ r, unlimitedRun g roots = some r ∧ ∀ m : Nat,
      ((solve g roots m).result = .error (.tooDeep m) ↔
        m < pins r.journal.events ∨ m = pins r.journal.events ∧ r.ending = .exhausted) ∧
      ((solve g roots m).result ≠ .error (.tooDeep m) → solve g roots m = r.report roots m) := by
  obtain ⟨r, t, h⟩ := exists_completes g roots
  refine ⟨r, h.unlimited, fun m => ⟨?_, ?_⟩⟩
  · rw [h.result_iff, h.lt_iff]
  · intro hne
    have hle : t ≤ m := Nat.not_lt.mp (mt (h.result_iff m).mpr hne)
    rw [solve, Int.toNat_natCast, h.run_of_le m hle]

theorem detour_within_limit :
    ∃ r, unlimitedRun Detour.catalog Detour.newerOnly = some r ∧
      (solve Detour.catalog Detour.newerOnly 2).result ≠ .error (.tooDeep 2) ∧
      solve Detour.catalog Detour.newerOnly 2 = r.report Detour.newerOnly 2 := by
  obtain ⟨r, hr, hm⟩ := solve_within_limit Detour.catalog Detour.newerOnly
  have hok : ∃ o, (solve Detour.catalog Detour.newerOnly 2).result = .ok o := ⟨_, rfl⟩
  have hne : (solve Detour.catalog Detour.newerOnly 2).result ≠ .error (.tooDeep 2) := by
    obtain ⟨o, ho⟩ := hok
    rw [ho]
    exact nofun
  exact ⟨r, hr, hne, (hm 2).2 hne⟩

/-- A limit that the choices of the whole search do not exceed can still cut it off. -/
theorem exhaustion_exceeds_limit :
    ∃ r, unlimitedRun Detour.catalog Detour.newerOnly = some r ∧ r.ending = .exhausted ∧
      pins r.journal.events = 1 ∧
      (solve Detour.catalog Detour.newerOnly 1).result = .error (.tooDeep 1) := by
  have he := ends_run Detour.catalog Detour.newerOnly 2
  have hex : (run Detour.catalog Detour.newerOnly 2).ending = .exhausted := rfl
  obtain ⟨t, h⟩ := completes_of_ends he (by rw [hex]; exact nofun)
  exact ⟨_, h.unlimited, hex, rfl, rfl⟩

end PackageResolution
