import PackageResolution.Proofs.Branches
import PackageResolution.Solver

/-!
# PackageResolution.Proofs.Rounds

A run, round by round. A limit cuts a run off and changes nothing before that, so what a search has
reached after some rounds does not depend on how many more it may make.

* `pins`: the number of choices among the events of a run.
* `PinsAt`: the stack and the state that a round leaves behind if it makes a choice.
* `pins_of_reaches`: every round makes one choice, except the last one of a search that finds
  nothing.
* `events_report`: what a report adds to the events of its run.
* `run_of_reaches`: the rounds after a point of the run depend on that point alone.
-/

namespace PackageResolution
namespace Search

def Event.isPinning : Event → Bool
  | .pinning _ _ => true
  | _ => false

/-- The events that say how a search has ended. -/
def Event.isClosing : Event → Bool
  | .ending _ => true
  | .endingUnsatisfiable _ => true
  | _ => false

theorem Event.isPinning_of_isClosing {e : Event} (h : e.isClosing = true) :
    e.isPinning = false := by
  cases e <;> first | rfl | cases h

/-- The number of choices among the events. -/
def pins (events : List Event) : Nat := events.countP Event.isPinning

/-- Round `k` makes a choice, which leaves the stack `fs` and leads to `s`. -/
def PinsAt (g : Catalog) (roots : OrderedMap String Constraint) (k : Nat) (fs : List Frame)
    (s : State) : Prop :=
  ∃ frames j j', Reaches g roots k frames j ∧
    advance frames (j.record (.round k)) = (some (s, fs), j')

variable {g : Catalog} {roots : OrderedMap String Constraint} {k m : Nat} {frames fs : List Frame}
  {s : State} {j j' : Journal}

/-! ## Counting choices -/

theorem pins_events (j : Journal) : pins j.events = pins j.latest := by
  simp [pins, Journal.events]

theorem pins_record (j : Journal) (e : Event) :
    pins (j.record e).latest = pins j.latest + if e.isPinning then 1 else 0 := by
  simp [pins, Journal.record, List.countP_cons]

theorem pins_tryCandidates {name : String} {base : State} {ps : List Package}
    {o : Option (State × Package × List Package)} (h : tryCandidates name base ps j = (o, j')) :
    pins j'.latest = pins j.latest := by
  induction ps generalizing j with
  | nil => cases h; rfl
  | cons p ps ih =>
    rw [tryCandidates] at h
    split at h
    · cases h; rfl
    · rename_i causes _
      rw [ih h]
      exact pins_record (j.blame causes) (.rejecting p causes)

theorem pins_of_advance (h : advance frames j = (some (s, fs), j')) :
    pins j'.latest = pins j.latest + 1 := by
  induction frames generalizing j with
  | nil => cases h
  | cons f frames ih =>
    rw [advance] at h
    split at h
    · rename_i ht; cases h; rw [pins_record, pins_tryCandidates ht]; rfl
    · rename_i ht; rw [ih h, pins_record, pins_tryCandidates ht]; rfl

theorem pins_of_advance_eq_none (h : advance frames j = (none, j')) :
    pins j'.latest = pins j.latest := by
  induction frames generalizing j with
  | nil => cases h; rfl
  | cons f frames ih =>
    rw [advance] at h
    split at h
    · cases h
    · rename_i ht; rw [ih h, pins_record, pins_tryCandidates ht]; rfl

/-- To open a choice is not reported. -/
theorem latest_openFrame {name : String} {c : Constraint} {f : Frame}
    (h : openFrame g s name c j = .ok (f, j')) : j'.latest = j.latest := by
  rw [openFrame] at h
  split at h
  · cases h
  · cases h; rfl
  · cases h; rfl

/-- Between the rounds, each round so far has made its choice. -/
theorem pins_of_reaches (h : Reaches g roots k frames j) : pins j.latest = k := by
  induction h with
  | start _ hf => rw [latest_openFrame hf]; rfl
  | next _ ha _ hf ih => rw [latest_openFrame hf, pins_of_advance ha, pins_record, ih]; rfl

/-! ## Reports -/

theorem result_report_iff {r : Run} {maxRounds : Int} :
    (r.report roots maxRounds).result = .error (.tooDeep maxRounds) ↔ r.ending = .outOfRounds := by
  rw [Run.report]
  split
  · rename_i he; simp [he]
  · rename_i he; simp [he]
  · rename_i he; simp [he]
  · rename_i he; split <;> simp [he]

theorem failed_report_iff {r : Run} {maxRounds : Int} {e : Text.PrintError} :
    (r.report roots maxRounds).result = .error (.text e) ↔ r.ending = .failed e := by
  rw [Run.report]
  split
  · rename_i he; simp [he]
  · rename_i he; simp [he]
  · rename_i he; simp [he]
  · rename_i he; split <;> simp [he]

theorem unsatisfiable_report_iff {r : Run} {maxRounds : Int} {causes : List Requirement} :
    (r.report roots maxRounds).result = .ok (.unsatisfiable causes) ↔
      r.ending = .exhausted ∧ r.journal.causes = causes := by
  rw [Run.report]
  split
  · rename_i he; simp [he]
  · rename_i he; simp [he]
  · rename_i he; simp [he]
  · rename_i he; split <;> simp [he]

/-- A report has the events of its run, after the roots and before what says how it has ended. -/
theorem events_report (r : Run) (roots : OrderedMap String Constraint) (maxRounds : Int) :
    ∃ closing, (r.report roots maxRounds).events =
        .starting roots :: (r.journal.events ++ closing) ∧
      ∀ e ∈ closing, e.isClosing = true := by
  rw [Run.report]
  split
  · exact ⟨[], by simp, by simp⟩
  · exact ⟨[], by simp, by simp⟩
  · exact ⟨[.endingUnsatisfiable r.journal.causes], rfl, by simp [Event.isClosing]⟩
  · rename_i s _
    split
    · exact ⟨[], by simp, by simp⟩
    · exact ⟨[.ending s.solutions], rfl, by simp [Event.isClosing]⟩

theorem pins_report (r : Run) (roots : OrderedMap String Constraint) (maxRounds : Int) :
    pins (r.report roots maxRounds).events = pins r.journal.events := by
  obtain ⟨closing, hevents, hclosing⟩ := events_report r roots maxRounds
  have hnone : closing.countP Event.isPinning = 0 := by
    rw [List.countP_eq_zero]
    intro e he
    rw [Event.isPinning_of_isClosing (hclosing e he)]
    exact Bool.false_ne_true
  rw [hevents]
  simp [pins, Event.isPinning, hnone]

/-! ## Going on from a point of the run -/

theorem run_of_reaches (h : Reaches g roots k frames j) (n : Nat) :
    run g roots (k + n) = rounds g n k frames j := by
  induction h generalizing n with
  | start hn hf => rw [run, hn]; simp only [hf, Nat.zero_add]
  | @next k frames fs j j' j'' s name c f _ ha hn hf ih =>
    rw [Nat.add_right_comm k 1 n, Nat.add_assoc, ih, rounds]
    simp only [ha, hn, hf]

theorem run_of_solved (h : Reaches g roots k frames j)
    (ha : advance frames (j.record (.round k)) = (some (s, fs), j')) (hn : s.next? = none)
    (hk : k < m) : run g roots m = ⟨.solved s, fs, j'⟩ := by
  obtain ⟨n, rfl⟩ := Nat.exists_eq_add_of_le hk
  rw [Nat.succ_add_eq_add_succ, run_of_reaches h, rounds]
  simp only [ha, hn]

theorem run_of_exhausted (h : Reaches g roots k frames j)
    (ha : advance frames (j.record (.round k)) = (none, j')) (hk : k < m) :
    run g roots m = ⟨.exhausted, [], j'⟩ := by
  obtain ⟨n, rfl⟩ := Nat.exists_eq_add_of_le hk
  rw [Nat.succ_add_eq_add_succ, run_of_reaches h, rounds]
  simp only [ha]

theorem run_of_failed {name : String} {c : Constraint} {e : Text.PrintError}
    (h : Reaches g roots k frames j)
    (ha : advance frames (j.record (.round k)) = (some (s, fs), j')) (hn : s.next? = some (name, c))
    (hf : g.findCandidates name c = .error e) (hk : k < m) :
    run g roots m = ⟨.failed e, fs, j'⟩ := by
  obtain ⟨n, rfl⟩ := Nat.exists_eq_add_of_le hk
  rw [Nat.succ_add_eq_add_succ, run_of_reaches h, rounds]
  simp only [ha, hn, openFrame_eq_error_iff.mpr hf]

theorem run_of_failedAtStart {name : String} {c : Constraint} {e : Text.PrintError}
    (hn : (State.initial roots).next? = some (name, c)) (hf : g.findCandidates name c = .error e) :
    run g roots m = ⟨.failed e, [], Journal.empty⟩ := by
  rw [run, hn]
  simp only [openFrame_eq_error_iff.mpr hf]

theorem run_of_reaches_self (h : Reaches g roots k frames j) :
    run g roots k = ⟨.outOfRounds, frames, j⟩ :=
  run_of_reaches h 0

/-- The result is fixed by the catalog, the roots and the limit. -/
theorem run_of_ends {limit : Nat} {r : Run} (h : Ends g roots limit r) : run g roots limit = r := by
  cases h with
  | idle hn => rw [run, hn]
  | solved hr hk ha hn => exact run_of_solved hr ha hn hk
  | exhausted hr hk ha => exact run_of_exhausted hr ha hk
  | outOfRounds hr => exact run_of_reaches_self hr
  | failedAtStart hn hf => exact run_of_failedAtStart hn hf
  | failed hr hk ha hn hf => exact run_of_failed hr ha hn hf hk

/-- A point of the run is fixed by the number of rounds before it. -/
theorem reaches_unique {frames' : List Frame} (h : Reaches g roots k frames j)
    (h' : Reaches g roots k frames' j') : frames = frames' ∧ j = j' := by
  have heq := (run_of_reaches_self h).symm.trans (run_of_reaches_self h')
  cases heq
  exact ⟨rfl, rfl⟩

theorem exists_reaches_of_le (h : Reaches g roots k frames j) (hm : m ≤ k) :
    ∃ frames' j', Reaches g roots m frames' j' := by
  induction h with
  | start hn hf =>
    obtain rfl := Nat.le_zero.mp hm
    exact ⟨_, _, .start hn hf⟩
  | @next k _ _ _ _ _ _ _ _ _ hr ha hn hf ih =>
    rcases Nat.le_succ_iff.mp hm with hm | rfl
    · exact ih hm
    · exact ⟨_, _, .next hr ha hn hf⟩

/-- The rounds are used up at every point that the run reaches, if the limit lies there. -/
theorem outOfRounds_of_reaches (h : Reaches g roots k frames j) (hm : m ≤ k) :
    (run g roots m).ending = .outOfRounds := by
  obtain ⟨frames', j', h'⟩ := exists_reaches_of_le h hm
  rw [run_of_reaches_self h']

theorem pinsAt_branch (h : PinsAt g roots k fs s) : Branch g roots fs s := by
  obtain ⟨frames, j, j', hr, ha⟩ := h
  obtain ⟨f, fs', s', rfl, hb, ho, _⟩ := branch_of_reaches hr
  exact advances_of_advance hb ho ha

end Search
end PackageResolution
