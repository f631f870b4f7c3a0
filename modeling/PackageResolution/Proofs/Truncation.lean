import PackageResolution.Proofs.Rounds
import PackageResolution.Search

/-!
# PackageResolution.Proofs.Truncation

A limit on the rounds cuts a search off and does nothing else. With a larger limit the search begins
in the same way, goes on from the choices that were open, and adds to what has been reported.

* `runStacks`: the open choices at every point between the rounds of a run.
* `latest_rounds`: what has been reported stays reported.
* `runStacks_of_reaches`: a run passes through every point that the search reaches within its limit.
-/

namespace PackageResolution
namespace Search

/-- The open choices before the first of `n` rounds and after each of them, as far as there is
something left to choose and to try. -/
def roundStacks (g : Catalog) :
    (n : Nat) → (index : Nat) → List Frame → Journal → List (List Frame)
  | 0, _, frames, _ => [frames]
  | n + 1, index, frames, j =>
    frames ::
      match advance frames (j.record (.round index)) with
      | (none, _) => [[]]
      | (some (s, frames'), j') =>
        match s.next? with
        | none => [frames']
        | some (name, c) =>
          match openFrame g s name c j' with
          | .error _ => [frames']
          | .ok (f, j'') => roundStacks g n (index + 1) (f :: frames') j''

/-- The open choices at the start of a run in at most `limit` rounds and after each round. -/
def runStacks (g : Catalog) (roots : OrderedMap String Constraint) (limit : Nat) :
    List (List Frame) :=
  match (State.initial roots).next? with
  | none => [[]]
  | some (name, c) =>
    match openFrame g (State.initial roots) name c Journal.empty with
    | .error _ => [[]]
    | .ok (f, j) => roundStacks g limit 0 [f] j

/-- The releases that a run in at most `limit` rounds has chosen just after its first `k` rounds. -/
def packagesAfter (g : Catalog) (roots : OrderedMap String Constraint) (limit k : Nat) :
    Option (OrderedMap String Package) :=
  (runStacks g roots limit)[k]?.map fun frames => OrderedMap.ofList (choices frames)

variable {g : Catalog} {roots : OrderedMap String Constraint} {k m : Nat} {frames : List Frame}
  {s : State} {j j' : Journal}

/-! ## The stacks of a run -/

theorem getLast?_roundStacks (g : Catalog) (n index : Nat) (frames : List Frame) (j : Journal) :
    (roundStacks g n index frames j).getLast? = some (rounds g n index frames j).frames := by
  induction n generalizing index frames j with
  | zero => rfl
  | succ n ih =>
    rw [roundStacks, rounds, List.getLast?_cons]
    rcases advance frames (j.record (.round index)) with ⟨_ | ⟨s, frames'⟩, j'⟩
    · rfl
    · cases hn : s.next? with
      | none => simp only [hn]; rfl
      | some e =>
        cases hf : openFrame g s e.1 e.2 j' with
        | error _ => simp only [hn, hf]; rfl
        | ok x => simp only [hn, hf, ih]; rfl

/-- The last of the stacks is the one that the run ends with. -/
theorem getLast?_runStacks (g : Catalog) (roots : OrderedMap String Constraint) (limit : Nat) :
    (runStacks g roots limit).getLast? = some (run g roots limit).frames := by
  rw [runStacks, run]
  cases hn : (State.initial roots).next? with
  | none => rfl
  | some e =>
    cases hf : openFrame g (State.initial roots) e.1 e.2 Journal.empty with
    | error _ => simp only [hf]; rfl
    | ok x => simp only [hf]; exact getLast?_roundStacks g limit 0 _ _

theorem runStacks_of_reaches (h : Reaches g roots k frames j) (n : Nat) :
    ∃ before, before.length = k ∧
      runStacks g roots (k + n) = before ++ roundStacks g n k frames j := by
  induction h generalizing n with
  | start hn hf =>
    refine ⟨[], rfl, ?_⟩
    rw [runStacks, hn, Nat.zero_add]
    simp only [hf, List.nil_append]
  | @next k frames fs j j' j'' s name c f _ ha hn hf ih =>
    obtain ⟨before, hlen, hs⟩ := ih (n + 1)
    refine ⟨before ++ [frames], by simp [hlen], ?_⟩
    rw [Nat.add_right_comm k 1 n, Nat.add_assoc, hs, roundStacks]
    simp only [ha, hn, hf, List.append_assoc, List.singleton_append]

theorem head?_roundStacks (g : Catalog) (n index : Nat) (frames : List Frame) (j : Journal) :
    (roundStacks g n index frames j).head? = some frames := by
  cases n <;> rfl

theorem getElem?_runStacks (h : Reaches g roots k frames j) (hm : k ≤ m) :
    (runStacks g roots m)[k]? = some frames := by
  obtain ⟨n, rfl⟩ := Nat.exists_eq_add_of_le hm
  obtain ⟨before, hlen, hs⟩ := runStacks_of_reaches h n
  rw [hs, List.getElem?_append_right (Nat.le_of_eq hlen), hlen, Nat.sub_self,
    ← List.head?_eq_getElem?]
  exact head?_roundStacks g n k frames j

/-! ## What has been reported -/

theorem latest_record (j : Journal) (e : Event) : j.latest <:+ (j.record e).latest :=
  List.suffix_cons e j.latest

theorem latest_tryCandidates {name : String} {base : State} {ps : List Package}
    {o : Option (State × Package × List Package)} (h : tryCandidates name base ps j = (o, j')) :
    j.latest <:+ j'.latest := by
  induction ps generalizing j with
  | nil => cases h; exact List.suffix_rfl
  | cons p ps ih =>
    rw [tryCandidates] at h
    split at h
    · cases h; exact List.suffix_rfl
    · rename_i causes _
      exact (latest_record (j.blame causes) (.rejecting p causes)).trans (ih h)

theorem latest_advance {o : Option (State × List Frame)} (h : advance frames j = (o, j')) :
    j.latest <:+ j'.latest := by
  induction frames generalizing j with
  | nil => cases h; exact List.suffix_rfl
  | cons f frames ih =>
    rw [advance] at h
    split at h
    · rename_i ht; cases h; exact (latest_tryCandidates ht).trans (latest_record _ _)
    · rename_i ht; exact ((latest_tryCandidates ht).trans (latest_record _ _)).trans (ih h)

theorem latest_rounds (g : Catalog) (n index : Nat) (frames : List Frame) (j : Journal) :
    j.latest <:+ (rounds g n index frames j).journal.latest := by
  induction n generalizing index frames j with
  | zero => exact List.suffix_rfl
  | succ n ih =>
    have hround := latest_record j (.round index)
    rw [rounds]
    split
    · rename_i ha; exact hround.trans (latest_advance ha)
    · rename_i s frames' j' ha
      split
      · exact hround.trans (latest_advance ha)
      · split
        · exact hround.trans (latest_advance ha)
        · rename_i f j'' hf
          have hopen : j''.latest = j'.latest := latest_openFrame hf
          exact (hround.trans (latest_advance ha)).trans (hopen ▸ ih (index + 1) _ _)

/-! ## Two limits -/

/-- What ends within its limit ends in the same way within a larger one. -/
theorem ends_of_le {limit : Nat} {r : Run} (h : Ends g roots limit r)
    (hr : r.ending ≠ .outOfRounds) (hm : limit ≤ m) : Ends g roots m r := by
  cases h with
  | idle hn => exact .idle hn
  | solved h hk ha hn => exact .solved h (Nat.lt_of_lt_of_le hk hm) ha hn
  | exhausted h hk ha => exact .exhausted h (Nat.lt_of_lt_of_le hk hm) ha
  | outOfRounds _ => exact absurd rfl hr
  | failedAtStart hn hf => exact .failedAtStart hn hf
  | failed h hk ha hn hf => exact .failed h (Nat.lt_of_lt_of_le hk hm) ha hn hf

theorem run_of_le (h : (run g roots k).ending ≠ .outOfRounds) (hm : k ≤ m) :
    run g roots m = run g roots k :=
  run_of_ends (ends_of_le (ends_run g roots k) h hm)

theorem reaches_of_outOfRounds (h : (run g roots k).ending = .outOfRounds) :
    Reaches g roots k (run g roots k).frames (run g roots k).journal := by
  have he := ends_run g roots k
  generalize run g roots k = r at h he
  cases he with
  | idle _ => cases h
  | solved _ _ _ _ => cases h
  | exhausted _ _ _ => cases h
  | outOfRounds hr => exact hr
  | failedAtStart _ _ => cases h
  | failed _ _ _ _ _ => cases h

theorem events_of_outOfRounds (h : (run g roots k).ending = .outOfRounds) (hm : k ≤ m) :
    (run g roots k).journal.events <+: (run g roots m).journal.events := by
  obtain ⟨n, rfl⟩ := Nat.exists_eq_add_of_le hm
  rw [run_of_reaches (reaches_of_outOfRounds h)]
  exact List.reverse_prefix.mpr (latest_rounds g n k _ _)

theorem report_congr {r : Run} (h : r.ending ≠ .outOfRounds) (m m' : Int) :
    r.report roots m = r.report roots m' := by
  unfold Run.report
  split
  · rename_i he; exact absurd he h
  · rfl
  · rfl
  · rfl

theorem prefix_report (r : Run) (roots : OrderedMap String Constraint) (m : Int) :
    .starting roots :: r.journal.events <+: (r.report roots m).events := by
  obtain ⟨closing, hevents, _⟩ := events_report r roots m
  rw [hevents, ← List.cons_append]
  exact List.prefix_append _ _

end Search

open Search

variable {g : Catalog} {roots : OrderedMap String Constraint}

/-- A search that ends within its limit has the same outcome within every larger one, by way of the
same events. One that is cut off has reported what a search with a larger limit reports first, and
leaves open the choices that such a search has made after as many rounds. -/
theorem limit_only_truncates (g : Catalog) (roots : OrderedMap String Constraint) {m m' : Int}
    (hm : m ≤ m') :
    ((solve g roots m).result ≠ .error (.tooDeep m) → solve g roots m' = solve g roots m) ∧
    ((solve g roots m).result = .error (.tooDeep m) →
      (solve g roots m).events <+: (solve g roots m').events ∧
      ∃ after, (ofCatalog g).start roots m = (.error (.tooDeep m), after) ∧
        packagesAfter g roots m'.toNat m.toNat = some after.packages) := by
  have hle : m.toNat ≤ m'.toNat := Int.toNat_le_toNat hm
  constructor
  · intro h
    have hend : (run g roots m.toNat).ending ≠ .outOfRounds := mt result_report_iff.mpr h
    rw [solve, solve, run_of_le hend hle, report_congr hend]
  · intro h
    have hend : (run g roots m.toNat).ending = .outOfRounds := result_report_iff.mp h
    refine ⟨?_, ((ofCatalog g).start roots m).2, ?_, ?_⟩
    · have hevents : (solve g roots m).events =
          .starting roots :: (run g roots m.toNat).journal.events := by
        rw [solve, Run.report, hend]
      have hprefix := events_of_outOfRounds hend hle
      rw [← List.prefix_cons_inj (.starting roots), ← hevents] at hprefix
      exact hprefix.trans (prefix_report _ roots m')
    · exact Prod.ext (by simp [start, ofCatalog, Run.answer, hend]) rfl
    · rw [packagesAfter, getElem?_runStacks (reaches_of_outOfRounds hend) hle]
      rfl

theorem detour_truncated :
    (1 : Int) ≤ 10 ∧
      (solve Detour.catalog Detour.demands 1).result = .error (.tooDeep 1) ∧
      (solve Detour.catalog Detour.demands 1).events <+:
        (solve Detour.catalog Detour.demands 10).events ∧
      (∃ after, (ofCatalog Detour.catalog).start Detour.demands 1 = (.error (.tooDeep 1), after) ∧
        after.packages.entries = [("a", Detour.a₂)] ∧
        packagesAfter Detour.catalog Detour.demands 10 1 = some after.packages) ∧
      (10 : Int) ≤ 20 ∧
      (solve Detour.catalog Detour.demands 10).result ≠ .error (.tooDeep 10) ∧
      solve Detour.catalog Detour.demands 20 = solve Detour.catalog Detour.demands 10 := by
  have hdeep : (solve Detour.catalog Detour.demands 1).result = .error (.tooDeep 1) := rfl
  have hfound : ∃ o, (solve Detour.catalog Detour.demands 10).result = .ok o := ⟨_, rfl⟩
  have hne : (solve Detour.catalog Detour.demands 10).result ≠ .error (.tooDeep 10) := by
    obtain ⟨o, ho⟩ := hfound
    rw [ho]
    exact nofun
  have hten : (1 : Int) ≤ 10 := by decide
  have htwenty : (10 : Int) ≤ 20 := by decide
  obtain ⟨hevents, after, hafter, hpackages⟩ :=
    (limit_only_truncates Detour.catalog Detour.demands hten).2 hdeep
  have hsame := (limit_only_truncates Detour.catalog Detour.demands htwenty).1 hne
  refine ⟨hten, hdeep, hevents, ⟨after, hafter, ?_, hpackages⟩, htwenty, hne, hsame⟩
  have hchosen : ((ofCatalog Detour.catalog).start Detour.demands 1).2.packages.entries =
    [("a", Detour.a₂)] := rfl
  rw [hafter] at hchosen
  exact hchosen

end PackageResolution
