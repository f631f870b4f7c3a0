import PackageResolution.Graph.Reach
import PackageResolution.Proofs.Branches
import PackageResolution.Search

/-!
# PackageResolution.Proofs.DepthFirst

The search as a recursion. Each name takes its candidates in order, and what follows from a
candidate is searched in full before the next one is tried. A stack of open choices is a recursion
that has been interrupted: `resume` goes on with it.

* `State.dfs`, `State.tryEach`: the recursion, with the causes of the latest conflict.
* `resume`: what the recursion does with the choices that are left in a stack of frames.
* `dfs_total`: the recursion comes to an end.
-/

namespace PackageResolution
namespace Search

/-- The final state, if there is one, and the causes of the latest conflict. -/
abbrev Verdict := Option State × List Requirement

mutual

/-- Decides all that is pending. `causes` are those of the latest conflict before. -/
def State.dfs (g : Catalog) (s : State) (causes : List Requirement) : Option Verdict :=
  match s.next? with
  | none => some (some s, causes)
  | some (name, c) =>
    match g.candidates name c with
    | [] => some (none, s.known name)
    | p :: ps => s.withdraw name |>.tryEach g name (p :: ps) causes
partial_fixpoint

/-- Takes the first candidate from which all that is pending can be decided. -/
def State.tryEach (g : Catalog) (name : String) (base : State) (candidates : List Package)
    (causes : List Requirement) : Option Verdict :=
  match candidates with
  | [] => some (none, causes)
  | p :: ps =>
    match base.pin name p with
    | .error causes' => base |>.tryEach g name ps causes'
    | .ok s => do
      match ← s |>.dfs g causes with
      | (some final, causes') => some (some final, causes')
      | (none, causes') => base |>.tryEach g name ps causes'
partial_fixpoint

end

open State (dfs tryEach)

/-- Goes on with `k` if the search so far has failed. -/
def orElse (k : List Requirement → Option Verdict) : Verdict → Option Verdict
  | (some s, causes) => some (some s, causes)
  | (none, causes) => k causes

/-- Searches the candidates that are left in the frames, the topmost frame first. -/
def resume (g : Catalog) : List Frame → List Requirement → Option Verdict
  | [], causes => some (none, causes)
  | f :: fs, causes => (tryEach g f.name f.base f.candidates causes).bind (orElse (resume g fs))

variable {g : Catalog} {roots : OrderedMap String Constraint}

theorem bind_orElse_orElse (o : Option Verdict) (k k' : List Requirement → Option Verdict) :
    (o.bind (orElse k)).bind (orElse k') =
      o.bind (orElse fun causes => (k causes).bind (orElse k')) := by
  match o with
  | none => rfl
  | some (none, _) => rfl
  | some (some _, _) => rfl

theorem bind_orElse_none (o : Option Verdict) :
    o.bind (orElse fun causes => some (none, causes)) = o := by
  match o with
  | none => rfl
  | some (none, _) => rfl
  | some (some _, _) => rfl

/-! ## One step of the recursion -/

section Step

variable {name : String} {base s : State} {p : Package} {ps : List Package}
  {causes : List Requirement}

theorem dfs_of_next?_eq_none (h : s.next? = none) : dfs g s causes = some (some s, causes) := by
  rw [dfs, h]

theorem tryEach_nil : tryEach g name base [] causes = some (none, causes) := by
  rw [tryEach]

theorem tryEach_of_error {causes' : List Requirement} (h : base.pin name p = .error causes') :
    tryEach g name base (p :: ps) causes = tryEach g name base ps causes' := by
  rw [tryEach]
  simp only [h]

theorem tryEach_of_ok (h : base.pin name p = .ok s) :
    tryEach g name base (p :: ps) causes =
      (dfs g s causes).bind (orElse (tryEach g name base ps)) := by
  rw [tryEach]
  simp only [h]
  match dfs g s causes with
  | none => rfl
  | some (none, _) => rfl
  | some (some _, _) => rfl

end Step

/-! ## The stack as an interrupted recursion -/

theorem tryEach_of_tryCandidates {name : String} {base s : State} {p : Package}
    {ps rest : List Package} {j j' : Journal}
    (h : tryCandidates name base ps j = (some (s, p, rest), j')) :
    tryEach g name base ps j.causes =
      (dfs g s j'.causes).bind (orElse (tryEach g name base rest)) := by
  induction ps generalizing j with
  | nil => cases h
  | cons q qs ih =>
    rw [tryCandidates] at h
    split at h
    · rename_i hq; cases h; exact tryEach_of_ok hq
    · rename_i causes hq; rw [tryEach_of_error hq]; exact ih h

theorem tryEach_of_tryCandidates_eq_none {name : String} {base : State} {ps : List Package}
    {j j' : Journal} (h : tryCandidates name base ps j = (none, j')) :
    tryEach g name base ps j.causes = some (none, j'.causes) := by
  induction ps generalizing j with
  | nil => cases h; exact tryEach_nil
  | cons q qs ih =>
    rw [tryCandidates] at h
    split at h
    · cases h
    · rename_i causes hq; rw [tryEach_of_error hq]; exact ih h

theorem resume_of_advance {frames fs : List Frame} {s : State} {j j' : Journal}
    (h : advance frames j = (some (s, fs), j')) :
    resume g frames j.causes = (dfs g s j'.causes).bind (orElse (resume g fs)) := by
  induction frames generalizing j with
  | nil => cases h
  | cons f frames ih =>
    rw [advance] at h
    rw [resume]
    split at h
    · rename_i s' p rest j₁ ht
      cases h
      rw [tryEach_of_tryCandidates ht, bind_orElse_orElse]
      rfl
    · rename_i j₁ ht
      rw [tryEach_of_tryCandidates_eq_none ht]
      exact ih (j := j₁.record (.backtracking f.name)) h

theorem resume_of_advance_eq_none {frames : List Frame} {j j' : Journal}
    (h : advance frames j = (none, j')) : resume g frames j.causes = some (none, j'.causes) := by
  induction frames generalizing j with
  | nil => cases h; rfl
  | cons f frames ih =>
    rw [advance] at h
    rw [resume]
    split at h
    · cases h
    · rename_i j₁ ht
      rw [tryEach_of_tryCandidates_eq_none ht]
      exact ih (j := j₁.record (.backtracking f.name)) h

theorem resume_of_openFrame {s : State} {name : String} {c : Constraint} {f : Frame}
    {fs : List Frame} {j j' : Journal} (hn : s.next? = some (name, c))
    (h : openFrame g s name c j = .ok (f, j')) :
    resume g (f :: fs) j'.causes = (dfs g s j.causes).bind (orElse (resume g fs)) := by
  have hdfs : dfs g s j.causes = tryEach g f.name f.base f.candidates j'.causes := by
    rw [openFrame] at h
    rw [dfs, hn]
    split at h
    · cases h
    · rename_i hc
      cases h
      simp only [Catalog.candidates_of_found hc]
      exact tryEach_nil.symm
    · rename_i p ps hc
      cases h
      simp only [Catalog.candidates_of_found hc]
  rw [resume, hdfs]

/-- Between the rounds, what is left of the recursion gives what the whole of it gives. -/
theorem resume_of_reaches {k : Nat} {frames : List Frame} {j : Journal}
    (h : Reaches g roots k frames j) :
    resume g frames j.causes = dfs g (State.initial roots) [] := by
  induction h with
  | start hn hf =>
    rw [resume_of_openFrame hn hf]
    exact bind_orElse_none _
  | @next k frames fs j j' j'' s name c f _ ha hn hf ih =>
    rw [resume_of_openFrame hn hf, ← resume_of_advance ha]
    exact ih

/-! ## Termination -/

/-- The names with known releases that are not decided yet. -/
def undecided (g : Catalog) (s : State) : List String :=
  without g.repository.releases.keys s.solutions.keys

theorem mem_names_of_mem_candidates {name : String} {c : Constraint} {p : Package}
    (h : p ∈ g.candidates name c) : name ∈ g.repository.releases := by
  have hl := (Catalog.mem_candidates.mp h).1
  rw [Repository.lookup] at hl
  cases hr : g.repository.releases.get? name with
  | none => rw [hr] at hl; exact absurd hl List.not_mem_nil
  | some releases => exact OrderedMap.mem_of_get?_eq_some hr

theorem length_undecided_lt {s s' : State} {name : String} {c : Constraint} {p : Package}
    (hs : s.Apart) (hn : s.next? = some (name, c)) (hp : p ∈ g.candidates name c)
    (h : (s.withdraw name).pin name p = .ok s') :
    (undecided g s').length < (undecided g s).length := by
  have hfree : name ∉ s.solutions := hs name (State.mem_of_next? hn)
  rw [undecided, State.solutions_pin h, OrderedMap.keys_insert_of_not_mem _ hfree]
  exact length_without_lt (mem_names_of_mem_candidates hp) hfree List.mem_cons_self

theorem tryEach_total {name : String} {base : State} {ps : List Package}
    (hdfs : ∀ p ∈ ps, ∀ s, base.pin name p = .ok s → ∀ causes, ∃ v, dfs g s causes = some v)
    (causes : List Requirement) : ∃ v, tryEach g name base ps causes = some v := by
  induction ps generalizing causes with
  | nil => exact ⟨_, tryEach_nil⟩
  | cons p ps ih =>
    rw [List.forall_mem_cons] at hdfs
    cases hp : base.pin name p with
    | error causes' => rw [tryEach_of_error hp]; exact ih hdfs.2 causes'
    | ok s =>
      obtain ⟨⟨final, causes'⟩, hv⟩ := hdfs.1 s hp causes
      rw [tryEach_of_ok hp, hv]
      cases final with
      | none => exact ih hdfs.2 causes'
      | some final => exact ⟨_, rfl⟩

theorem dfs_total {s : State} (hs : s.Apart) (causes : List Requirement) :
    ∃ v, dfs g s causes = some v := by
  -- on the number of undecided names: a choice takes its name away for all that follows
  induction hk : (undecided g s).length using Nat.strongRecOn generalizing s causes with
  | ind k ih =>
    rw [dfs]
    split
    · exact ⟨_, rfl⟩
    · rename_i name c hn
      split
      · exact ⟨_, rfl⟩
      · rename_i p ps hc
        refine tryEach_total (fun q hq s' hpin causes' => ?_) causes
        have hlt := length_undecided_lt hs hn (hc ▸ hq) hpin
        exact ih _ (hk ▸ hlt) (State.apart_pin hs hpin) causes' rfl

/-! ## Whole runs -/

theorem dfs_of_run {limit : Nat} {maxRounds : Int} {answer : Option State}
    (h : (run g roots limit).answer maxRounds = .ok answer) :
    dfs g (State.initial roots) [] = some (answer, (run g roots limit).journal.causes) := by
  have he := ends_run g roots limit
  generalize run g roots limit = r at h he
  cases he with
  | idle hn => cases h; exact dfs_of_next?_eq_none hn
  | solved hr _ ha hn =>
    cases h
    have hs := (resume_of_reaches hr).symm.trans (resume_of_advance ha :)
    rw [dfs_of_next?_eq_none hn] at hs
    exact hs
  | exhausted hr _ ha =>
    cases h
    exact (resume_of_reaches hr).symm.trans (resume_of_advance_eq_none ha :)
  | outOfRounds _ => cases h
  | failedAtStart _ _ => cases h
  | failed _ _ _ _ _ => cases h

/-- A search that comes to an end within its rounds answers what the recursion answers, and the
causes that it keeps are those of the last conflict that the recursion meets. -/
theorem start_refines_dfs {maxRounds : Int} {answer : Option State} {after : Search}
    (h : (ofCatalog g).start roots maxRounds = (.ok answer, after)) :
    dfs g (State.initial roots) [] = some (answer, after.causes) := by
  simp only [start, ofCatalog, Prod.mk.injEq] at h
  obtain ⟨ha, rfl⟩ := h
  exact dfs_of_run ha

theorem detour_refines_dfs :
    ∃ after, (ofCatalog Detour.catalog).start Detour.newerOnly 10 = (.ok none, after) ∧
      after.causes =
        [⟨"a", Detour.atLeast 2, none⟩, ⟨"a", Detour.below 2, some Detour.b₂⟩] ∧
      dfs Detour.catalog (State.initial Detour.newerOnly) [] = some (none, after.causes) := by
  have hstart : ((ofCatalog Detour.catalog).start Detour.newerOnly 10).1 = .ok none := rfl
  exact ⟨_, Prod.ext hstart rfl, rfl, start_refines_dfs (Prod.ext hstart rfl)⟩

end Search
end PackageResolution
