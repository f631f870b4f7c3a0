import Mathlib.Algebra.BigOperators.Group.List.Basic
import Mathlib.Algebra.GroupWithZero.Nat
import PackageResolution.Graph.Reach
import PackageResolution.Proofs.Completeness
import PackageResolution.Proofs.Rounds

/-!
# PackageResolution.Proofs.SearchSpace

How long a search can take. A partial assignment gives some names one of their releases. Each choice
of a search makes another one of them, so there are fewer choices than partial assignments.

* `Repository.partialAssignments`: the number of partial assignments.
* `unexplored`: the partial assignments that a stack of open choices can still lead to.
* `reaches_bound`: a round that makes a choice takes at least one of them away.
* `ne_of_pinsAt`: no round leaves the same stack as one before it.
-/

namespace PackageResolution

open Search

/-- The number of partial assignments: each name takes one of its releases, or none. -/
def Repository.partialAssignments (r : Repository) : Nat :=
  (r.releases.keys.map fun n => 1 + (r.lookup n).length).prod

namespace Search

/-- The number of partial assignments to names that are not among `decided`. -/
def beyond (g : Catalog) (decided : List String) : Nat :=
  ((without g.repository.releases.keys decided).map
    fun n => 1 + (g.repository.lookup n).length).prod

/-- The partial assignments in which the frame makes another choice than it has tried so far. -/
def Frame.unexplored (g : Catalog) (f : Frame) : Nat :=
  f.candidates.length * beyond g (f.base.solutions.keys ++ [f.name])

def unexplored (g : Catalog) (frames : List Frame) : Nat :=
  (frames.map (Frame.unexplored g)).sum

variable {g : Catalog} {roots : OrderedMap String Constraint} {k l : Nat}
  {frames fs fs' : List Frame} {s s' : State} {j j' : Journal}

/-! ## Counting partial assignments -/

theorem beyond_nil (g : Catalog) : beyond g [] = g.repository.partialAssignments := by
  simp [beyond, without, Repository.partialAssignments]

theorem beyond_pos (g : Catalog) (decided : List String) : 0 < beyond g decided := by
  rw [beyond, List.prod_pos_iff_forall_pos_nat]
  intro x hx
  obtain ⟨n, _, rfl⟩ := List.mem_map.mp hx
  omega

theorem without_append_singleton (keys decided : List String) (name : String) :
    without keys (decided ++ [name]) = (without keys decided).filter (· != name) := by
  simp only [without]
  rw [List.filter_filter]
  apply List.filter_congr
  intro n _
  simp only [List.mem_append, List.mem_singleton, not_or, bne]
  by_cases hn : n = name <;> simp [hn]

theorem beyond_of_mem {decided : List String} {name : String} (h : name ∈ decided) :
    beyond g (decided ++ [name]) = beyond g decided := by
  have hsame : without g.repository.releases.keys (decided ++ [name]) =
      without g.repository.releases.keys decided := by
    apply List.filter_congr
    intro n _
    simp only [List.mem_append, List.mem_singleton]
    grind
  rw [beyond, hsame, beyond]

/-- An undecided name takes one of its releases or none, whatever the other names take. -/
theorem beyond_of_not_mem {decided : List String} {name : String} (h : name ∉ decided) :
    beyond g decided =
      (1 + (g.repository.lookup name).length) * beyond g (decided ++ [name]) := by
  rw [beyond, beyond, without_append_singleton]
  by_cases hk : name ∈ g.repository.releases
  · have hmem : name ∈ without g.repository.releases.keys decided := by
      simp only [without, List.mem_filter, decide_eq_true_eq]
      exact ⟨hk, h⟩
    have hd : (without g.repository.releases.keys decided).Nodup :=
      g.repository.releases.keys_nodup.filter _
    rw [← hd.erase_eq_filter name]
    exact (List.prod_map_erase _ hmem).symm
  · have hsame : (without g.repository.releases.keys decided).filter (· != name) =
        without g.repository.releases.keys decided := by
      rw [List.filter_eq_self]
      intro n hn
      have hne : n ≠ name := by
        rintro rfl
        exact hk (List.mem_filter.mp hn).1
      simpa using hne
    rw [hsame, Repository.lookup_of_not_mem hk, List.length_nil, Nat.add_zero, Nat.one_mul]

/-! ## What is left to explore -/

theorem beyond_insert (m : OrderedMap String Version) (name : String) (v : Version) :
    beyond g (m.insert name v).keys = beyond g (m.keys ++ [name]) := by
  rw [OrderedMap.keys_insert]
  split
  · rename_i h; exact (beyond_of_mem h).symm
  · rfl

theorem length_found_le {name : String} {c : Constraint} {ps : List Package}
    (h : g.findCandidates name c = .ok ps) : ps.length ≤ (g.repository.lookup name).length := by
  rw [← Catalog.candidates_of_found h, Catalog.candidates, length_stableSort]
  exact List.length_filter_le _ _

/-- Opening a choice leaves one partial assignment out: the one that has been made. -/
theorem unexplored_openFrame {name : String} {c : Constraint} {f : Frame} (hs : s.Apart)
    (hn : s.next? = some (name, c)) (h : openFrame g s name c j = .ok (f, j')) :
    f.unexplored g + 1 ≤ beyond g s.solutions.keys := by
  obtain ⟨ps, hc, rfl⟩ := frame_of_openFrame h
  have hfree : name ∉ s.solutions.keys := hs name (State.mem_of_next? hn)
  have hle := Nat.mul_le_mul_right (beyond g (s.solutions.keys ++ [name]))
    (length_found_le hc)
  have hpos := beyond_pos g (s.solutions.keys ++ [name])
  rw [beyond_of_not_mem hfree, Nat.add_mul, Nat.one_mul]
  simp only [Frame.unexplored, State.withdraw_solutions]
  omega

/-- A choice is paid for by the candidates that it uses up. -/
theorem unexplored_advance (h : advance frames j = (some (s, fs), j')) :
    beyond g s.solutions.keys + unexplored g fs ≤ unexplored g frames := by
  induction frames generalizing j with
  | nil => cases h
  | cons f frames ih =>
    rw [advance] at h
    split at h
    · rename_i s' p rest j₁ ht
      cases h
      obtain ⟨refused, hc, _, hp⟩ := split_of_tryCandidates ht
      have hsol : s.solutions = f.base.solutions.insert f.name p.version :=
        State.solutions_requireAll hp
      have hlen : rest.length + 1 ≤ f.candidates.length := by
        rw [hc, List.length_append, List.length_cons]
        omega
      have hmul := Nat.mul_le_mul_right (beyond g (f.base.solutions.keys ++ [f.name])) hlen
      rw [Nat.add_mul, Nat.one_mul] at hmul
      simp only [unexplored, List.map_cons, List.sum_cons, Frame.unexplored, hsol, beyond_insert]
      omega
    · have hle := ih h
      simp only [unexplored, List.map_cons, List.sum_cons] at hle ⊢
      omega

theorem unexplored_next {f : Frame} {name : String} {c : Constraint} {j'' : Journal}
    (hr : Reaches g roots k frames j)
    (ha : advance frames (j.record (.round k)) = (some (s, fs), j'))
    (hn : s.next? = some (name, c)) (hf : openFrame g s name c j' = .ok (f, j'')) :
    unexplored g (f :: fs) + 1 ≤ beyond g s.solutions.keys + unexplored g fs := by
  have hb := pinsAt_branch ⟨frames, j, j', hr, ha⟩
  have hopen := unexplored_openFrame hb.apart hn hf
  simp only [unexplored, List.map_cons, List.sum_cons] at hopen ⊢
  omega

/-- The choices so far and the partial assignments that are left do not add up to all of them. -/
theorem reaches_bound (h : Reaches g roots k frames j) :
    k + unexplored g frames + 1 ≤ g.repository.partialAssignments := by
  induction h with
  | start hn hf =>
    have hs : (State.initial roots).Apart := (Branch.start (g := g)).apart
    have hopen := unexplored_openFrame hs hn hf
    rw [← beyond_nil]
    simpa [unexplored, State.initial, OrderedMap.empty, OrderedMap.keys] using hopen
  | next hr ha hn hf ih =>
    have hpaid := unexplored_advance (g := g) ha
    have hopen := unexplored_next hr ha hn hf
    omega

theorem pinsAt_bound (h : PinsAt g roots k fs s) :
    k + 1 < g.repository.partialAssignments := by
  obtain ⟨frames, j, j', hr, ha⟩ := h
  have hbound := reaches_bound hr
  have hpaid := unexplored_advance (g := g) ha
  have hpos := beyond_pos g s.solutions.keys
  omega

/-! ## No choice is made twice -/

/-- From one choice to a later point of the run, less is left to explore. -/
theorem unexplored_lt (h : Reaches g roots l frames j) (hp : PinsAt g roots k fs s) (hk : k < l) :
    unexplored g frames < beyond g s.solutions.keys + unexplored g fs := by
  induction h with
  | start _ _ => exact absurd hk (Nat.not_lt_zero k)
  | @next l _ _ _ _ _ _ _ _ _ hr ha hn hf ih =>
    have hopen := unexplored_next hr ha hn hf
    rcases Nat.lt_succ_iff_lt_or_eq.mp hk with hk | rfl
    · have hpaid := unexplored_advance (g := g) ha
      have hlt := ih hk
      omega
    · obtain ⟨frames', j₁, j₂, hr', ha'⟩ := hp
      obtain ⟨rfl, rfl⟩ := reaches_unique hr hr'
      rw [ha] at ha'
      cases ha'
      exact hopen

/-- No round leaves the stack that a round before it has left. -/
theorem ne_of_pinsAt (h : PinsAt g roots k fs s) (h' : PinsAt g roots l fs' s') (hk : k < l) :
    (fs, s) ≠ (fs', s') := by
  intro he
  cases he
  obtain ⟨frames, j, j', hr, ha⟩ := h'
  have hlt := unexplored_lt hr h hk
  have hpaid := unexplored_advance (g := g) ha
  omega

/-! ## Whole runs -/

theorem partialAssignments_pos (g : Catalog) : 0 < g.repository.partialAssignments :=
  beyond_nil g ▸ beyond_pos g []

theorem pins_run_lt (g : Catalog) (roots : OrderedMap String Constraint) (limit : Nat) :
    pins (run g roots limit).journal.events < g.repository.partialAssignments := by
  have he := ends_run g roots limit
  generalize run g roots limit = r at he
  rw [pins_events]
  cases he with
  | idle _ => exact partialAssignments_pos g
  | solved hr _ ha _ =>
    have hbound := pinsAt_bound ⟨_, _, _, hr, ha⟩
    rw [pins_of_advance ha, pins_record, pins_of_reaches hr]
    exact hbound
  | exhausted hr _ ha =>
    have hbound := reaches_bound hr
    rw [pins_of_advance_eq_none ha, pins_record, pins_of_reaches hr]
    simp only [Event.isPinning, Bool.false_eq_true, if_false]
    omega
  | outOfRounds hr =>
    have hbound := reaches_bound hr
    rw [pins_of_reaches hr]
    omega
  | failedAtStart _ _ => exact partialAssignments_pos g
  | failed hr _ ha _ _ =>
    have hbound := pinsAt_bound ⟨_, _, _, hr, ha⟩
    rw [pins_of_advance ha, pins_record, pins_of_reaches hr]
    exact hbound

theorem lt_of_outOfRounds {limit : Nat} (h : (run g roots limit).ending = .outOfRounds) :
    limit < g.repository.partialAssignments := by
  have he := ends_run g roots limit
  generalize run g roots limit = r at h he
  cases he with
  | idle _ => cases h
  | solved _ _ _ _ => cases h
  | exhausted _ _ _ => cases h
  | outOfRounds hr =>
    have hbound := reaches_bound hr
    omega
  | failedAtStart _ _ => cases h
  | failed _ _ _ _ _ => cases h

end Search
end PackageResolution
