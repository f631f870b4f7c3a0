import PackageResolution.Proofs.Completeness
import PackageResolution.Proofs.Exploration
import PackageResolution.Proofs.Thinning

/-!
# PackageResolution.Proofs.Removal

Taking away releases that a solution does not use. The search for the solution then meets fewer dead
ends, so its rounds are different, but it comes to the same choices in the same order, and not
later.

* `Explores.of_sublist`: what fails keeps failing, with no more choices than before.
* `Explores.of_retains`: what is found is found again, as long as the releases in it are kept.
* `solve_of_removal`: the solution stays as it is.
-/

namespace PackageResolution

open Search

namespace Search

variable {g g' : Catalog} {name name' : String} {base base' : State} {p : Package}
  {ps ps' : List Package} {x : Finding} {n : Nat}

theorem attempt_refused (h : attempt g name base p = .refused) :
    attempt g' name base p = .refused :=
  attempt_eq_refused_iff.mpr (attempt_eq_refused_iff.mp h)

theorem attempt_finished {s : State} (h : attempt g name base p = .finished s) :
    attempt g' name base p = .finished s :=
  attempt_eq_finished_iff.mpr (attempt_eq_finished_iff.mp h)

/-- Taking releases away shows in the candidates that a choice opens, and in nothing else. -/
theorem attempt_of_thinned (hg : g.Thinned g')
    (h : attempt g name base p = .opened name' base' ps) :
    ∃ ps', attempt g' name base p = .opened name' base' ps' ∧ ps'.Sublist ps ∧
      ∀ q ∈ ps, Retains q (g.repository.lookup name') (g'.repository.lookup name') →
        Retains q ps ps' := by
  obtain ⟨s, c, hp, hn, hf, hbase⟩ := attempt_eq_opened_iff.mp h
  obtain ⟨ps', hf', hs, hr⟩ := hg.findCandidates hf
  exact ⟨ps', attempt_eq_opened_iff.mpr ⟨s, c, hp, hn, hf', hbase⟩, hs, hr⟩

namespace Explores

theorem of_sublist (hg : g.Thinned g') (h : Explores g name base ps (.ok none) n)
    (hs : ps'.Sublist ps) : ∃ n' ≤ n, Explores g' name base ps' (.ok none) n' := by
  generalize ho : Except.ok none = o at h
  induction h generalizing ps' with
  | nil => cases hs; exact ⟨0, le_rfl, ho ▸ .nil⟩
  | refused hp _ ih =>
    cases hs with
    | cons _ hs => exact ih hs ho
    | cons_cons _ hs =>
      obtain ⟨n', hle, h'⟩ := ih hs ho
      exact ⟨n', hle, .refused (attempt_refused hp) h'⟩
  | failed hp _ _ ihbelow ih =>
    cases hs with
    | cons _ hs =>
      obtain ⟨n', hle, h'⟩ := ih hs ho
      exact ⟨n', by omega, h'⟩
    | cons_cons _ hs =>
      obtain ⟨_, hp', hbelow, _⟩ := attempt_of_thinned hg hp
      obtain ⟨m', hlem, hbelow'⟩ := ihbelow hbelow rfl
      obtain ⟨n', hlen, h'⟩ := ih hs ho
      exact ⟨1 + m' + n', by omega, .failed hp' hbelow' h'⟩
  | finished _ => cases ho
  | found _ _ _ => cases ho
  | blocked _ => cases ho
  | stuck _ _ _ => cases ho

theorem of_retains (hg : g.Thinned g') (h : Explores g name base ps (.ok (some x)) n)
    (hr : Retains x.pick ps ps')
    (hl : ∀ e ∈ x.later, Retains e.2 (g.repository.lookup e.1) (g'.repository.lookup e.1)) :
    ∃ n' ≤ n, Explores g' name base ps' (.ok (some x)) n' := by
  -- on the exploration of `g`: that of `g'` takes the same steps, but for the candidates it lacks
  generalize ho : Except.ok (some x) = o at h
  induction h generalizing ps' x with
  | nil => cases ho
  | refused hp h ih =>
    subst ho
    cases hr with
    | here _ => exact absurd rfl (h.ne_pick_of_refused hp)
    | keep _ hr =>
      obtain ⟨n', hle, h'⟩ := ih hr hl rfl
      exact ⟨n', hle, .refused (attempt_refused hp) h'⟩
    | drop _ hr => exact ih hr hl rfl
  | failed hp hbelow h _ ih =>
    subst ho
    cases hr with
    | here _ => exact absurd rfl (h.ne_pick_of_failed hp hbelow)
    | keep _ hr =>
      obtain ⟨_, hp', hs, _⟩ := attempt_of_thinned hg hp
      obtain ⟨m', hlem, hbelow'⟩ := hbelow.of_sublist hg hs
      obtain ⟨n', hlen, h'⟩ := ih hr hl rfl
      exact ⟨1 + m' + n', by omega, .failed hp' hbelow' h'⟩
    | drop _ hr =>
      obtain ⟨n', hle, h'⟩ := ih hr hl rfl
      exact ⟨n', by omega, h'⟩
  | finished hp =>
    cases ho
    obtain ⟨rest, rfl⟩ := hr.exists_cons
    exact ⟨1, le_rfl, .finished (attempt_finished hp)⟩
  | @found name name' base base' p ps below y m hp h ih =>
    cases ho
    rw [Finding.branch, List.forall_mem_cons] at hl
    obtain ⟨below', hp', _, hkept⟩ := attempt_of_thinned hg hp
    have hbelow : Retains y.pick below below' := hkept y.pick h.picked.1 hl.1
    obtain ⟨m', hle, h'⟩ := ih hbelow hl.2 rfl
    obtain ⟨rest, rfl⟩ := hr.exists_cons
    exact ⟨1 + m', by omega, .found hp' h'⟩
  | blocked _ => cases ho
  | stuck _ _ _ => cases ho

end Explores
end Search

variable {g g' : Catalog} {roots : OrderedMap String Constraint}

/-- With its releases kept, a search finds the same within the same limit. -/
theorem Search.ending_of_thinned (hg : g.Thinned g') {limit : Nat} {s : State}
    (h : (run g roots limit).ending = .solved s)
    (hr : ∀ e ∈ choices (run g roots limit).frames,
      Retains e.2 (g.repository.lookup e.1) (g'.repository.lookup e.1)) :
    (run g' roots limit).ending = .solved s ∧
      choices (run g' roots limit).frames = choices (run g roots limit).frames := by
  cases hn : (State.initial roots).next? with
  | none =>
    have hidle : ∀ g'', run g'' roots limit = ⟨.solved (State.initial roots), [], .empty⟩ := by
      intro g''
      rw [run, hn]
    rw [hidle] at h
    rw [hidle g, hidle g']
    exact ⟨h, rfl⟩
  | some e =>
    obtain ⟨name, c⟩ := e
    obtain ⟨ps, x, n, hf, hle, hpicks, rfl, hx⟩ := explores_of_ending hn h
    rw [hpicks, Finding.branch, List.forall_mem_cons] at hr
    obtain ⟨ps', hf', _, hkept⟩ := hg.findCandidates hf
    have hps : Retains x.pick ps ps' := hkept x.pick hx.picked.1 hr.1
    obtain ⟨n', hle', hx'⟩ := hx.of_retains hg hps hr.2
    rw [hpicks]
    exact ending_of_explores hn hf' hx' (hle'.trans hle)

/-- Removing releases from a repository does not change a solution, as long as the first listing of
each release in it is kept. -/
theorem solve_of_removal {maxRounds : Int} {r : Resolution} (hg : g.Thinned g')
    (h : (solve g roots maxRounds).result = .ok (.resolved r))
    (hkept : ∀ n p, r.packages.get? n = some p →
      Retains p (g.repository.lookup n) (g'.repository.lookup n)) :
    (solve g' roots maxRounds).result = .ok (.resolved r) := by
  obtain ⟨s, hs, _, hp⟩ := solved_of_resolved h
  have hb := (branch_of_solved hs).1
  have hchosen : ∀ e ∈ choices (run g roots maxRounds.toNat).frames,
      Retains e.2 (g.repository.lookup e.1) (g'.repository.lookup e.1) := by
    intro e he
    apply hkept
    rw [hp]
    exact hb.get?_choices.mpr he
  obtain ⟨hs', hc⟩ := ending_of_thinned hg hs hchosen
  have hpackages : (run g' roots maxRounds.toNat).packages =
      (run g roots maxRounds.toNat).packages := congrArg OrderedMap.ofList hc
  obtain ⟨graph, hgraph, hr⟩ := exists_resolution_of_solved hs
  obtain ⟨graph', hgraph', hr'⟩ := exists_resolution_of_solved hs'
  rw [hpackages, hgraph] at hgraph'
  cases hgraph'
  rw [hr', hpackages, ← hr, h]

namespace Search.Detour

/-- Without the releases that the search turns away or never comes to. -/
def pruned : Catalog := ⟨Repository.ofPackages [a₁, b₂], none⟩

theorem thinned_pruned : catalog.Thinned pruned where
  platform := rfl
  lookup n := by
    refine Repository.forall_lookup (r := pruned.repository)
      (P := fun n ps => ps.Sublist (catalog.repository.lookup n)) ?_ ?_ n
    · intro n
      exact List.nil_sublist _
    · decide

theorem retains_pruned :
    Retains a₁ (catalog.repository.lookup "a") (pruned.repository.lookup "a") ∧
      Retains b₂ (catalog.repository.lookup "b") (pruned.repository.lookup "b") := by
  refine ⟨?_, ?_⟩
  · exact (Retains.iff_of_nodup (by decide)).mpr ⟨thinned_pruned.lookup "a", by decide⟩
  · exact (Retains.iff_of_nodup (by decide)).mpr ⟨thinned_pruned.lookup "b", by decide⟩

end Search.Detour

theorem detour_removal :
    ∃ r, (solve Detour.catalog Detour.demands 10).result = .ok (.resolved r) ∧
      Detour.catalog.Thinned Detour.pruned ∧
      (∀ n p, r.packages.get? n = some p → Retains p (Detour.catalog.repository.lookup n)
        (Detour.pruned.repository.lookup n)) ∧
      (solve Detour.pruned Detour.demands 10).result = .ok (.resolved r) := by
  obtain ⟨r, h, _, hp⟩ := exists_detour
  have hkept : ∀ n p, r.packages.get? n = some p →
      Retains p (Detour.catalog.repository.lookup n) (Detour.pruned.repository.lookup n) := by
    intro n p hget
    rw [OrderedMap.get?_eq_some_iff, hp] at hget
    simp only [List.mem_cons, List.not_mem_nil, or_false, Prod.mk.injEq] at hget
    rcases hget with ⟨rfl, rfl⟩ | ⟨rfl, rfl⟩
    · exact Detour.retains_pruned.1
    · exact Detour.retains_pruned.2
  exact ⟨r, h, Detour.thinned_pruned, hkept, solve_of_removal Detour.thinned_pruned h hkept⟩

namespace Search.Relisted

def light : Package := ⟨"a", ⟨1, 0, 0, [], []⟩, .empty, none⟩

def heavy : Package := ⟨"a", ⟨1, 0, 0, [], []⟩, .ofList [("b", .any)], none⟩

def needed : Package := ⟨"b", ⟨1, 0, 0, [], []⟩, .empty, none⟩

/-- A release is listed before and after another one of the same version. -/
def catalog : Catalog := ⟨.ofPackages [light, heavy, light, needed], none⟩

/-- Only the later listing is left. -/
def thinned : Catalog := ⟨.ofPackages [heavy, light, needed], none⟩

def demands : OrderedMap String Constraint := .ofList [("a", .any)]

end Search.Relisted

open Search.Relisted in
/-- It is not enough that each release of the solution is still listed somewhere: the search then
comes to the other release first. -/
theorem relisted_removal :
    catalog.Thinned thinned ∧
    ∃ r r', (solve catalog demands 10).result = .ok (.resolved r) ∧
      (∀ n p, r.packages.get? n = some p → p ∈ thinned.repository.lookup n) ∧
      (solve thinned demands 10).result = .ok (.resolved r') ∧
      r.packages.entries = [("a", light)] ∧
      r'.packages.entries = [("a", heavy), ("b", needed)] := by
  obtain ⟨r, hr, hp⟩ : ∃ r, (solve catalog demands 10).result = .ok (.resolved r) ∧
      r.packages.entries = [("a", light)] := ⟨_, rfl, rfl⟩
  obtain ⟨r', hr', hp'⟩ : ∃ r', (solve thinned demands 10).result = .ok (.resolved r') ∧
      r'.packages.entries = [("a", heavy), ("b", needed)] := ⟨_, rfl, rfl⟩
  refine ⟨⟨rfl, fun n => ?_⟩, r, r', hr, fun n p hget => ?_, hr', hp, hp'⟩
  · refine Repository.forall_lookup (r := thinned.repository)
      (P := fun n ps => ps.Sublist (catalog.repository.lookup n)) ?_ ?_ n
    · intro n
      exact List.nil_sublist _
    · decide
  · rw [OrderedMap.get?_eq_some_iff, hp, List.mem_singleton] at hget
    cases hget
    decide

end PackageResolution
