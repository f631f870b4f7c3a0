import Mathlib.Data.List.Pairwise
import PackageResolution.Proofs.Completeness
import PackageResolution.Proofs.Rounds

/-!
# PackageResolution.Proofs.Locked

Solving again with the versions of a solution as the requirements. Where no two releases under one
name have the same precedence, each name has only one release left to take, so the search takes the
releases of the solution one after the other and never goes back.

* `locked`: the exact versions of a mapping, as constraints.
* `Settled`: a state in which each name that is pending can only take its release in the solution.
  `Settled.pin` keeps that.
* `Straight`: a point between the rounds before which nothing has been refused or taken back.
* `Event.isSetback`: the events that a straight search does not have.
-/

namespace PackageResolution

open Search

/-- Every name with its exact version. -/
def locked (mapping : OrderedMap String Version) : OrderedMap String Constraint :=
  mapping.mapValues fun _ v => .exactly v

/-- No two releases under one name have versions of the same precedence. -/
def Repository.VersionsDistinct (r : Repository) : Prop :=
  ∀ n, (r.lookup n).Pairwise fun p q => p.version.equiv q.version = false

variable {g : Catalog} {roots : OrderedMap String Constraint} {A : String → Option Package}
  {n : String}

/-! ## One release for each name -/

theorem Constraint.contains_exactly_iff {v w : Version} :
    (exactly v).contains w = true ↔ w.compare v = .eq := by
  unfold contains exactly Bound.admitsAbove Bound.admitsBelow
  rw [Option.all_some, Option.all_some]
  cases w.compare v <;> simp

theorem Repository.VersionsDistinct.eq_of_compare {r : Repository} (hd : r.VersionsDistinct)
    {p q : Package} (hp : p ∈ r.lookup n) (hq : q ∈ r.lookup n)
    (hpq : p.version.compare q.version = .eq) : p = q := by
  have hsymm : Std.Symm fun p q : Package => p.version.equiv q.version = false := by
    constructor
    intro a b hab
    rw [← Bool.not_eq_true, Version.equiv_iff] at hab ⊢
    exact fun hba => hab (Std.OrientedCmp.eq_symm hba)
  by_contra hne
  have hfalse := (hd n).forall hp hq hne
  rw [Version.equiv_iff.mpr hpq] at hfalse
  cases hfalse

theorem Catalog.candidates_eq_singleton (hd : g.repository.VersionsDistinct) {c : Constraint}
    {p : Package} (hp : p ∈ g.candidates n c)
    (hc : ∀ v, c.contains v = true → v.compare p.version = .eq) : g.candidates n c = [p] := by
  have hall : ∀ q ∈ g.candidates n c, q = p := by
    intro q hq
    obtain ⟨hlq, hcq, _⟩ := mem_candidates.mp hq
    exact hd.eq_of_compare hlq (mem_candidates.mp hp).1 (hc _ hcq)
  have hnodup : (g.candidates n c).Nodup := by
    have hlisted : (g.repository.lookup n).Nodup := by
      refine (hd n).imp ?_
      rintro q _ hq rfl
      rw [Version.equiv_iff.mpr (Version.compare_self _)] at hq
      cases hq
    exact (stableSort_perm _ _).nodup_iff.mpr (hlisted.filter _)
  rw [← List.perm_singleton, List.perm_ext_iff_of_nodup hnodup (List.nodup_singleton p)]
  intro q
  rw [List.mem_singleton]
  exact ⟨hall q, fun h => h ▸ hp⟩

namespace Search

/-! ## States with one way on -/

theorem State.narrowed_require {s t : State} {r : Requirement} (h : s.require r = .ok t)
    (hr : s.Mentions r.name) {c : Constraint} (hc : t.pending.get? n = some c) :
    ∃ c₀, s.pending.get? n = some c₀ ∧ ∀ v, c.contains v = true → c₀.contains v = true := by
  rcases State.require_cases h with ⟨_, _, _, rfl⟩ | ⟨c', hs, hn, rfl⟩
  · exact ⟨c, hc, fun _ hv => hv⟩
  · rw [note_pending, await_pending, OrderedMap.get?_insert] at hc
    split at hc
    · rename_i he
      cases hc
      subst he
      obtain ⟨c₀, hc₀⟩ := OrderedMap.exists_get?_of_mem (hr.resolve_right hs)
      exact ⟨c₀, hc₀, fun v hv => ((contains_of_narrows hn v).mp hv).2 c₀ hc₀⟩
    · exact ⟨c, hc, fun _ hv => hv⟩

/-- Requirements on names that have been met with before only make the pending constraints
narrower. -/
theorem State.narrowed_requireAll {s t : State} {rs : List Requirement}
    (h : s.requireAll rs = .ok t) (hr : ∀ r ∈ rs, s.Mentions r.name) {c : Constraint}
    (hc : t.pending.get? n = some c) :
    ∃ c₀, s.pending.get? n = some c₀ ∧ ∀ v, c.contains v = true → c₀.contains v = true := by
  induction rs generalizing s with
  | nil => cases h; exact ⟨c, hc, fun _ hv => hv⟩
  | cons r rs ih =>
    obtain ⟨s₁, hs₁, h⟩ := requireAll_cons_eq_ok.mp h
    rw [List.forall_mem_cons] at hr
    obtain ⟨c₁, hc₁, hsub₁⟩ := ih h fun r' hr' => (mentions_require hs₁).mpr (.inl (hr.2 r' hr'))
    obtain ⟨c₀, hc₀, hsub₀⟩ := narrowed_require hs₁ hr.1 hc₁
    exact ⟨c₀, hc₀, fun v hv => hsub₀ v (hsub₁ v hv)⟩

/-- The state can be completed to `A`, all names of `A` have been met with, and what is pending lets
in only the versions that `A` takes. -/
structure Settled (A : String → Option Package) (s : State) : Prop where
  apart : s.Apart
  fits : s.Fits (versions A)
  met : ∀ n p, A n = some p → s.Mentions n
  exact : ∀ n c, s.pending.get? n = some c →
    ∃ p, A n = some p ∧ ∀ v, c.contains v = true → v.compare p.version = .eq

namespace Settled

variable {s : State}

theorem mem_solutions (h : Settled A s) {v : Version} (hv : s.solutions.get? n = some v) :
    ∃ p, A n = some p ∧ p.version = v :=
  Option.map_eq_some_iff.mp (h.fits.solutions n v hv)

/-- The next name has its release in `A` as its only candidate, and taking it keeps all this. -/
theorem pin (h : Settled A s) (hA : Valid g roots A) (hd : g.repository.VersionsDistinct)
    (ht : ∀ n p, A n = some p → p.version.Printable) {c : Constraint} (hn : s.next? = some (n, c)) :
    ∃ p s', g.findCandidates n c = .ok [p] ∧ A n = some p ∧
      (s.withdraw n).pin n p = .ok s' ∧ Settled A s' := by
  obtain ⟨p, hmem, hp, s', hpin, hfits⟩ := hA.exists_pin h.apart hn h.fits
  have honly : ∀ v, c.contains v = true → v.compare p.version = .eq := by
    obtain ⟨q, hq, hv⟩ := h.exact n c (State.get?_of_next? hn)
    rw [hp] at hq
    cases hq
    exact hv
  have hcandidates := Catalog.candidates_eq_singleton hd hmem honly
  have hfound : g.findCandidates n c = .ok [p] := by
    refine Catalog.findCandidates_eq_ok_iff.mpr ⟨fun q hq => ?_, hcandidates⟩
    rw [hcandidates, List.mem_singleton] at hq
    exact hq ▸ ht n p hp
  refine ⟨p, s', hfound, hp, hpin, ?_⟩
  have hasked : ∀ r ∈ p.requirements, ((s.withdraw n).choose n p.version).Mentions r.name := by
    intro r hr
    have hdep : r.name ∈ p.dependencies := mem_dependencies_iff.mpr ⟨r, hr, rfl⟩
    obtain ⟨c', hc'⟩ := OrderedMap.exists_get?_of_mem hdep
    obtain ⟨q, hq, _⟩ := hA.closed n p r.name c' hp hc'
    exact (State.mentions_choose hn).mpr (h.met r.name q hq)
  refine ⟨State.apart_pin h.apart hpin, hfits, ?_, ?_⟩
  · intro m q hq
    exact (State.mentions_pin hn hpin).mpr (.inl (h.met m q hq))
  · intro m c' hc'
    obtain ⟨c₀, hc₀, hsub⟩ := State.narrowed_requireAll hpin hasked hc'
    rw [State.choose_pending, State.withdraw_pending, OrderedMap.get?_erase] at hc₀
    split at hc₀
    · cases hc₀
    · obtain ⟨q, hq, hv⟩ := h.exact m c₀ hc₀
      exact ⟨q, hq, fun v hv' => hv v (hsub v hv')⟩

/-- With nothing pending, exactly the versions of `A` are chosen. -/
theorem get?_solutions (h : Settled A s) (hn : s.next? = none) (n : String) :
    s.solutions.get? n = versions A n := by
  cases hv : s.solutions.get? n with
  | some v => exact (h.fits.solutions n v hv).symm
  | none =>
    cases hp : A n with
    | none => simp [versions, hp]
    | some p =>
      have hmem := (State.mentions_iff_of_next?_eq_none hn).mp (h.met n p hp)
      exact absurd hmem (OrderedMap.get?_eq_none_iff.mp hv)

end Settled

/-! ## Searches that never go back -/

/-- A release is refused, or a choice is taken back. -/
def Event.isSetback : Event → Bool
  | .rejecting _ _ => true
  | .backtracking _ => true
  | _ => false

theorem Event.isSetback_of_isClosing {e : Event} (h : e.isClosing = true) :
    e.isSetback = false := by
  cases e <;> first | rfl | cases h

def Journal.Smooth (j : Journal) : Prop := ∀ e ∈ j.latest, e.isSetback = false

theorem Journal.Smooth.record {j : Journal} (h : j.Smooth) {e : Event}
    (he : e.isSetback = false) : (j.record e).Smooth :=
  List.forall_mem_cons.mpr ⟨he, h⟩

/-- `k` choices have been made without a setback, and the next name has one candidate. -/
inductive Straight (A : String → Option Package) (k : Nat) : List Frame → Journal → Prop where
  | intro {s s' : State} {name : String} {c : Constraint} {p : Package} {fs : List Frame}
      {j : Journal} : Settled A s → s.solutions.size = k → s.next? = some (name, c) →
      (s.withdraw name).pin name p = .ok s' → Settled A s' → j.Smooth →
      Straight A k (⟨name, [p], s.withdraw name, none⟩ :: fs) j

variable {frames fs : List Frame} {s : State} {j j' : Journal} {k : Nat}

theorem straight_openFrame (hA : Valid g roots A) (hd : g.repository.VersionsDistinct)
    (ht : ∀ n p, A n = some p → p.version.Printable) (hs : Settled A s)
    (hk : s.solutions.size = k) {name : String} {c : Constraint} {f : Frame}
    (hn : s.next? = some (name, c)) (hj : j.Smooth) (h : openFrame g s name c j = .ok (f, j')) :
    Straight A k (f :: fs) j' := by
  obtain ⟨p, s', hc, _, hpin, hs'⟩ := hs.pin hA hd ht hn
  rw [openFrame, hc] at h
  cases h
  exact .intro hs hk hn hpin hs' hj

theorem Straight.advance (h : Straight A k frames j) :
    ∃ s fs j', advance frames (j.record (.round k)) = (some (s, fs), j') ∧ Settled A s ∧
      s.solutions.size = k + 1 ∧ j'.Smooth := by
  cases h with
  | @intro s s' name c p fs _ hs hk hn hpin hs' hj =>
    refine ⟨s', ⟨name, [], s.withdraw name, some p⟩ :: fs,
      (j.record (.round k)).record (.pinning name p), ?_, hs', ?_, ?_⟩
    · simp only [Search.advance, tryCandidates, hpin]
    · have hfree : name ∉ s.solutions := hs.apart name (State.mem_of_next? hn)
      rw [State.solutions_pin hpin, OrderedMap.size,
        OrderedMap.entries_insert_of_not_mem _ hfree, List.length_append, ← OrderedMap.size, hk]
      rfl
    · exact (hj.record rfl).record rfl

theorem straight_of_reaches (hA : Valid g roots A) (hd : g.repository.VersionsDistinct)
    (ht : ∀ n p, A n = some p → p.version.Printable) (hs : Settled A (State.initial roots))
    (h : Reaches g roots k frames j) : Straight A k frames j := by
  induction h with
  | start hn hf =>
    exact straight_openFrame hA hd ht hs rfl hn (fun e he => absurd he List.not_mem_nil) hf
  | next _ ha hn hf ih =>
    obtain ⟨s', fs', j', ha', hs', hk, hj⟩ := ih.advance
    rw [ha] at ha'
    cases ha'
    exact straight_openFrame hA hd ht hs' hk hn hj hf

/-! ## Whole runs -/

/-- What is chosen and what is chosen next are different names of the solution. -/
theorem Straight.lt_size {m : OrderedMap String Package} (h : Straight m.get? k frames j) :
    k < m.size := by
  cases h with
  | @intro s _ name c _ _ _ hs hk hn _ _ _ =>
    have hfree : name ∉ s.solutions := hs.apart name (State.mem_of_next? hn)
    have hnodup : (name :: s.solutions.keys).Nodup :=
      List.nodup_cons.mpr ⟨hfree, s.solutions.keys_nodup⟩
    have hsub : name :: s.solutions.keys ⊆ m.keys := by
      refine List.cons_subset.mpr ⟨?_, ?_⟩
      · obtain ⟨p, hp, _⟩ := hs.exact name c (State.get?_of_next? hn)
        exact OrderedMap.mem_of_get?_eq_some hp
      · intro x hx
        obtain ⟨v, hv⟩ := OrderedMap.exists_get?_of_mem hx
        obtain ⟨p, hp, _⟩ := hs.mem_solutions hv
        exact OrderedMap.mem_of_get?_eq_some hp
    have hle := (List.subperm_of_subset hnodup hsub).length_le
    rw [List.length_cons, ← OrderedMap.size_eq_length_keys, ← OrderedMap.size_eq_length_keys,
      hk] at hle
    exact hle

/-- With enough rounds for one choice a name, the search takes one release after the other. -/
theorem solved_of_settled {m : OrderedMap String Package} (hA : Valid g roots m.get?)
    (hd : g.repository.VersionsDistinct) (ht : ∀ n p, m.get? n = some p → p.version.Printable)
    (hs : Settled m.get? (State.initial roots)) {limit : Nat} (hm : m.size ≤ limit) :
    ∃ s, (run g roots limit).ending = .solved s ∧ Settled m.get? s ∧
      pins (run g roots limit).journal.events = s.solutions.size ∧
      (run g roots limit).journal.Smooth := by
  have he := ends_run g roots limit
  generalize run g roots limit = r at he
  cases he with
  | idle _ => exact ⟨_, rfl, hs, rfl, fun e he => absurd he List.not_mem_nil⟩
  | solved hr _ ha _ =>
    obtain ⟨s, fs, j', ha', hs', hk, hj⟩ := (straight_of_reaches hA hd ht hs hr).advance
    rw [ha] at ha'
    cases ha'
    refine ⟨_, rfl, hs', ?_, hj⟩
    rw [pins_events, pins_of_advance ha, pins_record, pins_of_reaches hr, hk]
    rfl
  | exhausted hr _ ha =>
    obtain ⟨_, _, _, ha', _⟩ := (straight_of_reaches hA hd ht hs hr).advance
    rw [ha] at ha'
    cases ha'
  | outOfRounds hr =>
    have hlt := (straight_of_reaches hA hd ht hs hr).lt_size
    omega
  | failedAtStart hn hf =>
    obtain ⟨_, _, hfound, _⟩ := hs.pin hA hd ht hn
    rw [hf] at hfound
    cases hfound
  | failed hr _ ha hn hf =>
    obtain ⟨s, fs, j', ha', hs', _, _⟩ := (straight_of_reaches hA hd ht hs hr).advance
    rw [ha] at ha'
    cases ha'
    obtain ⟨_, _, hfound, _⟩ := hs'.pin hA hd ht hn
    rw [hf] at hfound
    cases hfound

theorem length_advance (h : advance frames j = (some (s, fs), j')) :
    fs.length ≤ frames.length := by
  induction frames generalizing j with
  | nil => cases h
  | cons f frames ih =>
    rw [advance] at h
    split at h
    · cases h; exact Nat.le_refl _
    · exact Nat.le_succ_of_le (ih h)

theorem length_of_reaches (h : Reaches g roots k frames j) : frames.length ≤ k + 1 := by
  induction h with
  | start _ _ => exact Nat.le_refl _
  | next _ ha _ _ ih => exact Nat.succ_le_succ ((length_advance ha).trans ih)

/-- A solution is not larger than the number of rounds that it took. -/
theorem size_le_of_solved {limit : Nat} (h : (run g roots limit).ending = .solved s) :
    s.solutions.size ≤ limit := by
  have hsize : s.solutions.size ≤ (run g roots limit).frames.length := by
    have hle := List.length_filterMap_le
      (fun f : Frame => f.pinned.map fun p => (f.name, p)) (run g roots limit).frames.reverse
    rw [OrderedMap.size, (branch_of_solved h).1.entries_solutions, List.length_map, choices]
    rwa [List.length_reverse] at hle
  refine hsize.trans ?_
  have he := ends_run g roots limit
  generalize run g roots limit = r at h he
  cases he with
  | idle _ => exact Nat.zero_le _
  | solved hr hk ha _ => exact ((length_advance ha).trans (length_of_reaches hr)).trans hk
  | exhausted _ _ _ => cases h
  | outOfRounds _ => cases h
  | failedAtStart _ _ => cases h
  | failed _ _ _ _ _ => cases h

theorem isSetback_report {r : Run} (h : r.journal.Smooth) (roots : OrderedMap String Constraint)
    (maxRounds : Int) : ∀ e ∈ (r.report roots maxRounds).events, e.isSetback = false := by
  obtain ⟨closing, hevents, hclosing⟩ := events_report r roots maxRounds
  rw [hevents, List.forall_mem_cons, List.forall_mem_append]
  refine ⟨rfl, ?_, ?_⟩
  · intro e he
    exact h e (List.mem_reverse.mp he)
  · intro e he
    exact Event.isSetback_of_isClosing (hclosing e he)

end Search

/-! ## Solving a solution -/

theorem get?_locked {mapping : OrderedMap String Version} {c : Constraint} :
    (locked mapping).get? n = some c ↔ ∃ v, mapping.get? n = some v ∧ Constraint.exactly v = c := by
  rw [locked, OrderedMap.get?_mapValues, Option.map_eq_some_iff]

theorem Valid.locked {mapping : OrderedMap String Version} (h : Valid g roots A)
    (hv : versions A = mapping.get?) : Valid g (locked mapping) A := by
  refine ⟨h.listed, ?_, h.closed⟩
  intro n c hc
  obtain ⟨v, hm, rfl⟩ := get?_locked.mp hc
  rw [← hv] at hm
  obtain ⟨p, hp, rfl⟩ := Option.map_eq_some_iff.mp hm
  exact ⟨p, hp, Constraint.contains_exactly_iff.mpr (Version.compare_self _)⟩

theorem settled_locked {mapping : OrderedMap String Version} (h : Valid g (locked mapping) A)
    (hv : versions A = mapping.get?) : Settled A (State.initial (locked mapping)) := by
  refine ⟨(Branch.start (g := g)).apart, h.fits_initial, ?_, ?_⟩
  · intro n p hp
    have hm : mapping.get? n = some p.version := by rw [← hv, versions, hp]; rfl
    exact .inl (OrderedMap.mem_of_get?_eq_some (get?_locked.mpr ⟨_, hm, rfl⟩))
  · intro n c hc
    obtain ⟨v, hm, rfl⟩ := get?_locked.mp hc
    rw [← hv] at hm
    obtain ⟨p, hp, rfl⟩ := Option.map_eq_some_iff.mp hm
    exact ⟨p, hp, fun w hw => Constraint.contains_exactly_iff.mp hw⟩

/-- Where precedence tells the releases of a name apart, the versions fix the releases. -/
theorem Valid.eq_of_versions (hd : g.repository.VersionsDistinct)
    {roots' : OrderedMap String Constraint} {B : String → Option Package} (hA : Valid g roots A)
    (hB : Valid g roots' B) (h : versions A = versions B) : A = B := by
  funext n
  have hn : (A n).map (·.version) = (B n).map (·.version) := congrFun h n
  cases hp : A n with
  | none =>
    rw [hp, eq_comm, Option.map_none, Option.map_eq_none_iff] at hn
    exact hn.symm
  | some p =>
    rw [hp, eq_comm, Option.map_some, Option.map_eq_some_iff] at hn
    obtain ⟨q, hq, hv⟩ := hn
    have hpq : p.version.compare q.version = .eq := hv ▸ Version.compare_self _
    rw [hq, hd.eq_of_compare (hA.listed n p hp).1 (hB.listed n q hq).1 hpq]

/-- Solving with the exact versions of a solution gives that solution again, within the same limit,
with one choice for each name and nothing refused or taken back. -/
theorem locked_resolution (hd : g.repository.VersionsDistinct) {maxRounds : Int} {r : Resolution}
    (h : (solve g roots maxRounds).result = .ok (.resolved r)) :
    ∃ r', (solve g (locked r.mapping) maxRounds).result = .ok (.resolved r') ∧
      (∀ n, r'.mapping.get? n = r.mapping.get? n) ∧
      (∀ n, r'.packages.get? n = r.packages.get? n) ∧
      pins (solve g (locked r.mapping) maxRounds).events = r.mapping.size ∧
      ∀ e ∈ (solve g (locked r.mapping) maxRounds).events, e.isSetback = false := by
  obtain ⟨s, he, hm, hp⟩ := solved_of_resolved h
  obtain ⟨hb, hn⟩ := branch_of_solved he
  have hversions : versions r.packages.get? = r.mapping.get? := by
    rw [hp, hm]
    exact hb.versions_choices
  have hsolution : Valid g roots r.packages.get? := by
    rw [hp]
    exact hb.valid hn
  have hvalid : Valid g (locked r.mapping) r.packages.get? := hsolution.locked hversions
  have hlimit : r.packages.size ≤ maxRounds.toNat := by
    have hkeys : r.packages.keys = s.solutions.keys := by
      rw [hp]
      exact hb.keys_packages
    rw [OrderedMap.size_eq_length_keys, hkeys, ← OrderedMap.size_eq_length_keys]
    exact size_le_of_solved he
  have hprintable : ∀ n p, r.packages.get? n = some p → p.version.Printable := by
    intro n p hget
    rw [hp] at hget
    exact hb.printable (hb.get?_choices.mp hget)
  obtain ⟨s', he', hs', hpins, hsmooth⟩ :=
    solved_of_settled hvalid hd hprintable (settled_locked hvalid hversions) hlimit
  obtain ⟨hb', hn'⟩ := branch_of_solved he'
  obtain ⟨graph, _, hresult⟩ := exists_resolution_of_solved he'
  have hmapping : ∀ n, s'.solutions.get? n = r.mapping.get? n := by
    intro n
    rw [hs'.get?_solutions hn', hversions]
  refine ⟨_, hresult, hmapping, ?_, ?_, isSetback_report hsmooth _ maxRounds⟩
  · refine congrFun ((hb'.valid hn').eq_of_versions hd hvalid ?_)
    rw [hb'.versions_choices, hversions]
    exact funext hmapping
  · rw [solve, pins_report, hpins, OrderedMap.size_eq_of_get?_eq hmapping]

theorem Search.Detour.versionsDistinct_catalog : catalog.repository.VersionsDistinct := by
  have hentries : ∀ e ∈ catalog.repository.releases.entries,
      e.2.Pairwise fun p q => p.version.equiv q.version = false := by decide
  exact Repository.forall_lookup
    (P := fun _ ps => ps.Pairwise fun p q => p.version.equiv q.version = false)
    (fun _ => List.Pairwise.nil) hentries

theorem detour_locked :
    Detour.catalog.repository.VersionsDistinct ∧
      ∃ r, (solve Detour.catalog Detour.demands 10).result = .ok (.resolved r) ∧
        r.mapping.keys = ["a", "b"] ∧
        ∃ r', (solve Detour.catalog (locked r.mapping) 10).result = .ok (.resolved r') ∧
          (∀ n, r'.mapping.get? n = r.mapping.get? n) ∧
          (∀ n, r'.packages.get? n = r.packages.get? n) ∧
          pins (solve Detour.catalog (locked r.mapping) 10).events = r.mapping.size ∧
          ∀ e ∈ (solve Detour.catalog (locked r.mapping) 10).events, e.isSetback = false := by
  obtain ⟨r, h, hkeys, _⟩ := exists_detour
  have hd := Detour.versionsDistinct_catalog
  exact ⟨hd, r, h, hkeys, locked_resolution hd h⟩

end PackageResolution
