import PackageResolution.Proofs.Bookkeeping
import PackageResolution.Proofs.Relevance

/-!
# PackageResolution.Proofs.Causes

Why a search fails. The causes that it reports are those of the last conflict that it ran into: all
that was noted about one name, with the requirement that did not go with it.

* `Traceable`: requirements on one name that go back to the root and to releases that may be chosen.
* `Unmet`, `Overruled`: the two kinds of conflicts. Either no release is left for the name, or it
  has a version that the last requirement does not accept.
* `State.clash_of_requireAll`: what is wrong with a requirement that is refused.
* `refused_of_advance_eq_none`: a search that gives up was last refused a candidate, or never had
  one.
* `unsatisfiable_causes`: the causes of a failed search are traceable, and a conflict.
-/

namespace PackageResolution

open Search

/-- The requirements on `n` of the root, which come first if there are any, and of releases that
support the platform. -/
structure Traceable (g : Catalog) (roots : OrderedMap String Constraint) (n : String)
    (causes : List Requirement) : Prop where
  nonempty : causes ≠ []
  named : ∀ r ∈ causes, r.name = n
  root_first : ∀ r ∈ causes.tail, r.parent ≠ none
  root : ∀ r ∈ causes, r.parent = none → roots.get? n = some r.constraint
  declared : ∀ r ∈ causes, ∀ p, r.parent = some p →
    p.dependencies.get? n = some r.constraint ∧ ∃ m, p ∈ g.supported m

/-- No release of `n` that supports the platform meets all the requirements. -/
def Unmet (g : Catalog) (n : String) (causes : List Requirement) : Prop :=
  ∀ p ∈ g.supported n, ∃ r ∈ causes, r.constraint.contains p.version = false

namespace Search

/-- What `p` asks for does not go with `base`. -/
abbrev Refused (base : State) (name : String) (p : Package) : Prop :=
  ∃ causes, base.pin name p = .error causes

/-- In some round, all that is left of the choices above the one for `name` and the candidates
before `p` is refused, so that `p` is tried for `name` on top of `base`. -/
inductive Tried (g : Catalog) (roots : OrderedMap String Constraint) :
    State → String → Package → Prop where
  | intro {k : Nat} {above below : List Frame} {f : Frame} {refused rest : List Package}
      {p : Package} {j : Journal} : Reaches g roots k (above ++ f :: below) j →
      (∀ f' ∈ above, ∀ q ∈ f'.candidates, Refused f'.base f'.name q) →
      f.candidates = refused ++ p :: rest → (∀ q ∈ refused, Refused f.base f.name q) →
      Tried g roots f.base f.name p

end Search

/-- When the release behind the last requirement was tried, `n` had a version, of that release
itself perhaps. It meets all the requirements but the last. -/
def Overruled (g : Catalog) (roots : OrderedMap String Constraint) (n : String)
    (causes : List Requirement) : Prop :=
  ∃ earlier r p base name v, causes = earlier ++ [r] ∧ r.parent = some p ∧
    Tried g roots base name p ∧ (base.choose name p.version).solutions.get? n = some v ∧
    (∀ r' ∈ earlier, r'.constraint.contains v = true) ∧ r.constraint.contains v = false

variable {g : Catalog} {roots : OrderedMap String Constraint}

namespace Search

/-! ## Requirements that are refused -/

/-- `r` does not go with what is known: no version meets all of it, or the version chosen meets only
what was known before. -/
def Clashes (chosen : Option Version) (known : List Requirement) (r : Requirement) : Prop :=
  (∀ v, ∃ r' ∈ known ++ [r], r'.constraint.contains v = false) ∨
    ∃ v, chosen = some v ∧ (∀ r' ∈ known, r'.constraint.contains v = true) ∧
      r.constraint.contains v = false

namespace State

variable {s : State} {causes : List Requirement}

theorem clash_of_require {r : Requirement} (h : s.Accounted) (hr : s.require r = .error causes) :
    causes = s.known r.name ++ [r] ∧ Clashes (s.solutions.get? r.name) (s.known r.name) r := by
  obtain ⟨hnone, hcauses⟩ := absorbed_of_require_eq_error hr
  refine ⟨hcauses, ?_⟩
  unfold absorbed at hnone
  cases hv : s.solutions.get? r.name with
  | some v =>
    simp only [hv] at hnone
    refine .inr ⟨v, rfl, h.chosen r.name v hv, ?_⟩
    by_contra hc
    rw [if_pos (Bool.not_eq_false _ ▸ hc)] at hnone
    cases hnone
  | none =>
    cases hp : s.pending.get? r.name with
    | none => simp only [hv, hp] at hnone; cases hnone
    | some c =>
      simp only [hv, hp, Option.map_eq_none_iff] at hnone
      refine .inl fun v => ?_
      by_contra hall
      have hmeets : ∀ r' ∈ s.known r.name ++ [r], r'.constraint.contains v = true := by
        intro r' hr'
        by_contra hc
        exact hall ⟨r', hr', Bool.eq_false_of_not_eq_true hc⟩
      rw [List.forall_mem_append, List.forall_mem_singleton] at hmeets
      have hknown : c.contains v = true := by
        rw [Constraint.contains_common (h.pending r.name c hp), List.forall_mem_map]
        exact hmeets.1
      have hboth := Constraint.not_contains_of_intersect_eq_none hnone v
      rw [hknown, hmeets.2] at hboth
      cases hboth

/-- Of requirements on different names, the one that is refused does not go with what was known
before the first of them. -/
theorem clash_of_requireAll {rs : List Requirement} (ha : s.Apart) (h : s.Accounted)
    (hd : (rs.map (·.name)).Nodup) (hr : s.requireAll rs = .error causes) :
    ∃ r ∈ rs, causes = s.known r.name ++ [r] ∧
      Clashes (s.solutions.get? r.name) (s.known r.name) r := by
  induction rs generalizing s with
  | nil => cases hr
  | cons r₀ rs ih =>
    rw [List.map_cons, List.nodup_cons] at hd
    cases ht : s.require r₀ with
    | error causes' =>
      rw [requireAll, ht] at hr
      cases hr
      exact ⟨r₀, List.mem_cons_self, clash_of_require h ht⟩
    | ok t =>
      rw [requireAll, ht] at hr
      obtain ⟨r, hmem, hclash⟩ := ih (apart_require ht ha) (accounted_require ha h ht) hd.2 hr
      have hne : r.name ≠ r₀.name := fun he => hd.1 (he ▸ List.mem_map_of_mem hmem)
      rw [known_require ht, if_neg hne, solutions_require ht] at hclash
      exact ⟨r, List.mem_cons_of_mem _ hmem, hclash⟩

end State

variable {fs : List Frame} {s : State} {causes : List Requirement}

theorem Branch.clash_of_pin (hb : Branch g roots fs s) {name : String} {c : Constraint}
    {p : Package} (hn : s.next? = some (name, c)) (hp : p ∈ g.candidates name c)
    (hr : (s.withdraw name).pin name p = .error causes) :
    ∃ n d, p.dependencies.get? n = some d ∧
      causes = recorded roots (choices fs) n ++ [⟨n, d, some p⟩] ∧
      Clashes (((s.withdraw name).choose name p.version).solutions.get? n)
        (recorded roots (choices fs) n) ⟨n, d, some p⟩ := by
  have hc := (Catalog.mem_candidates.mp hp).2.1
  obtain ⟨r, hr, hcauses, hclash⟩ := State.clash_of_requireAll (State.apart_choose hb.apart)
    (State.accounted_choose hb.accounted hn hc) (State.nodup_requirements p) hr
  obtain ⟨e, he, rfl⟩ := List.mem_map.mp hr
  have hknown (n : String) : ((s.withdraw name).choose name p.version).known n =
      recorded roots (choices fs) n := hb.known_eq n
  rw [hknown] at hcauses hclash
  exact ⟨e.1, e.2, OrderedMap.get?_eq_some_iff.mpr he, hcauses, hclash⟩

/-! ## Where a search gives up -/

theorem refused_of_tryCandidates {name : String} {base : State} {ps : List Package}
    {j j' : Journal} (h : tryCandidates name base ps j = (none, j')) :
    ps = [] ∧ j' = j ∨ ∃ refused p, ps = refused ++ [p] ∧
      (∀ q ∈ refused, Refused base name q) ∧ base.pin name p = .error j'.causes := by
  induction ps generalizing j with
  | nil => cases h; exact .inl ⟨rfl, rfl⟩
  | cons q qs ih =>
    rw [tryCandidates] at h
    split at h
    · cases h
    · rename_i causes hq
      rcases ih h with ⟨rfl, rfl⟩ | ⟨refused, p, rfl, hrefused, hp⟩
      · exact .inr ⟨[], q, rfl, fun _ hx => absurd hx List.not_mem_nil, hq⟩
      · exact .inr ⟨q :: refused, p, rfl, List.forall_mem_cons.mpr ⟨⟨causes, hq⟩, hrefused⟩, hp⟩

/-- The causes at the end are those of the candidate that was refused last. -/
theorem refused_of_advance_eq_none {frames : List Frame} {j j' : Journal}
    (h : advance frames j = (none, j')) :
    (∀ f ∈ frames, f.candidates = []) ∧ j'.causes = j.causes ∨
      ∃ above f below refused p, frames = above ++ f :: below ∧
        (∀ f' ∈ above, ∀ q ∈ f'.candidates, Refused f'.base f'.name q) ∧
        f.candidates = refused ++ [p] ∧ (∀ q ∈ refused, Refused f.base f.name q) ∧
        f.base.pin f.name p = .error j'.causes := by
  induction frames generalizing j with
  | nil => cases h; exact .inl ⟨fun _ hf => absurd hf List.not_mem_nil, rfl⟩
  | cons f frames ih =>
    rw [advance] at h
    split at h
    · cases h
    · rename_i j₁ ht
      have hall := error_of_tryCandidates ht
      rcases ih h with ⟨hempty, hcauses⟩ | ⟨above, f', below, refused, p, rfl, habove, hrest⟩
      · rcases refused_of_tryCandidates ht with ⟨hnil, rfl⟩ | ⟨refused, p, hps, hrefused, hp⟩
        · exact .inl ⟨List.forall_mem_cons.mpr ⟨hnil, hempty⟩, hcauses⟩
        · have hnone : ∀ f' ∈ ([] : List Frame), ∀ q ∈ f'.candidates, Refused f'.base f'.name q :=
            fun _ hf => absurd hf List.not_mem_nil
          exact .inr ⟨[], f, frames, refused, p, rfl, hnone, hps, hrefused, hcauses ▸ hp⟩
      · exact .inr ⟨f :: above, f', below, refused, p, rfl,
          List.forall_mem_cons.mpr ⟨hall, habove⟩, hrest⟩

/-- A choice without candidates is blamed on what is known of its name. -/
theorem causes_of_reaches {k : Nat} {f : Frame} {j : Journal}
    (h : Reaches g roots k (f :: fs) j) (hf : f.candidates = []) :
    ∃ s c, Branch g roots fs s ∧ s.next? = some (f.name, c) ∧ g.candidates f.name c = [] ∧
      j.causes = s.known f.name := by
  have hopen : ∀ {s : State} {name : String} {c : Constraint} {j₀ : Journal},
      openFrame g s name c j₀ = .ok (f, j) → f.name = name ∧ g.candidates name c = [] ∧
        j.causes = s.known name := by
    intro s name c j₀ ho
    obtain ⟨_, hc, rfl⟩ := frame_of_openFrame ho
    obtain rfl : _ = [] := hf
    rw [openFrame, hc] at ho
    cases ho
    exact ⟨rfl, Catalog.candidates_of_found hc, rfl⟩
  cases h with
  | start hn ho =>
    obtain ⟨rfl, hnil, hcauses⟩ := hopen ho
    exact ⟨_, _, .start, hn, hnil, hcauses⟩
  | next hr ha hn ho =>
    obtain ⟨rfl, hnil, hcauses⟩ := hopen ho
    exact ⟨_, _, pinsAt_branch ⟨_, _, _, hr, ha⟩, hn, hnil, hcauses⟩

end Search

/-! ## The causes of failures -/

theorem traceable_recorded {made : List (String × Package)} {n : String}
    (hmade : ∀ e ∈ made, e.2 ∈ g.supported e.1) (hne : recorded roots made n ≠ []) :
    Traceable g roots n (recorded roots made n) := by
  have hroot : ∀ r ∈ ((roots.get? n).map (⟨n, ·, none⟩ : Constraint → Requirement)).toList,
      r.name = n ∧ r.parent = none ∧ roots.get? n = some r.constraint := by
    intro r hr
    obtain ⟨c, hc, rfl⟩ := Option.map_eq_some_iff.mp (Option.mem_toList.mp hr)
    exact ⟨rfl, rfl, hc⟩
  have hmem : ∀ r ∈ made.filterMap fun e =>
      (e.2.dependencies.get? n).map (⟨n, ·, some e.2⟩ : Constraint → Requirement),
      r.name = n ∧ ∃ p, r.parent = some p ∧ p.dependencies.get? n = some r.constraint ∧
        ∃ m, p ∈ g.supported m := by
    intro r hr
    obtain ⟨e, he, hr⟩ := List.mem_filterMap.mp hr
    obtain ⟨c, hc, rfl⟩ := Option.map_eq_some_iff.mp hr
    exact ⟨rfl, e.2, rfl, hc, e.1, hmade e he⟩
  unfold recorded at hne ⊢
  refine ⟨hne, ?_, ?_, ?_, ?_⟩
  · rw [List.forall_mem_append]
    exact ⟨fun r hr => (hroot r hr).1, fun r hr => (hmem r hr).1⟩
  · have htail : ∀ r ∈ made.filterMap fun e =>
        (e.2.dependencies.get? n).map (⟨n, ·, some e.2⟩ : Constraint → Requirement),
        r.parent ≠ none := by
      intro r hr
      obtain ⟨_, p, hp, _⟩ := hmem r hr
      rw [hp]
      exact nofun
    cases roots.get? n with
    | none => exact fun r hr => htail r (List.mem_of_mem_tail hr)
    | some c => exact htail
  · intro r hr hparent
    rcases List.mem_append.mp hr with hr | hr
    · exact (hroot r hr).2.2
    · obtain ⟨_, p, hp, _⟩ := hmem r hr
      rw [hp] at hparent
      cases hparent
  · intro r hr p hp
    rcases List.mem_append.mp hr with hr | hr
    · rw [(hroot r hr).2.1] at hp
      cases hp
    · obtain ⟨_, q, hq, hdeclared⟩ := hmem r hr
      rw [hq] at hp
      cases hp
      exact hdeclared

theorem Search.Branch.supported {fs : List Frame} {s : State} (hb : Branch g roots fs s) :
    ∀ e ∈ choices fs, e.2 ∈ g.supported e.1 := by
  intro e he
  exact List.mem_filter.mpr (hb.listed he)

theorem unmet_of_candidates_eq_nil {fs : List Frame} {s : State} {name : String} {c : Constraint}
    (hb : Branch g roots fs s) (hn : s.next? = some (name, c))
    (hnil : g.candidates name c = []) : Unmet g name (s.known name) := by
  intro p hp
  obtain ⟨hlisted, hsupports⟩ := List.mem_filter.mp hp
  by_contra hall
  have hmeets : ∀ r ∈ s.known name, r.constraint.contains p.version = true := by
    intro r hr
    by_contra hc
    exact hall ⟨r, hr, Bool.eq_false_of_not_eq_true hc⟩
  have hcommon := hb.accounted.pending name c (State.get?_of_next? hn)
  have hc : c.contains p.version = true := by
    rw [Constraint.contains_common hcommon, List.forall_mem_map]
    exact hmeets
  have hmem := Catalog.mem_candidates.mpr ⟨hlisted, hc, hsupports⟩
  rw [hnil] at hmem
  cases hmem

/-- A name that is up for decision was asked for. -/
theorem known_ne_nil {fs : List Frame} {s : State} {name : String} {c : Constraint}
    (hb : Branch g roots fs s) (hn : s.next? = some (name, c)) : s.known name ≠ [] := by
  intro hnil
  have hcommon := hb.accounted.pending name c (State.get?_of_next? hn)
  rw [hnil] at hcommon
  cases hcommon

theorem exhausted_of_unsatisfiable {maxRounds : Int} {causes : List Requirement}
    (h : (solve g roots maxRounds).result = .ok (.unsatisfiable causes)) :
    ∃ k frames j j', Reaches g roots k frames j ∧
      advance frames (j.record (.round k)) = (none, j') ∧ causes = j'.causes := by
  obtain ⟨hend, rfl⟩ := unsatisfiable_report_iff.mp h
  have he := ends_run g roots maxRounds.toNat
  generalize run g roots maxRounds.toNat = r at hend he
  cases he with
  | idle _ => cases hend
  | solved _ _ _ _ => cases hend
  | exhausted hr _ ha => exact ⟨_, _, _, _, hr, ha, rfl⟩
  | outOfRounds _ => cases hend
  | failedAtStart _ _ => cases hend
  | failed _ _ _ _ _ => cases hend

/-- When no open choice has a candidate left, a name without candidates is to blame. -/
theorem unmet_of_reaches {k : Nat} {frames : List Frame} {j : Journal}
    (hr : Reaches g roots k frames j) (hempty : ∀ f ∈ frames, f.candidates = []) :
    ∃ n, Traceable g roots n j.causes ∧ Unmet g n j.causes := by
  obtain ⟨f, fs, _, rfl, _⟩ := branch_of_reaches hr
  obtain ⟨s, c, hb, hn, hnil, hblame⟩ := causes_of_reaches hr (hempty f List.mem_cons_self)
  rw [hblame]
  refine ⟨f.name, ?_, unmet_of_candidates_eq_nil hb hn hnil⟩
  have hne := known_ne_nil hb hn
  rw [hb.known_eq] at hne ⊢
  exact traceable_recorded hb.supported hne

/-- When a candidate is refused that a search has tried, the causes explain it. -/
theorem explained_of_refused {k : Nat} {above below : List Frame} {f : Frame}
    {refused rest : List Package} {p : Package} {j : Journal} {causes : List Requirement}
    (hr : Reaches g roots k (above ++ f :: below) j)
    (habove : ∀ f' ∈ above, ∀ q ∈ f'.candidates, Refused f'.base f'.name q)
    (hps : f.candidates = refused ++ p :: rest) (hrefused : ∀ q ∈ refused, Refused f.base f.name q)
    (hp : f.base.pin f.name p = .error causes) :
    ∃ n, Traceable g roots n causes ∧ (Unmet g n causes ∨ Overruled g roots n causes) := by
  obtain ⟨s, c, hb, hn, hbase, hsub⟩ := exists_below_of_reaches hr rfl
  have hmem : p ∈ g.candidates f.name c := hsub (hps ▸ List.mem_append_right _ List.mem_cons_self)
  have htried : Tried g roots f.base f.name p := .intro hr habove hps hrefused
  rw [hbase] at hp
  obtain ⟨n, d, hd, hcauses, hclash⟩ := hb.clash_of_pin hn hmem hp
  have hmade : ∀ e ∈ choices below ++ [(f.name, p)], e.2 ∈ g.supported e.1 := by
    rw [List.forall_mem_append, List.forall_mem_singleton]
    exact ⟨hb.supported, Catalog.mem_supported_of_mem_candidates hmem⟩
  have hrecorded : recorded roots (choices below ++ [(f.name, p)]) n = causes := by
    rw [recorded_concat, hd, hcauses]
    rfl
  refine ⟨n, ?_, ?_⟩
  · rw [← hrecorded]
    refine traceable_recorded hmade ?_
    rw [hrecorded, hcauses]
    simp
  · rcases hclash with hnone | ⟨v, hv, hearlier, hlast⟩
    · refine .inl fun q _ => ?_
      rw [hcauses]
      exact hnone q.version
    · refine .inr ⟨_, _, p, f.base, f.name, v, hcauses, rfl, htried, ?_, hearlier, hlast⟩
      rw [hbase]
      exact hv

/-- The causes of a failure are requirements on one name that can be traced to the root and to
releases that may be chosen. Either no release of the name that supports the platform meets them
all, or the name had a version when the last of the releases was tried, and it meets all but the
last. -/
theorem unsatisfiable_causes {maxRounds : Int} {causes : List Requirement}
    (h : (solve g roots maxRounds).result = .ok (.unsatisfiable causes)) :
    ∃ n, Traceable g roots n causes ∧ (Unmet g n causes ∨ Overruled g roots n causes) := by
  obtain ⟨k, frames, j, j', hr, ha, rfl⟩ := exhausted_of_unsatisfiable h
  rcases refused_of_advance_eq_none ha with
    ⟨hempty, hcauses⟩ | ⟨above, f, below, refused, p, rfl, habove, hps, hrefused, hp⟩
  · obtain ⟨n, htraceable, hunmet⟩ := unmet_of_reaches hr hempty
    rw [hcauses]
    exact ⟨n, htraceable, .inl hunmet⟩
  · exact explained_of_refused hr habove hps hrefused hp

/-- The newest release of `b` is refused, because the version that `a` has by then is not old enough
for it. -/
theorem detour_causes :
    ∃ causes, (solve Detour.catalog Detour.newerOnly 10).result = .ok (.unsatisfiable causes) ∧
      causes = [⟨"a", Detour.atLeast 2, none⟩, ⟨"a", Detour.below 2, some Detour.b₂⟩] ∧
      ∃ n, Traceable Detour.catalog Detour.newerOnly n causes ∧
        (Unmet Detour.catalog n causes ∨ Overruled Detour.catalog Detour.newerOnly n causes) := by
  have hfails : (solve Detour.catalog Detour.newerOnly 10).result = .ok (.unsatisfiable _) := rfl
  exact ⟨_, hfails, rfl, unsatisfiable_causes hfails⟩

end PackageResolution
