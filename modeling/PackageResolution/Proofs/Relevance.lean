import PackageResolution.Proofs.Rounds

/-!
# PackageResolution.Proofs.Relevance

What a search sees of its catalog. The names that it can come to are the roots and, from each name,
what the releases under it depend on that support the platform. Nothing else is looked up, so
catalogs that agree there are searched in the same way.

* `Relevant`: the names that a search can come to.
* `Catalog.supported`: the releases under a name that support the platform.
* `Catalog.stripped`: the catalog without a platform and without what does not support it.
* `reaches_of_agree`: searches of catalogs that agree on what is relevant take the same course.
-/

namespace PackageResolution

open Search

/-- The releases under a name that support the platform, as the repository lists them. -/
def Catalog.supported (g : Catalog) (name : String) : List Package :=
  (g.repository.lookup name).filter fun p => p.supports g.platform

inductive Relevant (g : Catalog) (roots : OrderedMap String Constraint) : String → Prop where
  | root {n : String} : n ∈ roots → Relevant g roots n
  | dependency {n d : String} {p : Package} : Relevant g roots n → p ∈ g.supported n →
      d ∈ p.dependencies → Relevant g roots d

/-- The repository without the releases that do not support the platform. -/
def Repository.supporting (r : Repository) (platform : Option Version) : Repository :=
  ⟨r.releases.mapValues fun _ ps => ps.filter fun p => p.supports platform⟩

def Catalog.stripped (g : Catalog) : Catalog := ⟨g.repository.supporting g.platform, none⟩

variable {g g' : Catalog} {roots : OrderedMap String Constraint} {n : String}

theorem Repository.lookup_supporting (r : Repository) (platform : Option Version) (n : String) :
    (r.supporting platform).lookup n = (r.lookup n).filter fun p => p.supports platform := by
  rw [lookup, lookup, supporting, OrderedMap.get?_mapValues]
  cases r.releases.get? n with
  | none => rfl
  | some ps => rfl

theorem Package.supports_none (p : Package) : p.supports none = true := by
  unfold Package.supports
  cases p.platform <;> rfl

theorem Catalog.supported_stripped (g : Catalog) (n : String) :
    g.stripped.supported n = g.supported n := by
  simp [supported, stripped, Repository.lookup_supporting, Package.supports_none]

/-! ## What a search can come to -/

theorem Catalog.findCandidates_eq (g : Catalog) (n : String) (c : Constraint) :
    g.findCandidates n c = bestFirst ((g.supported n).filter fun p => c.contains p.version) := by
  rw [findCandidates, supported, List.filter_filter]
  rfl

theorem Catalog.mem_supported_of_mem_candidates {c : Constraint} {p : Package}
    (h : p ∈ g.candidates n c) : p ∈ g.supported n := by
  obtain ⟨hl, _, hs⟩ := mem_candidates.mp h
  exact List.mem_filter.mpr ⟨hl, hs⟩

namespace Search

variable {frames fs : List Frame} {s : State} {j : Journal} {k : Nat}

theorem Branch.relevant_of_mentions (h : Branch g roots fs s) (hn : s.Mentions n) :
    Relevant g roots n := by
  induction h generalizing n with
  | start =>
    rcases hn with hn | hn
    · exact .root hn
    · cases hn
  | @pin fs s s' name c p tried rest _ hnext hc _ hp ih =>
    rcases (State.mentions_pin hnext hp).mp hn with hn | hn
    · exact ih hn
    · have hmem : p ∈ g.candidates name c := by
        rw [Catalog.candidates_of_found hc]
        exact List.mem_append_right tried List.mem_cons_self
      have hname : Relevant g roots name := ih (.inl (State.mem_of_next? hnext))
      exact .dependency hname (Catalog.mem_supported_of_mem_candidates hmem) hn

/-- The catalogs list the same supported releases under every relevant name. -/
def Agree (g g' : Catalog) (roots : OrderedMap String Constraint) : Prop :=
  ∀ n, Relevant g roots n → g.supported n = g'.supported n

theorem findCandidates_of_agree (h : Agree g g' roots) (hb : Branch g roots fs s) {c : Constraint}
    (hn : s.next? = some (n, c)) : g'.findCandidates n c = g.findCandidates n c := by
  have hrel : Relevant g roots n := hb.relevant_of_mentions (.inl (State.mem_of_next? hn))
  rw [Catalog.findCandidates_eq, Catalog.findCandidates_eq, h n hrel]

theorem openFrame_of_agree (h : Agree g g' roots) (hb : Branch g roots fs s) {c : Constraint}
    (hn : s.next? = some (n, c)) (j : Journal) :
    openFrame g' s n c j = openFrame g s n c j := by
  rw [openFrame, openFrame, findCandidates_of_agree h hb hn]

/-! ## Whole runs -/

theorem reaches_of_agree (h : Agree g g' roots) (hr : Reaches g roots k frames j) :
    Reaches g' roots k frames j := by
  induction hr with
  | start hn hf =>
    rw [← openFrame_of_agree h .start hn] at hf
    exact .start hn hf
  | next hr ha hn hf ih =>
    have hb := pinsAt_branch ⟨_, _, _, hr, ha⟩
    rw [← openFrame_of_agree h hb hn] at hf
    exact .next ih ha hn hf

theorem ends_of_agree (h : Agree g g' roots) {limit : Nat} {r : Run} (he : Ends g roots limit r) :
    Ends g' roots limit r := by
  cases he with
  | idle hn => exact .idle hn
  | solved hr hk ha hn => exact .solved (reaches_of_agree h hr) hk ha hn
  | exhausted hr hk ha => exact .exhausted (reaches_of_agree h hr) hk ha
  | outOfRounds hr => exact .outOfRounds (reaches_of_agree h hr)
  | failedAtStart hn hf =>
    rw [← findCandidates_of_agree h .start hn] at hf
    exact .failedAtStart hn hf
  | failed hr hk ha hn hf =>
    have hb := pinsAt_branch ⟨_, _, _, hr, ha⟩
    rw [← findCandidates_of_agree h hb hn] at hf
    exact .failed (reaches_of_agree h hr) hk ha hn hf

theorem run_of_agree (h : Agree g g' roots) (limit : Nat) :
    run g roots limit = run g' roots limit :=
  (run_of_ends (ends_of_agree h (ends_run g roots limit))).symm

end Search

/-- Two catalogs that list the same supported releases under every relevant name have the same
outcome, by way of the same events. So a platform does no more than to take away the releases that
do not support it. -/
theorem solve_relevant_only (g : Catalog) (roots : OrderedMap String Constraint) (maxRounds : Int) :
    (∀ g' : Catalog, (∀ n, Relevant g roots n → g.supported n = g'.supported n) →
      solve g roots maxRounds = solve g' roots maxRounds) ∧
    solve g roots maxRounds = solve g.stripped roots maxRounds := by
  have hsolve : ∀ g', Agree g g' roots → solve g roots maxRounds = solve g' roots maxRounds := by
    intro g' h
    rw [solve, solve, run_of_agree h]
  refine ⟨hsolve, hsolve g.stripped ?_⟩
  intro n _
  exact (Catalog.supported_stripped g n).symm

namespace Search.Detour

/-- Not for the platform that `crowded` is about. -/
def b₃ : Package := { release "b" 3 [] with platform := some (below 2) }

/-- A release that nothing asks for. -/
def z₁ : Package := release "z" 1 [("a", below 1)]

def crowded : Catalog :=
  ⟨Repository.ofPackages [z₁, a₁, a₂, b₃, b₁, b₂, c₁], some (version 3)⟩

theorem relevant_crowded (h : Relevant crowded demands n) : n ∈ ["a", "b", "c"] := by
  have hroots : ∀ d ∈ demands.keys, d ∈ ["a", "b", "c"] := by decide
  have hlisted : ∀ e ∈ crowded.repository.releases.entries, e.1 ∈ ["a", "b", "c"] →
      ∀ p ∈ e.2, ∀ d ∈ p.dependencies.keys, d ∈ ["a", "b", "c"] := by decide
  induction h with
  | root hn => exact hroots _ hn
  | @dependency n d p _ hp hd ih =>
    have hall := Repository.forall_lookup (r := crowded.repository)
      (P := fun n ps => n ∈ ["a", "b", "c"] →
        ∀ p ∈ ps, ∀ d ∈ p.dependencies.keys, d ∈ ["a", "b", "c"])
      (fun _ _ _ hp => absurd hp List.not_mem_nil) hlisted n
    exact hall ih p (List.mem_filter.mp hp).1 d hd

theorem agree_crowded (n : String) (h : Relevant crowded demands n) :
    crowded.supported n = catalog.supported n := by
  have hn := relevant_crowded h
  simp only [List.mem_cons, List.not_mem_nil, or_false] at hn
  rcases hn with rfl | rfl | rfl
  · decide
  · decide
  · decide

end Search.Detour

theorem detour_relevant_only :
    Detour.crowded.repository.lookup "b" ≠ Detour.catalog.repository.lookup "b" ∧
      (∀ n, Relevant Detour.crowded Detour.demands n →
        Detour.crowded.supported n = Detour.catalog.supported n) ∧
      solve Detour.crowded Detour.demands 10 = solve Detour.catalog Detour.demands 10 ∧
      solve Detour.crowded Detour.demands 10 = solve Detour.crowded.stripped Detour.demands 10 := by
  obtain ⟨hagree, hstripped⟩ := solve_relevant_only Detour.crowded Detour.demands 10
  exact ⟨by decide, Detour.agree_crowded, hagree Detour.catalog Detour.agree_crowded, hstripped⟩

end PackageResolution
