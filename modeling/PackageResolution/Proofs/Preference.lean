import PackageResolution.Proofs.Completeness

/-!
# PackageResolution.Proofs.Preference

The solution that is found among all valid assignments. Names are decided in a fixed order, and each
takes the first of its candidates that some valid assignment with the choices before it takes.

* `Asked`: the names that the roots and some of the chosen releases ask for.
-/

namespace PackageResolution

open Search

/-- The name is asked for by the roots or by a release chosen for one of `names`. -/
def Asked (roots : OrderedMap String Constraint) (packages : OrderedMap String Package)
    (names : List String) (m : String) : Prop :=
  m ∈ roots ∨ ∃ k ∈ names, ∃ p, packages.get? k = some p ∧ m ∈ p.dependencies

variable {g : Catalog} {roots : OrderedMap String Constraint} {A : String → Option Package}
  {fs : List Frame} {s : State}

theorem Search.Branch.fits_versions (h : Branch g roots fs s) (hA : Valid g roots A)
    (hagree : ∀ e ∈ choices fs, A e.1 = some e.2) : s.Fits (versions A) := by
  rw [h.fits_iff]
  refine ⟨hA.satisfies_roots, fun e he => ?_⟩
  have hp := hagree e he
  exact ⟨by simp [versions, hp], hA.satisfies_dependencies hp⟩

/-- What an assignment takes instead of `p` comes after `p` among the candidates: it is not one of
those before `p`, which all led to a dead end. -/
theorem Valid.precedes (hA : Valid g roots A) {name : String} {c : Constraint} {p : Package}
    {tried rest : List Package} (hs : s.Apart) (hn : s.next? = some (name, c))
    (hc : g.findCandidates name c = .ok (tried ++ p :: rest))
    (ht : ∀ q ∈ tried, Hopeless g (s.withdraw name) name q) (hf : s.Fits (versions A))
    (hne : A name ≠ some p) :
    ∃ q, A name = some q ∧ Package.Precedes (g.repository.lookup name) p q := by
  obtain ⟨q, hmem, hq, s', hpin, hf'⟩ := hA.exists_pin hs hn hf
  have hqp : q ≠ p := by rintro rfl; exact hne hq
  have htried : q ∉ tried := fun h =>
    hA.not_fits_of_deadEnd (ht q h s' hpin) (State.apart_pin hs hpin) hf'
  have hrest : q ∈ rest := by
    rw [Catalog.candidates_of_found hc, List.mem_append, List.mem_cons] at hmem
    exact (hmem.resolve_left htried).resolve_left hqp
  exact ⟨q, hq, Catalog.precedes_of_findCandidates hc htried hrest hqp⟩

theorem Search.Branch.asked_iff {fs₀ : List Frame} {s₀ : State} (h : Branch g roots fs s)
    (h₀ : Branch g roots fs₀ s₀) (hsub : ∀ e ∈ choices fs₀, e ∈ choices fs) {m : String} :
    Asked roots (OrderedMap.ofList (choices fs)) ((choices fs₀).map Prod.fst) m ↔
      s₀.Mentions m := by
  rw [h₀.mentions_iff, Asked]
  refine or_congr_right ⟨?_, ?_⟩
  · rintro ⟨k, hk, p, hp, hm⟩
    obtain ⟨e, he, rfl⟩ := List.mem_map.mp hk
    have hep := h.get?_choices.mpr (hsub e he)
    rw [hp] at hep
    cases hep
    exact ⟨e, he, hm⟩
  · rintro ⟨e, he, hm⟩
    exact ⟨e.1, List.mem_map_of_mem he, e.2, h.get?_choices.mpr (hsub e he), hm⟩

/-- Where a valid assignment first differs from a solution, in the order in which the solution was
chosen, it takes a release of less preference. Each name was the least one that was asked for and
not yet chosen. -/
theorem resolution_newest_first {maxRounds : Int} {r : Resolution}
    (h : (solve g roots maxRounds).result = .ok (.resolved r)) {n : String}
    {before after : List String} (hk : r.mapping.keys = before ++ n :: after) :
    (∀ A, Valid g roots A → (∀ k ∈ before, A k = r.packages.get? k) →
      A n ≠ r.packages.get? n →
      ∃ p q, r.packages.get? n = some p ∧ A n = some q ∧
        Package.Precedes (g.repository.lookup n) p q) ∧
    Asked roots r.packages before n ∧ n ∉ before ∧
      ∀ m, Asked roots r.packages before m → m ∉ before → n ≤ m := by
  obtain ⟨fs, s, hb, _, hm, hp⟩ := branch_of_resolved h
  rw [hm] at hk
  obtain ⟨fs₀, s₀, c, p, tried, rest, hb₀, rfl, hsub, hmem, hn, hc, ht⟩ := hb.exists_choice hk
  have hget : r.packages.get? n = some p := hp ▸ hb.get?_choices.mpr hmem
  have hasked : ∀ m, Asked roots r.packages ((choices fs₀).map Prod.fst) m ↔ s₀.Mentions m := by
    intro m
    rw [hp]
    exact hb.asked_iff hb₀ hsub
  have hnext := State.mem_of_next? hn
  rw [← hb₀.keys_solutions] at hasked ⊢
  refine ⟨?_, ?_, ?_, ?_⟩
  · intro A hA hagree hne
    have hfit : s₀.Fits (versions A) := by
      apply hb₀.fits_versions hA
      intro e he
      have hk : e.1 ∈ s₀.solutions.keys := hb₀.keys_solutions ▸ List.mem_map_of_mem he
      rw [hagree e.1 hk, hp]
      exact hb.get?_choices.mpr (hsub e he)
    rw [hget] at hne
    obtain ⟨q, hq, hpq⟩ := hA.precedes hb₀.apart hn hc ht hfit hne
    exact ⟨p, q, hget, hq, hpq⟩
  · rw [hasked]
    exact .inl hnext
  · exact hb₀.apart n hnext
  · intro m hm hnot
    rw [hasked] at hm
    exact State.le_of_next? hn (hm.resolve_right hnot)

theorem detour_newest_first :
    ∃ r, (solve Detour.catalog Detour.demands 10).result = .ok (.resolved r) ∧
      r.mapping.keys = ["a"] ++ "b" :: [] ∧
      Valid Detour.catalog Detour.demands Detour.older.get? ∧
      (∃ p q, r.packages.get? "b" = some p ∧ Detour.older.get? "b" = some q ∧
        Package.Precedes (Detour.catalog.repository.lookup "b") p q) ∧
      Asked Detour.demands r.packages ["a"] "b" ∧ "b" ∉ ["a"] ∧
      ∀ m, Asked Detour.demands r.packages ["a"] m → m ∉ ["a"] → "b" ≤ m := by
  obtain ⟨r, h, hkeys, hp⟩ := exists_detour
  have hk : r.mapping.keys = ["a"] ++ "b" :: [] := hkeys
  obtain ⟨hlater, hleast⟩ := resolution_newest_first h hk
  have hget : r.packages.get? = (OrderedMap.ofList [("a", Detour.a₁), ("b", Detour.b₂)]).get? := by
    funext m
    rw [OrderedMap.get?, hp]
    rfl
  refine ⟨r, h, hk, Detour.valid_older, hlater _ Detour.valid_older ?_ ?_, hleast⟩
  · rw [hget]
    decide
  · rw [hget]
    decide

end PackageResolution
