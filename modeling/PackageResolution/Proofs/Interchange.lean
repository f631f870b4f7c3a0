import PackageResolution.Proofs.EqualRanges
import PackageResolution.Proofs.MergeOrder
import PackageResolution.Proofs.Relevance

/-!
# PackageResolution.Proofs.Interchange

Problems with equal ranges have equal answers. Two searches in interchangeable catalogs keep in
step: the same names are pending, with equal ranges, and every release that is tried is taken in
both or refused in both, for interchangeable causes.

* `Search.State.Interchangeable`: states of two such searches. `State.require_interchangeable` is
  about one requirement, `State.pin_interchangeable` about all those of a release.
* `Catalog.Interchangeable.lockstep`: the correspondence of two such searches.
* `equal_constraints_interchangeable`: equal answers by way of the same choices.
-/

namespace PackageResolution

namespace Search

/-! ## States -/

namespace State

/-- The same choices, with equal ranges pending on the same names for interchangeable reasons. -/
structure Interchangeable (s t : State) : Prop where
  pending : s.pending.SameRanges t.pending
  solutions : s.solutions = t.solutions
  known : ∀ n, List.Forall₂ Requirement.Interchangeable (s.known n) (t.known n)

variable {s t : State} {r r' : Requirement} {rs rs' : List Requirement}

theorem note_interchangeable (h : s.Interchangeable t) (hr : r.Interchangeable r') :
    (s.note r).Interchangeable (t.note r') := by
  refine ⟨h.pending, h.solutions, ?_⟩
  intro n
  rw [known_note, known_note, hr.name]
  split
  · exact List.rel_append (h.known n) (.cons hr .nil)
  · exact h.known n

theorem await_interchangeable (h : s.Interchangeable t) (n : String) {c c' : Constraint}
    (hc : c.equiv c' = true) : (s.await n c).Interchangeable (t.await n c') :=
  ⟨h.pending.insert n hc, h.solutions, h.known⟩

theorem require_interchangeable (h : s.Interchangeable t) (hr : r.Interchangeable r') :
    Concur (List.Forall₂ Requirement.Interchangeable) Interchangeable (s.require r)
      (t.require r') := by
  have hcauses : List.Forall₂ Requirement.Interchangeable (s.known r'.name ++ [r])
      (t.known r'.name ++ [r']) :=
    List.rel_append (h.known r'.name) (.cons hr .nil)
  have hpending := h.pending.get? r'.name
  unfold require
  rw [hr.name, h.solutions]
  cases t.solutions.get? r'.name with
  | some v =>
    simp only [Constraint.contains_congr hr.constraint (Version.equiv_self v)]
    split
    · exact .granted (note_interchangeable h hr)
    · exact .refused hcauses
  | none =>
    dsimp only
    generalize s.pending.get? r'.name = o, t.pending.get? r'.name = o' at hpending
    cases hpending with
    | none =>
      exact .granted (note_interchangeable (await_interchangeable h r'.name hr.constraint) hr)
    | @some c c' hc =>
      have hmerged := Constraint.intersect_congr hc hr.constraint
      dsimp only
      generalize c.intersect r.constraint = m, c'.intersect r'.constraint = m' at hmerged
      cases hmerged with
      | none => exact .refused hcauses
      | some hm => exact .granted (note_interchangeable (await_interchangeable h r'.name hm) hr)

theorem requireAll_interchangeable (h : s.Interchangeable t)
    (hrs : List.Forall₂ Requirement.Interchangeable rs rs') :
    Concur (List.Forall₂ Requirement.Interchangeable) Interchangeable (s.requireAll rs)
      (t.requireAll rs') := by
  induction hrs generalizing s t with
  | nil => exact .granted h
  | @cons r r' rs rs' hr _ ih =>
    have hone := require_interchangeable h hr
    unfold requireAll
    generalize s.require r = x, t.require r' = y at hone
    cases hone with
    | granted h' => exact ih h'
    | refused hc => exact .refused hc

theorem pin_interchangeable (h : s.Interchangeable t) {p q : Package} (hp : p.Interchangeable q)
    (n : String) : Concur (List.Forall₂ Requirement.Interchangeable) Interchangeable (s.pin n p)
      (t.pin n q) := by
  have hchoose : (s.choose n p.version).Interchangeable (t.choose n q.version) :=
    ⟨h.pending, by rw [choose_solutions, choose_solutions, h.solutions, hp.version], h.known⟩
  exact requireAll_interchangeable hchoose hp.requirements

theorem initial_interchangeable {roots roots' : OrderedMap String Constraint}
    (hr : roots.SameRanges roots') : (initial roots).Interchangeable (initial roots') := by
  refine ⟨hr, rfl, ?_⟩
  intro n
  have hget := hr.get? n
  unfold known initial
  rw [OrderedMap.get?_mapValues, OrderedMap.get?_mapValues]
  generalize roots.get? n = o, roots'.get? n = o' at hget
  cases hget with
  | none => exact .nil
  | some hc => exact .cons ⟨rfl, hc, .none⟩ .nil

end State

end Search

open Search

variable {g g' : Catalog} {roots roots' : OrderedMap String Constraint}

/-- What searches in interchangeable catalogs have in common. -/
def Catalog.Interchangeable.lockstep (h : g.Interchangeable g') : Lockstep g g' where
  Roots := OrderedMap.SameRanges
  Release := Package.Interchangeable
  Causes := List.Forall₂ Requirement.Interchangeable
  State := State.Interchangeable
  causes_nil := .nil
  solutions hs := hs.solutions
  initial := State.initial_interchangeable
  known hs n := hs.known n
  withdraw hs n := ⟨hs.pending.erase n, hs.solutions, hs.known⟩
  pin hs hp n := State.pin_interchangeable hs hp n
  next := by
    intro s t hs
    have hnext := State.least_related hs.pending
    unfold State.next?
    generalize State.least? s.pending.entries = o,
      State.least? t.pending.entries = o' at hnext
    cases hnext with
    | none => exact .none
    | @some e e' he => exact .some ⟨he.1, he.1 ▸ h.findCandidates e.1 he.2⟩

/-! ## Answers -/

/-- The same versions with interchangeable releases, in the same order, and the same graph. -/
structure Resolution.Interchangeable (r r' : Resolution) : Prop where
  mapping : r.mapping = r'.mapping
  packages : r.packages.Related Package.Interchangeable r'.packages
  graph : r.graph = r'.graph

/-- Outcomes that are equal, up to equal ranges and equal causes, by way of the same events. -/
abbrev Report.Interchangeable : Report → Report → Prop :=
  Report.Related Resolution.Interchangeable
    (fun causes causes' => Requirement.listEquiv causes causes' = true)
    (Event.Related OrderedMap.SameRanges Package.Interchangeable
      (List.Forall₂ Requirement.Interchangeable))

/-- The graph of a choice shows the names of dependencies, but not their ranges. -/
theorem Graph.ofPackages_congr {packages packages' : OrderedMap String Package}
    (h : packages.Related Package.Interchangeable packages') (names : List String) :
    ofPackages packages names = ofPackages packages' names := by
  have hneeded : neededEdges packages names = neededEdges packages' names := by
    unfold OrderedMap.Related at h
    unfold neededEdges
    generalize packages.entries = es, packages'.entries = es' at h
    refine congrArg _ ?_
    induction h with
    | nil => rfl
    | cons he _ ih =>
      rw [List.flatMap_cons, List.flatMap_cons, ih, he.1, he.2.dependencies.keys]
  unfold ofPackages
  rw [h.keys, hneeded]

theorem solve_interchangeable (hg : g.Interchangeable g') (hr : roots.SameRanges roots')
    (maxRounds : Int) :
    (solve g roots maxRounds).Interchangeable (solve g' roots' maxRounds) := by
  refine hg.lockstep.solve hr ?_ Requirement.listEquiv_of_interchangeable maxRounds
  intro mapping packages packages' graph graph' hpackages hgraph hgraph'
  rw [Graph.ofPackages_congr hpackages, hr.keys] at hgraph
  exact ⟨rfl, hpackages, Except.ok.inj (hgraph.symm.trans hgraph')⟩

/-- Neither membership nor intersection can tell equal ranges apart. So when the ranges of a problem
are replaced by equal ones, and its platform by an equal version, then the outcome is equal, and it
is found by way of the same choices. -/
theorem equal_constraints_interchangeable :
    (∀ {a a' : Constraint} {v v' : Version}, a.equiv a' = true → v.equiv v' = true →
      a.contains v = a'.contains v') ∧
    (∀ {a a' b b' : Constraint}, a.equiv a' = true → b.equiv b' = true →
      Constraint.Same (a.intersect b) (a'.intersect b')) ∧
    ∀ {g g' : Catalog} {roots roots' : OrderedMap String Constraint}, g.Interchangeable g' →
      roots.SameRanges roots' → ∀ maxRounds : Int,
        (solve g roots maxRounds).Interchangeable (solve g' roots' maxRounds) :=
  ⟨Constraint.contains_congr, Constraint.intersect_congr, solve_interchangeable⟩

/-- A catalog with a platform, and ranges that differ in their texts. -/
theorem detour_interchangeable :
    let marked := Detour.crowded.annotated ["x"]
    Detour.a₂.dependencies ≠ (Detour.a₂.annotated ["x"]).dependencies ∧
      Detour.crowded.platform ≠ marked.platform ∧ Detour.crowded.Interchangeable marked ∧
      Detour.demands.SameRanges (Detour.demands.annotated ["x"]) ∧
      (solve Detour.crowded Detour.demands 10).Interchangeable
        (solve marked (Detour.demands.annotated ["x"]) 10) := by
  have hg := Catalog.interchangeable_annotated ["x"] Detour.crowded
  have hr := OrderedMap.sameRanges_annotated ["x"] Detour.demands
  exact ⟨by decide, by decide, hg, hr, equal_constraints_interchangeable.2.2 hg hr 10⟩

end PackageResolution
