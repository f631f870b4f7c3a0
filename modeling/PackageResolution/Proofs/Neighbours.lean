import PackageResolution.Proofs.GraphCalls

/-!
# PackageResolution.Proofs.Neighbours

Every edge is kept twice, forwards with the children of its parent and backwards with the parents
of its child. The two records agree after any attempts to add vertices and edges, whether these fail
or not, and an attempt that fails leaves the graph as it was. The one exception is an edge into the
root. As the root has no parents, the attempt fails, but only after the edge is recorded forwards.

* `Graph.failure?`: why an attempt fails. `Graph.perform_of_failure` says that nothing changes then.
* `Graph.Mirrored`: the two records agree. `Graph.Mirrored.perform` is about one attempt,
  `Graph.mirrored_build` about all graphs.
* `Graph.TwoWay`: what that means for the neighbours of a vertex.
* `Graph.edges_mirrored`: all of this, after any attempts.
-/

namespace PackageResolution
namespace Graph

/-- Why an attempt fails, if it does. -/
def failure? (g : Graph) : Call → Option GraphError
  | .add v =>
    match g.add v with
    | .error e => some e
    | .ok _ => none
  | .connect parent child => (g.connect parent child).2

/-- The attempt is to add an edge from a vertex that is there to the root, which is there, too. -/
def Call.EntersRoot (g : Graph) (call : Call) : Prop :=
  ∃ parent, call = .connect parent .root ∧ parent ∈ g ∧ Vertex.root ∈ g

variable {g g' : Graph} {call : Call} {v : Vertex}

theorem perform_of_failure (hg : g.Listed) {error : GraphError}
    (h : g.failure? call = some error) (hroot : ¬ call.EntersRoot g) : g.perform call = g := by
  cases call with
  | add w =>
    rcases add_outcomes g w with ⟨_, hw⟩ | ⟨_, g', hw, _⟩
    · simp only [perform, hw]
    · simp [failure?, hw] at h
  | connect parent child =>
    rcases connect_outcomes g parent child with ⟨v, _, _, hv⟩ | ⟨hp, hc, vs, _, _, hrecord⟩
    · rw [perform, hv]
    · rcases hrecord with ⟨hnone, _⟩ | ⟨n, ps, rfl, _, hdone, _⟩
      · cases child with
        | root => exact absurd ⟨parent, rfl, hp, hc⟩ hroot
        | package n => exact absurd (hg n hc) (hnone n rfl)
      · rw [failure?, hdone] at h
        cases h

/-! ## The two records -/

/-- Parents are kept for the packages of the graph, and they are those with an edge to it. -/
structure Mirrored (g : Graph) : Prop where
  listed : ∀ n, n ∈ g.parents ↔ Vertex.package n ∈ g
  backwards : ∀ p n, (p, Vertex.package n) ∈ g.edges ↔ ∃ ps, g.parents.get? n = some ps ∧ p ∈ ps

theorem Mirrored.entries (hg : g.Mirrored) : g.Listed := fun n => (hg.listed n).mpr

theorem mirrored_empty : empty.Mirrored where
  listed _ := iff_of_false List.not_mem_nil List.not_mem_nil
  backwards _ _ := by
    refine iff_of_false List.not_mem_nil ?_
    rintro ⟨ps, hps, _⟩
    cases hps

theorem Mirrored.add (hg : g.Mirrored) (h : g.add v = .ok g') : g'.Mirrored := by
  rcases add_outcomes g v with ⟨_, hv⟩ | ⟨hv, g₁, h₁, hparents⟩
  · rw [hv] at h
    cases h
  cases h.symm.trans h₁
  refine ⟨fun n => ?_, fun p n => ?_⟩
  · rw [mem_of_add h, ← hg.listed]
    rcases hparents with ⟨rfl, hp⟩ | ⟨m, rfl, hp⟩
    · simp [hp]
    · rw [hp, OrderedMap.mem_insert, Vertex.package.injEq]
  · rw [mem_edges_of_add h, hg.backwards]
    rcases hparents with ⟨rfl, hp⟩ | ⟨m, rfl, hp⟩
    · rw [hp]
    · rw [hp, OrderedMap.get?_insert]
      by_cases hn : n = m
      · -- a package that was not there had no parents
        have hnone : g.parents.get? m = none :=
          OrderedMap.get?_eq_none_iff.mpr fun hm => hv ((hg.listed m).mp hm)
        simp [hn, hnone]
      · simp [hn]

theorem Mirrored.connect (hg : g.Mirrored) (parent child : Vertex) :
    (g.connect parent child).1.Mirrored := by
  rcases connect_outcomes g parent child with ⟨v, _, _, h⟩ | ⟨hp, hc, vs, _, _, hrecord⟩
  · rw [h]
    exact hg
  have hedges (p : Vertex) (n : String) : (p, .package n) ∈ (g.connect parent child).1.edges ↔
      (p, .package n) ∈ g.edges ∨ p = parent ∧ .package n = child := by
    change (p, .package n) ∈ (g.perform (.connect parent child)).edges ↔ _
    rw [mem_edges_perform, Call.connect.injEq]
    grind
  refine ⟨fun n => ?_, fun p n => ?_⟩
  · rw [mem_connect, ← hg.listed]
    rcases hrecord with ⟨_, hparents⟩ | ⟨m, ps, rfl, _, _, hparents⟩
    · rw [hparents]
    · rw [hparents, OrderedMap.mem_insert]
      refine or_iff_right_of_imp ?_
      rintro rfl
      exact (hg.listed n).mpr hc
  · rw [hedges, hg.backwards]
    rcases hrecord with ⟨hnone, hparents⟩ | ⟨m, ps, rfl, hps, _, hparents⟩
    · -- a package of the graph has an entry, so the child is the root
      have hn : .package n ≠ child := by
        rintro rfl
        exact hnone n rfl (hg.entries n hc)
      simp [hparents, hn]
    · rw [hparents, OrderedMap.get?_insert]
      by_cases hn : n = m
      · subst hn
        simp [hps, mem_join, or_comm]
      · simp [hn]

theorem Mirrored.perform (hg : g.Mirrored) (call : Call) : (g.perform call).Mirrored := by
  cases call with
  | add v =>
    cases h : g.add v with
    | error _ => simpa only [Graph.perform, h] using hg
    | ok g' => simpa only [Graph.perform, h] using hg.add h
  | connect parent child => exact hg.connect parent child

theorem mirrored_build (calls : List Call) : (build calls).Mirrored := by
  induction calls using List.reverseRecOn with
  | nil => exact mirrored_empty
  | append_singleton calls call ih =>
    rw [build_concat]
    exact ih.perform call

/-! ## Neighbours -/

/-- The neighbours of all vertices can be told, and packages are the children of those vertices that
are their parents. -/
structure TwoWay (g : Graph) : Prop where
  children : ∀ v ∈ g, ∃ vs, g.children? v = .ok vs
  parents : ∀ n, .package n ∈ g → ∃ ps, g.parents? (.package n) = .ok ps
  converse : ∀ p n, (∃ vs, g.children? p = .ok vs ∧ .package n ∈ vs) ↔
    ∃ ps, g.parents? (.package n) = .ok ps ∧ p ∈ ps

theorem children?_eq_ok_iff {vs : List Vertex} :
    g.children? v = .ok vs ↔ g.children.get? v = some vs := by
  unfold children?
  cases g.children.get? v <;> simp

theorem parents?_eq_ok_iff {n : String} {ps : List Vertex} :
    g.parents? (.package n) = .ok ps ↔ g.parents.get? n = some ps := by
  simp only [parents?]
  cases g.parents.get? n <;> simp

theorem Mirrored.twoWay (hg : g.Mirrored) : g.TwoWay := by
  constructor
  · intro v hv
    simp only [children?_eq_ok_iff]
    exact OrderedMap.exists_get?_of_mem hv
  · intro n hn
    simp only [parents?_eq_ok_iff]
    exact OrderedMap.exists_get?_of_mem ((hg.listed n).mpr hn)
  · intro p n
    simp only [children?_eq_ok_iff, parents?_eq_ok_iff]
    rw [← hg.backwards, mem_edges_iff]

/-- A failed attempt leaves a graph as it was, unless it is to add an edge from a vertex that is
there to the root. Edges run between vertices, and their records in the two directions agree. Edges
into the root only come from such attempts. -/
theorem edges_mirrored (calls : List Call) :
    (∀ call error, (build calls).failure? call = some error → ¬ call.EntersRoot (build calls) →
      build (calls ++ [call]) = build calls) ∧
    (∀ e ∈ (build calls).edges, e.1 ∈ build calls ∧ e.2 ∈ build calls) ∧
    (build calls).TwoWay ∧
    ∀ p, (p, .root) ∈ (build calls).edges → ∃ before call after,
      calls = before ++ call :: after ∧ call.EntersRoot (build before) := by
  refine ⟨?_, fun e he => ends_of_mem_edges_build he, (mirrored_build calls).twoWay, ?_⟩
  · intro call error h hroot
    rw [build_concat, perform_of_failure (mirrored_build calls).entries h hroot]
  · intro p hp
    obtain ⟨before, after, rfl, hends⟩ := mem_edges_build.mp hp
    exact ⟨before, _, after, rfl, p, rfl, hends⟩

theorem edges_mirrored_tangled :
    let calls : List Call :=
      [.add .root, .add (.package "a"), .add (.package "b"), .connect .root (.package "a"),
        .connect (.package "a") (.package "b"), .connect (.package "b") (.package "a"),
        .add (.package "a"), .connect (.package "b") .root]
    let call : Call := .connect (.package "a") (.package "c")
    (build calls).failure? call = some (.missing (.package "c")) ∧
      ¬ call.EntersRoot (build calls) ∧ build (calls ++ [call]) = build calls ∧
      (.package "b", .root) ∈ (build calls).edges ∧
      ∃ before call after, calls = before ++ call :: after ∧ call.EntersRoot (build before) := by
  intro calls call
  have hfails : (build calls).failure? call = some (.missing (.package "c")) := by decide
  have hroot : ¬ call.EntersRoot (build calls) := by
    rintro ⟨parent, h, _⟩
    simp [call] at h
  have hedge : (.package "b", .root) ∈ (build calls).edges := by decide
  obtain ⟨hkept, _, _, hentry⟩ := edges_mirrored calls
  exact ⟨hfails, hroot, hkept call _ hfails hroot, hedge, hentry _ hedge⟩

/-- An edge into the root is left behind by the attempt that fails to add it. -/
theorem edge_into_root_half_recorded :
    let calls : List Call := [.add .root, .add (.package "a")]
    let call : Call := .connect (.package "a") .root
    (build calls).failure? call = some (.missing .root) ∧ (build calls).edges = [] ∧
      (build (calls ++ [call])).edges = [(.package "a", .root)] := by
  decide

end Graph
end PackageResolution
