import PackageResolution.Proofs.Branches
import PackageResolution.Proofs.Neighbours

/-!
# PackageResolution.Proofs.ChosenGraph

The graph of a choice of releases, in full. If all names that are asked for are chosen, then it has
the root and the chosen names as its vertices, the edges that are asked for, and no others. If not,
then the first name that is missing is reported, where the user asks before the releases do.

* `Graph.requested`: the names in the order in which they are asked for.
* `Graph.connectAll_of_missing`: adding edges ends at the first one that leads nowhere.
* `Graph.exists_calls_of_ofPackages`: the graph of a choice is built by attempts, so what is said of
  those graphs holds of it.
* `Graph.ofPackages_exact`: both cases.
-/

namespace PackageResolution
namespace Graph

/-- The names that are asked for: by the user, then by each release. -/
def requested (packages : OrderedMap String Package) (roots : List String) : List String :=
  roots ++ packages.entries.flatMap fun e => e.2.dependencies.keys

variable {packages : OrderedMap String Package} {roots : List String} {g g' graph : Graph}
  {v w : Vertex}

theorem map_snd_neededEdges (packages : OrderedMap String Package) (roots : List String) :
    (neededEdges packages roots).map Prod.snd = (requested packages roots).map .package := by
  simp [neededEdges, requested, List.map_flatMap, Function.comp_def]

theorem mem_requested {d : String} :
    d ∈ requested packages roots ↔
      d ∈ roots ∨ ∃ n p, packages.get? n = some p ∧ d ∈ p.dependencies := by
  simp [requested, OrderedMap.get?_eq_some_iff, OrderedMap.mem_iff]

theorem mem_neededEdges :
    (v, w) ∈ neededEdges packages roots ↔
      (v = .root ∧ ∃ n ∈ roots, w = .package n) ∨
        ∃ n p, packages.get? n = some p ∧ v = .package n ∧
          ∃ d ∈ p.dependencies, w = .package d := by
  simp [neededEdges, OrderedMap.get?_eq_some_iff, OrderedMap.mem_iff]
  grind

/-! ## Names that are missing -/

/-- Edges are added up to the first one that leads nowhere. -/
theorem connectAll_of_missing (hg : g.Listed) {before after : List (Vertex × Vertex)}
    {e : Vertex × Vertex}
    (hbefore : ∀ e' ∈ before, e'.1 ∈ g ∧ ∃ n, e'.2 = .package n ∧ .package n ∈ g)
    (hparent : e.1 ∈ g) (hchild : e.2 ∉ g) :
    g.connectAll (before ++ e :: after) = .error (.missing e.2) := by
  induction before generalizing g with
  | nil =>
    rcases connect_outcomes g e.1 e.2 with ⟨v, hv, hmissing, h⟩ | ⟨_, hc, _⟩
    · have hv' : v = e.2 := hv.resolve_left fun he => hmissing (he ▸ hparent)
      simp only [List.nil_append, connectAll, h, hv']
    · exact absurd hc hchild
  | cons e' before ih =>
    rw [List.forall_mem_cons] at hbefore
    obtain ⟨⟨hp, n, hc, hn⟩, hrest⟩ := hbefore
    rw [List.cons_append, connectAll_cons hg hp hc hn]
    refine ih (hg.connect e'.1 e'.2) ?_ (mem_connect.mpr hparent) fun h => hchild (mem_connect.mp h)
    exact fun e'' he'' => ends_connect (hrest e'' he'')

theorem ofPackages_of_missing {before after : List String} {n : String}
    (hsplit : requested packages roots = before ++ n :: after)
    (hbefore : ∀ m ∈ before, m ∈ packages) (hn : n ∉ packages) :
    ofPackages packages roots = .error (.missing (.package n)) := by
  obtain ⟨g, hadd, hmem⟩ :=
    exists_addAll (nodup_vertices packages) fun v _ => not_mem_empty v
  have hvertex (v : Vertex) : v ∈ g ↔ v = .root ∨ ∃ m ∈ packages, v = .package m := by
    rw [hmem, List.mem_cons, List.mem_map]
    simp [not_mem_empty, OrderedMap.mem_iff, eq_comm]
  have hparents : ∀ e ∈ neededEdges packages roots, e.1 ∈ g := by
    rintro ⟨v, w⟩ he
    rw [hvertex]
    rcases mem_neededEdges.mp he with ⟨hv, _⟩ | ⟨m, p, hp, hv, _⟩
    · exact .inl hv
    · exact .inr ⟨m, OrderedMap.mem_of_get?_eq_some hp, hv⟩
  -- the edges are split where the names are split
  have htargets := map_snd_neededEdges packages roots
  rw [hsplit, List.map_append, List.map_cons] at htargets
  obtain ⟨es, rest, hes, hfirst, hrest⟩ := List.map_eq_append_iff.mp htargets
  obtain ⟨e, es', rfl, hlast, _⟩ := List.map_eq_cons_iff.mp hrest
  rw [ofPackages, hadd]
  simp only [hes]
  rw [connectAll_of_missing (listed_empty.addAll hadd), hlast]
  · intro e' he'
    refine ⟨hparents e' (by simp [hes, he']), ?_⟩
    have htarget : e'.2 ∈ before.map Vertex.package := hfirst ▸ List.mem_map_of_mem he'
    obtain ⟨m, hm, heq⟩ := List.mem_map.mp htarget
    exact ⟨m, heq.symm, (hvertex _).mpr (.inr ⟨m, hbefore m hm, rfl⟩)⟩
  · exact hparents e (by simp [hes])
  · rw [hlast, hvertex]
    simpa using hn

/-- If not all members of a list are in a map, then one of them is the first that is not. -/
theorem exists_first_missing {names : List String} (h : ¬ ∀ n ∈ names, n ∈ packages) :
    ∃ before n after, names = before ++ n :: after ∧ (∀ m ∈ before, m ∈ packages) ∧
      n ∉ packages := by
  have hfind : (names.find? fun n => decide (n ∉ packages)).isSome = true := by
    simpa using h
  obtain ⟨n, hn⟩ := Option.isSome_iff_exists.mp hfind
  obtain ⟨hmissing, before, after, hsplit, hbefore⟩ := List.find?_eq_some_iff_append.mp hn
  exact ⟨before, n, after, hsplit, by simpa using hbefore, by simpa using hmissing⟩

/-! ## The graph of a choice is built by attempts -/

theorem foldl_perform_of_addAll {vs : List Vertex} (h : g.addAll vs = .ok g') :
    (vs.map Call.add).foldl perform g = g' := by
  induction vs generalizing g with
  | nil => cases h; rfl
  | cons v vs ih =>
    rw [addAll] at h
    split at h
    · cases h
    · rename_i g₁ hadd
      have hstep : g.perform (.add v) = g₁ := by simp only [perform, hadd]
      rw [List.map_cons, List.foldl_cons, hstep, ih h]

theorem foldl_perform_of_connectAll {es : List (Vertex × Vertex)} (h : g.connectAll es = .ok g') :
    (es.map fun e => Call.connect e.1 e.2).foldl perform g = g' := by
  induction es generalizing g with
  | nil => cases h; rfl
  | cons e es ih =>
    obtain ⟨g₁, hg, hrest⟩ := of_connectAll_cons h
    have hstep : g.perform (.connect e.1 e.2) = g₁ := by simp only [perform, hg]
    rw [List.map_cons, List.foldl_cons, hstep, ih hrest]

theorem exists_calls_of_ofPackages (h : ofPackages packages roots = .ok graph) :
    ∃ calls, build calls = graph := by
  unfold ofPackages at h
  split at h
  · cases h
  · rename_i g hadd
    refine ⟨(.root :: packages.keys.map .package).map .add ++
      (neededEdges packages roots).map fun e => .connect e.1 e.2, ?_⟩
    rw [build, List.foldl_append, foldl_perform_of_addAll hadd, foldl_perform_of_connectAll h]

/-! ## Both cases -/

/-- If all names that are asked for are chosen, then the graph of the choice has the root and the
chosen names as vertices, and edges from the root to the names of the user and from each chosen name
to the dependencies of its release. Otherwise the first name that is missing is reported. -/
theorem ofPackages_exact (packages : OrderedMap String Package) (roots : List String) :
    ((∀ n ∈ requested packages roots, n ∈ packages) →
      ∃ graph, ofPackages packages roots = .ok graph ∧
        (∀ v, v ∈ graph ↔ v = .root ∨ ∃ n ∈ packages, v = .package n) ∧
        (∀ v w, (v, w) ∈ graph.edges ↔ (v = .root ∧ ∃ n ∈ roots, w = .package n) ∨
          ∃ n p, packages.get? n = some p ∧ v = .package n ∧
            ∃ d ∈ p.dependencies, w = .package d) ∧
        graph.TwoWay) ∧
    ((¬ ∀ n ∈ requested packages roots, n ∈ packages) →
      ∃ before n after, requested packages roots = before ++ n :: after ∧
        (∀ m ∈ before, m ∈ packages) ∧ n ∉ packages ∧
        ofPackages packages roots = .error (.missing (.package n))) := by
  constructor
  · intro hall
    simp only [mem_requested] at hall
    obtain ⟨graph, h⟩ := exists_ofPackages (fun n hn => hall n (.inl hn))
      fun n p d hp hd => hall d (.inr ⟨n, p, hp, hd⟩)
    obtain ⟨calls, rfl⟩ := exists_calls_of_ofPackages h
    refine ⟨_, h, fun v => mem_of_ofPackages h, fun v w => ?_, (mirrored_build calls).twoWay⟩
    rw [mem_edges_of_ofPackages h, mem_neededEdges]
  · intro hsome
    obtain ⟨before, n, after, hsplit, hbefore, hn⟩ := exists_first_missing hsome
    exact ⟨before, n, after, hsplit, hbefore, hn, ofPackages_of_missing hsplit hbefore hn⟩

/-- A release that depends on itself and names that are asked for repeatedly; and a release whose
second dependency is not chosen. -/
theorem ofPackages_exact_detour :
    let packages := Search.Detour.older
    let incomplete := OrderedMap.ofList [("a", Search.Detour.a₂), ("b", Search.Detour.b₁)]
    (∀ n ∈ requested packages ["b", "a", "b"], n ∈ packages) ∧
      (∃ graph, ofPackages packages ["b", "a", "b"] = .ok graph ∧ graph.TwoWay ∧
        (.package "a", .package "a") ∈ graph.edges ∧ (.root, .package "b") ∈ graph.edges) ∧
      (¬ ∀ n ∈ requested incomplete ["a", "b"], n ∈ incomplete) ∧
      ofPackages incomplete ["a", "b"] = .error (.missing (.package "c")) ∧
      ∃ before n after, requested incomplete ["a", "b"] = before ++ n :: after ∧
        (∀ m ∈ before, m ∈ incomplete) ∧ n ∉ incomplete ∧
        ofPackages incomplete ["a", "b"] = .error (.missing (.package n)) := by
  intro packages incomplete
  have hall : ∀ n ∈ requested packages ["b", "a", "b"], n ∈ packages := by decide
  have hsome : ¬ ∀ n ∈ requested incomplete ["a", "b"], n ∈ incomplete := by decide
  obtain ⟨graph, hgraph, _, hedges, htwoWay⟩ := (ofPackages_exact packages _).1 hall
  have hself : (.package "a", .package "a") ∈ graph.edges :=
    (hedges _ _).mpr (.inr ⟨"a", Search.Detour.a₁, rfl, rfl, "a", by decide, rfl⟩)
  have hroot : (.root, .package "b") ∈ graph.edges :=
    (hedges _ _).mpr (.inl ⟨rfl, "b", by decide, rfl⟩)
  exact ⟨hall, ⟨graph, hgraph, htwoWay, hself, hroot⟩, hsome, rfl,
    (ofPackages_exact incomplete _).2 hsome⟩

end Graph
end PackageResolution
