import PackageResolution.Graph.Build

/-!
# PackageResolution.Proofs.GraphBuild

When the graph of a choice of releases can be built: all names that are asked for are chosen. What
it has then: the root and the chosen names as vertices, and the edges that are asked for.

* `Graph.mem_of_add`, `Graph.mem_connect`: the vertices after one step.
* `Graph.Listed`: the packages of the graph have an entry for their parents, which `Graph.connect`
  needs. `Graph.Listed.addAll`, `Graph.Listed.connect`: they keep it.
* `Graph.exists_addAll`, `Graph.exists_connectAll`: new vertices, and edges between vertices that
  are there, can be added one after the other.
* `Graph.mem_edges_of_add`, `Graph.mem_edges_of_connect`: the edges after one step.
* `Graph.mem_of_ofPackages`, `Graph.mem_edges_of_ofPackages`: the vertices and the edges of the
  graph of a choice.
-/

namespace PackageResolution
namespace Graph

variable {g g' : Graph}

theorem not_mem_empty (v : Vertex) : v ∉ empty := List.not_mem_nil

/-! ## Vertices -/

theorem mem_of_add {v : Vertex} (h : g.add v = .ok g') {w : Vertex} : w ∈ g' ↔ w = v ∨ w ∈ g := by
  simp only [add] at h
  split at h
  · cases h
  · split at h
    · cases h; exact OrderedMap.mem_insert
    · cases h; exact OrderedMap.mem_insert

theorem exists_add {v : Vertex} (hv : v ∉ g) : ∃ g', g.add v = .ok g' := by
  simp only [add, if_neg hv]
  split
  · exact ⟨_, rfl⟩
  · exact ⟨_, rfl⟩

/-- Packages have an entry for their parents. -/
def Listed (g : Graph) : Prop := ∀ n, Vertex.package n ∈ g → n ∈ g.parents

theorem listed_empty : empty.Listed := fun _ h => absurd h (not_mem_empty _)

theorem Listed.add (hg : g.Listed) {v : Vertex} (h : g.add v = .ok g') : g'.Listed := by
  intro n hn
  rw [mem_of_add h] at hn
  simp only [Graph.add] at h
  split at h
  · cases h
  · split at h
    · cases h
      exact hg n (hn.resolve_left nofun)
    · cases h
      rw [OrderedMap.mem_insert]
      exact hn.imp Vertex.package.inj (hg n)

theorem Listed.addAll (hg : g.Listed) {vs : List Vertex} (h : g.addAll vs = .ok g') :
    g'.Listed := by
  induction vs generalizing g with
  | nil => cases h; exact hg
  | cons v vs ih =>
    rw [Graph.addAll] at h
    split at h
    · cases h
    · rename_i g₁ hadd
      exact ih (hg.add hadd) h

theorem exists_addAll {vs : List Vertex} (hd : vs.Nodup) (hn : ∀ v ∈ vs, v ∉ g) :
    ∃ g', g.addAll vs = .ok g' ∧ ∀ w, w ∈ g' ↔ w ∈ vs ∨ w ∈ g := by
  induction vs generalizing g with
  | nil => exact ⟨g, rfl, fun w => by simp⟩
  | cons v vs ih =>
    rw [List.nodup_cons] at hd
    rw [List.forall_mem_cons] at hn
    obtain ⟨g₁, hadd⟩ := exists_add hn.1
    have hn₁ : ∀ w ∈ vs, w ∉ g₁ := by
      intro w hw hmem
      rcases (mem_of_add hadd).mp hmem with rfl | hmem
      · exact hd.1 hw
      · exact hn.2 w hw hmem
    obtain ⟨g₂, hall, hmem⟩ := ih hd.2 hn₁
    refine ⟨g₂, ?_, ?_⟩
    · rw [addAll, hadd]; exact hall
    · intro w
      rw [hmem, mem_of_add hadd, List.mem_cons, or_left_comm, or_assoc]

/-! ## Edges -/

theorem mem_connect {parent child w : Vertex} : w ∈ (g.connect parent child).1 ↔ w ∈ g := by
  simp only [connect]
  split
  · rfl
  · rename_i vs hvs
    have hp : parent ∈ g.children := OrderedMap.mem_of_get?_eq_some hvs
    have hforward : ∀ us, w ∈ g.children.insert parent us ↔ w ∈ g := by
      intro us
      rw [OrderedMap.mem_insert]
      constructor
      · rintro (rfl | hw)
        · exact hp
        · exact hw
      · exact .inr
    split
    · split
      · exact hforward _
      · split
        · exact hforward _
        · exact hforward _
    · rfl

theorem Listed.connect (hg : g.Listed) (parent child : Vertex) :
    (g.connect parent child).1.Listed := by
  intro n hn
  have hkept : n ∈ g.parents := hg n (mem_connect.mp hn)
  simp only [Graph.connect]
  split
  · exact hkept
  · split
    · split
      · exact hkept
      · split
        · exact hkept
        · exact OrderedMap.mem_insert.mpr (.inr hkept)
    · exact hkept

theorem connect_succeeds (hg : g.Listed) {parent : Vertex} {n : String} (hp : parent ∈ g)
    (hn : Vertex.package n ∈ g) : (g.connect parent (.package n)).2 = none := by
  obtain ⟨vs, hvs⟩ := OrderedMap.exists_get?_of_mem (m := g.children) hp
  obtain ⟨ps, hps⟩ := OrderedMap.exists_get?_of_mem (hg n hn)
  simp only [connect, hvs, if_pos hn, hps]

theorem connectAll_cons (hg : g.Listed) {e : Vertex × Vertex} {n : String}
    {es : List (Vertex × Vertex)} (hp : e.1 ∈ g) (hc : e.2 = .package n)
    (hn : Vertex.package n ∈ g) :
    g.connectAll (e :: es) = (g.connect e.1 e.2).1.connectAll es := by
  have hnone : (g.connect e.1 e.2).2 = none := hc ▸ connect_succeeds hg hp hn
  rw [connectAll]
  split
  · rename_i heq; rw [heq] at hnone; cases hnone
  · rename_i heq; rw [heq]

/-- What an edge needs to be added is still there after another edge. -/
theorem ends_connect {e e' : Vertex × Vertex}
    (h : e'.1 ∈ g ∧ ∃ n, e'.2 = .package n ∧ Vertex.package n ∈ g) :
    e'.1 ∈ (g.connect e.1 e.2).1 ∧
      ∃ n, e'.2 = .package n ∧ Vertex.package n ∈ (g.connect e.1 e.2).1 := by
  obtain ⟨hp, n, hc, hn⟩ := h
  exact ⟨mem_connect.mpr hp, n, hc, mem_connect.mpr hn⟩

theorem exists_connectAll (hg : g.Listed) {es : List (Vertex × Vertex)}
    (h : ∀ e ∈ es, e.1 ∈ g ∧ ∃ n, e.2 = .package n ∧ Vertex.package n ∈ g) :
    ∃ g', g.connectAll es = .ok g' := by
  induction es generalizing g with
  | nil => exact ⟨g, rfl⟩
  | cons e es ih =>
    rw [List.forall_mem_cons] at h
    obtain ⟨⟨hp, n, hc, hn⟩, hrest⟩ := h
    rw [connectAll_cons hg hp hc hn]
    exact ih (hg.connect e.1 e.2) fun e' he' => ends_connect (hrest e' he')

theorem mem_edges_iff {e : Vertex × Vertex} :
    e ∈ g.edges ↔ ∃ vs, g.children.get? e.1 = some vs ∧ e.2 ∈ vs := by
  obtain ⟨parent, child⟩ := e
  simp only [edges, List.mem_flatMap, List.mem_map, Prod.mk.injEq, OrderedMap.get?_eq_some_iff]
  constructor
  · rintro ⟨⟨_, vs⟩, hvs, _, hc, rfl, rfl⟩
    exact ⟨vs, hvs, hc⟩
  · rintro ⟨vs, hvs, hc⟩
    exact ⟨(parent, vs), hvs, child, hc, rfl, rfl⟩

/-- A new vertex has no edges yet. -/
theorem mem_edges_of_add {v : Vertex} (h : g.add v = .ok g') {e : Vertex × Vertex} :
    e ∈ g'.edges ↔ e ∈ g.edges := by
  have hstep : v ∉ g ∧ g'.children = g.children.insert v [] := by
    simp only [add] at h
    split at h
    · cases h
    · rename_i hv
      split at h
      · cases h; exact ⟨hv, rfl⟩
      · cases h; exact ⟨hv, rfl⟩
  rw [mem_edges_iff, mem_edges_iff, hstep.2, OrderedMap.get?_insert]
  split
  · rename_i he
    have hnone : g.children.get? e.1 = none := OrderedMap.get?_eq_none_iff.mpr (he ▸ hstep.1)
    simp [hnone]
  · rfl

theorem mem_edges_of_addAll {vs : List Vertex} (h : g.addAll vs = .ok g') {e : Vertex × Vertex} :
    e ∈ g'.edges ↔ e ∈ g.edges := by
  induction vs generalizing g with
  | nil => cases h; rfl
  | cons v vs ih =>
    rw [addAll] at h
    split at h
    · cases h
    · rename_i g₁ hadd
      rw [ih h, mem_edges_of_add hadd]

theorem mem_join {v w : Vertex} {vs : List Vertex} : w ∈ join v vs ↔ w = v ∨ w ∈ vs := by
  unfold join
  split
  · rename_i hv
    constructor
    · exact .inr
    · rintro (rfl | hw)
      · exact hv
      · exact hw
  · simp [or_comm]

theorem mem_edges_of_connect {parent child : Vertex} (h : g.connect parent child = (g', none))
    {e : Vertex × Vertex} : e ∈ g'.edges ↔ e = (parent, child) ∨ e ∈ g.edges := by
  have hstep : ∃ vs, g.children.get? parent = some vs ∧
      g'.children = g.children.insert parent (join child vs) := by
    simp only [connect] at h
    split at h
    · cases h
    · rename_i vs hvs
      split at h
      · split at h
        · cases h
        · split at h
          · cases h
          · cases h; exact ⟨vs, hvs, rfl⟩
      · cases h
  obtain ⟨vs, hvs, hchildren⟩ := hstep
  obtain ⟨a, b⟩ := e
  rw [mem_edges_iff, mem_edges_iff, hchildren, OrderedMap.get?_insert]
  by_cases ha : a = parent
  · subst ha
    simp [hvs, mem_join]
  · simp [ha]

theorem of_connectAll_cons {e : Vertex × Vertex} {es : List (Vertex × Vertex)}
    (h : g.connectAll (e :: es) = .ok g') :
    ∃ g₁, g.connect e.1 e.2 = (g₁, none) ∧ g₁.connectAll es = .ok g' := by
  rw [connectAll] at h
  split at h
  · cases h
  · rename_i g₁ hg; exact ⟨g₁, hg, h⟩

theorem mem_of_connectAll {es : List (Vertex × Vertex)} (h : g.connectAll es = .ok g')
    {w : Vertex} : w ∈ g' ↔ w ∈ g := by
  induction es generalizing g with
  | nil => cases h; rfl
  | cons e es ih =>
    obtain ⟨g₁, hg, h⟩ := of_connectAll_cons h
    have hkept : w ∈ (g.connect e.1 e.2).1 ↔ w ∈ g := mem_connect
    rw [ih h, ← hkept, hg]

theorem mem_edges_of_connectAll {es : List (Vertex × Vertex)} (h : g.connectAll es = .ok g')
    {e : Vertex × Vertex} : e ∈ g'.edges ↔ e ∈ es ∨ e ∈ g.edges := by
  induction es generalizing g with
  | nil => cases h; simp
  | cons e' es ih =>
    obtain ⟨g₁, hg, h⟩ := of_connectAll_cons h
    rw [ih h, mem_edges_of_connect hg, List.mem_cons, or_left_comm, or_assoc]

/-! ## The graph of a choice of releases -/

variable {packages : OrderedMap String Package} {roots : List String}

theorem nodup_vertices (packages : OrderedMap String Package) :
    (Vertex.root :: packages.keys.map Vertex.package).Nodup := by
  rw [List.nodup_cons]
  refine ⟨by simp, ?_⟩
  exact List.Pairwise.map Vertex.package (fun a b hab h => hab (Vertex.package.inj h))
    packages.keys_nodup

theorem exists_ofPackages (hroots : ∀ n ∈ roots, n ∈ packages)
    (hdeps : ∀ n p d, packages.get? n = some p → d ∈ p.dependencies → d ∈ packages) :
    ∃ graph, ofPackages packages roots = .ok graph := by
  obtain ⟨g, hadd, hmem⟩ :=
    exists_addAll (nodup_vertices packages) fun v _ => not_mem_empty v
  have hchosen : ∀ n, n ∈ packages → Vertex.package n ∈ g := fun n hn =>
    (hmem _).mpr (.inl (List.mem_cons_of_mem _ (List.mem_map_of_mem hn)))
  rw [ofPackages, hadd]
  refine exists_connectAll (listed_empty.addAll hadd) fun e he => ?_
  rcases List.mem_append.mp he with he | he
  · obtain ⟨n, hn, rfl⟩ := List.mem_map.mp he
    exact ⟨(hmem _).mpr (.inl List.mem_cons_self), n, rfl, hchosen n (hroots n hn)⟩
  · obtain ⟨⟨n, p⟩, hp, he⟩ := List.mem_flatMap.mp he
    obtain ⟨d, hd, rfl⟩ := List.mem_map.mp he
    have hget := OrderedMap.get?_eq_some_iff.mpr hp
    exact ⟨hchosen n (OrderedMap.mem_of_get?_eq_some hget), d, rfl,
      hchosen d (hdeps n p d hget hd)⟩

theorem mem_of_ofPackages {graph : Graph} (h : ofPackages packages roots = .ok graph) {v : Vertex} :
    v ∈ graph ↔ v = .root ∨ ∃ n ∈ packages, v = .package n := by
  obtain ⟨g, hadd, hmem⟩ :=
    exists_addAll (nodup_vertices packages) fun v _ => not_mem_empty v
  rw [ofPackages, hadd] at h
  rw [mem_of_connectAll h, hmem, List.mem_cons, List.mem_map]
  simp [not_mem_empty, OrderedMap.mem_iff, eq_comm]

theorem mem_edges_of_ofPackages {graph : Graph} (h : ofPackages packages roots = .ok graph)
    {e : Vertex × Vertex} : e ∈ graph.edges ↔ e ∈ neededEdges packages roots := by
  obtain ⟨g, hadd, _⟩ :=
    exists_addAll (nodup_vertices packages) fun v _ => not_mem_empty v
  have hempty : e ∉ empty.edges := List.not_mem_nil
  rw [ofPackages, hadd] at h
  rw [mem_edges_of_connectAll h, mem_edges_of_addAll hadd]
  simp [hempty]

end Graph
end PackageResolution
