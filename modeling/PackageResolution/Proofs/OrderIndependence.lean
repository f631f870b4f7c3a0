import PackageResolution.Proofs.Lockstep
import PackageResolution.Proofs.MergeOrder

/-!
# PackageResolution.Proofs.OrderIndependence

The order in which names, releases, dependencies and roots are listed does not matter. Two searches
in rearranged catalogs keep in step, and come to the same end. The causes of a failure are the
exception: they come in the order of the dependencies, and of several conflicts the first one is
reported. Where the releases are the same with their dependencies in the same order, the causes are
the same, too.

* `Catalog.Alike.lockstep`: the correspondence of two such searches.
* `Report.Alike`, `solve_order_independent`: their answers and their events.
-/

namespace PackageResolution

namespace Search

/-- Events that tell the same, but for the order of dependencies and the causes of failures. Those
are the same too if `fixed`. -/
abbrev Event.Alike (fixed : Prop) : Event → Event → Prop :=
  Event.Related (fun roots roots' => roots.entries.Perm roots'.entries) (Package.Alike fixed)
    fun causes causes' => fixed → causes = causes'

theorem initial_alike {fixed : Prop} {roots roots' : OrderedMap String Constraint}
    (hr : roots.entries.Perm roots'.entries) :
    (State.initial roots).Alike fixed (State.initial roots') := by
  refine ⟨OrderedMap.get?_eq_of_perm hr, rfl, ?_⟩
  intro _ n
  have hinfo : (State.initial roots).information.entries.Perm
      (State.initial roots').information.entries := hr.map _
  unfold State.known
  rw [OrderedMap.get?_eq_of_perm hinfo n]

end Search

open Search

variable {fixed : Prop} {g g' : Catalog} {roots roots' : OrderedMap String Constraint}

/-- What searches in rearranged catalogs have in common. -/
def Catalog.Alike.lockstep (h : g.Alike fixed g') (hd : g.repository.TextsDistinct) :
    Lockstep g g' where
  Roots roots roots' := roots.entries.Perm roots'.entries
  Release := Package.Alike fixed
  Causes causes causes' := fixed → causes = causes'
  State := State.Alike fixed
  causes_nil _ := rfl
  solutions hs := hs.solutions
  initial := initial_alike
  known hs n hf := hs.known hf n
  withdraw := State.withdraw_alike
  pin hs hp n := State.pin_alike hs hp n
  next := by
    intro s t hs
    rw [← State.next?_congr hs.pending]
    cases s.next? with
    | none => exact .none
    | some e => exact .some ⟨rfl, Catalog.findCandidates_alike h hd e.1 e.2⟩

/-! ## Answers -/

/-- The same versions, in the same order, with releases that are alike and the same graph. -/
structure Resolution.Alike (fixed : Prop) (r r' : Resolution) : Prop where
  mapping : r.mapping = r'.mapping
  packages : r.packages.Related (Package.Alike fixed) r'.packages
  vertices : ∀ v, v ∈ r.graph ↔ v ∈ r'.graph
  edges : ∀ e, e ∈ r.graph.edges ↔ e ∈ r'.graph.edges

/-- The same kind of outcome with the same answer, by way of events that are alike. -/
abbrev Report.Alike (fixed : Prop) : Report → Report → Prop :=
  Report.Related (Resolution.Alike fixed) (fun causes causes' => fixed → causes = causes')
    (Event.Alike fixed)

theorem Graph.mem_neededEdges_congr {packages packages' : OrderedMap String Package}
    {names names' : List String}
    (hp : packages.Related (Package.Alike fixed) packages')
    (hn : names.Perm names') (e : Vertex × Vertex) :
    e ∈ neededEdges packages names ↔ e ∈ neededEdges packages' names' := by
  unfold neededEdges
  rw [List.mem_append, List.mem_append, (hn.map _).mem_iff]
  refine or_congr_right ?_
  unfold OrderedMap.Related at hp
  generalize packages.entries = es, packages'.entries = es' at hp
  induction hp with
  | nil => rfl
  | @cons x y es es' hxy _ ih =>
    obtain ⟨hname, hpkg⟩ := hxy
    have hkeys : x.2.dependencies.keys.Perm y.2.dependencies.keys := hpkg.dependencies.map Prod.fst
    rw [List.flatMap_cons, List.flatMap_cons, List.mem_append, List.mem_append, ih, hname,
      (hkeys.map _).mem_iff]

/-- Rearranged problems have the same kind of outcome, with the same versions and releases in the
same order and the same graph, and are solved by way of the same events. The causes of failures are
the same if the releases keep the order of their dependencies. -/
theorem solve_order_independent (hg : g.Alike fixed g') (hd : g.repository.TextsDistinct)
    (hr : roots.entries.Perm roots'.entries) (maxRounds : Int) :
    (solve g roots maxRounds).Alike fixed (solve g' roots' maxRounds) := by
  refine (hg.lockstep hd).solve hr ?_ id maxRounds
  intro mapping packages packages' graph graph' hpackages hgraph hgraph'
  have hmem (n : String) : n ∈ packages ↔ n ∈ packages' := by
    rw [OrderedMap.mem_iff, OrderedMap.mem_iff, hpackages.keys]
  refine ⟨rfl, hpackages, fun v => ?_, fun e => ?_⟩
  · rw [Graph.mem_of_ofPackages hgraph, Graph.mem_of_ofPackages hgraph']
    simp only [hmem]
  · rw [Graph.mem_edges_of_ofPackages hgraph, Graph.mem_edges_of_ofPackages hgraph']
    exact Graph.mem_neededEdges_congr hpackages (hr.map Prod.fst) e

namespace Search.Detour

/-- The same releases, listed from the last to the first and with their dependencies turned
round. -/
def turned : Catalog :=
  ⟨Repository.ofPackages
    [c₁, b₂, release "a" 2 [("c", .any), ("b", atLeast 2)], b₁,
      release "a" 1 [("a", .any), ("b", .any)]], none⟩

def turnedDemands : OrderedMap String Constraint := OrderedMap.ofList [("a", .any), ("b", .any)]

theorem textsDistinct_catalog : catalog.repository.TextsDistinct := by
  have hentries : ∀ e ∈ catalog.repository.releases.entries, (Package.texts e.2).Nodup := by
    decide +kernel
  exact Repository.forall_lookup (P := fun _ ps => (Package.texts ps).Nodup)
    (fun _ => List.nodup_nil) hentries

theorem alike_turned : catalog.Alike False turned := by
  have ha₁ : a₁.Alike False (release "a" 1 [("a", .any), ("b", .any)]) :=
    ⟨rfl, rfl, rfl, by decide, False.elim⟩
  have ha₂ : a₂.Alike False (release "a" 2 [("c", .any), ("b", atLeast 2)]) :=
    ⟨rfl, rfl, rfl, by decide, False.elim⟩
  have hb : Rearranged (Package.Alike False) [b₁, b₂] [b₂, b₁] :=
    ⟨[b₂, b₁], by decide, .cons (.refl b₂) (.cons (.refl b₁) .nil)⟩
  have hc : Rearranged (Package.Alike False) [c₁] [c₁] := ⟨[c₁], .refl _, .cons (.refl c₁) .nil⟩
  refine Catalog.alike_of_entries rfl ⟨[("c", [c₁]), ("b", [b₁, b₂]), ("a", [a₁, a₂])], ?_, ?_⟩
  · decide
  · exact .cons ⟨rfl, hc⟩ (.cons ⟨rfl, hb⟩ (.cons ⟨rfl, [a₂, a₁], by decide,
      .cons ha₂ (.cons ha₁ .nil)⟩ .nil))

end Search.Detour

theorem detour_order_independent :
    Detour.catalog.Alike False Detour.turned ∧ Detour.catalog.repository.TextsDistinct ∧
      Detour.demands.entries.Perm Detour.turnedDemands.entries ∧
      (solve Detour.catalog Detour.demands 10).Alike False
        (solve Detour.turned Detour.turnedDemands 10) := by
  have hperm : Detour.demands.entries.Perm Detour.turnedDemands.entries := by decide
  exact ⟨Detour.alike_turned, Detour.textsDistinct_catalog, hperm,
    solve_order_independent Detour.alike_turned Detour.textsDistinct_catalog hperm 10⟩

end PackageResolution
