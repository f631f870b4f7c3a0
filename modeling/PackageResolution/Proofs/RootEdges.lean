import PackageResolution.Proofs.Batches

/-!
# PackageResolution.Proofs.RootEdges

Packages with an edge to the root. Such an edge is recorded forwards, but the root is no package, so
it is never taken out of what is left to be put in order, and the package never gets ready. Once
nothing else is ready, looking up what the root needs is an error. So that is all that can go wrong:
a graph has an order unless a package has an edge to the root.

* `EdgeMap.Dangling`: a map in which one child has no entry.
* `EdgeMap.Dangling.terminal_eq`: there, what leads back cannot be told.
* `EdgeMap.Dangling.remove`, `EdgeMap.Dangling.drain_eq`: one batch that can be told, and all of
  them up to the failure.
* `Graph.topologicalOrder_build`: the graphs that have an order.
-/

namespace PackageResolution
namespace EdgeMap

/-- The key `r` has no entry, and it is the only child of which that is so. -/
structure Dangling {κ : Type} [DecidableEq κ] (edges : EdgeMap κ) (r : κ) : Prop where
  missing : r ∉ edges
  children : ∀ n m, edges.Edge n m → m ∈ edges ∨ m = r
  parent : ∃ n, edges.Edge n r

section Lookup

variable {κ : Type} [DecidableEq κ] {edges : EdgeMap κ} {stack seen found ns : List κ} {n m r : κ}

/-- All keys that the worklist has come to have an entry. -/
theorem mem_of_collect (h : edges.collect stack seen = .ok found) :
    (∀ n ∈ stack, n ∈ edges) ∧ ∀ n ∈ found, n ∈ seen ∨ n ∈ edges := by
  fun_induction edges.collect stack seen with
  | case1 seen =>
    cases h
    exact ⟨List.forall_mem_nil _, fun n hn => .inl hn⟩
  | case2 => cases h
  | case3 seen n stack ms hms ih =>
    obtain ⟨hstack, hfound⟩ := ih h
    rw [List.forall_mem_append] at hstack
    refine ⟨List.forall_mem_cons.mpr ⟨OrderedMap.mem_of_get?_eq_some hms, hstack.2⟩, fun m hm => ?_⟩
    rcases hfound m hm with hseen | hentry
    · rcases List.mem_append.mp hseen with hseen | hfresh
      · exact .inl hseen
      · exact .inr (hstack.1 m (List.mem_reverse.mpr hfresh))
    · exact .inr hentry

namespace Dangling

theorem eq_of_collect (hr : edges.Dangling r) (hstack : ∀ n ∈ stack, n ∈ edges ∨ n = r)
    (h : edges.collect stack seen = .error m) : m = r := by
  fun_induction edges.collect stack seen with
  | case1 => cases h
  | case2 seen n stack hnone =>
    cases h
    exact (hstack m List.mem_cons_self).resolve_left (OrderedMap.get?_eq_none_iff.mp hnone)
  | case3 seen n stack ms hms ih =>
    rw [List.forall_mem_cons] at hstack
    refine ih (List.forall_mem_append.mpr ⟨fun m hm => ?_, hstack.2⟩) h
    have hchild := (mem_fresh.mp (List.mem_reverse.mp hm)).1
    exact hr.children n m (edge_iff.mpr ⟨ms, hms, hchild⟩)

/-- The worklist fails at a parent of `r`. -/
theorem collect_eq (hr : edges.Dangling r) (hn : n ∈ edges) (he : edges.Edge n r) :
    edges.collect [n] [] = .error r := by
  cases hc : edges.collect [n] [] with
  | error m => rw [hr.eq_of_collect (List.forall_mem_singleton.mpr (.inl hn)) hc]
  | ok found =>
    have hfound : r ∈ found := (mem_collect_iff hc).mpr (.single he)
    rcases (mem_of_collect hc).2 r hfound with hseen | hentry
    · exact absurd hseen List.not_mem_nil
    · exact absurd hentry hr.missing

theorem collectAll_eq (hr : edges.Dangling r) (he : edges.Edge n r) (hns : ∀ k ∈ ns, k ∈ edges)
    (hn : n ∈ ns) : edges.collectAll ns = .error r := by
  induction ns with
  | nil => exact absurd hn List.not_mem_nil
  | cons k ns ih =>
    rw [List.forall_mem_cons] at hns
    rw [collectAll]
    cases hc : edges.collect [k] [] with
    | error m => rw [hr.eq_of_collect (List.forall_mem_singleton.mpr (.inl hns.1)) hc]
    | ok found =>
      have hn' : n ∈ ns := by
        refine (List.mem_cons.mp hn).resolve_left ?_
        rintro rfl
        cases hc.symm.trans (hr.collect_eq hns.1 he)
      simp only [ih hns.2 hn']

theorem terminal_eq (hr : edges.Dangling r) : edges.terminal = .error r := by
  obtain ⟨n, he⟩ := hr.parent
  obtain ⟨ms, hms, _⟩ := edge_iff.mp he
  have hn : n ∈ edges.keys := OrderedMap.mem_of_get?_eq_some hms
  rw [terminal, hr.collectAll_eq he (fun _ hk => hk) hn]

end Dangling
end Lookup

namespace Dangling

variable {remaining : EdgeMap Vertex} {r v : Vertex} {vs : List Vertex}

theorem nextBatch_cases (hr : remaining.Dangling r) :
    nextBatch remaining = .error r ∨
      ∃ v vs, nextBatch remaining = .ok (v :: vs) ∧ ∀ u ∈ v :: vs, u ∈ ready remaining := by
  rw [nextBatch]
  split
  · rename_i v vs hready
    exact .inr ⟨v, vs, rfl, fun u hu => hready ▸ hu⟩
  · rw [hr.terminal_eq]
    exact .inl rfl

/-- Vertices without children can be taken out. -/
theorem remove (hr : remaining.Dangling r) (hvs : ∀ v ∈ vs, v ∈ ready remaining) :
    (remaining.remove vs).Dangling r where
  missing hmem := by
    rw [OrderedMap.mem_iff, keys_remove] at hmem
    exact hr.missing (List.mem_filter.mp hmem).1
  children v w he := by
    obtain ⟨he, _, hw⟩ := edge_remove_iff.mp he
    refine (hr.children v w he).imp_left fun hentry => ?_
    rw [OrderedMap.mem_iff, keys_remove, without, List.mem_filter]
    exact ⟨hentry, decide_eq_true hw⟩
  parent := by
    obtain ⟨v, he⟩ := hr.parent
    refine ⟨v, edge_remove_iff.mpr ⟨he, fun hv => ?_, fun hv => ?_⟩⟩
    · exact (mem_ready_iff.mp (hvs v hv)).2 r he
    · exact hr.missing (mem_ready_iff.mp (hvs r hv)).1

theorem drain_eq (hr : remaining.Dangling r) : drain remaining = .error r := by
  fun_induction drain remaining with
  | case1 remaining v hnext =>
    rcases hr.nextBatch_cases with h | ⟨_, _, h, _⟩
    · cases hnext.symm.trans h
      rfl
    · cases hnext.symm.trans h
  | case2 remaining hnext =>
    rcases hr.nextBatch_cases with h | ⟨_, _, h, _⟩
    · cases hnext.symm.trans h
    · cases hnext.symm.trans h
  | case3 remaining v vs hnext w hrest ih =>
    rcases hr.nextBatch_cases with h | ⟨_, _, h, hready⟩
    · cases hnext.symm.trans h
    · cases hnext.symm.trans h
      exact hrest.symm.trans (ih (hr.remove hready))
  | case4 remaining v vs hnext rest hrest ih =>
    rcases hr.nextBatch_cases with h | ⟨_, _, h, hready⟩
    · cases hnext.symm.trans h
    · cases hnext.symm.trans h
      cases hrest.symm.trans (ih (hr.remove hready))

end Dangling
end EdgeMap

namespace Graph

variable {g : Graph} {n : String}

theorem dangling_remaining (hends : ∀ e ∈ g.edges, e.1 ∈ g ∧ e.2 ∈ g)
    (he : (.package n, .root) ∈ g.edges) : g.remaining.Dangling .root where
  missing hmem := by
    rw [OrderedMap.mem_iff, keys_remaining] at hmem
    simp at hmem
  children v w hvw := by
    obtain ⟨_, _, _, hedge⟩ := edge_remaining_iff.mp hvw
    cases w with
    | root => exact .inr rfl
    | package m =>
      rw [OrderedMap.mem_iff, keys_remaining]
      exact .inl (List.mem_map_of_mem (mem_names.mpr (hends _ hedge).2))
  parent := ⟨.package n, edge_remaining_iff.mpr ⟨n, mem_names.mpr (hends _ he).1, rfl, he⟩⟩

/-- A graph that is built by any attempts has an order unless a package has an edge to the root.
Then the root is what is missing. -/
theorem topologicalOrder_build (calls : List Call) :
    (∀ n, (.package n, .root) ∈ (build calls).edges →
      (build calls).topologicalOrder = .error (.missing .root)) ∧
    ((∀ n, (.package n, .root) ∉ (build calls).edges) →
      ∃ order, (build calls).topologicalOrder = .ok order) := by
  have hends : ∀ e ∈ (build calls).edges, e.1 ∈ build calls ∧ e.2 ∈ build calls := fun _ he =>
    ends_of_mem_edges_build he
  constructor
  · intro n he
    rw [topologicalOrder, (dangling_remaining hends he).drain_eq]
  · intro hroot
    exact ⟨_, topologicalOrder_eq_batches hends hroot⟩

end Graph
end PackageResolution
