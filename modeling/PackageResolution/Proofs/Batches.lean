import Mathlib.Data.String.Basic
import PackageResolution.Graph.Order
import PackageResolution.Proofs.CandidateOrder
import PackageResolution.Proofs.GraphCalls
import PackageResolution.Proofs.Worklist

/-!
# PackageResolution.Proofs.Batches

The batches in which packages are put in order, without a map that shrinks. A batch is said in terms
of the dependencies of a graph, which stay as they are, and of the names that are left. The map of
what is still to be done has these names as its keys and their dependencies on each other as its
edges, and taking a batch out of it keeps that so. Then all its children are keys, looking up what
they need never fails, and it is drained by the same batches.

* `batch`, `batches`: the batches. `mem_batch_iff` says what is in one.
* `Mirrors`: a map has the names that are left and what they need of each other.
* `Mirrors.nextBatch_eq`, `Mirrors.remove`: the map gives the next batch, and still mirrors what is
  left without it. `Mirrors.drain_eq` is about all batches.
* `Graph.topologicalOrder_eq_batches`: the order of a graph where no edge leads from a package to
  the root.
-/

namespace PackageResolution

/-- The names to come next among those that are left. -/
def batch (deps : String → List String) (live : List String) : List String :=
  match live.filter fun n => (deps n).all fun m => !live.contains m with
  | [] => terminals deps live
  | n :: ns => n :: ns

theorem mem_of_mem_terminals {deps : String → List String} {live : List String} {n : String}
    (h : n ∈ terminals deps live) : n ∈ live := by
  simp only [terminals, List.mem_map, List.mem_filter] at h
  obtain ⟨e, ⟨⟨m, hm, rfl⟩, _⟩, rfl⟩ := h
  exact hm

theorem mem_of_mem_batch {deps : String → List String} {live : List String} {n : String}
    (h : n ∈ batch deps live) : n ∈ live := by
  simp only [batch] at h
  split at h
  · exact mem_of_mem_terminals h
  · rename_i heq
    rw [← heq] at h
    exact (List.mem_filter.mp h).1

/-- All batches, until nothing more can be done. -/
def batches (deps : String → List String) (live : List String) : List (List String) :=
  match _h : batch deps live with
  | [] => []
  | n :: ns => (n :: ns) :: batches deps (without live (n :: ns))
termination_by live.length
decreasing_by
  have hn : n ∈ batch deps live := by rw [_h]; exact List.mem_cons_self
  refine List.length_filter_lt_length_iff_exists.mpr ⟨n, mem_of_mem_batch hn, ?_⟩
  simp

variable {deps : String → List String} {live : List String} {n m : String}

theorem mem_without {done : List String} : n ∈ without live done ↔ n ∈ live ∧ n ∉ done := by
  simp [without]

theorem batch_sublist (deps : String → List String) (live : List String) :
    (batch deps live).Sublist live := by
  unfold batch
  split
  · have htable : (live.map fun n => (n, reach deps live n)).map Prod.fst = live := by
      rw [List.map_map]
      exact List.map_id live
    conv_rhs => rw [← htable]
    exact List.filter_sublist.map Prod.fst
  · rename_i n ns heq
    rw [← heq]
    exact List.filter_sublist

theorem ready_iff (deps : String → List String) (live : List String) (n : String) :
    ((deps n).all fun m => !live.contains m) = true ↔ ∀ m, ¬ Needs deps live n m := by
  simp [Needs]

/-- A batch holds the names that need nothing, or if there are none, the terminal names. -/
theorem mem_batch_iff :
    n ∈ batch deps live ↔ n ∈ live ∧ ((∀ m, ¬ Needs deps live n m) ∨
      (∀ k ∈ live, ∃ m, Needs deps live k m) ∧ Terminal deps live n) := by
  unfold batch
  split
  · rename_i hnone
    have hall : ∀ k ∈ live, ∃ m, Needs deps live k m := by
      intro k hk
      have hk' := List.filter_eq_nil_iff.mp hnone k hk
      rw [ready_iff] at hk'
      simpa using hk'
    rw [mem_terminals_iff]
    refine and_congr_right fun hn => ?_
    have hneeds : ¬ ∀ m, ¬ Needs deps live n m := by simpa using hall n hn
    simp only [hneeds, false_or, and_iff_right hall]
  · rename_i k ks hready
    have hk : k ∈ live ∧ ∀ m, ¬ Needs deps live k m := by
      have hmem : k ∈ k :: ks := List.mem_cons_self
      rwa [← hready, List.mem_filter, ready_iff] at hmem
    have hnot : ¬ ∀ k ∈ live, ∃ m, Needs deps live k m := by
      intro hall
      obtain ⟨m, hm⟩ := hall k hk.1
      exact hk.2 m hm
    rw [← hready, List.mem_filter, ready_iff]
    simp only [hnot, false_and, or_false]

/-! ## Maps of what is left -/

section Maps

variable {remaining : EdgeMap Vertex} {v w : Vertex} {vs : List Vertex}

theorem mem_ready_iff : v ∈ ready remaining ↔ v ∈ remaining ∧ ∀ w, ¬ remaining.Edge v w := by
  simp only [ready, List.mem_map, List.mem_filter, List.isEmpty_iff, EdgeMap.edge_iff]
  constructor
  · rintro ⟨⟨v, ms⟩, ⟨hv, rfl⟩, rfl⟩
    have hget := OrderedMap.get?_eq_some_iff.mpr hv
    refine ⟨OrderedMap.mem_of_get?_eq_some hget, ?_⟩
    rintro w ⟨ms, hms, hw⟩
    cases hget.symm.trans hms
    exact List.not_mem_nil hw
  · rintro ⟨hv, hnone⟩
    obtain ⟨ms, hms⟩ := OrderedMap.exists_get?_of_mem hv
    refine ⟨(v, ms), ⟨OrderedMap.get?_eq_some_iff.mp hms, ?_⟩, rfl⟩
    exact List.eq_nil_iff_forall_not_mem.mpr fun w hw => hnone w ⟨ms, hms, hw⟩

/-- Where all children are keys there is a next batch, which holds the keys without children, or if
there are none, those to which all leads back. -/
theorem nextBatch_exact (h : remaining.Closed) :
    ∃ vs, nextBatch remaining = .ok vs ∧ ∀ v, v ∈ vs ↔ v ∈ remaining ∧
      ((∀ w, ¬ remaining.Edge v w) ∨ (∀ u ∈ remaining, ∃ w, remaining.Edge u w) ∧
        ∀ w, Relation.TransGen remaining.Edge v w → Relation.TransGen remaining.Edge w v) := by
  rw [nextBatch]
  split
  · rename_i u us hready
    have hu : u ∈ ready remaining := hready ▸ List.mem_cons_self
    have hnot : ¬ ∀ u ∈ remaining, ∃ w, remaining.Edge u w := fun hall =>
      (hall u (mem_ready_iff.mp hu).1).elim (mem_ready_iff.mp hu).2
    refine ⟨_, rfl, fun v => ?_⟩
    rw [← hready, mem_ready_iff]
    simp only [hnot, false_and, or_false]
  · rename_i hnone
    have hall : ∀ u ∈ remaining, ∃ w, remaining.Edge u w := by
      intro u hu
      by_contra hready
      exact List.not_mem_nil (hnone ▸ mem_ready_iff.mpr ⟨hu, not_exists.mp hready⟩)
    obtain ⟨vs, hvs, hmem⟩ := EdgeMap.terminal_exact h
    refine ⟨Graph.sortVertices vs, by rw [hvs], fun v => ?_⟩
    rw [Graph.sortVertices, mem_stableSort, hmem]
    refine and_congr_right fun hv => ?_
    have hchild : ¬ ∀ w, ¬ remaining.Edge v w := not_forall_not.mpr (hall v hv)
    simp only [hchild, false_or, and_iff_right hall]

/-- A batch comes in the order of the keys, if these are sorted. -/
theorem nextBatch_sublist (hs : remaining.keys.Pairwise fun v w => v.upTo w = true)
    (h : nextBatch remaining = .ok vs) : vs.Sublist remaining.keys := by
  rw [nextBatch] at h
  split at h
  · rename_i hready
    cases h
    exact hready ▸ List.filter_sublist.map Prod.fst
  · split at h
    · cases h
    · rename_i ws hterminal
      cases h
      have hws := EdgeMap.sublist_of_terminal hterminal
      rw [Graph.sortVertices, stableSort_eq_insertionSort, (hs.sublist hws).insertionSort_eq]
      exact hws

theorem EdgeMap.edge_remove_iff {done : List Vertex} :
    (remaining.remove done).Edge v w ↔ remaining.Edge v w ∧ v ∉ done ∧ w ∉ done := by
  have herase (edges : EdgeMap Vertex) : (done.foldl OrderedMap.erase edges).get? v =
      if v ∈ done then none else edges.get? v := by
    induction done generalizing edges with
    | nil => rfl
    | cons u done ih =>
      rw [List.foldl_cons, ih, OrderedMap.get?_erase]
      by_cases hv : v = u <;> simp [hv]
  rw [edge_iff, edge_iff, remove, OrderedMap.get?_mapValues, herase]
  by_cases hv : v ∈ done
  · simp [hv]
  · simp [hv, without]
    grind

theorem drain_of_nil (h : nextBatch remaining = .ok []) : drain remaining = .ok [] := by
  rw [drain]
  split
  · rename_i heq; rw [h] at heq; cases heq
  · rfl
  · rename_i heq; rw [h] at heq; cases heq

theorem drain_of_cons {rest : List Vertex} (h : nextBatch remaining = .ok (v :: vs))
    (hrest : drain (remaining.remove (v :: vs)) = .ok rest) :
    drain remaining = .ok (v :: vs ++ rest) := by
  rw [drain]
  split
  · rename_i heq; rw [h] at heq; cases heq
  · rename_i heq; rw [h] at heq; cases heq
  · rename_i heq
    rw [h] at heq
    cases heq
    rw [hrest]

end Maps

/-- The keys of the map are the live names, and its edges what they need of each other. -/
structure Mirrors (deps : String → List String) (live : List String)
    (remaining : EdgeMap Vertex) : Prop where
  keys : remaining.keys = live.map .package
  edge_iff : ∀ v w, remaining.Edge v w ↔
    ∃ n ∈ live, ∃ m, Needs deps live n m ∧ v = .package n ∧ w = .package m

namespace Mirrors

variable {remaining : EdgeMap Vertex} (h : Mirrors deps live remaining)
include h

theorem mem_iff {v : Vertex} : v ∈ remaining ↔ ∃ n ∈ live, v = .package n := by
  rw [OrderedMap.mem_iff, h.keys, List.mem_map]
  simp only [eq_comm]

theorem closed : remaining.Closed := by
  rintro ⟨v, ws⟩ he w hw
  have hedge := EdgeMap.edge_iff.mpr ⟨ws, OrderedMap.get?_eq_some_iff.mpr he, hw⟩
  obtain ⟨_, _, m, hneeds, _, rfl⟩ := (h.edge_iff v w).mp hedge
  exact h.mem_iff.mpr ⟨m, hneeds.2, rfl⟩

theorem path_iff {v w : Vertex} : Relation.TransGen remaining.Edge v w ↔
    ∃ n ∈ live, ∃ m, LeadsTo deps live n m ∧ v = .package n ∧ w = .package m := by
  constructor
  · intro hpath
    induction hpath with
    | single hb =>
      obtain ⟨n, hn, m, hneeds, rfl, rfl⟩ := (h.edge_iff _ _).mp hb
      exact ⟨n, hn, m, .single hneeds, rfl, rfl⟩
    | tail _ hb ih =>
      obtain ⟨n, hn, m, hleads, rfl, rfl⟩ := ih
      obtain ⟨_, _, k, hneeds, hm, rfl⟩ := (h.edge_iff _ _).mp hb
      cases hm
      exact ⟨n, hn, k, hleads.tail hneeds, rfl, rfl⟩
  · rintro ⟨n, hn, m, hleads, rfl, rfl⟩
    induction hleads with
    | single hneeds => exact .single ((h.edge_iff _ _).mpr ⟨n, hn, _, hneeds, rfl, rfl⟩)
    | @tail k m hk hneeds ih =>
      exact ih.tail ((h.edge_iff _ _).mpr ⟨k, LeadsTo.mem_live hk, m, hneeds, rfl, rfl⟩)

theorem exists_edge_iff (hn : n ∈ live) :
    (∃ w, remaining.Edge (.package n) w) ↔ ∃ m, Needs deps live n m := by
  constructor
  · rintro ⟨w, hw⟩
    obtain ⟨_, _, m, hneeds, heq, _⟩ := (h.edge_iff _ _).mp hw
    cases heq
    exact ⟨m, hneeds⟩
  · rintro ⟨m, hneeds⟩
    exact ⟨_, (h.edge_iff _ _).mpr ⟨n, hn, m, hneeds, rfl, rfl⟩⟩

theorem terminal_iff (hn : n ∈ live) :
    (∀ w, Relation.TransGen remaining.Edge (.package n) w →
      Relation.TransGen remaining.Edge w (.package n)) ↔ Terminal deps live n := by
  constructor
  · intro hall m hm
    have hback := hall (.package m) (h.path_iff.mpr ⟨n, hn, m, hm, rfl, rfl⟩)
    obtain ⟨_, _, _, hleads, heq, heq'⟩ := h.path_iff.mp hback
    cases heq
    cases heq'
    exact hleads
  · intro hterminal w hw
    obtain ⟨_, _, m, hm, heq, rfl⟩ := h.path_iff.mp hw
    cases heq
    exact h.path_iff.mpr ⟨m, hm.mem_live, n, hterminal m hm, rfl, rfl⟩

/-- The next batch of the map is that of the names that are left. -/
theorem nextBatch_eq (hlive : live.Pairwise (· < ·)) :
    nextBatch remaining = .ok ((batch deps live).map .package) := by
  have hsorted : remaining.keys.Pairwise fun v w => v.upTo w = true := by
    rw [h.keys, List.pairwise_map]
    exact hlive.imp fun hlt => decide_eq_true hlt.le
  obtain ⟨vs, hvs, hmem⟩ := nextBatch_exact h.closed
  have hsub := nextBatch_sublist hsorted hvs
  rw [h.keys, List.sublist_map_iff] at hsub
  obtain ⟨names, hnames, rfl⟩ := hsub
  rw [hvs]
  suffices heq : names = batch deps live by rw [heq]
  refine (hlive.sublist hnames).eq_of_mem_iff (hlive.sublist (batch_sublist deps live)) fun n => ?_
  have hname : n ∈ names ↔ Vertex.package n ∈ names.map Vertex.package := by simp
  have hlisted : Vertex.package n ∈ remaining ↔ n ∈ live := by simp [h.mem_iff]
  have hall : (∀ v ∈ remaining, ∃ w, remaining.Edge v w) ↔
      ∀ k ∈ live, ∃ m, Needs deps live k m := by
    simp only [OrderedMap.mem_iff, h.keys, List.forall_mem_map]
    exact forall₂_congr fun k hk => h.exists_edge_iff hk
  rw [hname, hmem, mem_batch_iff, hlisted, hall]
  refine and_congr_right fun hn => ?_
  rw [h.terminal_iff hn, ← not_exists, h.exists_edge_iff hn, not_exists]

theorem remove (done : List String) :
    Mirrors deps (without live done) (remaining.remove (done.map .package)) where
  keys := by
    rw [EdgeMap.keys_remove, h.keys, without, List.filter_map, without]
    refine congrArg _ (List.filter_congr fun n _ => ?_)
    exact decide_eq_decide.mpr (not_congr (by simp))
  edge_iff v w := by
    rw [EdgeMap.edge_remove_iff, h.edge_iff]
    simp only [Needs, mem_without, List.mem_map]
    grind

end Mirrors

theorem Mirrors.drain_eq {remaining : EdgeMap Vertex} (h : Mirrors deps live remaining)
    (hlive : live.Pairwise (· < ·)) :
    drain remaining = .ok ((batches deps live).flatten.map .package) := by
  fun_induction batches deps live generalizing remaining with
  | case1 live hnil =>
    have hnext := h.nextBatch_eq hlive
    rw [hnil] at hnext
    exact drain_of_nil hnext
  | case2 live n ns heq ih =>
    have hnext := h.nextBatch_eq hlive
    rw [heq] at hnext
    have hrest := ih (h.remove (n :: ns)) (hlive.filter _)
    rw [drain_of_cons hnext hrest, List.flatten_cons, List.map_append]
    rfl

/-! ## Graphs -/

theorem Vertex.name?_eq_some_iff {v : Vertex} : v.name? = some n ↔ v = .package n := by
  cases v <;> simp [name?]

namespace Graph

/-- The packages that a package depends on. -/
def dependencies (g : Graph) (n : String) : List String :=
  ((g.children.get? (.package n)).getD []).filterMap Vertex.name?

variable {g : Graph}

/-- An edge leads from one package to another. -/
def Requires (g : Graph) (n m : String) : Prop := (Vertex.package n, Vertex.package m) ∈ g.edges

/-- One package depends on another, be it by way of others. -/
abbrev DependsOn (g : Graph) : String → String → Prop := Relation.TransGen g.Requires

theorem mem_names : n ∈ g.names ↔ Vertex.package n ∈ g := by
  rw [names, sortNames, mem_stableSort, List.mem_filterMap]
  simp only [Vertex.name?_eq_some_iff, exists_eq_right]
  rfl

theorem pairwise_names (g : Graph) : g.names.Pairwise (· < ·) := by
  have hle : g.names.Pairwise (· ≤ ·) := by
    have hsort := pairwise_stableSort (fun a b : String => decide (a ≤ b))
      (g.children.keys.filterMap Vertex.name?)
    simpa [names, sortNames] using hsort
  have hnodup : g.names.Nodup := by
    refine (stableSort_perm _ _).nodup_iff.mpr (g.children.keys_nodup.filterMap ?_)
    intro v w n hv hw
    rw [Vertex.name?_eq_some_iff.mp hv, Vertex.name?_eq_some_iff.mp hw]
  exact (hle.and hnodup).imp fun h => lt_of_le_of_ne h.1 h.2

theorem mem_dependencies : m ∈ g.dependencies n ↔ g.Requires n m := by
  unfold Requires dependencies
  rw [mem_edges_iff]
  cases g.children.get? (.package n) <;> simp [Vertex.name?_eq_some_iff]

theorem needs_iff (hends : ∀ e ∈ g.edges, e.1 ∈ g ∧ e.2 ∈ g) :
    Needs g.dependencies g.names n m ↔ g.Requires n m := by
  rw [Needs, mem_dependencies, mem_names]
  exact ⟨And.left, fun h => ⟨h, (hends _ h).2⟩⟩

theorem Joined.needs_iff (hg : g.Joined) : Needs g.dependencies g.names n m ↔ g.Requires n m :=
  Graph.needs_iff hg.ends

theorem Joined.needs_eq (hg : g.Joined) : Needs g.dependencies g.names = g.Requires := by
  ext n m
  exact hg.needs_iff

/-- Every package has an entry. -/
theorem map_fst_entries (g : Graph) :
    (g.names.filterMap g.row?).map Prod.fst = g.names.map .package := by
  rw [List.map_filterMap, List.filterMap_eq_map_iff_forall_eq_some]
  intro n hn
  obtain ⟨vs, hvs⟩ := OrderedMap.exists_get?_of_mem (mem_names.mp hn)
  rw [row?, hvs]
  rfl

theorem entries_remaining (g : Graph) : g.remaining.entries = g.names.filterMap g.row? := by
  refine OrderedMap.entries_ofList ?_
  rw [map_fst_entries]
  exact (pairwise_names g).nodup.map fun _ _ => Vertex.package.inj

theorem keys_remaining (g : Graph) : g.remaining.keys = g.names.map .package := by
  rw [OrderedMap.keys, entries_remaining, map_fst_entries]

theorem edge_remaining_iff {v w : Vertex} :
    g.remaining.Edge v w ↔ ∃ n ∈ g.names, v = .package n ∧ (v, w) ∈ g.edges := by
  simp only [EdgeMap.edge_iff, OrderedMap.get?_eq_some_iff, entries_remaining, List.mem_filterMap,
    mem_edges_iff, row?, Option.map_eq_some_iff, Prod.mk.injEq]
  constructor
  · rintro ⟨_, ⟨n, hn, vs, hvs, rfl, rfl⟩, hw⟩
    exact ⟨n, hn, rfl, vs, hvs, hw⟩
  · rintro ⟨n, hn, rfl, vs, hvs, hw⟩
    exact ⟨vs, ⟨n, hn, vs, hvs, rfl, rfl⟩, hw⟩

/-- At first all packages are left. -/
theorem mirrors_remaining (hends : ∀ e ∈ g.edges, e.1 ∈ g ∧ e.2 ∈ g)
    (hroot : ∀ n, (.package n, .root) ∉ g.edges) :
    Mirrors g.dependencies g.names g.remaining where
  keys := keys_remaining g
  edge_iff v w := by
    simp only [edge_remaining_iff, needs_iff hends, Requires]
    constructor
    · rintro ⟨n, hn, rfl, he⟩
      cases w with
      | root => exact absurd he (hroot n)
      | package m => exact ⟨n, hn, m, he, rfl, rfl⟩
    · rintro ⟨n, hn, m, he, rfl, rfl⟩
      exact ⟨n, hn, rfl, he⟩

theorem topologicalOrder_eq_batches (hends : ∀ e ∈ g.edges, e.1 ∈ g ∧ e.2 ∈ g)
    (hroot : ∀ n, (.package n, .root) ∉ g.edges) :
    g.topologicalOrder = .ok (batches g.dependencies g.names).flatten := by
  rw [topologicalOrder, (mirrors_remaining hends hroot).drain_eq (pairwise_names g)]
  simp [List.filterMap_map, Function.comp_def, Vertex.name?]

theorem Joined.topologicalOrder_eq (hg : g.Joined) :
    g.topologicalOrder = .ok (batches g.dependencies g.names).flatten :=
  topologicalOrder_eq_batches hg.ends fun _ he => hg.rootless _ he rfl

end Graph
end PackageResolution
