import PackageResolution.Proofs.Batches

/-!
# PackageResolution.Proofs.InstallOrder

The order in which packages are installed. A batch is never empty while names are left, and whatever
it needs of those is in it, too. So each batch can be taken out: all names are listed in the end, a
name that is needed comes first unless it needs the other in turn, and names that need each other
are in one batch, where they stand in order.

* `Before`: one name stands before another.
* `leadsTo_of_mem_batch`, `mem_batch_of_leadsTo`, `batch_ne_nil`: what a batch is.
* `DependencyFirst`: what is said of an order. `DependencyFirst.batch_append` is about one batch,
  `dependencyFirst_batches` about all of them.
* `Graph.topologicalOrder_dependency_first`: the order of every graph that can be built.
-/

namespace PackageResolution

/-- `a` stands before `b` in the list. -/
def Before (order : List String) (a b : String) : Prop := [a, b].Sublist order

variable {deps : String → List String} {live order : List String} {a b n m : String}

theorem before_of_pairwise (h : live.Pairwise (· < ·)) (ha : a ∈ live) (hb : b ∈ live)
    (hab : a < b) : Before live a b := by
  have hpair : [a, b].Pairwise (· < ·) := List.pairwise_pair.mpr hab
  have hsub : [a, b] ⊆ live := by simp [ha, hb]
  exact List.sublist_of_subperm_of_pairwise (List.subperm_of_subset hpair.nodup hsub) hpair h

theorem before_append (ha : a ∈ live) (hb : b ∈ order) : Before (live ++ order) a b :=
  (List.singleton_sublist.mpr ha).append (List.singleton_sublist.mpr hb)

/-! ## One batch -/

theorem not_leadsTo_of_not_needs (h : ∀ m, ¬ Needs deps live n m) : ¬ LeadsTo deps live n m := by
  intro hm
  obtain ⟨k, hk, _⟩ := Relation.TransGen.head'_iff.mp hm
  exact h k hk

theorem leadsTo_of_mem_batch (h : n ∈ batch deps live) (hm : LeadsTo deps live n m) :
    LeadsTo deps live m n := by
  rcases (mem_batch_iff.mp h).2 with hready | ⟨_, hterminal⟩
  · exact absurd hm (not_leadsTo_of_not_needs hready)
  · exact hterminal m hm

theorem mem_batch_of_leadsTo (h : n ∈ batch deps live) (hm : LeadsTo deps live n m) :
    m ∈ batch deps live := by
  rcases (mem_batch_iff.mp h).2 with hready | ⟨hall, hterminal⟩
  · exact absurd hm (not_leadsTo_of_not_needs hready)
  · exact mem_batch_iff.mpr
      ⟨hm.mem_live, .inr ⟨hall, fun k hk => (hterminal k (hm.trans hk)).trans hm⟩⟩

theorem batch_ne_nil (deps : String → List String) (h : n ∈ live) : batch deps live ≠ [] := by
  by_cases hall : ∀ k ∈ live, ∃ m, Needs deps live k m
  · obtain ⟨m, hm, hterminal⟩ := exists_terminal deps h
    exact List.ne_nil_of_mem (mem_batch_iff.mpr ⟨hm, .inr ⟨hall, hterminal⟩⟩)
  · push Not at hall
    obtain ⟨k, hk, hready⟩ := hall
    exact List.ne_nil_of_mem (mem_batch_iff.mpr ⟨hk, .inl hready⟩)

/-! ## What is left -/

theorem LeadsTo.of_without {done : List String} (h : LeadsTo deps (without live done) n m) :
    LeadsTo deps live n m :=
  Relation.TransGen.mono (fun _ _ hb => ⟨hb.1, (mem_without.mp hb.2).1⟩) _ _ h

/-- A path to a name that is not in the batch stays whole. -/
theorem LeadsTo.without (h : LeadsTo deps live n m) (hm : m ∉ batch deps live) :
    LeadsTo deps (without live (batch deps live)) n m := by
  induction h with
  | single hb => exact .single ⟨hb.1, mem_without.mpr ⟨hb.2, hm⟩⟩
  | tail _ hb ih =>
    have hlast := ih fun hmem => hm (mem_batch_of_leadsTo hmem (.single hb))
    exact hlast.tail ⟨hb.1, mem_without.mpr ⟨hb.2, hm⟩⟩

/-! ## All batches -/

/-- The live names, each after those that it depends on unless they are on a cycle with it, and
those on a cycle in the order of names. -/
structure DependencyFirst (deps : String → List String) (live order : List String) : Prop where
  perm : order.Perm live
  before : ∀ n m, n ∈ live → Needs deps live n m → ¬ LeadsTo deps live m n → Before order m n
  cycles : ∀ n m, LeadsTo deps live n m → LeadsTo deps live m n → n < m → Before order n m

theorem perm_batch_append (hlive : live.Pairwise (· < ·))
    (h : order.Perm (without live (batch deps live))) : (batch deps live ++ order).Perm live := by
  have hbatch : (batch deps live).Nodup := hlive.nodup.sublist (batch_sublist deps live)
  have hrest : (without live (batch deps live)).Nodup := hlive.nodup.filter _
  have hdisjoint : (batch deps live).Disjoint (without live (batch deps live)) :=
    fun n hn hn' => (mem_without.mp hn').2 hn
  refine (h.append_left _).trans ((List.perm_ext_iff_of_nodup ?_ hlive.nodup).mpr ?_)
  · exact hbatch.append hrest hdisjoint
  · intro n
    rw [List.mem_append, mem_without]
    by_cases hn : n ∈ batch deps live
    · simp [hn, mem_of_mem_batch hn]
    · simp [hn]

theorem DependencyFirst.batch_append (hlive : live.Pairwise (· < ·))
    (h : DependencyFirst deps (without live (batch deps live)) order) :
    DependencyFirst deps live (batch deps live ++ order) := by
  have hmem {n : String} (hn : n ∈ live) (hb : n ∉ batch deps live) : n ∈ order :=
    h.perm.mem_iff.mpr (mem_without.mpr ⟨hn, hb⟩)
  refine ⟨perm_batch_append hlive h.perm, ?_, ?_⟩
  · intro n m hn hneeds hback
    -- all that a name in the batch leads to leads back, so `n` has to wait
    have hn' : n ∉ batch deps live := fun hb => hback (leadsTo_of_mem_batch hb (.single hneeds))
    by_cases hm : m ∈ batch deps live
    · exact before_append hm (hmem hn hn')
    · have hbefore := h.before n m (mem_without.mpr ⟨hn, hn'⟩)
        ⟨hneeds.1, mem_without.mpr ⟨hneeds.2, hm⟩⟩ fun hl => hback hl.of_without
      exact List.Sublist.trans hbefore (List.sublist_append_right _ _)
  · intro n m hnm hmn hlt
    -- a cycle is in the batch as a whole or not at all
    by_cases hn : n ∈ batch deps live
    · have hsorted := hlive.sublist (batch_sublist deps live)
      have hbefore := before_of_pairwise hsorted hn (mem_batch_of_leadsTo hn hnm) hlt
      exact List.Sublist.trans hbefore (List.sublist_append_left _ _)
    · have hm : m ∉ batch deps live := fun hm => hn (mem_batch_of_leadsTo hm hmn)
      have hbefore := h.cycles n m (hnm.without hm) (hmn.without hn) hlt
      exact List.Sublist.trans hbefore (List.sublist_append_right _ _)

theorem dependencyFirst_batches (hlive : live.Pairwise (· < ·)) :
    DependencyFirst deps live (batches deps live).flatten := by
  fun_induction batches deps live with
  | case1 live hnil =>
    have hempty : live = [] :=
      List.eq_nil_iff_forall_not_mem.mpr fun n hn => batch_ne_nil deps hn hnil
    subst hempty
    refine ⟨.refl _, fun n _ hn => absurd hn List.not_mem_nil, fun n m hnm => ?_⟩
    exact absurd hnm.mem_live List.not_mem_nil
  | case2 live n ns heq ih =>
    rw [← heq] at ih
    rw [List.flatten_cons, ← heq]
    exact .batch_append hlive (ih (hlive.filter _))

/-! ## Graphs -/

namespace Graph

variable {g : Graph}

theorem Joined.dependsOn_iff (hg : g.Joined) :
    g.DependsOn n m ↔ m ∈ reach g.dependencies g.names n := by
  rw [mem_reach_iff, LeadsTo, hg.needs_eq]

theorem Joined.acyclic_iff (hg : g.Joined) :
    (∀ n, ¬ g.DependsOn n n) ↔ ∀ n ∈ g.names, n ∉ reach g.dependencies g.names n := by
  constructor
  · intro h n _ hn
    exact h n (hg.dependsOn_iff.mpr hn)
  · intro h n hn
    have hn' := hg.dependsOn_iff.mp hn
    exact h n (mem_reach_iff.mp hn').mem_live hn'

/-- The order of a graph that is built with edges to packages lists its packages, each once and each
after what it depends on unless that depends on it in turn. Packages that depend on each other come
in the order of their names. -/
theorem topologicalOrder_dependency_first {calls : List Call}
    (h : ∀ call ∈ calls, call.ToPackage) :
    ∃ order, (build calls).topologicalOrder = .ok order ∧ order.Nodup ∧
      (∀ n, n ∈ order ↔ Vertex.package n ∈ build calls) ∧
      (∀ n m, (build calls).Requires n m → ¬ (build calls).DependsOn m n → Before order m n) ∧
      ∀ n m, (build calls).DependsOn n m → (build calls).DependsOn m n → n < m →
        Before order n m := by
  have hg := joined_build h
  have hfirst : DependencyFirst (build calls).dependencies (build calls).names
      (batches (build calls).dependencies (build calls).names).flatten :=
    dependencyFirst_batches (pairwise_names (build calls))
  have hneeds : Needs (build calls).dependencies (build calls).names = (build calls).Requires :=
    hg.needs_eq
  refine ⟨_, hg.topologicalOrder_eq, ?_, ?_, ?_, ?_⟩
  · exact hfirst.perm.nodup_iff.mpr (pairwise_names _).nodup
  · intro n
    rw [hfirst.perm.mem_iff, mem_names]
  · intro n m hnm hback
    refine hfirst.before n m (mem_names.mpr (hg.ends _ hnm).1) (hg.needs_iff.mpr hnm) ?_
    rwa [LeadsTo, hneeds]
  · intro n m hnm hmn hlt
    rw [DependsOn, ← hneeds] at hnm hmn
    exact hfirst.cycles n m hnm hmn hlt

/-- A cycle of two packages, a package that depends on itself, and attempts that fail. -/
theorem topologicalOrder_entangled :
    let calls : List Call :=
      [.add .root, .add (.package "b"), .connect (.package "b") (.package "d"),
        .add (.package "d"), .add (.package "b"), .add (.package "a"), .add (.package "c"),
        .connect .root (.package "b"), .connect (.package "b") (.package "a"),
        .connect (.package "a") (.package "b"), .connect (.package "a") (.package "d"),
        .connect (.package "d") (.package "d"), .connect (.package "c") (.package "a")]
    (∀ call ∈ calls, call.ToPackage) ∧
      (build calls).topologicalOrder = .ok ["d", "a", "b", "c"] ∧
      ∃ order, (build calls).topologicalOrder = .ok order ∧ order.Nodup ∧
        (∀ n, n ∈ order ↔ Vertex.package n ∈ build calls) ∧
        (∀ n m, (build calls).Requires n m → ¬ (build calls).DependsOn m n → Before order m n) ∧
        ∀ n m, (build calls).DependsOn n m → (build calls).DependsOn m n → n < m →
          Before order n m := by
  intro calls
  have hcalls : ∀ call ∈ calls, call.ToPackage := by decide
  have horder : (build calls).topologicalOrder = .ok ["d", "a", "b", "c"] := by
    rw [(joined_build hcalls).topologicalOrder_eq]
    decide +kernel
  exact ⟨hcalls, horder, topologicalOrder_dependency_first hcalls⟩

end Graph
end PackageResolution
