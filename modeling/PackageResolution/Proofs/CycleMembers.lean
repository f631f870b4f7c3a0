import PackageResolution.Proofs.InstallOrder

/-!
# PackageResolution.Proofs.CycleMembers

Where the members of a cycle stand in the order of installation. They come in one batch, but need
not stand next to each other. Cycles that wait for nothing outside come all at once, and since a
batch is in the order of names, such cycles are interleaved by the names of their members.

* `before_append_left`, `before_append_right`, `between_flatten`: what stands between two elements
  of one block of a list of blocks.
* `Clustered`: how cycles lie in batches. `Clustered.cons` is about one batch, `clustered_batches`
  about all of them.
* `Graph.topologicalOrder_between_members`: what stands between two members of a cycle.
* `Graph.topologicalOrder_interleaved`: two cycles that are not kept apart.
-/

namespace PackageResolution

variable {deps : String → List String} {live xs ys : List String} {blocks : List (List String)}
  {block : List String} {a b n m x : String}

/-! ## Blocks -/

theorem before_iff_of_pairwise (h : live.Pairwise (· < ·)) :
    Before live a b ↔ a ∈ live ∧ b ∈ live ∧ a < b := by
  constructor
  · intro hab
    exact ⟨hab.subset (by simp), hab.subset (by simp), List.pairwise_iff_forall_sublist.mp h hab⟩
  · rintro ⟨ha, hb, hlt⟩
    exact before_of_pairwise h ha hb hlt

theorem before_append_iff :
    Before (xs ++ ys) a b ↔ Before xs a b ∨ (a ∈ xs ∧ b ∈ ys) ∨ Before ys a b := by
  constructor
  · intro h
    obtain ⟨us, vs, heq, hus, hvs⟩ := List.sublist_append_iff.mp h
    match us, heq with
    | [], heq => exact .inr (.inr (by rw [Before, heq]; exact hvs))
    | [u], heq =>
      cases heq
      exact .inr (.inl ⟨List.singleton_sublist.mp hus, List.singleton_sublist.mp hvs⟩)
    | [u, v], heq =>
      cases heq
      exact .inl hus
  · rintro (h | ⟨ha, hb⟩ | h)
    · exact List.Sublist.trans h (List.sublist_append_left _ _)
    · exact before_append ha hb
    · exact List.Sublist.trans h (List.sublist_append_right _ _)

theorem before_append_left (hdisjoint : xs.Disjoint ys) (hb : b ∈ xs) :
    Before (xs ++ ys) a b ↔ Before xs a b := by
  rw [before_append_iff]
  refine or_iff_left ?_
  rintro (⟨_, hb'⟩ | h)
  · exact hdisjoint hb hb'
  · exact hdisjoint hb (h.subset (by simp))

theorem before_append_right (hdisjoint : xs.Disjoint ys) (ha : a ∈ ys) :
    Before (xs ++ ys) a b ↔ Before ys a b := by
  rw [before_append_iff, ← or_assoc]
  refine or_iff_right ?_
  rintro (h | ⟨ha', _⟩)
  · exact hdisjoint (h.subset (by simp)) ha
  · exact hdisjoint ha' ha

/-- What stands between two elements of a block is in that block. -/
theorem between_flatten (hnodup : blocks.flatten.Nodup) (hblock : block ∈ blocks) (hn : n ∈ block)
    (hm : m ∈ block) :
    Before blocks.flatten n x ∧ Before blocks.flatten x m ↔
      Before block n x ∧ Before block x m := by
  induction blocks with
  | nil => cases hblock
  | cons c blocks ih =>
    rw [List.flatten_cons] at hnodup ⊢
    have hdisjoint : c.Disjoint blocks.flatten := List.disjoint_of_nodup_append hnodup
    rcases List.mem_cons.mp hblock with rfl | hblock
    · rw [before_append_left hdisjoint hm]
      refine and_congr_left fun hxm => before_append_left hdisjoint (hxm.subset (by simp))
    · have hrest {k : String} (hk : k ∈ block) : k ∈ blocks.flatten :=
        List.mem_flatten.mpr ⟨block, hblock, hk⟩
      rw [← ih hnodup.of_append_right hblock, before_append_right hdisjoint (hrest hn)]
      refine and_congr_right fun hnx => before_append_right hdisjoint (hnx.subset (by simp))

/-! ## Cycles in batches -/

/-- Each block holds live names in order, and those that depend on each other as a whole. Names of a
block that depend on one another do so mutually, and if one is on a cycle, then all are. -/
structure Clustered (deps : String → List String) (live : List String)
    (blocks : List (List String)) : Prop where
  mem_live : ∀ block ∈ blocks, ∀ n ∈ block, n ∈ live
  sorted : ∀ block ∈ blocks, block.Pairwise (· < ·)
  whole : ∀ block ∈ blocks, ∀ n ∈ block, ∀ m,
    LeadsTo deps live n m → LeadsTo deps live m n → m ∈ block
  returns : ∀ block ∈ blocks, ∀ n ∈ block, ∀ m ∈ block,
    LeadsTo deps live n m → LeadsTo deps live m n
  cyclic : ∀ block ∈ blocks, ∀ n ∈ block, LeadsTo deps live n n → ∀ m ∈ block,
    LeadsTo deps live m m

/-- A batch with a cycle in it holds nothing else than cycles. -/
theorem leadsTo_self_of_mem_batch (hn : n ∈ batch deps live) (hcycle : LeadsTo deps live n n)
    (hm : m ∈ batch deps live) : LeadsTo deps live m m := by
  obtain ⟨k, hk⟩ : ∃ k, Needs deps live m k := by
    rcases (mem_batch_iff.mp hn).2 with hready | ⟨hall, _⟩
    · exact absurd hcycle (not_leadsTo_of_not_needs hready)
    · exact hall m (mem_of_mem_batch hm)
  exact Relation.TransGen.head hk (leadsTo_of_mem_batch hm (.single hk))

/-- A path between names of the blocks that follow a batch does not touch the batch. -/
theorem Clustered.keeps (h : Clustered deps (without live (batch deps live)) blocks)
    (hblock : block ∈ blocks) (hm : m ∈ block) (hnm : LeadsTo deps live n m) :
    LeadsTo deps (without live (batch deps live)) n m :=
  hnm.without (mem_without.mp (h.mem_live block hblock m hm)).2

theorem Clustered.cons (hlive : live.Pairwise (· < ·))
    (h : Clustered deps (without live (batch deps live)) blocks) :
    Clustered deps live (batch deps live :: blocks) where
  mem_live := by
    rw [List.forall_mem_cons]
    refine ⟨fun n hn => mem_of_mem_batch hn, fun block hblock n hn => ?_⟩
    exact (mem_without.mp (h.mem_live block hblock n hn)).1
  sorted := by
    rw [List.forall_mem_cons]
    exact ⟨hlive.sublist (batch_sublist deps live), h.sorted⟩
  whole := by
    rw [List.forall_mem_cons]
    refine ⟨fun n hn m hnm _ => mem_batch_of_leadsTo hn hnm, fun block hblock n hn m hnm hmn => ?_⟩
    -- a cycle with a member outside the batch has no member in it
    have hn' := (mem_without.mp (h.mem_live block hblock n hn)).2
    have hm : m ∉ batch deps live := fun hm => hn' (mem_batch_of_leadsTo hm hmn)
    exact h.whole block hblock n hn m (hnm.without hm) (h.keeps hblock hn hmn)
  returns := by
    rw [List.forall_mem_cons]
    refine ⟨fun n hn m _ hnm => leadsTo_of_mem_batch hn hnm, fun block hblock n hn m hm hnm => ?_⟩
    exact (h.returns block hblock n hn m hm (h.keeps hblock hm hnm)).of_without
  cyclic := by
    rw [List.forall_mem_cons]
    refine ⟨fun n hn hcycle m hm => leadsTo_self_of_mem_batch hn hcycle hm, ?_⟩
    intro block hblock n hn hcycle m hm
    exact (h.cyclic block hblock n hn (h.keeps hblock hn hcycle) m hm).of_without

theorem clustered_batches (hlive : live.Pairwise (· < ·)) :
    Clustered deps live (batches deps live) := by
  fun_induction batches deps live with
  | case1 => constructor <;> exact fun _ h => absurd h List.not_mem_nil
  | case2 live n ns heq ih =>
    rw [← heq] at ih ⊢
    exact .cons hlive (ih (hlive.filter _))

theorem Clustered.between_iff (h : Clustered deps live blocks) (hnodup : blocks.flatten.Nodup)
    (hblock : block ∈ blocks) (hn : n ∈ block) (hnm : LeadsTo deps live n m)
    (hmn : LeadsTo deps live m n) :
    Before blocks.flatten n x ∧ Before blocks.flatten x m ↔ x ∈ block ∧ n < x ∧ x < m := by
  have hm : m ∈ block := h.whole block hblock n hn m hnm hmn
  have hsorted := h.sorted block hblock
  rw [between_flatten hnodup hblock hn hm, before_iff_of_pairwise hsorted,
    before_iff_of_pairwise hsorted]
  tauto

namespace Graph

/-- Two packages come in one batch. -/
def Together (g : Graph) (n m : String) : Prop :=
  ∃ block ∈ batches g.dependencies g.names, n ∈ block ∧ m ∈ block

/-- Packages that depend on each other come in one batch. Between two of them stand the packages of
that batch whose names are between theirs. All of these are on cycles, and those that are not on the
same cycle have nothing to do with it. -/
theorem topologicalOrder_between_members {calls : List Call} (h : ∀ call ∈ calls, call.ToPackage) :
    ∃ order, (build calls).topologicalOrder = .ok order ∧
      ∀ n m, (build calls).DependsOn n m → (build calls).DependsOn m n →
        (build calls).Together n m ∧
        ∀ x, (Before order n x ∧ Before order x m ↔
            (build calls).Together n x ∧ n < x ∧ x < m) ∧
          ((build calls).Together n x → (build calls).DependsOn x x ∧
            ((build calls).DependsOn n x ↔ (build calls).DependsOn x n)) := by
  have hg := joined_build h
  have hnames := pairwise_names (build calls)
  have hclustered : Clustered (build calls).dependencies (build calls).names _ :=
    clustered_batches hnames
  have hperm : (batches (build calls).dependencies (build calls).names).flatten.Perm _ :=
    (dependencyFirst_batches hnames).perm
  have hnodup := hperm.nodup_iff.mpr hnames.nodup
  simp only [DependsOn, ← hg.needs_eq]
  refine ⟨_, hg.topologicalOrder_eq, fun n m hnm hmn => ?_⟩
  obtain ⟨block, hblock, hn⟩ := List.mem_flatten.mp (hperm.mem_iff.mpr (LeadsTo.mem_live hmn))
  refine ⟨⟨block, hblock, hn, hclustered.whole block hblock n hn m hnm hmn⟩, fun x => ⟨?_, ?_⟩⟩
  · constructor
    · intro h
      obtain ⟨hx, hlt⟩ := (hclustered.between_iff hnodup hblock hn hnm hmn).mp h
      exact ⟨⟨block, hblock, hn, hx⟩, hlt⟩
    · rintro ⟨⟨block', hblock', hn', hx⟩, hlt⟩
      exact (hclustered.between_iff hnodup hblock' hn' hnm hmn).mpr ⟨hx, hlt⟩
  · rintro ⟨block', hblock', hn', hx⟩
    refine ⟨hclustered.cyclic block' hblock' n hn' (hnm.trans hmn) x hx, ?_, ?_⟩
    · exact hclustered.returns block' hblock' n hn' x hx
    · exact hclustered.returns block' hblock' x hx n hn'

/-- Three cycles of which one waits for the other two, whose members take turns. -/
theorem between_members_turns :
    let calls : List Call :=
      [.add .root, .add (.package "a"), .add (.package "b"), .add (.package "c"),
        .add (.package "d"), .add (.package "e"), .connect .root (.package "e"),
        .connect (.package "e") (.package "e"), .connect (.package "e") (.package "a"),
        .connect (.package "e") (.package "b"), .connect (.package "a") (.package "c"),
        .connect (.package "c") (.package "a"), .connect (.package "b") (.package "d"),
        .connect (.package "d") (.package "b")]
    (∀ call ∈ calls, call.ToPackage) ∧
      (build calls).topologicalOrder = .ok ["a", "b", "c", "d", "e"] ∧
      (build calls).DependsOn "a" "c" ∧ (build calls).DependsOn "c" "a" ∧
      (build calls).Together "a" "c" ∧ (build calls).Together "a" "b" ∧
      (build calls).DependsOn "b" "b" ∧
      ((build calls).DependsOn "a" "b" ↔ (build calls).DependsOn "b" "a") := by
  intro calls
  have hcalls : ∀ call ∈ calls, call.ToPackage := by decide
  have hg := joined_build hcalls
  have horder : (build calls).topologicalOrder = .ok ["a", "b", "c", "d", "e"] := by
    rw [hg.topologicalOrder_eq]
    decide +kernel
  have hac : (build calls).DependsOn "a" "c" := hg.dependsOn_iff.mpr (by decide +kernel)
  have hca : (build calls).DependsOn "c" "a" := hg.dependsOn_iff.mpr (by decide +kernel)
  obtain ⟨order, ho, hmembers⟩ := topologicalOrder_between_members hcalls
  cases ho.symm.trans horder
  obtain ⟨htogether, hb⟩ := hmembers "a" "c" hac hca
  have hpairwise : ["a", "b", "c", "d", "e"].Pairwise (· < ·) := by decide
  have hab : (build calls).Together "a" "b" :=
    ((hb "b").1.mp ⟨(before_iff_of_pairwise hpairwise).mpr (by decide),
      (before_iff_of_pairwise hpairwise).mpr (by decide)⟩).1
  exact ⟨hcalls, horder, hac, hca, htogether, hab, (hb "b").2 hab⟩

/-- A name of another cycle stands between two members of a cycle. -/
theorem topologicalOrder_interleaved :
    let calls : List Call :=
      [.add (.package "a"), .add (.package "b"), .add (.package "c"), .add (.package "d"),
        .connect (.package "a") (.package "c"), .connect (.package "c") (.package "a"),
        .connect (.package "b") (.package "d"), .connect (.package "d") (.package "b")]
    (∀ call ∈ calls, call.ToPackage) ∧
      (build calls).topologicalOrder = .ok ["a", "b", "c", "d"] ∧
      (build calls).DependsOn "a" "c" ∧ (build calls).DependsOn "c" "a" ∧
      ¬ (build calls).DependsOn "a" "b" ∧ ¬ (build calls).DependsOn "b" "a" := by
  intro calls
  have hcalls : ∀ call ∈ calls, call.ToPackage := by decide
  have hg := joined_build hcalls
  simp only [hg.dependsOn_iff, hg.topologicalOrder_eq]
  exact ⟨hcalls, by decide +kernel⟩

end Graph

end PackageResolution
