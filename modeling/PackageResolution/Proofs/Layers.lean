import Mathlib.Data.Set.Finite.Lattice
import Mathlib.Order.Lattice.Nat
import PackageResolution.Proofs.InstallOrder

/-!
# PackageResolution.Proofs.Layers

The order of installation where no package depends on itself, be it by way of others. The height of
a name is the length of the longest path of dependencies that starts there. Each batch then holds
all names of one height: those of height 0 need nothing, and with the names below a height taken
out, those of that height need nothing, either. So the order is by height, and by name within one
height, and it depends on nothing but the vertices and edges.

* `pathLengths`, `height`: the lengths of all paths from a name, and the greatest of them.
* `Levels`: what makes a function on names fit the batches. `levels_height` says that heights do.
* `Levels.mem_batch_iff`: a batch is a level. `Levels.pairwise_batches` is about all batches.
* `Graph.Joined.topologicalOrder_congr`: only the vertices and edges of a graph matter.
* `Graph.topologicalOrder_layered`: the order of every graph without cycles that can be built.
-/

namespace PackageResolution

/-- The lengths of the paths that start at `n`. -/
def pathLengths (r : String → String → Prop) (n : String) : Set Nat :=
  {k | ∃ path, (n :: path).IsChain r ∧ path.length = k}

/-- The length of the longest path that starts at `n`. -/
noncomputable def height (r : String → String → Prop) (n : String) : Nat := sSup (pathLengths r n)

/-- By level, and within a level by name. -/
def LevelOrder (level : String → Nat) (n m : String) : Prop :=
  level n < level m ∨ level n = level m ∧ n < m

variable {r : String → String → Prop} {deps deps' : String → List String}
  {live names : List String} {level : String → Nat} {n m : String} {k : Nat}

/-! ## Paths -/

theorem zero_mem_pathLengths (r : String → String → Prop) (n : String) : 0 ∈ pathLengths r n :=
  ⟨[], .singleton n, rfl⟩

theorem succ_mem_pathLengths_iff :
    k + 1 ∈ pathLengths r n ↔ ∃ m, r n m ∧ k ∈ pathLengths r m := by
  constructor
  · rintro ⟨path, hpath, hlength⟩
    cases path with
    | nil => cases hlength
    | cons m path =>
      obtain ⟨hnm, hrest⟩ := List.isChain_cons_cons.mp hpath
      exact ⟨m, hnm, path, hrest, Nat.succ.inj hlength⟩
  · rintro ⟨m, hnm, path, hpath, rfl⟩
    exact ⟨m :: path, .cons_cons hnm hpath, rfl⟩

/-- Paths from `n` are one step longer than those from the names after it. -/
theorem bddAbove_pathLengths_of_step (hfinite : {m | r n m}.Finite)
    (h : ∀ m, r n m → BddAbove (pathLengths r m)) : BddAbove (pathLengths r n) := by
  obtain ⟨b, hb⟩ := hfinite.bddAbove_biUnion.mpr h
  refine ⟨b + 1, ?_⟩
  rintro (_ | k) hk
  · exact Nat.zero_le _
  · obtain ⟨m, hnm, hm⟩ := succ_mem_pathLengths_iff.mp hk
    exact Nat.succ_le_succ (hb (Set.mem_biUnion hnm hm))

theorem finite_needs (deps : String → List String) (live : List String) (n : String) :
    {m | Needs deps live n m}.Finite :=
  (List.finite_toSet (deps n)).subset fun _ hm => hm.1

/-- Without cycles, going on along dependencies comes to an end. -/
theorem bddAbove_pathLengths (hacyclic : ∀ n, ¬ LeadsTo deps live n n) (n : String) :
    BddAbove (pathLengths (Needs deps live) n) := by
  have hlive : ∀ m : { m // m ∈ live }, BddAbove (pathLengths (Needs deps live) m) := by
    intro m
    induction m using (wellFounded_onward deps live).induction with
    | _ m ih =>
      refine bddAbove_pathLengths_of_step (finite_needs deps live m) fun k hk => ?_
      exact ih ⟨k, hk.2⟩ ⟨.single hk, fun hback => hacyclic m (.head hk hback)⟩
  exact bddAbove_pathLengths_of_step (finite_needs deps live n) fun m hm => hlive ⟨m, hm.2⟩

theorem isGreatest_height (h : BddAbove (pathLengths r n)) :
    IsGreatest (pathLengths r n) (height r n) :=
  ⟨Nat.sSup_mem ⟨0, zero_mem_pathLengths r n⟩ h, fun _ hk => le_csSup h hk⟩

/-! ## Levels -/

/-- Dependencies are on lower levels, and above the lowest level there is one on the next. -/
structure Levels (deps : String → List String) (names : List String) (level : String → Nat) :
    Prop where
  lt : ∀ n m, Needs deps names n m → level m < level n
  exists_next : ∀ n k, level n = k + 1 → ∃ m, Needs deps names n m ∧ level m = k

theorem levels_height (hacyclic : ∀ n, ¬ LeadsTo deps names n n) :
    Levels deps names (height (Needs deps names)) := by
  have hgreatest (n : String) := isGreatest_height (bddAbove_pathLengths hacyclic n)
  have hlt : ∀ n m, Needs deps names n m →
      height (Needs deps names) m < height (Needs deps names) n := fun n m hnm =>
    (hgreatest n).2 (succ_mem_pathLengths_iff.mpr ⟨m, hnm, (hgreatest m).1⟩)
  refine ⟨hlt, fun n k hk => ?_⟩
  have hmem := (hgreatest n).1
  rw [hk, succ_mem_pathLengths_iff] at hmem
  obtain ⟨m, hnm, hm⟩ := hmem
  have hge := (hgreatest m).2 hm
  have hle := hlt n m hnm
  exact ⟨m, hnm, by omega⟩

/-- The names from level `k` upwards. -/
def levelsFrom (level : String → Nat) (k : Nat) (names : List String) : List String :=
  names.filter fun n => decide (k ≤ level n)

theorem mem_levelsFrom : n ∈ levelsFrom level k names ↔ n ∈ names ∧ k ≤ level n := by
  simp [levelsFrom]

namespace Levels

variable (h : Levels deps names level)
include h

/-- No level below an occupied one is empty. -/
theorem exists_mem_level (hn : n ∈ names) (hk : k ≤ level n) : ∃ m ∈ names, level m = k := by
  induction hj : level n - k generalizing n with
  | zero => exact ⟨n, hn, by omega⟩
  | succ j ih =>
    obtain ⟨m, hnm, hm⟩ := h.exists_next n (k + j) (by omega)
    exact ih hnm.2 (by omega) (by omega)

theorem not_needs_iff (hn : n ∈ levelsFrom level k names) :
    (∀ m, ¬ Needs deps (levelsFrom level k names) n m) ↔ level n = k := by
  rw [mem_levelsFrom] at hn
  constructor
  · intro hnone
    by_contra hne
    obtain ⟨m, hnm, hm⟩ := h.exists_next n (level n - 1) (by omega)
    exact hnone m ⟨hnm.1, mem_levelsFrom.mpr ⟨hnm.2, by omega⟩⟩
  · rintro rfl m ⟨hdep, hm⟩
    rw [mem_levelsFrom] at hm
    have hlt := h.lt n m ⟨hdep, hm.1⟩
    omega

/-- The names of the lowest level that is left come next. -/
theorem mem_batch_iff :
    n ∈ batch deps (levelsFrom level k names) ↔ n ∈ names ∧ level n = k := by
  rw [PackageResolution.mem_batch_iff]
  constructor
  · rintro ⟨hn, hready | ⟨hall, _⟩⟩
    · exact ⟨(mem_levelsFrom.mp hn).1, (h.not_needs_iff hn).mp hready⟩
    · -- a name of level `k` is ready, so the batch does not hold cycles
      obtain ⟨hn', hk⟩ := mem_levelsFrom.mp hn
      obtain ⟨m, hm, hlevel⟩ := h.exists_mem_level hn' hk
      have hm' : m ∈ levelsFrom level k names := mem_levelsFrom.mpr ⟨hm, hlevel.ge⟩
      obtain ⟨d, hd⟩ := hall m hm'
      exact absurd hd ((h.not_needs_iff hm').mpr hlevel d)
  · rintro ⟨hn, hlevel⟩
    have hn' : n ∈ levelsFrom level k names := mem_levelsFrom.mpr ⟨hn, hlevel.ge⟩
    exact ⟨hn', .inl ((h.not_needs_iff hn').mpr hlevel)⟩

theorem without_batch :
    without (levelsFrom level k names) (batch deps (levelsFrom level k names)) =
      levelsFrom level (k + 1) names := by
  rw [without, levelsFrom, levelsFrom, List.filter_filter]
  refine List.filter_congr fun n hn => ?_
  have hbatch : n ∈ batch deps (names.filter fun n => decide (k ≤ level n)) ↔ level n = k :=
    h.mem_batch_iff.trans (and_iff_right hn)
  rw [Bool.eq_iff_iff]
  simp only [hbatch, Bool.and_eq_true, decide_eq_true_eq]
  omega

/-- The batches are the levels, from the lowest upwards. -/
theorem pairwise_batches (hnames : names.Pairwise (· < ·))
    (hlive : live = levelsFrom level k names) :
    (batches deps live).flatten.Pairwise (LevelOrder level) := by
  fun_induction batches deps live generalizing k with
  | case1 => exact .nil
  | case2 live n ns heq ih =>
    subst hlive
    rw [← heq] at ih ⊢
    rw [List.flatten_cons, List.pairwise_append]
    have hsorted {j : Nat} : (levelsFrom level j names).Pairwise (· < ·) := hnames.filter _
    refine ⟨?_, ih h.without_batch, ?_⟩
    · refine (hsorted.sublist (batch_sublist deps _)).imp_of_mem fun ha hb hab => ?_
      rw [h.mem_batch_iff] at ha hb
      exact .inr ⟨ha.2.trans hb.2.symm, hab⟩
    · intro a ha b hb
      rw [h.mem_batch_iff] at ha
      rw [h.without_batch, (dependencyFirst_batches hsorted).perm.mem_iff, mem_levelsFrom] at hb
      exact .inl (by omega)

end Levels

/-! ## What the order depends on -/

theorem batch_congr (hlive : live.Pairwise (· < ·)) (h : ∀ n m, m ∈ deps n ↔ m ∈ deps' n) :
    batch deps live = batch deps' live := by
  have hneeds : Needs deps live = Needs deps' live := by
    ext n m
    exact and_congr_left' (h n m)
  have hsorted (deps : String → List String) : (batch deps live).Pairwise (· < ·) :=
    hlive.sublist (batch_sublist deps live)
  refine (hsorted deps).eq_of_mem_iff (hsorted deps') fun n => ?_
  simp only [mem_batch_iff, Terminal, LeadsTo, hneeds]

theorem batches_congr (hlive : live.Pairwise (· < ·)) (h : ∀ n m, m ∈ deps n ↔ m ∈ deps' n) :
    batches deps live = batches deps' live := by
  fun_induction batches deps live with
  | case1 live hnil =>
    rw [batch_congr hlive h] at hnil
    rw [batches]
    split
    · rfl
    · rename_i heq
      rw [hnil] at heq
      cases heq
  | case2 live n ns heq ih =>
    rw [ih (hlive.filter _)]
    rw [batch_congr hlive h] at heq
    conv_rhs => rw [batches]
    split
    · rename_i hnil
      rw [heq] at hnil
      cases hnil
    · rename_i heq'
      rw [heq] at heq'
      cases heq'
      rfl

namespace Graph

variable {g g' : Graph}

theorem names_congr (hv : ∀ v, v ∈ g ↔ v ∈ g') : g.names = g'.names := by
  refine (pairwise_names g).eq_of_mem_iff (pairwise_names g') fun n => ?_
  rw [mem_names, mem_names, hv]

theorem Joined.congr (hg : g.Joined) (hv : ∀ v, v ∈ g ↔ v ∈ g')
    (he : ∀ e, e ∈ g.edges ↔ e ∈ g'.edges) : g'.Joined := by
  refine ⟨fun e h => ?_, fun e h => hg.rootless e ((he e).mpr h)⟩
  rw [← hv, ← hv]
  exact hg.ends e ((he e).mpr h)

/-- Only the vertices and the edges of a graph matter, not in which order they were added. -/
theorem Joined.topologicalOrder_congr (hg : g.Joined) (hv : ∀ v, v ∈ g ↔ v ∈ g')
    (he : ∀ e, e ∈ g.edges ↔ e ∈ g'.edges) : g.topologicalOrder = g'.topologicalOrder := by
  have hdeps : ∀ n m, m ∈ g.dependencies n ↔ m ∈ g'.dependencies n := by
    intro n m
    rw [mem_dependencies, mem_dependencies, Requires, Requires, he]
  rw [hg.topologicalOrder_eq, (hg.congr hv he).topologicalOrder_eq,
    batches_congr (pairwise_names g) hdeps, names_congr hv]

/-- If no package of a graph that is built with edges to packages depends on itself, then its order
lists the packages by the length of the longest path of dependencies from each, and by name where
that is the same. All graphs with the same vertices and edges have this order. -/
theorem topologicalOrder_layered {calls : List Call} (h : ∀ call ∈ calls, call.ToPackage)
    (hacyclic : ∀ n, ¬ (build calls).DependsOn n n) :
    ∃ order, (build calls).topologicalOrder = .ok order ∧
      (∀ n, n ∈ order ↔ Vertex.package n ∈ build calls) ∧
      order.Pairwise (LevelOrder (height (build calls).Requires)) ∧
      (∀ n, IsGreatest (pathLengths (build calls).Requires n)
        (height (build calls).Requires n)) ∧
      ∀ calls', (∀ v, v ∈ build calls' ↔ v ∈ build calls) →
        (∀ e, e ∈ (build calls').edges ↔ e ∈ (build calls).edges) →
        (build calls').topologicalOrder = .ok order := by
  have hg := joined_build h
  have hneeds := hg.needs_eq
  have horder := hg.topologicalOrder_eq
  have hacyclic' : ∀ n, ¬ LeadsTo (build calls).dependencies (build calls).names n n := by
    simpa only [LeadsTo, hneeds] using hacyclic
  have hlevels := levels_height hacyclic'
  have hgreatest (n : String) := isGreatest_height (bddAbove_pathLengths hacyclic' n)
  rw [hneeds] at hlevels
  simp only [hneeds] at hgreatest
  have hall : (build calls).names = levelsFrom (height (build calls).Requires) 0
      (build calls).names := by simp [levelsFrom]
  refine ⟨_, horder, fun n => ?_, ?_, hgreatest, fun calls' hv he => ?_⟩
  · rw [(dependencyFirst_batches (pairwise_names _)).perm.mem_iff, mem_names]
  · exact hlevels.pairwise_batches (pairwise_names _) hall
  · have hsame := hg.topologicalOrder_congr (fun v => (hv v).symm) fun e => (he e).symm
    rw [← hsame, horder]

/-- Two names of height 0, and one that is needed both directly and by way of another. The order of
the calls does not matter. -/
theorem topologicalOrder_layered_diamond :
    let calls : List Call :=
      [.add .root, .add (.package "app"), .add (.package "lib"), .add (.package "util"),
        .add (.package "zip"), .connect .root (.package "app"),
        .connect (.package "app") (.package "lib"), .connect (.package "app") (.package "util"),
        .connect (.package "lib") (.package "util")]
    let calls' : List Call :=
      [.add (.package "zip"), .add (.package "util"), .add (.package "lib"),
        .connect (.package "lib") (.package "util"), .add (.package "app"),
        .connect (.package "app") (.package "util"), .add .root,
        .connect (.package "app") (.package "lib"), .connect .root (.package "app")]
    (∀ call ∈ calls, call.ToPackage) ∧ (∀ n, ¬ (build calls).DependsOn n n) ∧
      (build calls).topologicalOrder = .ok ["util", "zip", "lib", "app"] ∧
      (build calls').topologicalOrder = .ok ["util", "zip", "lib", "app"] ∧
      ["util", "zip", "lib", "app"].Pairwise (LevelOrder (height (build calls).Requires)) := by
  intro calls calls'
  have hcalls : ∀ call ∈ calls, call.ToPackage := by decide
  have hg := joined_build hcalls
  have hacyclic : ∀ n, ¬ (build calls).DependsOn n n := hg.acyclic_iff.mpr (by decide +kernel)
  have hvertices : (build calls').children.keys.Perm (build calls).children.keys := by decide
  have hedges : (build calls').edges.Perm (build calls).edges := by decide
  have horder : (build calls).topologicalOrder = .ok ["util", "zip", "lib", "app"] := by
    rw [hg.topologicalOrder_eq]
    decide +kernel
  obtain ⟨order, ho, _, hlevels, _, hsame⟩ := topologicalOrder_layered hcalls hacyclic
  cases ho.symm.trans horder
  exact ⟨hcalls, hacyclic, horder, hsame calls' (fun v => hvertices.mem_iff) fun e =>
    hedges.mem_iff, hlevels⟩

end Graph
end PackageResolution
