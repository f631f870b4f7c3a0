import Mathlib.Data.Fintype.EquivFin
import Mathlib.Data.Fintype.Sets
import Mathlib.Logic.Relation
import Mathlib.Order.WellFounded
import PackageResolution.Graph.Reach

/-!
# PackageResolution.Proofs.Reachability

Which names can be reached from a name along dependencies, while only some names are live. The
dependencies are given as a function, so that nothing here hangs on how a graph is stored. A live
dependency leads from a name to a live name, and a name reaches the ends of all paths of such
dependencies. Some name is always terminal: from a name that is not, one can go on to a name that
does not lead back, and among finitely many names that comes to an end.

* `reach`: all that is reached, layer by layer. A name reaches itself only on a cycle.
* `terminals`: the names that are reached back from all that they reach.
* `Needs`, `LeadsTo`: a live dependency, and a path of one or more of them.
* `mem_reach_iff`: the search finds the ends of all paths and nothing else.
* `mem_terminals_iff`, `exists_terminal`: the names to which all leads back that they lead to, and
  that there is one.
-/

namespace PackageResolution

variable (deps : String → List String) (live : List String)

/-- The live dependencies of a list of names that have not been seen yet. -/
def unseen (frontier seen : List String) : List String :=
  ((frontier.flatMap deps).filter fun m => decide (m ∈ live ∧ m ∉ seen)).eraseDups

theorem mem_unseen {frontier seen : List String} {m : String} :
    m ∈ unseen deps live frontier seen ↔
      (∃ n ∈ frontier, m ∈ deps n) ∧ m ∈ live ∧ m ∉ seen := by
  simp [unseen]

/-- All names seen, and those that can be reached from the frontier. -/
def spread (frontier seen : List String) : List String :=
  match _h : unseen deps live frontier seen with
  | [] => seen
  | m :: ms => spread (m :: ms) (seen ++ (m :: ms))
termination_by (without live seen).length
decreasing_by
  have hm : m ∈ unseen deps live frontier seen := by rw [_h]; exact List.mem_cons_self
  obtain ⟨_, hl, hs⟩ := (mem_unseen deps live).mp hm
  exact length_without_lt hl hs List.mem_cons_self

/-- The live names at the end of some path of one or more edges from `n`. -/
def reach (n : String) : List String := spread deps live [n] []

/-- The live names that are reached back from every name that they reach. -/
def terminals : List String :=
  let table := live.map fun n => (n, reach deps live n)
  (table.filter fun e => e.2.all fun m =>
    match table.find? fun t => t.1 == m with
    | some t => t.2.contains e.1
    | none => false).map Prod.fst

/-- `a` depends on `b`, which is live. -/
def Needs (a b : String) : Prop := b ∈ deps a ∧ b ∈ live

/-- A path of one or more live dependencies leads from `a` to `b`. -/
abbrev LeadsTo (a b : String) : Prop := Relation.TransGen (Needs deps live) a b

variable {deps live} {frontier seen : List String} {a b n m : String}

theorem LeadsTo.mem_live (h : LeadsTo deps live a b) : b ∈ live := by
  cases h with
  | single h => exact h.2
  | tail _ h => exact h.2

/-! ## The search -/

theorem subset_spread (deps : String → List String) (live frontier seen : List String) :
    seen ⊆ spread deps live frontier seen := by
  fun_induction spread deps live frontier seen with
  | case1 => exact List.Subset.refl _
  | case2 _ _ _ _ _ ih => exact List.Subset.trans (List.subset_append_left _ _) ih

theorem spread_sound (hf : ∀ a ∈ frontier, Relation.ReflTransGen (Needs deps live) n a)
    (hs : ∀ a ∈ seen, LeadsTo deps live n a) :
    ∀ a ∈ spread deps live frontier seen, LeadsTo deps live n a := by
  fun_induction spread deps live frontier seen with
  | case1 => exact hs
  | case2 frontier seen m ms heq ih =>
    have hnew : ∀ b ∈ m :: ms, LeadsTo deps live n b := by
      intro b hb
      rw [← heq, mem_unseen] at hb
      obtain ⟨⟨a, ha, hab⟩, hlive, _⟩ := hb
      exact Relation.TransGen.tail' (hf a ha) ⟨hab, hlive⟩
    refine ih (fun b hb => (hnew b hb).to_reflTransGen) ?_
    rw [List.forall_mem_append]
    exact ⟨hs, hnew⟩

/-- The names whose live dependencies are all in `names`. -/
def ClosedAt (deps : String → List String) (live names : List String) (a : String) : Prop :=
  ∀ b, Needs deps live a b → b ∈ names

/-- If only the names of the frontier have live dependencies that have not been seen, then seeing
those as well closes all that there was. -/
theorem closedAt_append_unseen (h : ∀ a ∈ seen, a ∈ frontier ∨ ClosedAt deps live seen a)
    (ha : a ∈ frontier ∨ a ∈ seen) :
    ClosedAt deps live (seen ++ unseen deps live frontier seen) a := by
  have hfrontier (ha : a ∈ frontier) :
      ClosedAt deps live (seen ++ unseen deps live frontier seen) a := by
    intro b hb
    rw [List.mem_append, mem_unseen]
    by_cases hn : b ∈ seen
    · exact .inl hn
    · exact .inr ⟨⟨a, ha, hb.1⟩, hb.2, hn⟩
  rcases ha with ha | ha
  · exact hfrontier ha
  · rcases h a ha with hf | hclosed
    · exact hfrontier hf
    · exact fun b hb => List.mem_append_left _ (hclosed b hb)

theorem spread_closed (h : ∀ a ∈ seen, a ∈ frontier ∨ ClosedAt deps live seen a) :
    ∀ a, a ∈ frontier ∨ a ∈ spread deps live frontier seen →
      ClosedAt deps live (spread deps live frontier seen) a := by
  fun_induction spread deps live frontier seen with
  | case1 frontier seen heq =>
    intro a ha
    have hclosed := closedAt_append_unseen h ha
    rwa [heq, List.append_nil] at hclosed
  | case2 frontier seen m ms heq ih =>
    have hstep {a : String} (ha : a ∈ frontier ∨ a ∈ seen) :
        ClosedAt deps live (seen ++ m :: ms) a := heq ▸ closedAt_append_unseen h ha
    have hclosed := ih fun a ha =>
      (List.mem_append.mp ha).elim (fun ha => .inr (hstep (.inr ha))) .inl
    rintro a (ha | ha)
    · exact fun b hb => subset_spread deps live _ _ (hstep (.inl ha) b hb)
    · exact hclosed a (.inr ha)

/-- Names that hold all that one step leads to, from `n` or from one of them, hold the ends of all
paths from `n`. -/
theorem mem_of_path {κ : Type} {step : κ → κ → Prop} {names : List κ} {n m : κ}
    (hclosed : ∀ a, a ∈ [n] ∨ a ∈ names → ∀ b, step a b → b ∈ names)
    (h : Relation.TransGen step n m) : m ∈ names := by
  induction h with
  | single hb => exact hclosed n (.inl List.mem_cons_self) _ hb
  | tail _ hb ih => exact hclosed _ (.inr ih) _ hb

theorem mem_reach_iff : m ∈ reach deps live n ↔ LeadsTo deps live n m := by
  constructor
  · intro h
    refine spread_sound ?_ (fun a ha => absurd ha List.not_mem_nil) m h
    intro a ha
    rw [List.mem_singleton.mp ha]
  · exact mem_of_path (spread_closed fun a ha => absurd ha List.not_mem_nil)

/-! ## Terminal names -/

theorem find?_table (f : String → List String) (h : m ∈ live) :
    (live.map fun n => (n, f n)).find? (fun t => t.1 == m) = some (m, f m) := by
  induction live with
  | nil => cases h
  | cons a live ih =>
    rw [List.map_cons, List.find?_cons]
    by_cases ha : a = m
    · simp [ha]
    · simp only [beq_eq_false_iff_ne.mpr ha]
      exact ih ((List.mem_cons.mp h).resolve_left (Ne.symm ha))

/-- Every name that `n` reaches leads back to `n`. -/
def Terminal (deps : String → List String) (live : List String) (n : String) : Prop :=
  ∀ m, LeadsTo deps live n m → LeadsTo deps live m n

theorem mem_terminals_iff : n ∈ terminals deps live ↔ n ∈ live ∧ Terminal deps live n := by
  simp only [terminals, List.mem_map, List.mem_filter, List.all_eq_true]
  constructor
  · rintro ⟨_, ⟨⟨n', hn, rfl⟩, hall⟩, rfl⟩
    refine ⟨hn, fun m hm => ?_⟩
    have hback := hall m (mem_reach_iff.mpr hm)
    rw [find?_table _ hm.mem_live] at hback
    exact mem_reach_iff.mp (List.contains_iff_mem.mp hback)
  · rintro ⟨hn, hterminal⟩
    refine ⟨_, ⟨⟨n, hn, rfl⟩, fun m hm => ?_⟩, rfl⟩
    have hm' := mem_reach_iff.mp hm
    rw [find?_table _ hm'.mem_live]
    exact List.contains_iff_mem.mpr (mem_reach_iff.mpr (hterminal m hm'))

/-- Going on to names that do not lead back comes to an end. -/
theorem wellFounded_onward (deps : String → List String) (live : List String) :
    WellFounded fun b a : { n // n ∈ live } =>
      LeadsTo deps live a b ∧ ¬ LeadsTo deps live b a := by
  have : IsTrans { n // n ∈ live } fun b a =>
      LeadsTo deps live a b ∧ ¬ LeadsTo deps live b a := by
    refine ⟨fun c b a hcb hba => ⟨hba.1.trans hcb.1, ?_⟩⟩
    intro hca
    exact hcb.2 (hca.trans hba.1)
  have : Std.Irrefl fun b a : { n // n ∈ live } =>
      LeadsTo deps live a b ∧ ¬ LeadsTo deps live b a := ⟨fun _ h => h.2 h.1⟩
  exact Finite.wellFounded_of_trans_of_irrefl _

theorem exists_terminal (deps : String → List String) (h : n ∈ live) :
    ∃ m ∈ live, Terminal deps live m := by
  obtain ⟨⟨m, hm⟩, _, hmin⟩ :=
    (wellFounded_onward deps live).has_min Set.univ ⟨⟨n, h⟩, trivial⟩
  refine ⟨m, hm, ?_⟩
  intro k hk
  -- otherwise one could go on from `m` to `k`
  by_contra hback
  exact hmin ⟨k, hk.mem_live⟩ trivial ⟨hk, hback⟩

end PackageResolution
