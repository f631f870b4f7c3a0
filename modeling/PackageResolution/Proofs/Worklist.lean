import PackageResolution.Proofs.Reachability

/-!
# PackageResolution.Proofs.Worklist

Reachability in a map of edges. The worklist takes one key after the other and fails at a key that
has no entry; `reach` goes on in layers and passes over such keys. Where every child has an entry
the worklist does not fail, and both find the ends of all paths. The keys that are reached back from
all that they reach are the members of the strongly connected components that no edge leaves.

* `EdgeMap.Edge`, `EdgeMap.Closed`: the edges of a map, and that all children have entries.
* `EdgeMap.exists_collect`: the worklist comes to an end without failure. `EdgeMap.mem_collect_iff`
  says what it has seen then.
* `EdgeMap.Component`: the strongly connected components. `EdgeMap.returns_iff` says from which
  keys all paths lead back, `EdgeMap.terminal_exact` that `EdgeMap.terminal` finds these.
* `EdgeMap.reached_exact`: all of this for names, where `reach` and `terminals` find the same.
-/

namespace PackageResolution
namespace EdgeMap

variable {κ : Type} [DecidableEq κ]

/-- The children of a key; a key without an entry has none. -/
def targets (edges : EdgeMap κ) (n : κ) : List κ := (edges.get? n).getD []

def Edge (edges : EdgeMap κ) (n m : κ) : Prop := m ∈ edges.targets n

/-- Every child has an entry. -/
def Closed (edges : EdgeMap κ) : Prop := ∀ e ∈ edges.entries, ∀ m ∈ e.2, m ∈ edges

instance (edges : EdgeMap κ) : Decidable edges.Closed :=
  inferInstanceAs (Decidable (∀ e ∈ edges.entries, ∀ m ∈ e.2, m ∈ edges))

/-- The live names at the ends of paths, where all names with an entry are live. -/
abbrev reached (edges : EdgeMap String) (n : String) : List String :=
  reach edges.targets edges.keys n

variable {edges : EdgeMap κ} {stack seen found ms : List κ} {a b n m : κ}

theorem edge_iff : edges.Edge n m ↔ ∃ ms, edges.get? n = some ms ∧ m ∈ ms := by
  unfold Edge targets
  cases edges.get? n <;> simp

theorem Closed.mem_of_edge (h : edges.Closed) (he : edges.Edge n m) : m ∈ edges := by
  obtain ⟨ms, hms, hm⟩ := edge_iff.mp he
  exact h (n, ms) (OrderedMap.get?_eq_some_iff.mp hms) m hm

/-! ## The worklist -/

theorem exists_collect (hclosed : edges.Closed) (h : ∀ n ∈ stack, n ∈ edges) :
    ∃ found, edges.collect stack seen = .ok found := by
  fun_induction edges.collect stack seen with
  | case1 seen => exact ⟨seen, rfl⟩
  | case2 seen n stack hnone =>
    exact absurd (h n List.mem_cons_self) (OrderedMap.get?_eq_none_iff.mp hnone)
  | case3 seen n stack ms hms ih =>
    refine ih fun m hm => ?_
    rcases List.mem_append.mp hm with hm | hm
    · have hchild := (mem_fresh.mp (List.mem_reverse.mp hm)).1
      exact hclosed.mem_of_edge (edge_iff.mpr ⟨ms, hms, hchild⟩)
    · exact h m (List.mem_cons_of_mem n hm)

theorem collect_cons (ms : List κ) (h : edges.get? n = some ms) :
    edges.collect (n :: stack) seen =
      edges.collect ((fresh ms seen).reverse ++ stack) (seen ++ fresh ms seen) := by
  rw [collect]
  split
  · rename_i hnone
    cases hnone.symm.trans h
  · rename_i hms
    cases hms.symm.trans h
    rfl

theorem subset_collect (h : edges.collect stack seen = .ok found) : seen ⊆ found := by
  fun_induction edges.collect stack seen with
  | case1 seen =>
    cases h
    exact List.Subset.refl _
  | case2 => cases h
  | case3 _ _ _ _ _ ih => exact List.Subset.trans (List.subset_append_left _ _) (ih h)

theorem collect_sound (h : edges.collect stack seen = .ok found)
    (hstack : ∀ a ∈ stack, Relation.ReflTransGen edges.Edge n a)
    (hseen : ∀ a ∈ seen, Relation.TransGen edges.Edge n a) :
    ∀ a ∈ found, Relation.TransGen edges.Edge n a := by
  fun_induction edges.collect stack seen with
  | case1 =>
    cases h
    exact hseen
  | case2 => cases h
  | case3 seen k stack ms hms ih =>
    rw [List.forall_mem_cons] at hstack
    have hfresh : ∀ a ∈ fresh ms seen, Relation.TransGen edges.Edge n a := fun a ha =>
      Relation.TransGen.tail' hstack.1 (edge_iff.mpr ⟨ms, hms, (mem_fresh.mp ha).1⟩)
    refine ih h ?_ (List.forall_mem_append.mpr ⟨hseen, hfresh⟩)
    rw [List.forall_mem_append]
    exact ⟨fun a ha => (hfresh a (List.mem_reverse.mp ha)).to_reflTransGen, hstack.2⟩

/-- The name that is taken has all its children among those seen afterwards. -/
theorem mem_append_fresh (hms : edges.get? n = some ms) (hm : edges.Edge n m) :
    m ∈ seen ++ fresh ms seen := by
  obtain ⟨ms', hms', hm⟩ := edge_iff.mp hm
  cases hms.symm.trans hms'
  rw [List.mem_append, mem_fresh]
  by_cases hn : m ∈ seen
  · exact .inl hn
  · exact .inr ⟨hm, hn⟩

/-- Of what has been seen, only names on the stack have children that have not been seen. -/
theorem collect_closed (h : edges.collect stack seen = .ok found)
    (hseen : ∀ a ∈ seen, a ∈ stack ∨ ∀ b, edges.Edge a b → b ∈ seen) :
    ∀ a, a ∈ stack ∨ a ∈ found → ∀ b, edges.Edge a b → b ∈ found := by
  fun_induction edges.collect stack seen with
  | case1 seen =>
    cases h
    intro a ha
    have ha' : a ∈ found := ha.resolve_left List.not_mem_nil
    exact (hseen a ha').resolve_left List.not_mem_nil
  | case2 => cases h
  | case3 seen k stack ms hms ih =>
    have hclosed := ih h fun a ha => ?_
    · rintro a (ha | ha)
      · rcases List.mem_cons.mp ha with rfl | ha
        · exact fun b hb => subset_collect h (mem_append_fresh hms hb)
        · exact hclosed a (.inl (List.mem_append_right _ ha))
      · exact hclosed a (.inr ha)
    · rcases List.mem_append.mp ha with ha | ha
      · rcases hseen a ha with hstack | hdone
        · rcases List.mem_cons.mp hstack with rfl | hstack
          · exact .inr fun b hb => mem_append_fresh hms hb
          · exact .inl (List.mem_append_right _ hstack)
        · exact .inr fun b hb => List.mem_append_left _ (hdone b hb)
      · exact .inl (List.mem_append_left _ (List.mem_reverse.mpr ha))

/-- The worklist has seen the ends of all paths, and nothing else. -/
theorem mem_collect_iff (h : edges.collect [n] [] = .ok found) :
    m ∈ found ↔ Relation.TransGen edges.Edge n m := by
  constructor
  · intro hm
    refine collect_sound h ?_ (fun a ha => absurd ha List.not_mem_nil) m hm
    intro a ha
    rw [List.mem_singleton.mp ha]
  · exact mem_of_path (collect_closed h fun a ha => absurd ha List.not_mem_nil)

/-! ## Components -/

/-- A strongly connected component: the names that lead to a name and are led to from it. -/
def Component (edges : EdgeMap κ) (names : Set κ) : Prop :=
  ∃ n ∈ edges, names =
    {m | Relation.ReflTransGen edges.Edge n m ∧ Relation.ReflTransGen edges.Edge m n}

/-- No edge leaves the names. -/
def Final (edges : EdgeMap κ) (names : Set κ) : Prop :=
  ∀ a ∈ names, ∀ b, edges.Edge a b → b ∈ names

theorem Final.mem_of_path {names : Set κ} (h : edges.Final names) (ha : a ∈ names)
    (hab : Relation.TransGen edges.Edge a b) : b ∈ names := by
  induction hab with
  | single hb => exact h a ha _ hb
  | tail _ hb ih => exact h _ ih _ hb

theorem Component.path {names : Set κ} (h : edges.Component names) (ha : a ∈ names)
    (hb : b ∈ names) : Relation.ReflTransGen edges.Edge a b := by
  obtain ⟨n, _, rfl⟩ := h
  exact ha.2.trans hb.1

/-- A name is on a cycle if it has an edge to itself, or if another name is between. -/
theorem path_self_iff : Relation.TransGen edges.Edge n n ↔ edges.Edge n n ∨
    ∃ m, m ≠ n ∧ Relation.TransGen edges.Edge n m ∧ Relation.TransGen edges.Edge m n := by
  constructor
  · intro h
    obtain ⟨m, hm, hback⟩ := Relation.TransGen.head'_iff.mp h
    rcases Relation.reflTransGen_iff_eq_or_transGen.mp hback with rfl | hback
    · exact .inl hm
    · by_cases hne : m = n
      · exact .inl (hne ▸ hm)
      · exact .inr ⟨m, hne, .single hm, hback⟩
  · rintro (h | ⟨m, _, hm, hback⟩)
    · exact .single h
    · exact hm.trans hback

/-- All paths from a name lead back just where it has no children, or is in a component that has an
edge and that no edge leaves. -/
theorem returns_iff (hn : n ∈ edges) :
    (∀ m, Relation.TransGen edges.Edge n m → Relation.TransGen edges.Edge m n) ↔
      (∀ m, ¬ edges.Edge n m) ∨ ∃ names, edges.Component names ∧ n ∈ names ∧
        edges.Final names ∧ ∃ a ∈ names, ∃ b ∈ names, edges.Edge a b := by
  constructor
  · intro h
    by_cases hchild : ∃ m, edges.Edge n m
    · obtain ⟨m, hm⟩ := hchild
      refine .inr ⟨_, ⟨n, hn, rfl⟩, ⟨.refl, .refl⟩, ?_, n, ⟨.refl, .refl⟩, m, ?_, hm⟩
      · rintro a ⟨hna, _⟩ b hab
        have hnb := Relation.TransGen.tail' hna hab
        exact ⟨hnb.to_reflTransGen, (h b hnb).to_reflTransGen⟩
      · exact ⟨.single hm, (h m (.single hm)).to_reflTransGen⟩
    · exact .inl (not_exists.mp hchild)
  · rintro (hnone | ⟨names, hcomponent, hmem, hfinal, _⟩) m hm
    · obtain ⟨k, hk, _⟩ := Relation.TransGen.head'_iff.mp hm
      exact absurd hk (hnone k)
    · have hback := hcomponent.path (hfinal.mem_of_path hmem hm) hmem
      rcases Relation.reflTransGen_iff_eq_or_transGen.mp hback with rfl | hback
      · exact hm
      · exact hback

/-! ## Keys to which all leads back -/

theorem exists_collectAll (h : edges.Closed) (ns : List κ) (hns : ∀ n ∈ ns, n ∈ edges) :
    ∃ table, edges.collectAll ns = .ok table ∧
      ∀ e ∈ table, ∀ m, m ∈ e.2 ↔ Relation.TransGen edges.Edge e.1 m := by
  induction ns with
  | nil => exact ⟨[], rfl, nofun⟩
  | cons n ns ih =>
    rw [List.forall_mem_cons] at hns
    obtain ⟨found, hfound⟩ : ∃ found, edges.collect [n] [] = .ok found :=
      exists_collect h (List.forall_mem_singleton.mpr hns.1)
    obtain ⟨table, htable, hpaths⟩ := ih hns.2
    refine ⟨(n, found) :: table, by simp only [collectAll, hfound, htable], ?_⟩
    exact List.forall_mem_cons.mpr ⟨fun m => mem_collect_iff hfound, hpaths⟩

theorem exists_leadsBack {reach : EdgeMap κ} (h : ∀ m ∈ ms, m ∈ reach) :
    ∃ back, leadsBack reach n ms = .ok back ∧ (back = true ↔ ∀ m ∈ ms, reach.Edge m n) := by
  induction ms with
  | nil => exact ⟨true, rfl, by simp⟩
  | cons m ms ih =>
    rw [List.forall_mem_cons] at h
    obtain ⟨seen, hseen⟩ := OrderedMap.exists_get?_of_mem h.1
    have hback : reach.Edge m n ↔ n ∈ seen := by simp [edge_iff, hseen]
    by_cases hn : n ∈ seen
    · obtain ⟨back, hms, hiff⟩ := ih h.2
      refine ⟨back, by simp only [leadsBack, hseen, if_pos hn, hms], ?_⟩
      rw [hiff, List.forall_mem_cons, hback, and_iff_right hn]
    · refine ⟨false, by simp only [leadsBack, hseen, if_neg hn], ?_⟩
      rw [List.forall_mem_cons, hback]
      exact iff_of_false Bool.false_ne_true fun hall => hn hall.1

theorem exists_returning (reach : EdgeMap κ) {table : List (κ × List κ)}
    (h : ∀ e ∈ table, ∀ m ∈ e.2, m ∈ reach) :
    ∃ ns, returning reach table = .ok ns ∧
      ∀ n, n ∈ ns ↔ ∃ e ∈ table, e.1 = n ∧ ∀ m ∈ e.2, reach.Edge m n := by
  induction table with
  | nil => exact ⟨[], rfl, by simp⟩
  | cons e table ih =>
    rw [List.forall_mem_cons] at h
    obtain ⟨back, hback, hiff⟩ := exists_leadsBack (n := e.1) h.1
    obtain ⟨ns, hns, hmem⟩ := ih h.2
    refine ⟨if back then e.1 :: ns else ns, by simp only [returning, hback, hns], fun n => ?_⟩
    have hfirst : (n ∈ if back then e.1 :: ns else ns) ↔ (back = true ∧ e.1 = n) ∨ n ∈ ns := by
      cases back <;> simp [eq_comm]
    simp only [hfirst, hiff, hmem, List.mem_cons, exists_eq_or_imp]
    refine or_congr_left ?_
    rw [and_comm]
    exact and_congr_right fun he => by rw [he]

theorem Closed.mem_of_path (h : edges.Closed) (hm : Relation.TransGen edges.Edge n m) :
    m ∈ edges := by
  obtain ⟨k, _, hk⟩ := Relation.TransGen.tail'_iff.mp hm
  exact h.mem_of_edge hk

/-- The edges of a table of paths are the paths. -/
theorem edge_table_iff {reach : EdgeMap κ} (hkeys : reach.keys = edges.keys)
    (hpaths : ∀ e ∈ reach.entries, ∀ m, m ∈ e.2 ↔ Relation.TransGen edges.Edge e.1 m) :
    reach.Edge n m ↔ n ∈ edges ∧ Relation.TransGen edges.Edge n m := by
  have hlisted : n ∈ reach ↔ n ∈ edges := by
    rw [OrderedMap.mem_iff, hkeys, ← OrderedMap.mem_iff]
  rw [edge_iff]
  constructor
  · rintro ⟨ms, hms, hm⟩
    have hn := hlisted.mp (OrderedMap.mem_of_get?_eq_some hms)
    exact ⟨hn, (hpaths _ (OrderedMap.get?_eq_some_iff.mp hms) m).mp hm⟩
  · rintro ⟨hn, hm⟩
    obtain ⟨ms, hms⟩ := OrderedMap.exists_get?_of_mem (hlisted.mpr hn)
    exact ⟨ms, hms, (hpaths _ (OrderedMap.get?_eq_some_iff.mp hms) m).mpr hm⟩

/-- The terminal keys are those to which all paths from them lead back. -/
theorem terminal_exact (h : edges.Closed) :
    ∃ ns, edges.terminal = .ok ns ∧ ∀ n, n ∈ ns ↔ n ∈ edges ∧
      ∀ m, Relation.TransGen edges.Edge n m → Relation.TransGen edges.Edge m n := by
  obtain ⟨table, htable, hpaths⟩ := exists_collectAll h edges.keys fun _ hn => hn
  have hkeys : table.map Prod.fst = edges.keys := keys_of_collectAll htable
  have hentries : (OrderedMap.ofList table).entries = table :=
    OrderedMap.entries_ofList (hkeys ▸ edges.keys_nodup)
  have hlisted : (OrderedMap.ofList table).keys = edges.keys := by
    rw [OrderedMap.keys, hentries, hkeys]
  have hclosed : ∀ e ∈ table, ∀ m ∈ e.2, m ∈ OrderedMap.ofList table := by
    intro e he m hm
    rw [OrderedMap.mem_iff, hlisted]
    exact h.mem_of_path ((hpaths e he m).mp hm)
  obtain ⟨ns, hns, hmem⟩ := exists_returning (.ofList table) hclosed
  refine ⟨ns, by simp only [terminal, htable, hns], fun n => ?_⟩
  simp only [hmem, edge_table_iff hlisted (by rwa [hentries])]
  constructor
  · rintro ⟨e, he, rfl, hall⟩
    have hn : e.1 ∈ edges := OrderedMap.mem_iff.mpr (hkeys ▸ List.mem_map_of_mem he)
    exact ⟨hn, fun m hm => (hall m ((hpaths e he m).mpr hm)).2⟩
  · rintro ⟨hn, hall⟩
    obtain ⟨e, he, rfl⟩ := List.mem_map.mp (hkeys ▸ OrderedMap.mem_iff.mp hn)
    refine ⟨e, he, rfl, fun m hm => ?_⟩
    have hpath := (hpaths e he m).mp hm
    exact ⟨h.mem_of_path hpath, hall m hpath⟩

/-! ## Maps of names -/

section Names

variable {edges : EdgeMap String} {n m : String}

theorem Closed.needs_eq (h : edges.Closed) : Needs edges.targets edges.keys = edges.Edge := by
  funext n m
  exact propext ⟨And.left, fun he => ⟨he, h.mem_of_edge he⟩⟩

theorem Closed.mem_reached_iff (h : edges.Closed) :
    m ∈ edges.reached n ↔ Relation.TransGen edges.Edge n m := by
  rw [reached, mem_reach_iff, LeadsTo, h.needs_eq]

theorem terminal_iff : n ∈ terminals edges.targets edges.keys ↔
    n ∈ edges ∧ ∀ m ∈ edges.reached n, n ∈ edges.reached m := by
  simp only [mem_terminals_iff, Terminal, mem_reach_iff]
  rfl

end Names

/-- In a map of edges where every child has an entry, the worklist comes to an end without failure,
and it and `reach` find the ends of all paths. A name is among them itself if it is on a cycle. The
terminal names, by either, are those that are reached back from all that they reach. They have no
children or are in components with an edge that no edge leaves, and there is one unless there are no
names. -/
theorem reached_exact (edges : EdgeMap String) (h : edges.Closed) :
    (∀ n ∈ edges,
      (∃ found, edges.collect [n] [] = .ok found ∧ ∀ m, m ∈ found ↔ m ∈ edges.reached n) ∧
      (∀ m, m ∈ edges.reached n ↔ Relation.TransGen edges.Edge n m) ∧
      (n ∈ edges.reached n ↔ edges.Edge n n ∨ ∃ m, m ≠ n ∧
        Relation.TransGen edges.Edge n m ∧ Relation.TransGen edges.Edge m n) ∧
      ((∀ m ∈ edges.reached n, n ∈ edges.reached m) ↔
        (∀ m, ¬ edges.Edge n m) ∨ ∃ names, edges.Component names ∧ n ∈ names ∧
          edges.Final names ∧ ∃ a ∈ names, ∃ b ∈ names, edges.Edge a b)) ∧
    (∀ n, n ∈ terminals edges.targets edges.keys ↔
      n ∈ edges ∧ ∀ m ∈ edges.reached n, n ∈ edges.reached m) ∧
    (∃ ns, edges.terminal = .ok ns ∧
      ∀ n, n ∈ ns ↔ n ∈ edges ∧ ∀ m ∈ edges.reached n, n ∈ edges.reached m) ∧
    (edges.keys ≠ [] → ∃ n ∈ edges, ∀ m ∈ edges.reached n, n ∈ edges.reached m) := by
  refine ⟨fun n hn => ⟨?_, fun m => h.mem_reached_iff, ?_, ?_⟩, fun n => terminal_iff, ?_, ?_⟩
  · obtain ⟨found, hfound⟩ : ∃ found, edges.collect [n] [] = .ok found :=
      exists_collect h fun m hm => List.mem_singleton.mp hm ▸ hn
    exact ⟨found, hfound, fun m => (mem_collect_iff hfound).trans h.mem_reached_iff.symm⟩
  · rw [h.mem_reached_iff, path_self_iff]
  · simp only [h.mem_reached_iff]
    exact returns_iff hn
  · simp only [h.mem_reached_iff]
    exact terminal_exact h
  · intro hne
    obtain ⟨k, hk⟩ := List.exists_mem_of_ne_nil _ hne
    obtain ⟨n, hn, hterminal⟩ := exists_terminal edges.targets hk
    exact ⟨n, terminal_iff.mp (mem_terminals_iff.mpr ⟨hn, hterminal⟩)⟩

/-- A cycle of two names that leads to a name with an edge to itself, a name that needs that one as
well, and a name without edges. -/
theorem reached_exact_cycles :
    let edges : EdgeMap String :=
      .ofList [("a", ["b"]), ("b", ["a", "c"]), ("c", ["c"]), ("d", ["c"]), ("e", [])]
    edges.Closed ∧ edges.collect ["b"] [] = .ok ["a", "c", "b"] ∧
      edges.reached "b" = ["a", "c", "b"] ∧ edges.reached "d" = ["c"] ∧
      terminals edges.targets edges.keys = ["c", "e"] ∧
      (∃ ns, edges.terminal = .ok ns ∧ "c" ∈ ns) ∧
      Relation.TransGen edges.Edge "b" "b" ∧
      ((∀ m, ¬ edges.Edge "c" m) ∨ ∃ names, edges.Component names ∧ "c" ∈ names ∧
        edges.Final names ∧ ∃ a ∈ names, ∃ b ∈ names, edges.Edge a b) := by
  intro edges
  have hclosed : edges.Closed := by decide +kernel
  have hcollect : edges.collect ["b"] [] = .ok ["a", "c", "b"] := by
    calc edges.collect ["b"] []
      _ = edges.collect ["c", "a"] ["a", "c"] := collect_cons ["a", "c"] rfl
      _ = edges.collect ["a"] ["a", "c"] := collect_cons ["c"] rfl
      _ = edges.collect ["b"] ["a", "c", "b"] := collect_cons ["b"] rfl
      _ = edges.collect [] ["a", "c", "b"] := collect_cons ["a", "c"] rfl
      _ = .ok ["a", "c", "b"] := by rw [collect]
  have hb : edges.reached "b" = ["a", "c", "b"] := by decide +kernel
  have hterminals : terminals edges.targets edges.keys = ["c", "e"] := by decide +kernel
  obtain ⟨hreached, hterminal, ⟨ns, hns, hmem⟩, _⟩ := reached_exact edges hclosed
  obtain ⟨_, hpaths, _⟩ := hreached "b" (by decide +kernel)
  have hc := (hterminal "c").mp (by rw [hterminals]; decide)
  refine ⟨hclosed, hcollect, hb, by decide +kernel, hterminals, ⟨ns, hns, (hmem "c").mpr hc⟩,
    (hpaths "b").mp ?_, ?_⟩
  · rw [hb]
    decide
  · exact (hreached "c" hc.1).2.2.2.mp hc.2

end EdgeMap
end PackageResolution
