import Mathlib.Data.List.Induction
import PackageResolution.Proofs.Accumulation
import PackageResolution.Proofs.MergeOrder
import PackageResolution.Proofs.Rounds

/-!
# PackageResolution.Proofs.Bookkeeping

The requirements that a search has noted. In every state there are just those of the roots and of
the releases that are chosen there, in the order of the choices: what a choice that was taken back
has asked for is gone. The constraint of a pending name is their common part, and a chosen version
meets all of them, also the later ones.

* `Constraint.common`: the common part of one or more ranges, from left to right.
* `State.Accounted`: what is pending and chosen accords with what is noted. `State.accounted_pin`
  says that a choice keeps it so.
* `recorded`: the requirements on a name that a branch has met with. `Branch.known_eq` says that
  these are noted.
* `Built`, `requirements_bookkept`: the states that a search builds, and all of that for them.
-/

namespace PackageResolution

/-! ## The common part of several ranges -/

namespace Constraint

/-- The common part of one or more ranges, each put to those before it. -/
def common : List Constraint → Option Constraint
  | [] => none
  | c :: cs => cs.foldl (fun m d => meet m (some d)) (some c)

theorem common_concat {cs : List Constraint} (h : cs ≠ []) (d : Constraint) :
    common (cs ++ [d]) = meet (common cs) (some d) := by
  cases cs with
  | nil => exact absurd rfl h
  | cons c cs => simp only [List.cons_append, common, List.foldl_append, List.foldl_cons,
      List.foldl_nil]

theorem contains_common {cs : List Constraint} {c : Constraint} (h : common cs = some c)
    (v : Version) : c.contains v = true ↔ ∀ d ∈ cs, d.contains v = true := by
  induction cs using List.reverseRecOn generalizing c with
  | nil => cases h
  | append_singleton cs d ih =>
    rw [List.forall_mem_append, List.forall_mem_singleton]
    by_cases hne : cs = []
    · subst hne
      cases h
      simp
    · rw [common_concat hne] at h
      cases hm : common cs with
      | none => rw [hm] at h; cases h
      | some a =>
        rw [hm] at h
        rw [contains_intersect h v, Bool.and_eq_true, ih hm]

end Constraint

namespace Search

/-! ## What a state has noted -/

namespace State

variable {s s' : State} {r : Requirement}

/-- The requirements that are noted account for all that is pending or chosen. -/
structure Accounted (s : State) : Prop where
  discovered : ∀ n, n ∈ s.information ↔ s.Mentions n
  pending : ∀ n c, s.pending.get? n = some c →
    Constraint.common ((s.known n).map (·.constraint)) = some c
  chosen : ∀ n v, s.solutions.get? n = some v → ∀ r ∈ s.known n, r.constraint.contains v = true

theorem known_of_not_mem {n : String} (h : n ∉ s.information) : s.known n = [] := by
  rw [known, OrderedMap.get?_eq_none_iff.mpr h]
  rfl

theorem mem_information_require (h : s.require r = .ok s') {n : String} :
    n ∈ s'.information ↔ n ∈ s.information ∨ n = r.name := by
  rcases require_cases h with ⟨_, _, _, rfl⟩ | ⟨_, _, _, rfl⟩ <;>
    exact OrderedMap.mem_insert.trans or_comm

/-- One more requirement narrows the common part of those that are noted. -/
theorem Accounted.common_of_narrows (h : s.Accounted) {c : Constraint} (hs : r.name ∉ s.solutions)
    (hn : s.Narrows r c) :
    Constraint.common ((s.known r.name ++ [r]).map (·.constraint)) = some c := by
  rcases hn with ⟨hp, rfl⟩ | ⟨c₀, hp, hc⟩
  · have hnew : r.name ∉ s.information := by
      rw [h.discovered]
      exact not_or.mpr ⟨OrderedMap.get?_eq_none_iff.mp hp, hs⟩
    rw [known_of_not_mem hnew]
    rfl
  · have hcommon := h.pending r.name c₀ hp
    have hne : (s.known r.name).map (·.constraint) ≠ [] := by
      intro hnil
      rw [hnil] at hcommon
      cases hcommon
    rw [List.map_append, List.map_singleton, Constraint.common_concat hne, hcommon]
    exact hc

theorem accounted_require (ha : s.Apart) (h : s.Accounted) (hr : s.require r = .ok s') :
    s'.Accounted := by
  have hdiscovered (n : String) : n ∈ s'.information ↔ s'.Mentions n := by
    rw [mem_information_require hr, mentions_require hr, h.discovered]
  have hknown := known_require hr
  refine ⟨hdiscovered, ?_, ?_⟩
  · -- for all other names neither the constraint nor what is noted changes
    intro n c hc
    by_cases hn : n = r.name
    · subst hn
      rw [hknown, if_pos rfl]
      rcases require_cases hr with ⟨v, hv, _, rfl⟩ | ⟨c', hs, hnarrow, rfl⟩
      · exact absurd (OrderedMap.mem_of_get?_eq_some hv)
          (ha _ (OrderedMap.mem_of_get?_eq_some hc))
      · rw [note_pending, await_pending, OrderedMap.get?_insert, if_pos rfl] at hc
        cases hc
        exact h.common_of_narrows hs hnarrow
    · rw [get?_pending_require hr hn] at hc
      rw [hknown, if_neg hn]
      exact h.pending n c hc
  · intro n v hv
    rw [solutions_require hr] at hv
    have hold := h.chosen n v hv
    rw [hknown]
    split
    · rename_i hn
      subst hn
      rcases require_cases hr with ⟨w, hw, hc, _⟩ | ⟨_, hs, _, _⟩
      · rw [hw] at hv
        cases hv
        exact List.forall_mem_append.mpr ⟨hold, List.forall_mem_singleton.mpr hc⟩
      · exact absurd (OrderedMap.mem_of_get?_eq_some hv) hs
    · exact hold

theorem accounted_requireAll {rs : List Requirement} (ha : s.Apart) (h : s.Accounted)
    (hr : s.requireAll rs = .ok s') : s'.Accounted := by
  induction rs generalizing s with
  | nil => cases hr; exact h
  | cons r rs ih =>
    obtain ⟨t, ht, hr⟩ := requireAll_cons_eq_ok.mp hr
    exact ih (apart_require ht ha) (accounted_require ha h ht) hr

/-- A version of the constraint that was pending meets all requirements on the name. -/
theorem accounted_choose (h : s.Accounted) {n : String} {c : Constraint} {v : Version}
    (hn : s.next? = some (n, c)) (hc : c.contains v = true) :
    ((s.withdraw n).choose n v).Accounted := by
  refine ⟨fun m => (h.discovered m).trans (mentions_choose hn).symm, ?_, ?_⟩
  · intro m d hd
    rw [choose_pending, withdraw_pending, OrderedMap.get?_erase] at hd
    split at hd
    · cases hd
    · exact h.pending m d hd
  · intro m w hw
    rw [choose_solutions, withdraw_solutions, OrderedMap.get?_insert] at hw
    split at hw
    · rename_i hm
      cases hw
      have hcommon := h.pending n c (get?_of_next? hn)
      rw [hm]
      exact fun r hr => (Constraint.contains_common hcommon v).mp hc _ (List.mem_map_of_mem hr)
    · exact h.chosen m w hw

theorem accounted_pin (ha : s.Apart) (h : s.Accounted) {n : String} {c : Constraint} {p : Package}
    (hn : s.next? = some (n, c)) (hc : c.contains p.version = true)
    (hp : (s.withdraw n).pin n p = .ok s') : s'.Accounted :=
  accounted_requireAll (apart_choose ha) (accounted_choose h hn hc) hp

theorem known_requireAll {rs : List Requirement} (h : s.requireAll rs = .ok s') (n : String) :
    s'.known n = s.known n ++ rs.filter fun r => r.name = n := by
  induction rs generalizing s with
  | nil => cases h; simp
  | cons r rs ih =>
    obtain ⟨t, ht, h⟩ := requireAll_cons_eq_ok.mp h
    rw [ih h, known_require ht]
    by_cases hn : n = r.name
    · subst hn
      simp
    · simp [hn, Ne.symm hn]

end State

/-! ## What a branch has asked for -/

theorem filter_entries {es : List (String × Constraint)} (hd : (es.map Prod.fst).Nodup) (n : String)
    (parent : Option Package) :
    (es.map fun e => (⟨e.1, e.2, parent⟩ : Requirement)).filter (fun r => r.name = n) =
      ((OrderedMap.find? n es).map (⟨n, ·, parent⟩)).toList := by
  induction es with
  | nil => rfl
  | cons e es ih =>
    rw [List.map_cons, List.nodup_cons] at hd
    rw [List.map_cons, List.filter_cons, ih hd.2, OrderedMap.find?]
    by_cases he : e.1 = n
    · rw [he] at hd
      simp [he, (OrderedMap.find?_eq_none_iff n es).mpr hd.1]
    · simp [he]

/-- A release asks for a name once, if at all. -/
theorem filter_requirements (p : Package) (n : String) :
    (p.requirements.filter fun r => r.name = n) =
      ((p.dependencies.get? n).map (⟨n, ·, some p⟩)).toList :=
  filter_entries p.dependencies.nodup n (some p)

/-- The requirements on a name that the roots and the chosen releases have, in the order of the
choices. -/
def recorded (roots : OrderedMap String Constraint) (made : List (String × Package)) (n : String) :
    List Requirement :=
  ((roots.get? n).map (⟨n, ·, none⟩)).toList ++
    made.filterMap fun e => (e.2.dependencies.get? n).map (⟨n, ·, some e.2⟩)

theorem recorded_concat (roots : OrderedMap String Constraint) (made : List (String × Package))
    (name : String) (p : Package) (n : String) :
    recorded roots (made ++ [(name, p)]) n =
      recorded roots made n ++ ((p.dependencies.get? n).map (⟨n, ·, some p⟩)).toList := by
  cases h : p.dependencies.get? n <;> simp [recorded, h]

/-- What has been noted in a state is what the roots and the releases chosen ask for, and nothing
else; the pending names are kept to it, and the chosen versions keep to it. -/
structure Bookkept (roots : OrderedMap String Constraint) (made : List (String × Package))
    (s : State) : Prop where
  discovered : ∀ n, n ∈ s.information ↔ n ∈ roots ∨ ∃ e ∈ made, n ∈ e.2.dependencies
  noted : ∀ n ∈ s.information, s.information.get? n = some (recorded roots made n)
  pending : ∀ n c, s.pending.get? n = some c → n ∈ s.information ∧
    Constraint.common ((recorded roots made n).map (·.constraint)) = some c ∧
    ∀ v, c.contains v = true ↔ ∀ r ∈ recorded roots made n, r.constraint.contains v = true
  chosen : ∀ n v, s.solutions.get? n = some v → n ∈ s.information ∧
    ∀ r ∈ recorded roots made n, r.constraint.contains v = true

/-- The states that a search builds, with the choices that led to them. -/
inductive Built (g : Catalog) (roots : OrderedMap String Constraint) :
    List Frame → State → Prop where
  | initial : Built g roots [] (State.initial roots)
  /-- After a round. -/
  | pinned {k : Nat} {fs : List Frame} {s : State} : PinsAt g roots k fs s → Built g roots fs s
  /-- Kept in an open choice, to go back to. -/
  | opened {k : Nat} {above below : List Frame} {f : Frame} {j : Journal} :
      Reaches g roots k (above ++ f :: below) j → Built g roots below f.base

variable {g : Catalog} {roots : OrderedMap String Constraint} {fs : List Frame} {s : State}

theorem known_initial (roots : OrderedMap String Constraint) (n : String) :
    (State.initial roots).known n = ((roots.get? n).map (⟨n, ·, none⟩)).toList := by
  rw [State.known, State.initial, OrderedMap.get?_mapValues]
  cases roots.get? n <;> rfl

theorem accounted_initial (roots : OrderedMap String Constraint) :
    (State.initial roots).Accounted := by
  refine ⟨fun n => ?_, fun n c hc => ?_, fun n v hv => by cases hv⟩
  · have hkeys : n ∈ (State.initial roots).information ↔ n ∈ roots := by
      rw [OrderedMap.mem_iff, State.initial, OrderedMap.keys_mapValues]
      rfl
    rw [hkeys]
    exact ⟨.inl, fun hm => hm.resolve_right nofun⟩
  · rw [known_initial, show roots.get? n = some c from hc]
    rfl

namespace Branch

theorem accounted (h : Branch g roots fs s) : s.Accounted := by
  induction h with
  | start => exact accounted_initial roots
  | pin hb hn hc _ hp ih =>
    have hcand := (Catalog.mem_of_found hc).mp (List.mem_append_right _ List.mem_cons_self)
    exact State.accounted_pin hb.apart ih hn hcand.2.1 hp

/-- A choice adds what its release asks for, after all that has been asked for before. -/
theorem known_eq (h : Branch g roots fs s) (n : String) :
    s.known n = recorded roots (choices fs) n := by
  induction h with
  | start => rw [known_initial, recorded, choices]; simp
  | @pin _ s _ name _ p _ _ _ _ _ _ hp ih =>
    have hbase : ((s.withdraw name).choose name p.version).known n = s.known n := rfl
    rw [State.known_requireAll hp n, hbase, ih, filter_requirements, choices_cons, recorded_concat]

theorem bookkept (h : Branch g roots fs s) : Bookkept roots (choices fs) s := by
  have ha := h.accounted
  have hmem {n : String} (hm : s.Mentions n) : n ∈ s.information := (ha.discovered n).mpr hm
  refine ⟨fun n => (ha.discovered n).trans h.mentions_iff, ?_, ?_, ?_⟩
  · intro n hn
    obtain ⟨rs, hrs⟩ := OrderedMap.exists_get?_of_mem hn
    rw [hrs, ← h.known_eq n, State.known, hrs]
    rfl
  · intro n c hc
    have hcommon := ha.pending n c hc
    rw [h.known_eq n] at hcommon
    refine ⟨hmem (.inl (OrderedMap.mem_of_get?_eq_some hc)), hcommon, fun v => ?_⟩
    rw [Constraint.contains_common hcommon v, List.forall_mem_map]
  · intro n v hv
    refine ⟨hmem (.inr (OrderedMap.mem_of_get?_eq_some hv)), ?_⟩
    rw [← h.known_eq n]
    exact ha.chosen n v hv

end Branch

/-- Opening a choice takes its name off the pending ones and leaves the rest as it is. -/
theorem Bookkept.withdraw {made : List (String × Package)} (h : Bookkept roots made s)
    (name : String) : Bookkept roots made (s.withdraw name) where
  discovered := h.discovered
  noted := h.noted
  pending n c hc := by
    rw [State.withdraw_pending, OrderedMap.get?_erase] at hc
    split at hc
    · cases hc
    · exact h.pending n c hc
  chosen := h.chosen

theorem Built.bookkept (h : Built g roots fs s) : Bookkept roots (choices fs) s := by
  cases h with
  | initial => exact (Branch.start (g := g)).bookkept
  | pinned hp => exact (pinsAt_branch hp).bookkept
  | opened hr =>
    obtain ⟨s, _, hb, _, hbase, _⟩ := exists_below_of_reaches hr rfl
    rw [hbase]
    exact hb.bookkept.withdraw _

/-- In every state that a search builds, and in the one it ends with, the requirements noted are
those of the roots and of the releases on the branch, no others. -/
theorem requirements_bookkept (g : Catalog) (roots : OrderedMap String Constraint) :
    (∀ fs s, Built g roots fs s → Bookkept roots (choices fs) s) ∧
    ∀ limit s, (run g roots limit).ending = .solved s →
      Bookkept roots (choices (run g roots limit).frames) s :=
  ⟨fun _ _ h => h.bookkept, fun _ _ h => (branch_of_solved h).1.bookkept⟩

/-- In the second round the newest release of `a` is given up, and with it what it asked of `b` and
`c`. -/
theorem detour_bookkept :
    ∃ fs s, Built Detour.catalog Detour.demands fs s ∧ choices fs = [("a", Detour.a₁)] ∧
      Bookkept Detour.demands (choices fs) s ∧ "c" ∉ s.information ∧
      s.information.get? "b" = some [⟨"b", .any, none⟩, ⟨"b", .any, some Detour.a₁⟩] ∧
      ∃ t, (run Detour.catalog Detour.demands 10).ending = .solved t ∧
        Bookkept Detour.demands
          (choices (run Detour.catalog Detour.demands 10).frames) t := by
  have hstart : Reaches Detour.catalog Detour.demands 0 _ _ := .start rfl rfl
  have hfirst : Reaches Detour.catalog Detour.demands 1 _ _ := .next hstart rfl rfl rfl
  have hpins : PinsAt Detour.catalog Detour.demands 1 _ _ := ⟨_, _, _, hfirst, rfl⟩
  obtain ⟨hbuilt, hsolved⟩ := requirements_bookkept Detour.catalog Detour.demands
  have hend : (run Detour.catalog Detour.demands 10).ending = .solved _ := rfl
  exact ⟨_, _, .pinned hpins, rfl, hbuilt _ _ (.pinned hpins), by decide, rfl, _, hend,
    hsolved 10 _ hend⟩

end Search
end PackageResolution
