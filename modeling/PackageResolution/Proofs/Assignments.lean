import PackageResolution.Proofs.Replay
import PackageResolution.Proofs.SearchSpace

/-!
# PackageResolution.Proofs.Assignments

The partial assignments that a search makes on its way. Each choice makes one of them, and none is
made again: the names are decided in an order that the roots and the releases chosen so far fix, so
an assignment says by which choices it has come about, and no round comes back to the stack that an
earlier one has left. A release that is listed twice is chosen twice, though.

* `assignments`: the partial assignments that events tell of.
* `tellsRounds_run`: they are what the rounds of the run leave.
* `Branch.eq_of_same_map`: an assignment fixes the choices, the stack and the state.
* `solve_bounded`: how many assignments there can be, that they are different, and that a search
  with enough rounds comes to an end.
-/

namespace PackageResolution
namespace Search

/-! ## What events tell of -/

/-- The releases chosen after each of the choices that are told of, on top of a stack of choices. -/
def assignmentsFrom (stack : List (String × Package)) :
    List Event → List (OrderedMap String Package)
  | [] => []
  | e :: events =>
    if e.isPinning then
      OrderedMap.ofList (e.retell stack).reverse :: assignmentsFrom (e.retell stack) events
    else
      assignmentsFrom (e.retell stack) events

/-- The partial assignments that events tell of, one after each choice. -/
def assignments (events : List Event) : List (OrderedMap String Package) :=
  assignmentsFrom [] events

variable {g : Catalog} {roots : OrderedMap String Constraint} {k m : Nat}
  {frames fs fs' : List Frame} {s s' : State} {j j' : Journal} {events : List Event}

theorem length_assignmentsFrom (events : List Event) :
    ∀ stack, (assignmentsFrom stack events).length = pins events := by
  induction events with
  | nil => exact fun _ => rfl
  | cons e events ih =>
    intro stack
    rw [assignmentsFrom, pins, List.countP_cons, ← pins]
    split
    · rw [List.length_cons, ih]
    · rw [ih, Nat.add_zero]

theorem assignmentsFrom_append (events later : List Event) :
    ∀ stack, assignmentsFrom stack (events ++ later) =
      assignmentsFrom stack events ++ assignmentsFrom (events.foldl Event.retell stack) later := by
  induction events with
  | nil => exact fun _ => rfl
  | cons e events ih =>
    intro stack
    rw [List.cons_append, assignmentsFrom, assignmentsFrom, List.foldl_cons]
    split
    · rw [ih, List.cons_append]
    · rw [ih]

theorem assignmentsFrom_of_not_pinning (h : ∀ e ∈ events, e.isPinning = false) :
    ∀ stack, assignmentsFrom stack events = [] := by
  intro stack
  rw [← List.length_eq_zero_iff, length_assignmentsFrom, pins, List.countP_eq_zero]
  intro e he
  rw [h e he]
  exact Bool.false_ne_true

theorem Event.isPinning_of_isSetback {e : Event} (h : e.isSetback = true) :
    e.isPinning = false := by
  cases e <;> first | rfl | cases h

theorem assignments_of_chooses (told : List Event) (h : Chooses events) :
    assignments (told ++ events) =
      assignments told ++ [OrderedMap.ofList (replay (told ++ events)).reverse] := by
  obtain ⟨setbacks, name, p, rfl, hall⟩ := h
  have hnone (stack : List (String × Package)) : assignmentsFrom stack setbacks = [] :=
    assignmentsFrom_of_not_pinning (fun e he => Event.isPinning_of_isSetback (hall e he)) stack
  simp [assignments, assignmentsFrom_append, hnone, assignmentsFrom, Event.isPinning, replay]

theorem assignments_of_givesUp {first : String} (told : List Event) (h : GivesUp first events) :
    assignments (told ++ events) = assignments told := by
  obtain ⟨setbacks, rfl, hall⟩ := h
  have hnone : ∀ e ∈ setbacks ++ [.backtracking first], e.isPinning = false :=
    List.forall_mem_append.mpr ⟨fun e he => Event.isPinning_of_isSetback (hall e he),
      List.forall_mem_singleton.mpr rfl⟩
  rw [assignments, assignmentsFrom_append, assignmentsFrom_of_not_pinning hnone, List.append_nil]
  rfl

theorem assignments_record_round (j : Journal) (k : Nat) :
    assignments (j.record (.round k)).events = assignments j.events := by
  simp [events_record, assignments, assignmentsFrom_append, assignmentsFrom, Event.isPinning]

theorem assignments_report (r : Run) (roots : OrderedMap String Constraint) (maxRounds : Int) :
    assignments (r.report roots maxRounds).events = assignments r.journal.events := by
  obtain ⟨closing, hevents, hclosing⟩ := events_report r roots maxRounds
  have hnone (stack : List (String × Package)) : assignmentsFrom stack closing = [] :=
    assignmentsFrom_of_not_pinning
      (fun e he => Event.isPinning_of_isClosing (hclosing e he)) stack
  rw [hevents]
  simp [assignments, assignmentsFrom, assignmentsFrom_append, hnone, Event.isPinning, Event.retell]

/-! ## What the rounds leave -/

/-- The events tell of `k` assignments, and these are what the first `k` rounds leave. -/
structure TellsRounds (g : Catalog) (roots : OrderedMap String Constraint) (k : Nat)
    (events : List Event) : Prop where
  length : (assignments events).length = k
  pinsAt : ∀ i A, (assignments events)[i]? = some A →
    ∃ fs s, PinsAt g roots i fs s ∧ A = OrderedMap.ofList (choices fs)

theorem tellsRounds_nil (g : Catalog) (roots : OrderedMap String Constraint) :
    TellsRounds g roots 0 [] :=
  ⟨rfl, nofun⟩

/-- A round that makes a choice makes one more assignment. -/
theorem tellsRounds_of_advance (h : TellsRounds g roots k j.events)
    (hr : Reaches g roots k frames j)
    (ha : advance frames (j.record (.round k)) = (some (s, fs), j')) :
    TellsRounds g roots (k + 1) j'.events := by
  have hround : replay (j.record (.round k)).events = (choices frames).reverse := by
    rw [replay_record, replay_of_reaches hr]
    rfl
  obtain ⟨events, hchooses, hevents⟩ := chooses_of_advance ha
  have hreplay : replay j'.events = (choices fs).reverse :=
    replay_advance (orderly_of_reaches hr).nodup hround ha
  have hassignments : assignments j'.events =
      assignments j.events ++ [OrderedMap.ofList (choices fs)] := by
    rw [hevents, assignments_of_chooses _ hchooses, ← hevents, hreplay, List.reverse_reverse,
      assignments_record_round]
  refine ⟨by rw [hassignments, List.length_append, h.length, List.length_singleton], ?_⟩
  intro i A hA
  rw [hassignments] at hA
  rcases Nat.lt_or_ge i k with hi | hi
  · rw [List.getElem?_append_left (h.length ▸ hi)] at hA
    exact h.pinsAt i A hA
  · rw [List.getElem?_append_right (h.length ▸ hi), h.length, List.getElem?_singleton] at hA
    split at hA
    · obtain rfl : i = k := by omega
      cases hA
      exact ⟨fs, s, ⟨frames, j, j', hr, ha⟩, rfl⟩
    · cases hA

theorem tellsRounds_of_reaches (h : Reaches g roots k frames j) :
    TellsRounds g roots k j.events := by
  induction h with
  | start _ hf =>
    rw [Journal.events, latest_openFrame hf]
    exact tellsRounds_nil g roots
  | next hr ha _ hf ih =>
    rw [Journal.events, latest_openFrame hf, ← Journal.events]
    exact tellsRounds_of_advance ih hr ha

/-- Throughout a run the events tell of what its rounds have left. -/
theorem tellsRounds_run (g : Catalog) (roots : OrderedMap String Constraint) (limit : Nat) :
    ∃ k ≤ limit, TellsRounds g roots k (run g roots limit).journal.events := by
  have he := ends_run g roots limit
  generalize run g roots limit = r at he
  cases he with
  | idle _ => exact ⟨0, Nat.zero_le _, tellsRounds_nil g roots⟩
  | solved hr hk ha _ => exact ⟨_, hk, tellsRounds_of_advance (tellsRounds_of_reaches hr) hr ha⟩
  | @exhausted k frames j j' hr hk ha =>
    obtain ⟨first, c, hlast, _⟩ := getLast?_of_reaches hr
    obtain ⟨events, hgives, hevents⟩ := givesUp_of_advance ha hlast
    have htold := tellsRounds_of_reaches hr
    have hsame : assignments j'.events = assignments j.events := by
      rw [hevents, assignments_of_givesUp _ hgives, assignments_record_round]
    exact ⟨k, hk.le, hsame ▸ htold.length, hsame ▸ htold.pinsAt⟩
  | outOfRounds hr => exact ⟨limit, le_rfl, tellsRounds_of_reaches hr⟩
  | failedAtStart _ _ => exact ⟨0, Nat.zero_le _, tellsRounds_nil g roots⟩
  | failed hr hk ha _ _ =>
    exact ⟨_, hk, tellsRounds_of_advance (tellsRounds_of_reaches hr) hr ha⟩

/-- A round that makes a choice leaves the stack that the run has after it, but for the next choice
that may be open on top. -/
theorem packagesAfter_of_pinsAt (h : PinsAt g roots k fs s) (hk : k < m) :
    packagesAfter g roots m (k + 1) = some (OrderedMap.ofList (choices fs)) := by
  obtain ⟨frames, j, j', hr, ha⟩ := h
  obtain ⟨n, rfl⟩ := Nat.exists_eq_add_of_le hk
  obtain ⟨before, hlen, hstacks⟩ := runStacks_of_reaches hr (n + 1)
  have hafter : (roundStacks g (n + 1) k frames j)[1]?.map choices = some (choices fs) := by
    rw [roundStacks, List.getElem?_cons_succ]
    simp only [ha]
    split
    · rfl
    · split
      · rfl
      · rename_i f j'' hf
        obtain ⟨_, _, rfl⟩ := frame_of_openFrame hf
        rw [← List.head?_eq_getElem?, head?_roundStacks]
        exact congrArg some (choices_of_unpinned rfl fs)
  rw [packagesAfter, Nat.succ_add_eq_add_succ, hstacks, List.getElem?_append_right (by omega), hlen,
    Nat.add_sub_cancel_left, ← Function.comp_def OrderedMap.ofList choices, ← Option.map_map,
    hafter]
  rfl

/-! ## What an assignment fixes -/

namespace Branch

theorem start_of_choices (h : Branch g roots fs s) (hs : choices fs = []) :
    fs = [] ∧ s = State.initial roots := by
  cases h with
  | start => exact ⟨rfl, rfl⟩
  | pin _ _ _ _ _ => exact absurd (choices_cons .. ▸ hs) (by simp)

/-- The last choice of a branch, made in the state that the choices before it lead to. -/
theorem exists_last (h : Branch g roots fs s) {before : List (String × Package)} {name : String}
    {p : Package} (hs : choices fs = before ++ [(name, p)]) :
    ∃ fs₀ s₀ c tried rest, fs = ⟨name, rest, s₀.withdraw name, some p⟩ :: fs₀ ∧
      Branch g roots fs₀ s₀ ∧ choices fs₀ = before ∧ s₀.next? = some (name, c) ∧
      g.findCandidates name c = .ok (tried ++ p :: rest) ∧
      (s₀.withdraw name).pin name p = .ok s := by
  cases h with
  | start => exact absurd hs (by simp [choices])
  | pin hb hn hc _ hp =>
    rw [choices_cons] at hs
    obtain ⟨hbefore, hlast⟩ := List.append_inj' hs rfl
    cases hlast
    exact ⟨_, _, _, _, _, rfl, hb, hbefore, hn, hc, hp⟩

/-- The choices lead to one state. -/
theorem eq_of_same_choices (h : Branch g roots fs s) (h' : Branch g roots fs' s')
    (he : choices fs = choices fs') : s = s' := by
  induction h generalizing fs' s' with
  | start => exact (h'.start_of_choices he.symm).2.symm
  | pin _ _ _ _ hp ih =>
    rw [choices_cons] at he
    obtain ⟨_, _, _, _, _, _, hb', hfs', _, _, hp'⟩ := h'.exists_last he.symm
    obtain rfl := ih hb' hfs'.symm
    rw [hp] at hp'
    exact Except.ok.inj hp'

/-- Where no release is listed twice, the choices also say which candidates are left. -/
theorem frames_eq_of_same_choices (hd : ∀ n, (g.repository.lookup n).Nodup)
    (h : Branch g roots fs s) (h' : Branch g roots fs' s') (he : choices fs = choices fs') :
    fs = fs' := by
  induction h generalizing fs' s' with
  | start => exact (h'.start_of_choices he.symm).1.symm
  | @pin fs s t name c p tried rest hb hn hc _ _ ih =>
    rw [choices_cons] at he
    obtain ⟨_, _, c', tried', rest', rfl, hb', hfs', hn', hc', _⟩ := h'.exists_last he.symm
    obtain rfl := ih hb' hfs'.symm
    obtain rfl := hb.eq_of_same_choices hb' rfl
    rw [hn] at hn'
    cases hn'
    -- `p` stands only once among the candidates, so both lists are cut at the same place
    have hnodup : (g.candidates name c).Nodup :=
      (stableSort_perm _ _).nodup_iff.mpr ((hd name).filter _)
    rw [Catalog.candidates_of_found hc] at hnodup
    have hp := (List.nodup_cons.mp (List.nodup_middle.mp hnodup)).1
    rw [List.mem_append, not_or] at hp
    have hsplit : tried ++ p :: rest = tried' ++ p :: rest' := Except.ok.inj (hc.symm.trans hc')
    obtain ⟨_, _, rfl⟩ := (List.append_cons_inj_of_notMem hp.1 hp.2).mp hsplit
    rfl

/-- The choices of a branch come first in every branch that makes them at all. -/
theorem prefix_of_subset (h : Branch g roots fs s) (h' : Branch g roots fs' s')
    (hsub : choices fs ⊆ choices fs') : choices fs <+: choices fs' := by
  induction h with
  | start => exact List.nil_prefix
  | @pin fs s t name c p tried rest hb hn hc ht hp ih =>
    have hd := (Branch.pin hb hn hc ht hp).nodup_choices
    rw [choices_cons] at hsub hd ⊢
    obtain ⟨hbefore, hlast⟩ := List.append_subset.mp hsub
    obtain ⟨later, hlater⟩ := ih hbefore
    have hmem : (name, p) ∈ choices fs' := hlast List.mem_cons_self
    cases later with
    | nil =>
      rw [List.map_append, List.nodup_append] at hd
      rw [← hlater, List.append_nil] at hmem
      exact absurd rfl (hd.2.2 name (List.mem_map_of_mem hmem) name List.mem_cons_self)
    | cons e later =>
      -- after the same choices the same name is decided
      obtain ⟨fs₀, s₀, c₀, _, _, hb₀, hfs₀, hn₀, _⟩ := h'.exists_prefix hlater.symm
      obtain rfl := hb.eq_of_same_choices hb₀ hfs₀.symm
      rw [hn] at hn₀
      cases hn₀
      have he : (e.1, e.2) ∈ choices fs' := hlater ▸ List.mem_append_right _ List.mem_cons_self
      have hpick : p = e.2 :=
        Option.some.inj ((h'.get?_choices.mpr hmem).symm.trans (h'.get?_choices.mpr he))
      exact ⟨later, by rw [← hlater, hpick, List.append_assoc]; rfl⟩

/-- A partial assignment fixes by which choices it comes about. -/
theorem eq_of_same_map (h : Branch g roots fs s) (h' : Branch g roots fs' s')
    (he : ∀ n, (OrderedMap.ofList (choices fs)).get? n = (OrderedMap.ofList (choices fs')).get? n) :
    choices fs = choices fs' := by
  have hmem (e : String × Package) : e ∈ choices fs ↔ e ∈ choices fs' := by
    rw [← h.get?_choices, ← h'.get?_choices, he]
  have hprefix := h.prefix_of_subset h' fun e => (hmem e).mp
  have hprefix' := h'.prefix_of_subset h fun e => (hmem e).mpr
  exact hprefix.eq_of_length_le hprefix'.length_le

end Branch

/-! ## Nothing is repeated -/

/-- From one round to the next there is less left to explore, until the stack is used up. -/
theorem nodup_roundStacks (n : Nat) : ∀ {k : Nat} {frames : List Frame} {j : Journal},
    Reaches g roots k frames j → (roundStacks g n k frames j).Nodup ∧
      ∀ fs ∈ roundStacks g n k frames j, fs = [] ∨ unexplored g fs ≤ unexplored g frames := by
  induction n with
  | zero =>
    intro k frames j _
    exact ⟨List.nodup_singleton _, List.forall_mem_singleton.mpr (.inr le_rfl)⟩
  | succ n ih =>
    intro k frames j hr
    suffices hlater : ∃ later, roundStacks g (n + 1) k frames j = frames :: later ∧ later.Nodup ∧
        ∀ fs ∈ later, fs = [] ∨ unexplored g fs < unexplored g frames by
      obtain ⟨later, hstacks, hd, hless⟩ := hlater
      have hne : frames ≠ [] := by
        obtain ⟨_, _, _, rfl, _⟩ := branch_of_reaches hr
        exact List.cons_ne_nil _ _
      rw [hstacks]
      refine ⟨List.nodup_cons.mpr ⟨fun hmem => ?_, hd⟩, ?_⟩
      · exact (hless frames hmem).elim hne (Nat.lt_irrefl _)
      · refine List.forall_mem_cons.mpr ⟨.inr le_rfl, fun fs hfs => ?_⟩
        exact (hless fs hfs).imp_right le_of_lt
    rw [roundStacks]
    refine ⟨_, rfl, ?_⟩
    split
    · exact ⟨List.nodup_singleton _, List.forall_mem_singleton.mpr (.inl rfl)⟩
    · rename_i s frames' j' ha
      have hpaid := unexplored_advance (g := g) ha
      have hpos := beyond_pos g s.solutions.keys
      have hlast : unexplored g frames' < unexplored g frames := by omega
      split
      · exact ⟨List.nodup_singleton _, List.forall_mem_singleton.mpr (.inr hlast)⟩
      · rename_i name c hn
        split
        · exact ⟨List.nodup_singleton _, List.forall_mem_singleton.mpr (.inr hlast)⟩
        · rename_i f j'' hf
          have hopen := unexplored_next hr ha hn hf
          obtain ⟨hd, hle⟩ := ih (.next hr ha hn hf)
          exact ⟨hd, fun fs hfs => (hle fs hfs).imp_right fun h => by omega⟩

theorem nodup_runStacks (g : Catalog) (roots : OrderedMap String Constraint) (limit : Nat) :
    (runStacks g roots limit).Nodup := by
  rw [runStacks]
  split
  · exact List.nodup_singleton _
  · rename_i name c hn
    split
    · exact List.nodup_singleton _
    · rename_i f j hf
      exact (nodup_roundStacks limit (.start hn hf)).1

theorem pairwise_of_tellsRounds (hd : ∀ n, (g.repository.lookup n).Nodup)
    (h : TellsRounds g roots k events) :
    (assignments events).Pairwise fun A B => ∃ n, A.get? n ≠ B.get? n := by
  rw [List.pairwise_iff_getElem]
  intro i l hi hl hlt
  obtain ⟨fs, s, hp, hA⟩ := h.pinsAt i _ (List.getElem?_eq_getElem hi)
  obtain ⟨fs', s', hp', hB⟩ := h.pinsAt l _ (List.getElem?_eq_getElem hl)
  rw [hA, hB]
  by_contra hsame
  push Not at hsame
  have hb := pinsAt_branch hp
  have hb' := pinsAt_branch hp'
  have hchoices := hb.eq_of_same_map hb' hsame
  obtain rfl := hb.frames_eq_of_same_choices hd hb' hchoices
  obtain rfl := hb.eq_of_same_choices hb' rfl
  exact ne_of_pinsAt hp hp' hlt rfl

end Search

open Search

/-- A search makes fewer choices than there are partial assignments. Each choice leaves the run with
another partial assignment, unless a release is listed twice, and in any case with another stack.
So a search comes to an end by itself: with as many rounds as there are partial assignments it has
an answer, or it has failed on a release whose version cannot be written. -/
theorem solve_bounded (g : Catalog) (roots : OrderedMap String Constraint) :
    (∀ maxRounds, pins (solve g roots maxRounds).events < g.repository.partialAssignments) ∧
    (∀ maxRounds, (assignments (solve g roots maxRounds).events).length =
        pins (solve g roots maxRounds).events ∧
      (∀ k A, (assignments (solve g roots maxRounds).events)[k]? = some A →
        packagesAfter g roots maxRounds.toNat (k + 1) = some A) ∧
      (runStacks g roots maxRounds.toNat).Nodup ∧
      ((∀ n, (g.repository.lookup n).Nodup) →
        (assignments (solve g roots maxRounds).events).Pairwise
          fun A B => ∃ n, A.get? n ≠ B.get? n)) ∧
    ∀ maxRounds : Int, g.repository.partialAssignments ≤ maxRounds →
      (∃ r, (solve g roots maxRounds).result = .ok (.resolved r)) ∨
        (∃ causes, (solve g roots maxRounds).result = .ok (.unsatisfiable causes)) ∨
        ∃ e, (solve g roots maxRounds).result = .error (.text e) ∧ g.HoldsUnprintable e := by
  refine ⟨fun maxRounds => ?_, fun maxRounds => ?_, fun maxRounds hmax => ?_⟩
  · rw [solve, pins_report]
    exact pins_run_lt g roots maxRounds.toNat
  · obtain ⟨k, hk, htells⟩ := tellsRounds_run g roots maxRounds.toNat
    refine ⟨length_assignmentsFrom _ [], fun i A hA => ?_, nodup_runStacks _ _ _, fun hd => ?_⟩
    · rw [solve, assignments_report] at hA
      have hi : i < k := htells.length ▸ (List.getElem?_eq_some_iff.mp hA).1
      obtain ⟨fs, s, hp, rfl⟩ := htells.pinsAt i A hA
      exact packagesAfter_of_pinsAt hp (hi.trans_le hk)
    · rw [solve, assignments_report]
      exact pairwise_of_tellsRounds hd htells
  · rcases solve_cases g roots maxRounds with hr | hu | hdeep | ⟨e, name, c, he, hf⟩
    · exact .inl hr
    · exact .inr (.inl hu)
    · have hlt := lt_of_outOfRounds (result_report_iff.mp hdeep)
      omega
    · exact .inr (.inr ⟨e, he, Catalog.holdsUnprintable_of_error hf⟩)

theorem detour_bounded :
    Detour.catalog.repository.partialAssignments = 18 ∧
      pins (solve Detour.catalog Detour.demands 18).events < 18 ∧
      (assignments (solve Detour.catalog Detour.demands 18).events).map OrderedMap.entries =
        [[("a", Detour.a₂)], [("a", Detour.a₁)], [("a", Detour.a₁), ("b", Detour.b₂)]] ∧
      (∀ n, (Detour.catalog.repository.lookup n).Nodup) ∧
      (assignments (solve Detour.catalog Detour.demands 18).events).Pairwise
        (fun A B => ∃ n, A.get? n ≠ B.get? n) ∧
      ((∃ r, (solve Detour.catalog Detour.demands 18).result = .ok (.resolved r)) ∨
        (∃ causes, (solve Detour.catalog Detour.demands 18).result = .ok (.unsatisfiable causes)) ∨
        ∃ e, (solve Detour.catalog Detour.demands 18).result = .error (.text e) ∧
          Detour.catalog.HoldsUnprintable e) := by
  have hcount : Detour.catalog.repository.partialAssignments = 18 := rfl
  have hnodup : ∀ n, (Detour.catalog.repository.lookup n).Nodup :=
    Repository.forall_lookup (P := fun _ ps => ps.Nodup) (fun _ => List.nodup_nil) (by decide)
  obtain ⟨hpins, hmade, hends⟩ := solve_bounded Detour.catalog Detour.demands
  obtain ⟨_, _, _, hnever⟩ := hmade 18
  refine ⟨hcount, hpins 18, rfl, hnodup, hnever hnodup, hends 18 ?_⟩
  rw [hcount]
  decide

namespace Search.Twins

/-- A release that asks for an unknown name. -/
def twin : Package := ⟨"a", ⟨1, 0, 0, [], []⟩, .ofList [("b", .any)], none⟩

/-- The release is listed twice. -/
def catalog : Catalog := ⟨.ofPackages [twin, twin], none⟩

def demands : OrderedMap String Constraint := .ofList [("a", .any)]

end Search.Twins

/-- A release that is listed twice makes for the same partial assignment twice, and a search that
fails has no answer, however many rounds there may be. -/
theorem assignment_made_twice :
    (∃ A, (assignments (solve Twins.catalog Twins.demands 10).events)[0]? = some A ∧
      (assignments (solve Twins.catalog Twins.demands 10).events)[1]? = some A ∧
      A.entries = [("a", Twins.twin)]) ∧
    Catalog.oversized.repository.partialAssignments = 2 ∧
      (solve .oversized (.ofList [("a", .any)]) 2).result = .error (.text .tooLong) :=
  ⟨⟨_, rfl, rfl, rfl⟩, rfl, solve_oversized 2⟩

end PackageResolution
