import PackageResolution.Proofs.Locked
import PackageResolution.Proofs.OpenChoices

/-!
# PackageResolution.Proofs.Replay

What the events of a search tell. Whoever keeps a stack of choices by the events alone has, at the
end, the choices of the search. The events come in rounds: in each one releases are refused and
choices taken back until a choice is made, or until the first one is taken back.

* `replay`: the stack that events tell of. `replay_advance` says what a round does to it, and
  `replay_of_reaches` that it is the stack of the search.
* `Chooses`, `GivesUp`, `numbered`: the rounds, as events.
* `events_of_reaches`: between the rounds, the events are those of the rounds so far.
* `events_faithful`: all of that for whole runs.
-/

namespace PackageResolution
namespace Search

/-! ## The stack that events tell of -/

/-- Takes the latest choice off a stack if it is one for `name`. -/
def unpin (name : String) : List (String × Package) → List (String × Package)
  | [] => []
  | e :: stack => if e.1 = name then stack else e :: stack

/-- What an event does to a stack of choices, the latest first. A choice takes the place of one for
the same name on top; a name that is given up takes its choice along, if that is on top. -/
def Event.retell (stack : List (String × Package)) : Event → List (String × Package)
  | .pinning name p => (name, p) :: unpin name stack
  | .backtracking name => unpin name stack
  | _ => stack

/-- The choices that events tell of, the latest first. -/
def replay (events : List Event) : List (String × Package) := events.foldl Event.retell []

variable {g : Catalog} {roots : OrderedMap String Constraint} {k : Nat} {frames fs : List Frame}
  {s : State} {j j' : Journal}

theorem unpin_of_not_mem {name : String} {stack : List (String × Package)}
    (h : name ∉ stack.map Prod.fst) : unpin name stack = stack := by
  cases stack with
  | nil => rfl
  | cons e stack =>
    rw [List.map_cons, List.mem_cons, not_or] at h
    rw [unpin, if_neg (Ne.symm h.1)]

theorem replay_record (j : Journal) (e : Event) :
    replay (j.record e).events = e.retell (replay j.events) := by
  simp [replay, Journal.events, Journal.record]

theorem replay_tryCandidates {name : String} {base : State} {ps : List Package}
    {o : Option (State × Package × List Package)} (h : tryCandidates name base ps j = (o, j')) :
    replay j'.events = replay j.events := by
  induction ps generalizing j with
  | nil => cases h; rfl
  | cons p ps ih =>
    rw [tryCandidates] at h
    split at h
    · cases h; rfl
    · rename_i causes _
      rw [ih h]
      exact replay_record (j.blame causes) (.rejecting p causes)

theorem replay_openFrame {name : String} {c : Constraint} {f : Frame}
    (h : openFrame g s name c j = .ok (f, j')) : replay j'.events = replay j.events := by
  rw [Journal.events, latest_openFrame h, Journal.events]

/-- The choices of a stack, the latest first. -/
theorem reverse_choices (frames : List Frame) :
    (choices frames).reverse = frames.filterMap fun f => f.pinned.map fun p => (f.name, p) := by
  rw [choices, List.filterMap_reverse, List.reverse_reverse]

theorem choices_of_unpinned {f : Frame} (h : f.pinned = none) (fs : List Frame) :
    choices (f :: fs) = choices fs := by
  simp [choices, h]

theorem fst_mem_of_mem_choices {e : String × Package} (h : e ∈ choices frames) :
    e.1 ∈ frames.map (·.name) := by
  obtain ⟨f, hf, he⟩ := List.mem_filterMap.mp h
  obtain ⟨p, _, rfl⟩ := Option.map_eq_some_iff.mp he
  exact List.mem_map_of_mem (List.mem_reverse.mp hf)

/-- To take back the topmost choice leaves those below it, whether it had been made or not. -/
theorem unpin_choices {f : Frame} (h : f.name ∉ fs.map (·.name)) :
    unpin f.name (choices (f :: fs)).reverse = (choices fs).reverse := by
  cases hp : f.pinned with
  | none =>
    rw [choices_of_unpinned hp]
    refine unpin_of_not_mem fun hmem => ?_
    obtain ⟨e, he, hname⟩ := List.mem_map.mp hmem
    exact h (hname ▸ fst_mem_of_mem_choices (List.mem_reverse.mp he))
  | some p => simp [reverse_choices, hp, unpin]

/-- A round leaves the events telling of the stack that it leaves. -/
theorem replay_advance (hd : (frames.map (·.name)).Nodup)
    (hj : replay j.events = (choices frames).reverse)
    {o : Option (State × List Frame)} (h : advance frames j = (o, j')) :
    replay j'.events = (choices ((o.map Prod.snd).getD [])).reverse := by
  induction frames generalizing j with
  | nil => cases h; exact hj
  | cons f frames ih =>
    rw [List.map_cons, List.nodup_cons] at hd
    rw [advance] at h
    split at h
    · rename_i s p rest j₁ ht
      cases h
      rw [replay_record, replay_tryCandidates ht, hj, Event.retell, unpin_choices hd.1]
      simp [reverse_choices]
    · rename_i j₁ ht
      refine ih hd.2 ?_ h
      rw [replay_record, replay_tryCandidates ht, hj, Event.retell, unpin_choices hd.1]

theorem replay_of_reaches (h : Reaches g roots k frames j) :
    replay j.events = (choices frames).reverse := by
  induction h with
  | start _ hf =>
    rw [replay_openFrame hf]
    obtain ⟨_, _, rfl⟩ := frame_of_openFrame hf
    rfl
  | @next k frames fs j j' j'' s name c f hr ha hn hf ih =>
    have hround : replay (j.record (.round k)).events = (choices frames).reverse := by
      rw [replay_record, ih]
      rfl
    obtain ⟨_, _, rfl⟩ := frame_of_openFrame hf
    rw [replay_openFrame hf, replay_advance (orderly_of_reaches hr).nodup hround ha,
      choices_of_unpinned rfl]
    rfl

/-- In the end the events tell of the choices that are open. -/
theorem replay_run (g : Catalog) (roots : OrderedMap String Constraint) (limit : Nat) :
    replay (run g roots limit).journal.events = (choices (run g roots limit).frames).reverse := by
  have hround {k : Nat} {frames : List Frame} {j : Journal} (hr : Reaches g roots k frames j) :
      replay (j.record (.round k)).events = (choices frames).reverse := by
    rw [replay_record, replay_of_reaches hr]
    rfl
  have he := ends_run g roots limit
  generalize run g roots limit = r at he
  cases he with
  | idle _ => rfl
  | solved hr _ ha _ => exact replay_advance (orderly_of_reaches hr).nodup (hround hr) ha
  | exhausted hr _ ha => exact replay_advance (orderly_of_reaches hr).nodup (hround hr) ha
  | outOfRounds hr => exact replay_of_reaches hr
  | failedAtStart _ _ => rfl
  | failed hr _ ha _ _ => exact replay_advance (orderly_of_reaches hr).nodup (hround hr) ha

/-! ## Rounds as events -/

/-- Releases are refused and choices taken back until a choice is made. -/
def Chooses (events : List Event) : Prop :=
  ∃ setbacks name p, events = setbacks ++ [.pinning name p] ∧ ∀ e ∈ setbacks, e.isSetback = true

/-- Releases are refused and choices taken back, the one for `first` in the end. -/
def GivesUp (first : String) (events : List Event) : Prop :=
  ∃ setbacks, events = setbacks ++ [.backtracking first] ∧ ∀ e ∈ setbacks, e.isSetback = true

/-- The events of rounds that are numbered from `index` on. -/
def numbered (index : Nat) : List (List Event) → List Event
  | [] => []
  | events :: rest => .round index :: (events ++ numbered (index + 1) rest)

theorem numbered_concat (index : Nat) (made : List (List Event)) (events : List Event) :
    numbered index (made ++ [events]) =
      numbered index made ++ .round (index + made.length) :: events := by
  induction made generalizing index with
  | nil => simp [numbered]
  | cons first made ih =>
    have hindex : index + 1 + made.length = index + (made.length + 1) := by omega
    simp [numbered, ih, hindex]

theorem events_record (j : Journal) (e : Event) : (j.record e).events = j.events ++ [e] := by
  simp [Journal.events, Journal.record]

theorem events_tryCandidates {name : String} {base : State} {ps : List Package}
    {o : Option (State × Package × List Package)} (h : tryCandidates name base ps j = (o, j')) :
    ∃ setbacks, j'.events = j.events ++ setbacks ∧ ∀ e ∈ setbacks, e.isSetback = true := by
  induction ps generalizing j with
  | nil => cases h; exact ⟨[], (List.append_nil _).symm, nofun⟩
  | cons p ps ih =>
    rw [tryCandidates] at h
    split at h
    · cases h; exact ⟨[], (List.append_nil _).symm, nofun⟩
    · rename_i causes _
      obtain ⟨setbacks, hevents, hall⟩ := ih h
      refine ⟨.rejecting p causes :: setbacks, ?_, List.forall_mem_cons.mpr ⟨rfl, hall⟩⟩
      have hfirst : (j.reject p causes).events = j.events ++ [.rejecting p causes] :=
        events_record (j.blame causes) _
      rw [hevents, hfirst, List.append_assoc]
      rfl

theorem chooses_of_advance (h : advance frames j = (some (s, fs), j')) :
    ∃ events, Chooses events ∧ j'.events = j.events ++ events := by
  induction frames generalizing j with
  | nil => cases h
  | cons f frames ih =>
    rw [advance] at h
    split at h
    · rename_i p rest j₁ ht
      cases h
      obtain ⟨setbacks, hevents, hall⟩ := events_tryCandidates ht
      exact ⟨_, ⟨setbacks, f.name, p, rfl, hall⟩, by
        rw [events_record, hevents, List.append_assoc]⟩
    · rename_i j₁ ht
      obtain ⟨setbacks, hevents, hall⟩ := events_tryCandidates ht
      obtain ⟨_, ⟨later, name, p, rfl, hlater⟩, hrest⟩ := ih h
      refine ⟨_, ⟨setbacks ++ .backtracking f.name :: later, name, p, rfl, ?_⟩, ?_⟩
      · rw [List.forall_mem_append, List.forall_mem_cons]
        exact ⟨hall, rfl, hlater⟩
      · rw [hrest, events_record, hevents]
        simp

theorem givesUp_of_advance {first : Frame} (h : advance frames j = (none, j'))
    (hlast : frames.getLast? = some first) :
    ∃ events, GivesUp first.name events ∧ j'.events = j.events ++ events := by
  induction frames generalizing j with
  | nil => cases hlast
  | cons f frames ih =>
    rw [advance] at h
    split at h
    · cases h
    · rename_i j₁ ht
      obtain ⟨setbacks, hevents, hall⟩ := events_tryCandidates ht
      cases frames with
      | nil =>
        cases h
        obtain rfl : f = first := Option.some.inj hlast
        exact ⟨_, ⟨setbacks, rfl, hall⟩, by rw [events_record, hevents, List.append_assoc]⟩
      | cons f' frames =>
        obtain ⟨_, ⟨later, rfl, hlater⟩, hrest⟩ := ih h hlast
        refine ⟨_, ⟨setbacks ++ .backtracking f.name :: later, rfl, ?_⟩, ?_⟩
        · rw [List.forall_mem_append, List.forall_mem_cons]
          exact ⟨hall, rfl, hlater⟩
        · rw [hrest, events_record, hevents]
          simp

/-- The events of a round follow those of the rounds before it. -/
theorem numbered_round {made : List (List Event)} {events : List Event}
    (hj : j.events = numbered 0 made) (hlen : made.length = k)
    (h : j'.events = (j.record (.round k)).events ++ events) :
    j'.events = numbered 0 (made ++ [events]) := by
  rw [h, events_record, hj, numbered_concat, hlen, Nat.zero_add, List.append_assoc]
  rfl

/-- A round that makes a choice is one more round among the events. -/
theorem events_of_advance (ha : advance frames (j.record (.round k)) = (some (s, fs), j'))
    (h : ∃ made, made.length = k ∧ (∀ events ∈ made, Chooses events) ∧
      j.events = numbered 0 made) :
    ∃ made, made.length = k + 1 ∧ (∀ events ∈ made, Chooses events) ∧
      j'.events = numbered 0 made := by
  obtain ⟨made, hlen, hall, hevents⟩ := h
  obtain ⟨events, hchooses, hround⟩ := chooses_of_advance ha
  refine ⟨made ++ [events], by simp [hlen], ?_, numbered_round hevents hlen hround⟩
  exact List.forall_mem_append.mpr ⟨hall, List.forall_mem_singleton.mpr hchooses⟩

/-- Between the rounds, the events are those of the rounds so far. -/
theorem events_of_reaches (h : Reaches g roots k frames j) :
    ∃ made, made.length = k ∧ (∀ events ∈ made, Chooses events) ∧ j.events = numbered 0 made := by
  induction h with
  | start _ hf => exact ⟨[], rfl, nofun, by rw [Journal.events, latest_openFrame hf]; rfl⟩
  | next _ ha _ hf ih =>
    rw [Journal.events, latest_openFrame hf, ← Journal.events]
    exact events_of_advance ha ih

/-- The choice at the bottom of the stack is for the name that was selected first. -/
theorem getLast?_of_reaches (h : Reaches g roots k frames j) :
    ∃ first c, frames.getLast? = some first ∧
      (State.initial roots).next? = some (first.name, c) := by
  rcases List.eq_nil_or_concat frames with rfl | ⟨above, first, rfl⟩
  · obtain ⟨_, _, _, hcons, _⟩ := branch_of_reaches h
    cases hcons
  · rw [List.concat_eq_append] at h ⊢
    obtain ⟨s, c, hb, hn, _⟩ := exists_below_of_reaches h rfl
    cases hb
    exact ⟨first, c, List.getLast?_concat, hn⟩

/-- A run makes a choice in every round, but for the last one of a search that finds nothing. -/
theorem events_run (g : Catalog) (roots : OrderedMap String Constraint) (limit : Nat) :
    ∃ made last, (run g roots limit).journal.events = numbered 0 (made ++ last) ∧
      (∀ events ∈ made, Chooses events) ∧
      ((run g roots limit).ending ≠ .exhausted ∧ last = [] ∨
        (run g roots limit).ending = .exhausted ∧ ∃ first c events, last = [events] ∧
          (State.initial roots).next? = some (first, c) ∧ GivesUp first events) := by
  have he := ends_run g roots limit
  generalize run g roots limit = r at he
  cases he with
  | idle _ => exact ⟨[], [], rfl, nofun, .inl ⟨nofun, rfl⟩⟩
  | solved hr _ ha _ =>
    obtain ⟨made, _, hall, hevents⟩ := events_of_advance ha (events_of_reaches hr)
    exact ⟨made, [], by rw [List.append_nil, hevents], hall, .inl ⟨nofun, rfl⟩⟩
  | exhausted hr _ ha =>
    obtain ⟨made, hlen, hall, hevents⟩ := events_of_reaches hr
    obtain ⟨first, c, hlast, hfirst⟩ := getLast?_of_reaches hr
    obtain ⟨events, hgives, hround⟩ := givesUp_of_advance ha hlast
    exact ⟨made, [events], numbered_round hevents hlen hround, hall,
      .inr ⟨rfl, first.name, c, events, rfl, hfirst, hgives⟩⟩
  | outOfRounds hr =>
    obtain ⟨made, _, hall, hevents⟩ := events_of_reaches hr
    exact ⟨made, [], by rw [List.append_nil, hevents], hall, .inl ⟨nofun, rfl⟩⟩
  | failedAtStart _ _ => exact ⟨[], [], rfl, nofun, .inl ⟨nofun, rfl⟩⟩
  | failed hr _ ha _ _ =>
    obtain ⟨made, _, hall, hevents⟩ := events_of_advance ha (events_of_reaches hr)
    exact ⟨made, [], by rw [List.append_nil, hevents], hall, .inl ⟨nofun, rfl⟩⟩

/-! ## Whole reports -/

theorem retell_of_isClosing {e : Event} (h : e.isClosing = true)
    (stack : List (String × Package)) : e.retell stack = stack := by
  cases e <;> first | rfl | cases h

theorem foldl_retell_closing {closing : List Event} (h : ∀ e ∈ closing, e.isClosing = true)
    (stack : List (String × Package)) : closing.foldl Event.retell stack = stack := by
  induction closing with
  | nil => rfl
  | cons e closing ih =>
    rw [List.forall_mem_cons] at h
    rw [List.foldl_cons, retell_of_isClosing h.1, ih h.2]

/-- What a report adds to the events of a run tells of no choices. -/
theorem replay_report (r : Run) (roots : OrderedMap String Constraint) (maxRounds : Int) :
    replay (r.report roots maxRounds).events = replay r.journal.events := by
  obtain ⟨closing, hevents, hclosing⟩ := events_report r roots maxRounds
  rw [hevents, replay, List.foldl_cons, List.foldl_append, foldl_retell_closing hclosing]
  rfl

theorem frames_of_exhausted {limit : Nat} (h : (run g roots limit).ending = .exhausted) :
    (run g roots limit).frames = [] := by
  have he := ends_run g roots limit
  generalize run g roots limit = r at h he
  cases he with
  | idle _ => rfl
  | solved _ _ _ _ => cases h
  | exhausted _ _ _ => rfl
  | outOfRounds _ => cases h
  | failedAtStart _ _ => cases h
  | failed _ _ _ _ _ => cases h

/-- The choices of a run, which are for different names. -/
theorem entries_packages_run (g : Catalog) (roots : OrderedMap String Constraint) (limit : Nat) :
    (run g roots limit).packages.entries = choices (run g roots limit).frames := by
  refine OrderedMap.entries_ofList ?_
  have he := ends_run g roots limit
  generalize run g roots limit = r at he
  cases he with
  | idle _ => exact List.nodup_nil
  | solved hr _ ha _ => exact (pinsAt_branch ⟨_, _, _, hr, ha⟩).nodup_choices
  | exhausted _ _ _ => exact List.nodup_nil
  | outOfRounds hr =>
    obtain ⟨f, fs, s, rfl, hb, _, hf⟩ := branch_of_reaches hr
    show ((choices (f :: fs)).map Prod.fst).Nodup
    rw [choices_of_unpinned hf]
    exact hb.nodup_choices
  | failedAtStart _ _ => exact List.nodup_nil
  | failed hr _ ha _ _ => exact (pinsAt_branch ⟨_, _, _, hr, ha⟩).nodup_choices

/-- The events of a search tell of the choices that it is left with. They are numbered rounds, each
of which ends with the one choice that it makes; only the last round of a failed search makes none
and ends by taking the first choice back. -/
theorem events_faithful (g : Catalog) (roots : OrderedMap String Constraint) (maxRounds : Int) :
    (replay (solve g roots maxRounds).events).reverse =
      ((ofCatalog g).start roots maxRounds).2.packages.entries ∧
    (∀ r, (solve g roots maxRounds).result = .ok (.resolved r) →
      (replay (solve g roots maxRounds).events).reverse = r.packages.entries) ∧
    (∀ causes, (solve g roots maxRounds).result = .ok (.unsatisfiable causes) →
      replay (solve g roots maxRounds).events = []) ∧
    ∃ made last closing, (solve g roots maxRounds).events =
        .starting roots :: (numbered 0 (made ++ last) ++ closing) ∧
      (∀ events ∈ made, Chooses events) ∧ (∀ e ∈ closing, e.isClosing = true) ∧
      ((∀ causes, (solve g roots maxRounds).result ≠ .ok (.unsatisfiable causes)) ∧ last = [] ∨
        (∃ causes, (solve g roots maxRounds).result = .ok (.unsatisfiable causes)) ∧
          ∃ first c events, last = [events] ∧ (State.initial roots).next? = some (first, c) ∧
            GivesUp first events) := by
  have hreplay : (replay (solve g roots maxRounds).events).reverse =
      (run g roots maxRounds.toNat).packages.entries := by
    rw [solve, replay_report, replay_run, List.reverse_reverse, entries_packages_run]
  refine ⟨hreplay, ?_, ?_, ?_⟩
  · intro r hr
    obtain ⟨_, _, _, hpackages⟩ := solved_of_resolved hr
    rw [hreplay, hpackages]
  · intro causes hr
    have hempty := frames_of_exhausted (unsatisfiable_report_iff.mp hr).1
    rw [solve, replay_report, replay_run, hempty]
    rfl
  · obtain ⟨closing, hevents, hclosing⟩ :=
      events_report (run g roots maxRounds.toNat) roots maxRounds
    obtain ⟨made, last, hrun, hmade, hlast⟩ := events_run g roots maxRounds.toNat
    refine ⟨made, last, closing, ?_, hmade, hclosing, ?_⟩
    · rw [solve, hevents, hrun]
    · simp only [solve, ne_eq, unsatisfiable_report_iff]
      simpa using hlast

/-- A search that finds a solution on its second branch, the same search cut off before that, and
one that finds nothing. -/
theorem detour_events :
    (∃ r, (solve Detour.catalog Detour.demands 10).result = .ok (.resolved r) ∧
      (replay (solve Detour.catalog Detour.demands 10).events).reverse = r.packages.entries ∧
      r.packages.entries = [("a", Detour.a₁), ("b", Detour.b₂)]) ∧
    ((solve Detour.catalog Detour.demands 1).result = .error (.tooDeep 1) ∧
      (replay (solve Detour.catalog Detour.demands 1).events).reverse = [("a", Detour.a₂)]) ∧
    ∃ causes, (solve Detour.catalog Detour.newerOnly 10).result = .ok (.unsatisfiable causes) ∧
      replay (solve Detour.catalog Detour.newerOnly 10).events = [] := by
  obtain ⟨_, hresolved, _⟩ := events_faithful Detour.catalog Detour.demands 10
  obtain ⟨hopen, _⟩ := events_faithful Detour.catalog Detour.demands 1
  obtain ⟨_, _, hfailed, _⟩ := events_faithful Detour.catalog Detour.newerOnly 10
  have hsolved : (solve Detour.catalog Detour.demands 10).result = .ok (.resolved _) := rfl
  have hfails : (solve Detour.catalog Detour.newerOnly 10).result = .ok (.unsatisfiable _) := rfl
  exact ⟨⟨_, hsolved, hresolved _ hsolved, rfl⟩, ⟨rfl, hopen⟩, _, hfails, hfailed _ hfails⟩

end Search
end PackageResolution
