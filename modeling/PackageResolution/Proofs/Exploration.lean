import PackageResolution.Proofs.RoundLimit

/-!
# PackageResolution.Proofs.Exploration

What a search finds, and the number of choices that it makes for it. The candidates of a name are
explored one after the other, each with all that follows from it, until one of them leads to a state
in which nothing is pending. Where the rounds of a search stand in all this does not matter; that
makes two searches comparable that go back at different points.

* `Explores`: what comes of some candidates, after how many choices. `Explores.deterministic` says
  that both are fixed.
* `ExploresStack`: the same for the choices that are left in a stack of frames.
* `explores_of_reaches`: the rounds made so far and the choices that are left to make add up to the
  choices of the whole exploration.
* `explores_of_ending`, `ending_of_explores`: a search finds what the exploration of its first
  choice finds, within exactly the limits that allow for so many choices.
-/

namespace PackageResolution
namespace Search

/-- What comes of choosing a release for a name. -/
inductive Attempt where
  /-- The release may not be chosen. -/
  | refused
  /-- After that choice nothing is pending. -/
  | finished (s : State)
  /-- The candidates for the next name cannot be put in order. -/
  | blocked (e : Text.PrintError)
  /-- The next name is to be decided, from these candidates. -/
  | opened (name : String) (base : State) (candidates : List Package)

def attempt (g : Catalog) (name : String) (base : State) (p : Package) : Attempt :=
  match base.pin name p with
  | .error _ => .refused
  | .ok s =>
    match s.next? with
    | none => .finished s
    | some (name', c) =>
      match g.findCandidates name' c with
      | .error e => .blocked e
      | .ok ps => .opened name' (s.withdraw name') ps

/-- What is found below a choice: its release, the later choices and the state behind them. -/
structure Finding where
  pick : Package
  later : List (String × Package)
  final : State

/-- The choices of a finding for `name`. -/
def Finding.branch (name : String) (x : Finding) : List (String × Package) :=
  (name, x.pick) :: x.later

/-- Exploring the candidates of `name`, from the best one on, takes `n` choices. It comes to a
finding or, if every candidate fails, to none, unless it fails itself at a name whose candidates
cannot be put in order. -/
inductive Explores (g : Catalog) :
    String → State → List Package → Except Text.PrintError (Option Finding) → Nat → Prop where
  | nil {name : String} {base : State} : Explores g name base [] (.ok none) 0
  | refused {name : String} {base : State} {p : Package} {ps : List Package}
      {o : Except Text.PrintError (Option Finding)} {n : Nat} :
      attempt g name base p = .refused → Explores g name base ps o n →
      Explores g name base (p :: ps) o n
  | failed {name name' : String} {base base' : State} {p : Package} {ps ps' : List Package}
      {o : Except Text.PrintError (Option Finding)} {m n : Nat} :
      attempt g name base p = .opened name' base' ps' →
      Explores g name' base' ps' (.ok none) m → Explores g name base ps o n →
      Explores g name base (p :: ps) o (1 + m + n)
  | finished {name : String} {base s : State} {p : Package} {ps : List Package} :
      attempt g name base p = .finished s →
      Explores g name base (p :: ps) (.ok (some ⟨p, [], s⟩)) 1
  | found {name name' : String} {base base' : State} {p : Package} {ps ps' : List Package}
      {x : Finding} {m : Nat} : attempt g name base p = .opened name' base' ps' →
      Explores g name' base' ps' (.ok (some x)) m →
      Explores g name base (p :: ps) (.ok (some ⟨p, x.branch name', x.final⟩)) (1 + m)
  | blocked {name : String} {base : State} {p : Package} {ps : List Package}
      {e : Text.PrintError} : attempt g name base p = .blocked e →
      Explores g name base (p :: ps) (.error e) 1
  | stuck {name name' : String} {base base' : State} {p : Package} {ps ps' : List Package}
      {e : Text.PrintError} {m : Nat} : attempt g name base p = .opened name' base' ps' →
      Explores g name' base' ps' (.error e) m → Explores g name base (p :: ps) (.error e) (1 + m)

/-- Exploring what is left in the frames, the topmost one first, takes `n` choices. It comes to the
choices of a branch with the state behind them, or to nothing, or it fails. -/
inductive ExploresStack (g : Catalog) : List Frame →
    Except Text.PrintError (Option (List (String × Package) × State)) → Nat → Prop where
  | nil : ExploresStack g [] (.ok none) 0
  | found {f : Frame} {fs : List Frame} {x : Finding} {n : Nat} :
      Explores g f.name f.base f.candidates (.ok (some x)) n →
      ExploresStack g (f :: fs) (.ok (some (choices fs ++ x.branch f.name, x.final))) n
  | failed {f : Frame} {fs : List Frame}
      {o : Except Text.PrintError (Option (List (String × Package) × State))} {m n : Nat} :
      Explores g f.name f.base f.candidates (.ok none) m → ExploresStack g fs o n →
      ExploresStack g (f :: fs) o (m + n)
  | stuck {f : Frame} {fs : List Frame} {e : Text.PrintError} {n : Nat} :
      Explores g f.name f.base f.candidates (.error e) n → ExploresStack g (f :: fs) (.error e) n

variable {g : Catalog} {roots : OrderedMap String Constraint} {name : String} {base s : State}
  {c : Constraint} {p : Package} {ps : List Package} {k m n : Nat}

theorem attempt_eq_refused_iff :
    attempt g name base p = .refused ↔ ∃ causes, base.pin name p = .error causes := by
  rw [attempt]
  split
  · rename_i hp; simp [hp]
  · rename_i hp
    split
    · simp [hp]
    · split <;> simp [hp]

theorem attempt_eq_finished_iff :
    attempt g name base p = .finished s ↔ base.pin name p = .ok s ∧ s.next? = none := by
  rw [attempt]
  split
  · rename_i hp; simp [hp]
  · rename_i hp
    split
    · grind
    · split <;> grind

theorem attempt_eq_opened_iff {name' : String} {base' : State} :
    attempt g name base p = .opened name' base' ps ↔
      ∃ s c, base.pin name p = .ok s ∧ s.next? = some (name', c) ∧
        g.findCandidates name' c = .ok ps ∧ s.withdraw name' = base' := by
  rw [attempt]
  split
  · rename_i hp; simp [hp]
  · rename_i hp
    split
    · grind
    · split <;> grind

theorem attempt_of_blocked {name' : String} {e : Text.PrintError} (hp : base.pin name p = .ok s)
    (hn : s.next? = some (name', c)) (hf : g.findCandidates name' c = .error e) :
    attempt g name base p = .blocked e := by
  simp only [attempt, hp, hn, hf]

namespace Explores

variable {o : Except Text.PrintError (Option Finding)} {x : Finding}

/-- The catalog and the state before the choice fix what is found, and the number of choices. -/
theorem deterministic {o' : Except Text.PrintError (Option Finding)} {n' : Nat}
    (h : Explores g name base ps o n) (h' : Explores g name base ps o' n') : o = o' ∧ n = n' := by
  -- both explorations attempt the same release; below it the induction hypothesis compares them
  induction h generalizing o' n' with
  | nil => cases h'; exact ⟨rfl, rfl⟩
  | refused hp _ ih =>
    cases h' with
    | refused _ h' => exact ih h'
    | failed hp' | finished hp' | found hp' | blocked hp' | stuck hp' => rw [hp] at hp'; cases hp'
  | failed hp _ _ ihbelow ih =>
    cases h' with
    | refused hp' | finished hp' | blocked hp' => rw [hp] at hp'; cases hp'
    | failed hp' hbelow h' =>
      rw [hp] at hp'; cases hp'
      obtain ⟨_, rfl⟩ := ihbelow hbelow
      obtain ⟨rfl, rfl⟩ := ih h'
      exact ⟨rfl, rfl⟩
    | found hp' hbelow | stuck hp' hbelow =>
      rw [hp] at hp'; cases hp'
      cases (ihbelow hbelow).1
  | finished hp =>
    cases h' with
    | finished hp' => rw [hp] at hp'; cases hp'; exact ⟨rfl, rfl⟩
    | refused hp' | failed hp' | found hp' | blocked hp' | stuck hp' => rw [hp] at hp'; cases hp'
  | found hp _ ih =>
    cases h' with
    | refused hp' | finished hp' | blocked hp' => rw [hp] at hp'; cases hp'
    | failed hp' hbelow | stuck hp' hbelow =>
      rw [hp] at hp'; cases hp'
      cases (ih hbelow).1
    | found hp' hbelow =>
      rw [hp] at hp'; cases hp'
      obtain ⟨ho, rfl⟩ := ih hbelow
      cases ho
      exact ⟨rfl, rfl⟩
  | blocked hp =>
    cases h' with
    | blocked hp' => rw [hp] at hp'; cases hp'; exact ⟨rfl, rfl⟩
    | refused hp' | failed hp' | finished hp' | found hp' | stuck hp' => rw [hp] at hp'; cases hp'
  | stuck hp _ ih =>
    cases h' with
    | refused hp' | finished hp' | blocked hp' => rw [hp] at hp'; cases hp'
    | failed hp' hbelow | found hp' hbelow =>
      rw [hp] at hp'; cases hp'
      cases (ih hbelow).1
    | stuck hp' hbelow =>
      rw [hp] at hp'; cases hp'
      obtain ⟨ho, rfl⟩ := ih hbelow
      cases ho
      exact ⟨rfl, rfl⟩

/-- What is picked is one of the candidates, and leads to the finding. -/
theorem picked (h : Explores g name base ps (.ok (some x)) n) :
    x.pick ∈ ps ∧ ((∃ s, attempt g name base x.pick = .finished s) ∨
      ∃ name' base' ps' y m, attempt g name base x.pick = .opened name' base' ps' ∧
        Explores g name' base' ps' (.ok (some y)) m) := by
  generalize ho : Except.ok (some x) = o at h
  induction h with
  | nil => cases ho
  | refused _ _ ih => exact (ih ho).imp_left (List.mem_cons_of_mem _)
  | failed _ _ _ _ ih => exact (ih ho).imp_left (List.mem_cons_of_mem _)
  | finished hp => cases ho; exact ⟨List.mem_cons_self, .inl ⟨_, hp⟩⟩
  | found hp h _ => cases ho; exact ⟨List.mem_cons_self, .inr ⟨_, _, _, _, _, hp, h⟩⟩
  | blocked _ => cases ho
  | stuck _ _ _ => cases ho

theorem ne_pick_of_refused (h : Explores g name base ps (.ok (some x)) n)
    (hp : attempt g name base p = .refused) : p ≠ x.pick := by
  rintro rfl
  obtain ⟨_, ⟨s, hs⟩ | ⟨_, _, _, _, _, hs, _⟩⟩ := h.picked <;> rw [hp] at hs <;> cases hs

theorem ne_pick_of_failed {name' : String} {base' : State} {ps' : List Package}
    (h : Explores g name base ps (.ok (some x)) n)
    (hp : attempt g name base p = .opened name' base' ps')
    (hbelow : Explores g name' base' ps' (.ok none) m) : p ≠ x.pick := by
  rintro rfl
  obtain ⟨_, ⟨s, hs⟩ | ⟨_, _, _, y, _, hs, hy⟩⟩ := h.picked
  · rw [hp] at hs; cases hs
  · rw [hp] at hs
    cases hs
    cases (hbelow.deterministic hy).1

theorem append_refused {refused : List Package}
    (hr : ∀ q ∈ refused, ∃ causes, base.pin name q = .error causes)
    (h : Explores g name base ps o n) : Explores g name base (refused ++ ps) o n := by
  induction refused with
  | nil => exact h
  | cons q qs ih =>
    rw [List.forall_mem_cons] at hr
    obtain ⟨causes, hq⟩ := hr.1
    exact .refused (attempt_eq_refused_iff.mpr ⟨causes, hq⟩) (ih hr.2)

theorem of_refused (hr : ∀ q ∈ ps, ∃ causes, base.pin name q = .error causes) :
    Explores g name base ps (.ok none) 0 :=
  List.append_nil ps ▸ append_refused hr .nil

end Explores

/-! ## What a round does to the stack -/

section Round

variable {frames fs : List Frame} {j j' : Journal}
  {o : Except Text.PrintError (Option (List (String × Package) × State))}

/-- A round drops the frames that have no choice left, and makes the next choice in the frame below
them. -/
theorem split_of_advance (h : advance frames j = (some (s, fs), j')) :
    ∃ dropped f below refused p rest, frames = dropped ++ f :: below ∧
      (∀ d ∈ dropped, ∀ q ∈ d.candidates, ∃ causes, d.base.pin d.name q = .error causes) ∧
      f.candidates = refused ++ p :: rest ∧
      (∀ q ∈ refused, ∃ causes, f.base.pin f.name q = .error causes) ∧
      f.base.pin f.name p = .ok s ∧ fs = ⟨f.name, rest, f.base, some p⟩ :: below := by
  induction frames generalizing j with
  | nil => cases h
  | cons f frames ih =>
    rw [advance] at h
    split at h
    · rename_i s' p rest j₁ ht
      cases h
      obtain ⟨refused, hps, hr, hp⟩ := split_of_tryCandidates ht
      exact ⟨[], f, frames, refused, p, rest, rfl, List.forall_mem_nil _, hps, hr, hp, rfl⟩
    · rename_i ht
      obtain ⟨dropped, f', below, refused, p, rest, rfl, hd, hchoice⟩ := ih h
      have hd' := List.forall_mem_cons.mpr ⟨error_of_tryCandidates ht, hd⟩
      exact ⟨f :: dropped, f', below, refused, p, rest, rfl, hd', hchoice⟩

/-- Frames that have no choice left are explored without a choice. -/
theorem ExploresStack.of_dropped {dropped : List Frame}
    (hd : ∀ d ∈ dropped, ∀ q ∈ d.candidates, ∃ causes, d.base.pin d.name q = .error causes)
    (h : ExploresStack g frames o n) : ExploresStack g (dropped ++ frames) o n := by
  induction dropped with
  | nil => exact h
  | cons f dropped ih =>
    rw [List.forall_mem_cons] at hd
    simpa using ExploresStack.failed (.of_refused hd.1) (ih hd.2)

theorem exploresStack_of_advance_eq_none (h : advance frames j = (none, j')) :
    ExploresStack g frames (.ok none) 0 := by
  induction frames generalizing j with
  | nil => exact .nil
  | cons f frames ih =>
    rw [advance] at h
    split at h
    · cases h
    · rename_i ht
      exact .failed (.of_refused (error_of_tryCandidates ht)) (ih h)

theorem exploresStack_of_finished (h : advance frames j = (some (s, fs), j'))
    (hn : s.next? = none) : ExploresStack g frames (.ok (some (choices fs, s))) 1 := by
  obtain ⟨dropped, f, below, refused, p, rest, rfl, hd, hps, hr, hp, rfl⟩ := split_of_advance h
  have hx : Explores g f.name f.base (p :: rest) (.ok (some ⟨p, [], s⟩)) 1 :=
    .finished (attempt_eq_finished_iff.mpr ⟨hp, hn⟩)
  rw [choices_cons]
  exact .of_dropped hd (.found (x := ⟨p, [], s⟩) (hps ▸ hx.append_refused hr))

theorem exploresStack_of_blocked {e : Text.PrintError} (h : advance frames j = (some (s, fs), j'))
    (hn : s.next? = some (name, c)) (hf : g.findCandidates name c = .error e) :
    ExploresStack g frames (.error e) 1 := by
  obtain ⟨dropped, f, below, refused, p, rest, rfl, hd, hps, hr, hp, rfl⟩ := split_of_advance h
  have hx : Explores g f.name f.base (p :: rest) (.error e) 1 :=
    .blocked (attempt_of_blocked hp hn hf)
  exact .of_dropped hd (.stuck (hps ▸ hx.append_refused hr))

theorem exploresStack_of_advance (h : advance frames j = (some (s, fs), j'))
    (hn : s.next? = some (name, c)) (hf : g.findCandidates name c = .ok ps)
    (hs : ExploresStack g (⟨name, ps, s.withdraw name, none⟩ :: fs) o n) :
    ExploresStack g frames o (1 + n) := by
  obtain ⟨dropped, f, below, refused, p, rest, rfl, hd, hps, hr, hp, rfl⟩ := split_of_advance h
  have ha := attempt_eq_opened_iff.mpr ⟨_, _, hp, hn, hf, rfl⟩
  refine .of_dropped hd ?_
  -- the tree below `p` was explored first: with a finding or a failure it is over, else `rest`
  -- comes next
  cases hs with
  | @found _ _ x _ hx =>
    rw [choices_cons, List.append_assoc]
    exact .found (x := ⟨p, x.branch name, x.final⟩)
      (hps ▸ (Explores.found ha hx).append_refused hr)
  | stuck hx => exact .stuck (hps ▸ (Explores.stuck ha hx).append_refused hr)
  | failed hbelow hs =>
    cases hs with
    | found hx =>
      rw [← Nat.add_assoc]
      exact .found (hps ▸ (Explores.failed ha hbelow hx).append_refused hr)
    | stuck hx =>
      rw [← Nat.add_assoc]
      exact .stuck (hps ▸ (Explores.failed ha hbelow hx).append_refused hr)
    | failed hrest hs =>
      rw [← Nat.add_assoc, ← Nat.add_assoc]
      exact .failed (hps ▸ (Explores.failed ha hbelow hrest).append_refused hr) hs

/-- What a stack comes to if its only frame, for `name`, comes to `o`. -/
def leadsTo (name : String) (o : Except Text.PrintError (Option Finding)) :
    Except Text.PrintError (Option (List (String × Package) × State)) :=
  o.map (Option.map fun x => (x.branch name, x.final))

theorem exploresStack_singleton {f : Frame} (h : ExploresStack g [f] o n) :
    ∃ x, Explores g f.name f.base f.candidates x n ∧ o = leadsTo f.name x := by
  cases h with
  | found hx => exact ⟨_, hx, rfl⟩
  | failed hx h => cases h; exact ⟨.ok none, hx, rfl⟩
  | stuck hx => exact ⟨_, hx, rfl⟩

/-- A search that makes a round has found the candidates for its first name. -/
theorem exists_found_of_reaches (hn : (State.initial roots).next? = some (name, c))
    (h : Reaches g roots k frames j) : ∃ ps, g.findCandidates name c = .ok ps := by
  induction h with
  | start hn' hf =>
    rw [hn] at hn'
    cases hn'
    obtain ⟨ps, hps, _⟩ := frame_of_openFrame hf
    exact ⟨ps, hps⟩
  | next _ _ _ _ ih => exact ih

/-- The rounds so far are the choices that the exploration from the roots has made until here. -/
theorem explores_of_reaches (hn : (State.initial roots).next? = some (name, c))
    (hf : g.findCandidates name c = .ok ps) (h : Reaches g roots k frames j)
    (hs : ExploresStack g frames o n) :
    ∃ x, Explores g name ((State.initial roots).withdraw name) ps x (k + n) ∧
      o = leadsTo name x := by
  induction h generalizing n with
  | start hn' hf' =>
    rw [hn] at hn'
    cases hn'
    obtain ⟨ps', hps, rfl⟩ := frame_of_openFrame hf'
    rw [hf] at hps
    cases hps
    rw [Nat.zero_add]
    exact exploresStack_singleton hs
  | next _ ha hn' hf' ih =>
    obtain ⟨ps', hps, rfl⟩ := frame_of_openFrame hf'
    rw [Nat.add_assoc]
    exact ih (exploresStack_of_advance ha hn' hps hs)

end Round

/-! ## Whole runs -/

section Whole

variable {frames fs : List Frame} {j j' : Journal} {x : Finding}

section Found

variable (hn : (State.initial roots).next? = some (name, c))
  (hf : g.findCandidates name c = .ok ps)
include hn hf

theorem explores_of_solved (hr : Reaches g roots k frames j)
    (ha : advance frames (j.record (.round k)) = (some (s, fs), j')) (hs : s.next? = none) :
    ∃ x : Finding, choices fs = x.branch name ∧ s = x.final ∧
      Explores g name ((State.initial roots).withdraw name) ps (.ok (some x)) (k + 1) := by
  obtain ⟨x, hx, ho⟩ := explores_of_reaches hn hf hr (exploresStack_of_finished ha hs)
  match x with
  | .ok (some x) =>
    obtain ⟨hfs, hfinal⟩ := Prod.mk.inj (Option.some.inj (Except.ok.inj ho))
    exact ⟨x, hfs, hfinal, hx⟩

theorem explores_of_exhausted (hr : Reaches g roots k frames j)
    (ha : advance frames (j.record (.round k)) = (none, j')) :
    Explores g name ((State.initial roots).withdraw name) ps (.ok none) k := by
  obtain ⟨x, hx, ho⟩ := explores_of_reaches hn hf hr (exploresStack_of_advance_eq_none ha)
  match x with
  | .ok none => exact hx

theorem explores_of_failed {name' : String} {c' : Constraint} {e : Text.PrintError}
    (hr : Reaches g roots k frames j)
    (ha : advance frames (j.record (.round k)) = (some (s, fs), j'))
    (hs : s.next? = some (name', c')) (he : g.findCandidates name' c' = .error e) :
    Explores g name ((State.initial roots).withdraw name) ps (.error e) (k + 1) := by
  obtain ⟨x, hx, ho⟩ := explores_of_reaches hn hf hr (exploresStack_of_blocked ha hs he)
  match x with
  | .error _ => cases ho; exact hx

end Found

/-- What a search finds within a limit, the exploration of its first choice finds with at most so
many choices. -/
theorem explores_of_ending {limit : Nat} (hn : (State.initial roots).next? = some (name, c))
    (h : (run g roots limit).ending = .solved s) :
    ∃ ps x n, g.findCandidates name c = .ok ps ∧ n ≤ limit ∧
      choices (run g roots limit).frames = x.branch name ∧ s = x.final ∧
      Explores g name ((State.initial roots).withdraw name) ps (.ok (some x)) n := by
  have he := ends_run g roots limit
  generalize run g roots limit = r at h he
  cases he with
  | idle hidle => rw [hn] at hidle; cases hidle
  | solved hr hk ha hs =>
    cases h
    obtain ⟨ps, hf⟩ := exists_found_of_reaches hn hr
    obtain ⟨x, hfs, hfinal, hx⟩ := explores_of_solved hn hf hr ha hs
    exact ⟨ps, x, _, hf, hk, hfs, hfinal, hx⟩
  | exhausted _ _ _ => cases h
  | outOfRounds _ => cases h
  | failedAtStart _ _ => cases h
  | failed _ _ _ _ _ => cases h

/-- What an exploration finds with some choices, the search finds within every limit that allows for
so many. -/
theorem ending_of_explores {limit : Nat} (hn : (State.initial roots).next? = some (name, c))
    (hf : g.findCandidates name c = .ok ps)
    (h : Explores g name ((State.initial roots).withdraw name) ps (.ok (some x)) n)
    (hle : n ≤ limit) :
    (run g roots limit).ending = .solved x.final ∧
      choices (run g roots limit).frames = x.branch name := by
  obtain ⟨r, t, hc⟩ := exists_completes g roots
  have he := ends_run g roots t
  rw [hc.run_of_le t le_rfl] at he
  cases he with
  | idle hidle => rw [hn] at hidle; cases hidle
  | solved hr _ ha hs =>
    obtain ⟨y, hfs, rfl, hy⟩ := explores_of_solved hn hf hr ha hs
    obtain ⟨hxy, rfl⟩ := hy.deterministic h
    cases hxy
    rw [run_of_solved hr ha hs hle]
    exact ⟨rfl, hfs⟩
  | exhausted hr _ ha => cases ((explores_of_exhausted hn hf hr ha).deterministic h).1
  | outOfRounds _ => exact absurd rfl hc.ending_ne
  | failedAtStart hn' hf' =>
    rw [hn] at hn'
    cases hn'
    rw [hf] at hf'
    cases hf'
  | failed hr _ ha hs he => cases ((explores_of_failed hn hf hr ha hs he).deterministic h).1

end Whole

end Search
end PackageResolution
