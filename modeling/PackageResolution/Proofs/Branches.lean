import PackageResolution.Proofs.CandidateOrder
import PackageResolution.Proofs.StateLaws
import PackageResolution.Search.Run

/-!
# PackageResolution.Proofs.Branches

The stack of open choices as a branch of the tree that a search explores.

* `DeadEnd`: a state with something pending from which every way on fails.
* `Branch`: the choices that lead from the roots to a state. What a choice has tried before its
  present candidate is hopeless.
* `Reaches`, `Ends`: the points between the rounds of a run, and all the ways in which a run ends.
* `branch_of_solved`, `deadEnd_of_exhausted`: a run that finds something ends on a branch, and one
  that finds nothing started in a dead end.
* `Branch.fits_iff`, `Branch.mentions_iff`: what the state of a branch says, in terms of the roots
  and the releases chosen.
-/

namespace PackageResolution
namespace Search

/-- Each release that may be chosen next is refused or leads to a dead end. -/
inductive DeadEnd (g : Catalog) : State → Prop where
  | intro {s : State} {name : String} {c : Constraint} : s.next? = some (name, c) →
      (∀ p ∈ g.candidates name c, ∀ s', (s.withdraw name).pin name p = .ok s' → DeadEnd g s') →
      DeadEnd g s

/-- Choosing `p` for `name` is refused or leads to a dead end. -/
def Hopeless (g : Catalog) (base : State) (name : String) (p : Package) : Prop :=
  ∀ s', base.pin name p = .ok s' → DeadEnd g s'

/-- `f` is the choice to be made after `s`, and what it has dropped is hopeless. -/
inductive Opened (g : Catalog) (s : State) : Frame → Prop where
  | intro {name : String} {c : Constraint} {tried rest : List Package} {pinned : Option Package} :
      s.next? = some (name, c) → g.findCandidates name c = .ok (tried ++ rest) →
      (∀ q ∈ tried, Hopeless g (s.withdraw name) name q) →
      Opened g s ⟨name, rest, s.withdraw name, pinned⟩

inductive Branch (g : Catalog) (roots : OrderedMap String Constraint) :
    List Frame → State → Prop where
  | start : Branch g roots [] (State.initial roots)
  | pin {fs : List Frame} {s s' : State} {name : String} {c : Constraint} {p : Package}
      {tried rest : List Package} : Branch g roots fs s → s.next? = some (name, c) →
      g.findCandidates name c = .ok (tried ++ p :: rest) →
      (∀ q ∈ tried, Hopeless g (s.withdraw name) name q) →
      (s.withdraw name).pin name p = .ok s' →
      Branch g roots (⟨name, rest, s.withdraw name, some p⟩ :: fs) s'

/-- `k` rounds have been made, and the next choice is open. -/
inductive Reaches (g : Catalog) (roots : OrderedMap String Constraint) :
    Nat → List Frame → Journal → Prop where
  | start {name : String} {c : Constraint} {f : Frame} {j : Journal} :
      (State.initial roots).next? = some (name, c) →
      openFrame g (State.initial roots) name c Journal.empty = .ok (f, j) →
      Reaches g roots 0 [f] j
  | next {k : Nat} {frames fs : List Frame} {j j' j'' : Journal} {s : State} {name : String}
      {c : Constraint} {f : Frame} : Reaches g roots k frames j →
      advance frames (j.record (.round k)) = (some (s, fs), j') → s.next? = some (name, c) →
      openFrame g s name c j' = .ok (f, j'') → Reaches g roots (k + 1) (f :: fs) j''

/-- The results that a search in at most `limit` rounds can have. -/
inductive Ends (g : Catalog) (roots : OrderedMap String Constraint) (limit : Nat) : Run → Prop where
  | idle : (State.initial roots).next? = none →
      Ends g roots limit ⟨.solved (State.initial roots), [], Journal.empty⟩
  | solved {k : Nat} {frames fs : List Frame} {j j' : Journal} {s : State} :
      Reaches g roots k frames j → k < limit →
      advance frames (j.record (.round k)) = (some (s, fs), j') → s.next? = none →
      Ends g roots limit ⟨.solved s, fs, j'⟩
  | exhausted {k : Nat} {frames : List Frame} {j j' : Journal} :
      Reaches g roots k frames j → k < limit →
      advance frames (j.record (.round k)) = (none, j') → Ends g roots limit ⟨.exhausted, [], j'⟩
  | outOfRounds {frames : List Frame} {j : Journal} :
      Reaches g roots limit frames j → Ends g roots limit ⟨.outOfRounds, frames, j⟩
  | failedAtStart {name : String} {c : Constraint} {e : Text.PrintError} :
      (State.initial roots).next? = some (name, c) → g.findCandidates name c = .error e →
      Ends g roots limit ⟨.failed e, [], Journal.empty⟩
  | failed {k : Nat} {frames fs : List Frame} {j j' : Journal} {s : State} {name : String}
      {c : Constraint} {e : Text.PrintError} : Reaches g roots k frames j → k < limit →
      advance frames (j.record (.round k)) = (some (s, fs), j') → s.next? = some (name, c) →
      g.findCandidates name c = .error e → Ends g roots limit ⟨.failed e, fs, j'⟩

variable {g : Catalog} {roots : OrderedMap String Constraint}

theorem openFrame_eq_error_iff {s : State} {name : String} {c : Constraint} {j : Journal}
    {e : Text.PrintError} :
    openFrame g s name c j = .error e ↔ g.findCandidates name c = .error e := by
  rw [openFrame]
  split
  · rename_i hc; rw [hc]; simp
  · rename_i hc; rw [hc]; simp
  · rename_i hc; rw [hc]; simp

theorem ends_rounds {limit n : Nat} : ∀ {k : Nat} {frames : List Frame} {j : Journal},
    Reaches g roots k frames j → k + n = limit → Ends g roots limit (rounds g n k frames j) := by
  induction n with
  | zero => intro k frames j h hk; cases hk; exact .outOfRounds h
  | succ n ih =>
    intro k frames j h hk
    have hlt : k < limit := by omega
    rw [rounds]
    split
    · rename_i j' ha; exact .exhausted h hlt ha
    · rename_i s frames' j' ha
      split
      · rename_i hn; exact .solved h hlt ha hn
      · rename_i name c hn
        split
        · rename_i e hf; exact .failed h hlt ha hn (openFrame_eq_error_iff.mp hf)
        · rename_i f j'' hf; exact ih (.next h ha hn hf) (by omega)

theorem ends_run (g : Catalog) (roots : OrderedMap String Constraint) (limit : Nat) :
    Ends g roots limit (run g roots limit) := by
  rw [run]
  split
  · rename_i hn; exact .idle hn
  · rename_i name c hn
    split
    · rename_i e hf; exact .failedAtStart hn (openFrame_eq_error_iff.mp hf)
    · rename_i f j hf; exact ends_rounds (.start hn hf) (Nat.zero_add limit)

/-! ## Trying candidates -/

theorem hopeless_of_error {base : State} {name : String} {p : Package}
    (h : ∃ causes, base.pin name p = .error causes) : Hopeless g base name p := by
  obtain ⟨causes, h⟩ := h
  intro s' hs
  rw [h] at hs
  cases hs

theorem split_of_tryCandidates {name : String} {base s : State} {p : Package}
    {ps rest : List Package} {j j' : Journal}
    (h : tryCandidates name base ps j = (some (s, p, rest), j')) :
    ∃ refused, ps = refused ++ p :: rest ∧
      (∀ q ∈ refused, ∃ causes, base.pin name q = .error causes) ∧ base.pin name p = .ok s := by
  induction ps generalizing j with
  | nil => cases h
  | cons q qs ih =>
    rw [tryCandidates] at h
    split at h
    · rename_i hq
      cases h
      exact ⟨[], rfl, fun _ h => absurd h List.not_mem_nil, hq⟩
    · rename_i causes hq
      obtain ⟨refused, rfl, hall, hp⟩ := ih h
      exact ⟨q :: refused, rfl, List.forall_mem_cons.mpr ⟨⟨causes, hq⟩, hall⟩, hp⟩

theorem error_of_tryCandidates {name : String} {base : State} {ps : List Package} {j j' : Journal}
    (h : tryCandidates name base ps j = (none, j')) :
    ∀ q ∈ ps, ∃ causes, base.pin name q = .error causes := by
  induction ps generalizing j with
  | nil => exact fun _ h => absurd h List.not_mem_nil
  | cons q qs ih =>
    rw [tryCandidates] at h
    split at h
    · cases h
    · rename_i causes hq
      exact List.forall_mem_cons.mpr ⟨⟨causes, hq⟩, ih h⟩

theorem Opened.deadEnd {s : State} {f : Frame} (h : Opened g s f)
    (hall : ∀ q ∈ f.candidates, Hopeless g f.base f.name q) : DeadEnd g s := by
  cases h with
  | intro hn hc ht =>
    refine .intro hn ?_
    intro p hp
    rw [Catalog.candidates_of_found hc, List.mem_append] at hp
    rcases hp with hp | hp
    · exact ht p hp
    · exact hall p hp

theorem frame_of_openFrame {s : State} {name : String} {c : Constraint} {j j' : Journal}
    {f : Frame} (h : openFrame g s name c j = .ok (f, j')) :
    ∃ ps, g.findCandidates name c = .ok ps ∧ f = ⟨name, ps, s.withdraw name, none⟩ := by
  rw [openFrame] at h
  split at h
  · cases h
  · rename_i hc; cases h; exact ⟨_, hc, rfl⟩
  · rename_i hc; cases h; exact ⟨_, hc, rfl⟩

theorem opened_openFrame {s : State} {name : String} {c : Constraint} {j j' : Journal} {f : Frame}
    (hn : s.next? = some (name, c)) (h : openFrame g s name c j = .ok (f, j')) :
    Opened g s f ∧ f.pinned = none := by
  obtain ⟨ps, hc, rfl⟩ := frame_of_openFrame h
  refine ⟨.intro hn (by rwa [List.nil_append]) ?_, rfl⟩
  exact fun q hq => absurd hq List.not_mem_nil

theorem Opened.deadEnd_of_tryCandidates {s : State} {f : Frame} {j j' : Journal}
    (ho : Opened g s f) (h : tryCandidates f.name f.base f.candidates j = (none, j')) :
    DeadEnd g s :=
  ho.deadEnd fun q hq => hopeless_of_error (error_of_tryCandidates h q hq)

theorem Branch.of_tryCandidates {fs : List Frame} {s s' : State} {f : Frame} {p : Package}
    {rest : List Package} {j j' : Journal} (hb : Branch g roots fs s) (ho : Opened g s f)
    (h : tryCandidates f.name f.base f.candidates j = (some (s', p, rest), j')) :
    Branch g roots ({ f with candidates := rest, pinned := some p } :: fs) s' := by
  cases ho with
  | @intro name c tried left _ hn hc ht =>
    obtain ⟨refused, rfl, hr, hp⟩ := split_of_tryCandidates h
    have hc' : g.findCandidates name c = .ok ((tried ++ refused) ++ p :: rest) := by
      rw [hc, List.append_assoc]
    refine .pin hb hn hc' ?_ hp
    intro q hq
    rcases List.mem_append.mp hq with hq | hq
    · exact ht q hq
    · exact hopeless_of_error (hr q hq)

/-- A choice whose candidate led to a dead end is open again. -/
theorem Opened.reopen {s s' : State} {name : String} {c : Constraint} {p : Package}
    {tried rest : List Package} (hn : s.next? = some (name, c))
    (hc : g.findCandidates name c = .ok (tried ++ p :: rest))
    (ht : ∀ q ∈ tried, Hopeless g (s.withdraw name) name q)
    (hp : (s.withdraw name).pin name p = .ok s') (hd : DeadEnd g s') :
    Opened g s ⟨name, rest, s.withdraw name, some p⟩ := by
  have hc' : g.findCandidates name c = .ok ((tried ++ [p]) ++ rest) := by
    rw [hc, List.append_assoc]
    rfl
  refine .intro hn hc' ?_
  intro q hq
  rcases List.mem_append.mp hq with hq | hq
  · exact ht q hq
  · rw [List.mem_singleton] at hq
    subst hq
    intro t ht
    rw [hp] at ht
    cases ht
    exact hd

/-- What a round leads to: another branch, or the knowledge that the root was a dead end. -/
def Advances (g : Catalog) (roots : OrderedMap String Constraint) :
    Option (State × List Frame) → Prop
  | some (s, fs) => Branch g roots fs s
  | none => DeadEnd g (State.initial roots)

theorem advances_of_advance {fs : List Frame} {s : State} (hb : Branch g roots fs s) :
    ∀ {f : Frame} {j j' : Journal} {o : Option (State × List Frame)}, Opened g s f →
      advance (f :: fs) j = (o, j') → Advances g roots o := by
  -- a choice with nothing left is dropped, which reopens the choice below it
  induction hb with
  | start =>
    intro f j j' o ho h
    rw [advance] at h
    split at h
    · rename_i ht; cases h; exact Branch.of_tryCandidates .start ho ht
    · rename_i ht; cases h; exact ho.deadEnd_of_tryCandidates ht
  | pin hb hn hc ht hp ih =>
    intro f j j' o ho h
    rw [advance] at h
    split at h
    · rename_i hf; cases h; exact Branch.of_tryCandidates (.pin hb hn hc ht hp) ho hf
    · rename_i hf; exact ih (.reopen hn hc ht hp (ho.deadEnd_of_tryCandidates hf)) h

/-! ## Whole runs -/

theorem branch_of_reaches {k : Nat} {frames : List Frame} {j : Journal}
    (h : Reaches g roots k frames j) :
    ∃ f fs s, frames = f :: fs ∧ Branch g roots fs s ∧ Opened g s f ∧ f.pinned = none := by
  induction h with
  | start hn hf =>
    obtain ⟨ho, hp⟩ := opened_openFrame hn hf
    exact ⟨_, _, _, rfl, .start, ho, hp⟩
  | next _ ha hn hf ih =>
    obtain ⟨f, fs, s, rfl, hb, ho, _⟩ := ih
    obtain ⟨ho', hp⟩ := opened_openFrame hn hf
    exact ⟨_, _, _, rfl, advances_of_advance hb ho ha, ho', hp⟩

theorem branch_of_solved {limit : Nat} {s : State} (h : (run g roots limit).ending = .solved s) :
    Branch g roots (run g roots limit).frames s ∧ s.next? = none := by
  have he := ends_run g roots limit
  generalize run g roots limit = r at h he
  cases he with
  | idle hn => cases h; exact ⟨.start, hn⟩
  | solved hr _ ha hn =>
    cases h
    obtain ⟨f, fs, s₀, rfl, hb, ho, _⟩ := branch_of_reaches hr
    exact ⟨advances_of_advance hb ho ha, hn⟩
  | exhausted _ _ _ => cases h
  | outOfRounds _ => cases h
  | failedAtStart _ _ => cases h
  | failed _ _ _ _ _ => cases h

theorem deadEnd_of_exhausted {limit : Nat} (h : (run g roots limit).ending = .exhausted) :
    DeadEnd g (State.initial roots) := by
  have he := ends_run g roots limit
  generalize run g roots limit = r at h he
  cases he with
  | idle _ => cases h
  | solved _ _ _ _ => cases h
  | exhausted hr _ ha =>
    obtain ⟨f, fs, s, rfl, hb, ho, _⟩ := branch_of_reaches hr
    exact advances_of_advance hb ho ha
  | outOfRounds _ => cases h
  | failedAtStart _ _ => cases h
  | failed _ _ _ _ _ => cases h

/-! ## What a branch has chosen -/

/-- The releases chosen in a stack of frames, in the order of the choices. -/
def choices (frames : List Frame) : List (String × Package) :=
  frames.reverse.filterMap fun f => f.pinned.map fun p => (f.name, p)

theorem choices_cons (name : String) (rest : List Package) (base : State) (p : Package)
    (fs : List Frame) : choices (⟨name, rest, base, some p⟩ :: fs) = choices fs ++ [(name, p)] := by
  simp [choices]

namespace Branch

variable {fs : List Frame} {s : State}

theorem apart (h : Branch g roots fs s) : s.Apart := by
  induction h with
  | start => intro n _ hn; cases hn
  | pin _ _ _ _ hp ih => exact State.apart_pin ih hp

theorem entries_solutions (h : Branch g roots fs s) :
    s.solutions.entries = (choices fs).map fun e => (e.1, e.2.version) := by
  induction h with
  | start => rfl
  | pin hb hn _ _ hp ih =>
    rw [State.solutions_pin hp, choices_cons, List.map_append, ← ih]
    exact OrderedMap.entries_insert_of_not_mem _ (hb.apart _ (State.mem_of_next? hn))

theorem keys_solutions (h : Branch g roots fs s) :
    s.solutions.keys = (choices fs).map Prod.fst := by
  rw [OrderedMap.keys, h.entries_solutions, List.map_map]
  rfl

theorem nodup_choices (h : Branch g roots fs s) : ((choices fs).map Prod.fst).Nodup :=
  h.keys_solutions ▸ s.solutions.keys_nodup

theorem listed (h : Branch g roots fs s) {e : String × Package} (he : e ∈ choices fs) :
    e.2 ∈ g.repository.lookup e.1 ∧ e.2.supports g.platform = true := by
  induction h with
  | start => cases he
  | @pin _ _ _ _ _ p tried rest _ _ hc _ _ ih =>
    rw [choices_cons, List.mem_append, List.mem_singleton] at he
    rcases he with he | rfl
    · exact ih he
    · obtain ⟨hl, _, hs⟩ := (Catalog.mem_of_found hc).mp
        (List.mem_append_right tried List.mem_cons_self)
      exact ⟨hl, hs⟩

/-- What is chosen has been put in order by the text of its version. -/
theorem printable (h : Branch g roots fs s) {e : String × Package} (he : e ∈ choices fs) :
    e.2.version.Printable := by
  induction h with
  | start => cases he
  | pin _ _ hc _ _ ih =>
    rw [choices_cons, List.mem_append, List.mem_singleton] at he
    rcases he with he | rfl
    · exact ih he
    · exact Catalog.printable_of_found hc (List.mem_append_right _ List.mem_cons_self)

/-- The completions of a branch make its choices, and meet all that these and the roots ask. -/
theorem fits_iff (h : Branch g roots fs s) {f : String → Option Version} :
    s.Fits f ↔ Satisfies f roots ∧
      ∀ e ∈ choices fs, f e.1 = some e.2.version ∧ Satisfies f e.2.dependencies := by
  induction h with
  | start =>
    constructor
    · intro hf
      refine ⟨hf.pending, ?_⟩
      intro e he
      cases he
    · rintro ⟨hroots, _⟩
      refine ⟨hroots, ?_⟩
      intro n v hv
      cases hv
  | @pin _ _ _ _ _ p tried rest hb hn hc _ hp ih =>
    obtain ⟨_, hcp, _⟩ := (Catalog.mem_of_found hc).mp
      (List.mem_append_right tried List.mem_cons_self)
    rw [State.fits_pin hb.apart hn hcp hp, ih, choices_cons, List.forall_mem_append,
      List.forall_mem_singleton, and_assoc]

theorem mentions_iff (h : Branch g roots fs s) {n : String} :
    s.Mentions n ↔ n ∈ roots ∨ ∃ e ∈ choices fs, n ∈ e.2.dependencies := by
  induction h with
  | start =>
    constructor
    · rintro (hm | hm)
      · exact .inl hm
      · cases hm
    · rintro (hm | ⟨e, he, _⟩)
      · exact .inl hm
      · cases he
  | pin _ hn _ _ hp ih =>
    rw [State.mentions_pin hn hp, ih, choices_cons, or_assoc]
    simp only [List.mem_append, List.mem_singleton]
    constructor
    · rintro (hm | ⟨e, he, hm⟩ | hm)
      · exact .inl hm
      · exact .inr ⟨e, .inl he, hm⟩
      · exact .inr ⟨_, .inr rfl, hm⟩
    · rintro (hm | ⟨e, he | rfl, hm⟩)
      · exact .inl hm
      · exact .inr (.inl ⟨e, he, hm⟩)
      · exact .inr (.inr hm)

/-- A branch passes through the point at which each of its choices was made. -/
theorem exists_prefix (h : Branch g roots fs s) {before after : List (String × Package)}
    {name : String} {p : Package} (hs : choices fs = before ++ (name, p) :: after) :
    ∃ fs₀ s₀ c tried rest, Branch g roots fs₀ s₀ ∧ choices fs₀ = before ∧
      s₀.next? = some (name, c) ∧ g.findCandidates name c = .ok (tried ++ p :: rest) ∧
      ∀ q ∈ tried, Hopeless g (s₀.withdraw name) name q := by
  induction h generalizing after with
  | start => exact absurd hs (by simp [choices])
  | @pin fs' s' _ m c q tried rest hb hn hc ht _ ih =>
    rw [choices_cons] at hs
    rcases List.eq_nil_or_concat after with rfl | ⟨after', e, rfl⟩
    · obtain ⟨hl, he⟩ := List.append_inj' hs rfl
      cases he
      exact ⟨fs', s', c, tried, rest, hb, hl, hn, hc, ht⟩
    · rw [List.concat_eq_append, ← List.cons_append, ← List.append_assoc] at hs
      exact ih (List.append_inj' hs rfl).1

/-- Each frame of a branch was opened on the branch that the frames below it make up, and has some
of the candidates there left. -/
theorem exists_below (h : Branch g roots fs s) {above below : List Frame} {f : Frame}
    (hs : fs = above ++ f :: below) :
    ∃ s₀ c, Branch g roots below s₀ ∧ s₀.next? = some (f.name, c) ∧
      f.base = s₀.withdraw f.name ∧ f.candidates ⊆ g.candidates f.name c := by
  induction h generalizing above with
  | start => exact absurd hs (by simp)
  | pin hb hn hc _ _ ih =>
    rcases List.cons_eq_append_iff.mp hs with ⟨_, he⟩ | ⟨above', _, he⟩
    · cases he
      refine ⟨_, _, hb, hn, rfl, ?_⟩
      rw [Catalog.candidates_of_found hc]
      exact fun q hq => List.mem_append_right _ (List.mem_cons_of_mem _ hq)
    · exact ih he

theorem exists_choice (h : Branch g roots fs s) {before after : List String} {name : String}
    (hk : s.solutions.keys = before ++ name :: after) :
    ∃ fs₀ s₀ c p tried rest, Branch g roots fs₀ s₀ ∧ (choices fs₀).map Prod.fst = before ∧
      (∀ e ∈ choices fs₀, e ∈ choices fs) ∧ (name, p) ∈ choices fs ∧
      s₀.next? = some (name, c) ∧ g.findCandidates name c = .ok (tried ++ p :: rest) ∧
      ∀ q ∈ tried, Hopeless g (s₀.withdraw name) name q := by
  rw [h.keys_solutions, List.map_eq_append_iff] at hk
  obtain ⟨earlier, _, hsplit, rfl, hk⟩ := hk
  obtain ⟨⟨_, p⟩, later, rfl, rfl, rfl⟩ := List.map_eq_cons_iff.mp hk
  obtain ⟨fs₀, s₀, c, tried, rest, h₀, rfl, hn, hc, ht⟩ := h.exists_prefix hsplit
  refine ⟨fs₀, s₀, c, p, tried, rest, h₀, rfl, ?_, ?_, hn, hc, ht⟩
  · intro e he
    rw [hsplit]
    exact List.mem_append_left _ he
  · rw [hsplit]
    exact List.mem_append_right _ List.mem_cons_self

end Branch

/-- So was each frame of a stack with the next choice open. -/
theorem exists_below_of_reaches {k : Nat} {frames above below : List Frame} {f : Frame}
    {j : Journal} (h : Reaches g roots k frames j) (hs : frames = above ++ f :: below) :
    ∃ s c, Branch g roots below s ∧ s.next? = some (f.name, c) ∧ f.base = s.withdraw f.name ∧
      f.candidates ⊆ g.candidates f.name c := by
  obtain ⟨f', fs, s, rfl, hb, ho, _⟩ := branch_of_reaches h
  rcases List.cons_eq_append_iff.mp hs with ⟨_, he⟩ | ⟨above', _, he⟩
  · cases he
    cases ho with
    | intro hn hc _ =>
      refine ⟨_, _, hb, hn, rfl, ?_⟩
      rw [Catalog.candidates_of_found hc]
      exact List.subset_append_right _ _
  · exact hb.exists_below he

theorem entries_packages_of_solved {limit : Nat} {s : State}
    (h : (run g roots limit).ending = .solved s) :
    (run g roots limit).packages.entries = choices (run g roots limit).frames :=
  OrderedMap.entries_ofList (branch_of_solved h).1.nodup_choices

/-! ## A search that takes a choice back

The newest release of `a` asks for `c` and for a release of `b` that does not go with it. The one
before asks for itself. -/

namespace Detour

def version (n : Nat) : Version := ⟨n, 0, 0, [], []⟩

def atLeast (n : Nat) : Constraint := ⟨some ⟨version n, true⟩, none, rfl⟩

def below (n : Nat) : Constraint := ⟨none, some ⟨version n, false⟩, rfl⟩

def release (name : String) (n : Nat) (dependencies : List (String × Constraint)) : Package :=
  ⟨name, version n, OrderedMap.ofList dependencies, none⟩

def a₁ : Package := release "a" 1 [("b", .any), ("a", .any)]
def a₂ : Package := release "a" 2 [("b", atLeast 2), ("c", .any)]
def b₁ : Package := release "b" 1 []
def b₂ : Package := release "b" 2 [("a", below 2)]
def c₁ : Package := release "c" 1 []

def catalog : Catalog := ⟨Repository.ofPackages [a₁, a₂, b₁, b₂, c₁], none⟩

def demands : OrderedMap String Constraint := OrderedMap.ofList [("b", .any), ("a", .any)]

def older : OrderedMap String Package := OrderedMap.ofList [("a", a₁), ("b", b₁)]

def newerOnly : OrderedMap String Constraint := OrderedMap.ofList [("a", atLeast 2)]

end Detour

end Search
end PackageResolution
