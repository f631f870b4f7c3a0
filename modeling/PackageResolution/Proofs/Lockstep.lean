import PackageResolution.Proofs.Completeness
import PackageResolution.Proofs.Rearrangement

/-!
# PackageResolution.Proofs.Lockstep

Two searches side by side. What they have in common is a parameter: which roots, releases, causes
and states correspond. If the correspondence is kept wherever a search looks at a state or changes
one, then every step keeps it, and with that the two searches as a whole.

* `OrderedMap.Related`: the same keys in the same order, with related values.
* `Event.Related`: the same event, about related things.
* `Lockstep`: a correspondence that two searches keep, with what has to be known of it.
* `Lockstep.advance`, `Lockstep.rounds`, `Lockstep.run`: one step, all rounds, the whole search.
* `Report.Related`, `Lockstep.solve`: the answers of two such searches, and the events before them.
-/

namespace PackageResolution

/-! ## Maps -/

namespace OrderedMap

variable {κ α : Type}

/-- The same key with related values. -/
def EntryRelated (R : α → α → Prop) (e e' : κ × α) : Prop := e.1 = e'.1 ∧ R e.2 e'.2

/-- The same keys in the same order, with related values. -/
def Related (R : α → α → Prop) (m m' : OrderedMap κ α) : Prop :=
  List.Forall₂ (EntryRelated R) m.entries m'.entries

variable {R : α → α → Prop} {m m' : OrderedMap κ α}

theorem Related.keys (h : m.Related R m') : m.keys = m'.keys := by
  unfold OrderedMap.keys
  unfold Related at h
  generalize m.entries = es, m'.entries = es' at h
  induction h with
  | nil => rfl
  | cons he _ ih => rw [List.map_cons, List.map_cons, he.1, ih]

variable [DecidableEq κ]

theorem Related.get? (h : m.Related R m') (k : κ) : Option.Rel R (m.get? k) (m'.get? k) := by
  unfold OrderedMap.get?
  unfold Related at h
  generalize m.entries = es, m'.entries = es' at h
  induction h with
  | nil => exact .none
  | cons he _ ih =>
    simp only [find?, he.1]
    split
    · exact .some he.2
    · exact ih

theorem Related.insert (h : m.Related R m') (k : κ) {a b : α} (hab : R a b) :
    (m.insert k a).Related R (m'.insert k b) := by
  show List.Forall₂ (EntryRelated R) (put k a m.entries) (put k b m'.entries)
  unfold Related at h
  generalize m.entries = es, m'.entries = es' at h
  induction h with
  | nil => exact .cons ⟨rfl, hab⟩ .nil
  | cons he hes ih =>
    simp only [put, he.1]
    split
    · exact .cons ⟨rfl, hab⟩ hes
    · exact .cons he ih

theorem Related.erase (h : m.Related R m') (k : κ) : (m.erase k).Related R (m'.erase k) := by
  refine forall₂_filter ?_ h
  intro e e' he
  rw [he.1]

end OrderedMap

namespace Search

open OrderedMap (EntryRelated)

theorem State.least_related {α : Type} {R : α → α → Prop} {es es' : List (String × α)}
    (h : List.Forall₂ (EntryRelated R) es es') :
    Option.Rel (EntryRelated R) (least? es) (least? es') := by
  induction h with
  | nil => exact .none
  | @cons e e' es es' he _ ih =>
    unfold least?
    generalize least? es = o, least? es' = o' at ih
    cases ih with
    | none => exact .some he
    | some hm =>
      simp only [he.1, hm.1]
      split
      · exact .some hm
      · exact .some he

/-! ## What corresponds -/

/-- The same event, about related roots, releases and causes. -/
inductive Event.Related (R : OrderedMap String Constraint → OrderedMap String Constraint → Prop)
    (P : Package → Package → Prop) (C : List Requirement → List Requirement → Prop) :
    Event → Event → Prop where
  | starting {roots roots' : OrderedMap String Constraint} : R roots roots' →
      Related R P C (.starting roots) (.starting roots')
  | round (index : Nat) : Related R P C (.round index) (.round index)
  | pinning (name : String) {p q : Package} : P p q →
      Related R P C (.pinning name p) (.pinning name q)
  | rejecting {p q : Package} {causes causes' : List Requirement} : P p q → C causes causes' →
      Related R P C (.rejecting p causes) (.rejecting q causes')
  | backtracking (name : String) : Related R P C (.backtracking name) (.backtracking name)
  | ending (mapping : OrderedMap String Version) : Related R P C (.ending mapping) (.ending mapping)
  | endingUnsatisfiable {causes causes' : List Requirement} : C causes causes' →
      Related R P C (.endingUnsatisfiable causes) (.endingUnsatisfiable causes')

/-- A correspondence that a search in `g` and a search in `g'` keep. -/
structure Lockstep (g g' : Catalog) where
  Roots : OrderedMap String Constraint → OrderedMap String Constraint → Prop
  Release : Package → Package → Prop
  Causes : List Requirement → List Requirement → Prop
  State : State → State → Prop
  causes_nil : Causes [] []
  solutions {s t} : State s t → s.solutions = t.solutions
  initial {roots roots'} : Roots roots roots' → State (.initial roots) (.initial roots')
  known {s t} : State s t → ∀ n, Causes (s.known n) (t.known n)
  withdraw {s t} : State s t → ∀ n, State (s.withdraw n) (t.withdraw n)
  pin {s t p q} : State s t → Release p q → ∀ n,
    Concur Causes State (s.pin n p) (t.pin n q)
  /-- The same name is decided next, and has corresponding candidates. -/
  next {s t} : State s t → Option.Rel (fun e e' => e.1 = e'.1 ∧ Concur (· = ·)
    (List.Forall₂ Release) (g.findCandidates e.1 e.2) (g'.findCandidates e'.1 e'.2)) s.next? t.next?

namespace Lockstep

variable {g g' : Catalog} (l : Lockstep g g')

abbrev Event : Event → Event → Prop := Event.Related l.Roots l.Release l.Causes

structure Journal (j j' : Journal) : Prop where
  causes : l.Causes j.causes j'.causes
  latest : List.Forall₂ l.Event j.latest j'.latest

structure Frame (f f' : Frame) : Prop where
  name : f.name = f'.name
  candidates : List.Forall₂ l.Release f.candidates f'.candidates
  base : l.State f.base f'.base
  pinned : Option.Rel l.Release f.pinned f'.pinned

inductive Ending : Ending → Ending → Prop where
  | solved {s t : Search.State} : l.State s t → Ending (.solved s) (.solved t)
  | exhausted : Ending .exhausted .exhausted
  | outOfRounds : Ending .outOfRounds .outOfRounds
  | failed (e : Text.PrintError) : Ending (.failed e) (.failed e)

structure Run (r r' : Run) : Prop where
  ending : l.Ending r.ending r'.ending
  frames : List.Forall₂ l.Frame r.frames r'.frames
  journal : l.Journal r.journal r'.journal

variable {l} {j j' : Search.Journal} {s t : Search.State}

theorem Journal.record {e e' : Search.Event} (h : l.Journal j j') (he : l.Event e e') :
    l.Journal (j.record e) (j'.record e') :=
  ⟨h.causes, .cons he h.latest⟩

theorem Journal.blame {causes causes' : List Requirement} (h : l.Journal j j')
    (hc : l.Causes causes causes') : l.Journal (j.blame causes) (j'.blame causes') :=
  ⟨hc, h.latest⟩

theorem Journal.events (h : l.Journal j j') : List.Forall₂ l.Event j.events j'.events := by
  unfold Search.Journal.events
  exact List.rel_reverse h.latest

/-! ## One step -/

theorem openFrame {e e' : String × Constraint} (hs : l.State s t) (hname : e.1 = e'.1)
    (hc : Concur (· = ·) (List.Forall₂ l.Release) (g.findCandidates e.1 e.2)
      (g'.findCandidates e'.1 e'.2)) (hj : l.Journal j j') :
    Concur (· = ·) (fun x y => l.Frame x.1 y.1 ∧ l.Journal x.2 y.2) (openFrame g s e.1 e.2 j)
      (openFrame g' t e'.1 e'.2 j') := by
  have hbase : l.State (s.withdraw e.1) (t.withdraw e'.1) := hname ▸ l.withdraw hs e.1
  have hknown : l.Causes (s.known e.1) (t.known e'.1) := hname ▸ l.known hs e.1
  unfold Search.openFrame
  generalize g.findCandidates e.1 e.2 = ps, g'.findCandidates e'.1 e'.2 = qs at hc
  cases hc with
  | refused he => exact .refused he
  | granted hps =>
    cases hps with
    | nil => exact .granted ⟨⟨hname, .nil, hbase, .none⟩, hj.blame hknown⟩
    | cons hp hps => exact .granted ⟨⟨hname, .cons hp hps, hbase, .none⟩, hj⟩

theorem tryCandidates (name : String) {ps qs : List Package} (hs : l.State s t)
    (hps : List.Forall₂ l.Release ps qs) (hj : l.Journal j j') :
    Option.Rel (fun x y => l.State x.1 y.1 ∧ l.Release x.2.1 y.2.1 ∧
        List.Forall₂ l.Release x.2.2 y.2.2)
      (tryCandidates name s ps j).1 (tryCandidates name t qs j').1 ∧
      l.Journal (tryCandidates name s ps j).2 (tryCandidates name t qs j').2 := by
  induction hps generalizing j j' with
  | nil => exact ⟨.none, hj⟩
  | @cons p q ps qs hp hps ih =>
    have hpin := l.pin hs hp name
    unfold Search.tryCandidates
    generalize s.pin name p = x, t.pin name q = y at hpin
    cases hpin with
    | granted h => exact ⟨.some ⟨h, hp, hps⟩, hj⟩
    | refused hc => exact ih ((hj.blame hc).record (.rejecting hp hc))

theorem advance {fs fs' : List Search.Frame} (hfs : List.Forall₂ l.Frame fs fs')
    (hj : l.Journal j j') :
    Option.Rel (fun x y => l.State x.1 y.1 ∧ List.Forall₂ l.Frame x.2 y.2)
      (advance fs j).1 (advance fs' j').1 ∧ l.Journal (advance fs j).2 (advance fs' j').2 := by
  induction hfs generalizing j j' with
  | nil => exact ⟨.none, hj⟩
  | @cons f f' fs fs' hf hfs ih =>
    have htry := tryCandidates f.name hf.base hf.candidates hj
    unfold Search.advance
    rw [← hf.name]
    generalize Search.tryCandidates f.name f.base f.candidates j = x,
      Search.tryCandidates f.name f'.base f'.candidates j' = y at htry
    obtain ⟨o, k⟩ := x
    obtain ⟨o', k'⟩ := y
    obtain ⟨ho, hk⟩ := htry
    cases ho with
    | none => exact ih (hk.record (.backtracking f.name))
    | some h =>
      obtain ⟨hs, hp, hrest⟩ := h
      refine ⟨.some ⟨hs, .cons ⟨rfl, hrest, hf.base, .some hp⟩ hfs⟩, ?_⟩
      exact hk.record (.pinning f.name hp)

/-! ## All rounds -/

theorem rounds (n : Nat) : ∀ (index : Nat) {fs fs' : List Search.Frame} {j j' : Search.Journal},
    List.Forall₂ l.Frame fs fs' → l.Journal j j' →
    l.Run (rounds g n index fs j) (rounds g' n index fs' j') := by
  induction n with
  | zero =>
    intro index fs fs' j j' hfs hj
    exact ⟨.outOfRounds, hfs, hj⟩
  | succ n ih =>
    intro index fs fs' j j' hfs hj
    have hstep := advance hfs (hj.record (.round index))
    unfold Search.rounds
    generalize Search.advance fs (j.record (.round index)) = x,
      Search.advance fs' (j'.record (.round index)) = y at hstep
    obtain ⟨o, k⟩ := x
    obtain ⟨o', k'⟩ := y
    obtain ⟨ho, hk⟩ := hstep
    cases ho with
    | none => exact ⟨.exhausted, .nil, hk⟩
    | @some a b h =>
      obtain ⟨s, gs⟩ := a
      obtain ⟨t, gs'⟩ := b
      obtain ⟨hs, hgs⟩ := h
      have hnext := l.next hs
      dsimp only
      generalize s.next? = e, t.next? = e' at hnext
      cases hnext with
      | none => exact ⟨.solved hs, hgs, hk⟩
      | some he =>
        have hopen := openFrame hs he.1 he.2 hk
        dsimp only
        generalize Search.openFrame g s _ _ k = x, Search.openFrame g' t _ _ k' = y at hopen
        cases hopen with
        | refused he => cases he; exact ⟨.failed _, hgs, hk⟩
        | granted h => exact ih (index + 1) (.cons h.1 hgs) h.2

variable (l) in
theorem run {roots roots' : OrderedMap String Constraint} (hr : l.Roots roots roots') (n : Nat) :
    l.Run (run g roots n) (run g' roots' n) := by
  have hs := l.initial hr
  have hj : l.Journal .empty .empty := ⟨l.causes_nil, .nil⟩
  have hnext := l.next hs
  unfold Search.run
  generalize (State.initial roots).next? = e, (State.initial roots').next? = e' at hnext
  cases hnext with
  | none => exact ⟨.solved hs, .nil, hj⟩
  | some he =>
    have hopen := openFrame hs he.1 he.2 hj
    dsimp only
    generalize Search.openFrame g _ _ _ _ = x, Search.openFrame g' _ _ _ _ = y at hopen
    cases hopen with
    | refused he => cases he; exact ⟨.failed _, .nil, hj⟩
    | granted h => exact rounds n 0 (.cons h.1 .nil) h.2

/-- Corresponding releases are chosen, for the same names and in the same order. -/
theorem choices {fs fs' : List Search.Frame} (h : List.Forall₂ l.Frame fs fs') :
    List.Forall₂ (EntryRelated l.Release) (choices fs) (choices fs') := by
  refine List.rel_filterMap ?_ (List.rel_reverse h)
  intro f f' hf
  have hp := hf.pinned
  simp only [hf.name]
  generalize f.pinned = o, f'.pinned = o' at hp
  cases hp with
  | none => exact .none
  | some hp => exact .some ⟨rfl, hp⟩

theorem packages_of_solved {roots roots' : OrderedMap String Constraint} {limit limit' : Nat}
    (h : l.Run (Search.run g roots limit) (Search.run g' roots' limit'))
    (hs : (Search.run g roots limit).ending = .solved s)
    (ht : (Search.run g' roots' limit').ending = .solved t) :
    (Search.run g roots limit).packages.Related l.Release
      (Search.run g' roots' limit').packages := by
  unfold OrderedMap.Related
  rw [entries_packages_of_solved hs, entries_packages_of_solved ht]
  exact choices h.frames

end Lockstep
end Search

open Search

/-! ## Answers -/

/-- Two resolutions, two problems without one for related causes, or the same error. -/
inductive Outcome.Related (R : Resolution → Resolution → Prop)
    (C : List Requirement → List Requirement → Prop) :
    Except SolveError Outcome → Except SolveError Outcome → Prop where
  | resolved {r r' : Resolution} : R r r' → Related R C (.ok (.resolved r)) (.ok (.resolved r'))
  | unsatisfiable {causes causes' : List Requirement} : C causes causes' →
      Related R C (.ok (.unsatisfiable causes)) (.ok (.unsatisfiable causes'))
  | failed (e : SolveError) : Related R C (.error e) (.error e)

structure Report.Related (R : Resolution → Resolution → Prop)
    (C : List Requirement → List Requirement → Prop) (E : Event → Event → Prop)
    (r r' : Report) : Prop where
  result : Outcome.Related R C r.result r'.result
  events : List.Forall₂ E r.events r'.events

/-- Two searches in lockstep give related answers, if that follows for the resolutions from what is
chosen and for the causes from how they correspond. -/
theorem Search.Lockstep.solve {g g' : Catalog} (l : Lockstep g g')
    {roots roots' : OrderedMap String Constraint} (hr : l.Roots roots roots')
    {R : Resolution → Resolution → Prop} {C : List Requirement → List Requirement → Prop}
    (hresolved : ∀ {mapping packages packages' graph graph'}, packages.Related l.Release packages' →
      Graph.ofPackages packages roots.keys = .ok graph →
      Graph.ofPackages packages' roots'.keys = .ok graph' →
      R ⟨mapping, packages, graph⟩ ⟨mapping, packages', graph'⟩)
    (hcauses : ∀ {causes causes'}, l.Causes causes causes' → C causes causes') (maxRounds : Int) :
    (PackageResolution.solve g roots maxRounds).Related R C l.Event
      (PackageResolution.solve g' roots' maxRounds) := by
  have hrun := l.run hr maxRounds.toNat
  have hevents := List.Forall₂.cons (Event.Related.starting hr) hrun.journal.events
  have hend := hrun.ending
  unfold PackageResolution.solve Run.report
  -- the endings are of one kind, so the mixed pairs are excluded
  cases hs : (Search.run g roots maxRounds.toNat).ending <;>
    cases ht : (Search.run g' roots' maxRounds.toNat).ending <;> rw [hs, ht] at hend <;>
    cases hend
  case solved s t hst =>
    obtain ⟨graph, hgraph⟩ := exists_graph_of_solved hs
    obtain ⟨graph', hgraph'⟩ := exists_graph_of_solved ht
    simp only [hgraph, hgraph', l.solutions hst]
    exact ⟨.resolved (hresolved (packages_of_solved hrun hs ht) hgraph hgraph'),
      List.rel_append hevents (.cons (.ending _) .nil)⟩
  case exhausted =>
    have hc := hrun.journal.causes
    exact ⟨.unsatisfiable (hcauses hc),
      List.rel_append hevents (.cons (.endingUnsatisfiable hc) .nil)⟩
  case outOfRounds => exact ⟨.failed _, hevents⟩
  case failed => exact ⟨.failed _, hevents⟩

end PackageResolution
