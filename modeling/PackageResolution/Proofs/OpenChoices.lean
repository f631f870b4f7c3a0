import PackageResolution.Proofs.Completeness
import PackageResolution.Proofs.Truncation

/-!
# PackageResolution.Proofs.OpenChoices

The stack of open choices between two rounds. The candidates of a choice below the top may have been
tried in vain many times, and the choice may be taken up again; all the same, what each frame
remembers is what the roots and the choices below it come to.

* `Frame.Consistent`: a frame agrees with the frames below it.
* `Orderly`: a stack in which all frames do. `Branch.orderly` and `orderly_of_reaches` say that this
  holds after a choice and with the next choice open, and `orderly_of_mem_runStacks` that it holds
  throughout a run.
* `open_choices_orderly`: that, and what a search has in hand when it ends with a solution.
-/

namespace PackageResolution
namespace Search

variable {roots : OrderedMap String Constraint}

/-- What an open choice remembers agrees with the choices below it. -/
structure Frame.Consistent (roots : OrderedMap String Constraint) (f : Frame)
    (below : List Frame) : Prop where
  apart : f.base.Apart
  not_pending : f.name ∉ f.base.pending
  not_chosen : f.name ∉ f.base.solutions
  chosen : f.base.solutions.entries = (choices below).map fun e => (e.1, e.2.version)
  /-- Nothing is waiting but what the roots and the chosen releases have named. -/
  mentioned : ∀ n, n = f.name ∨ f.base.Mentions n ↔
    n ∈ roots ∨ ∃ e ∈ choices below, n ∈ e.2.dependencies

/-- A stack of open choices, the latest first, that fit together. -/
structure Orderly (g : Catalog) (roots : OrderedMap String Constraint) (frames : List Frame) :
    Prop where
  nodup : (frames.map (·.name)).Nodup
  pinned : ∀ f ∈ frames.tail, f.pinned.isSome = true
  listed : ∀ f ∈ frames, ∀ p, f.pinned = some p → p ∈ g.repository.lookup f.name
  consistent : ∀ above f below, frames = above ++ f :: below → f.Consistent roots below

variable {g : Catalog} {frames fs : List Frame} {f : Frame} {s : State}

/-! ## One choice -/

theorem State.mentions_withdraw {name : String} {c : Constraint} (hn : s.next? = some (name, c))
    (n : String) : n = name ∨ (s.withdraw name).Mentions n ↔ s.Mentions n := by
  have hp := State.mem_of_next? hn
  simp only [State.Mentions, State.withdraw_pending, State.withdraw_solutions, OrderedMap.mem_erase]
  by_cases he : n = name
  · subst he; simp [hp]
  · simp [he]

/-- A choice that is opened on a branch agrees with that branch. -/
theorem Branch.consistent (h : Branch g roots fs s) {c : Constraint}
    (hn : s.next? = some (f.name, c)) (hbase : f.base = s.withdraw f.name) :
    f.Consistent roots fs where
  apart n hmem hs := by
    rw [hbase] at hmem hs
    exact h.apart n (OrderedMap.mem_erase.mp hmem).2 hs
  not_pending hmem := by
    rw [hbase] at hmem
    exact (OrderedMap.mem_erase.mp hmem).1 rfl
  not_chosen hs := by
    rw [hbase] at hs
    exact h.apart f.name (State.mem_of_next? hn) hs
  chosen := by
    rw [hbase]
    exact h.entries_solutions
  mentioned n := by
    rw [hbase]
    exact (State.mentions_withdraw hn n).trans h.mentions_iff

/-- Whatever release is tried for an open choice, no chosen name is left pending. -/
theorem Frame.Consistent.apart_of_pin (h : f.Consistent roots fs) {p : Package}
    (hp : f.base.pin f.name p = .ok s) : s.Apart := by
  refine State.apart_requireAll hp ?_
  intro n hn
  rw [State.choose_solutions, OrderedMap.mem_insert]
  rintro (rfl | hs)
  · exact h.not_pending hn
  · exact h.apart n hn hs

/-! ## The stack of a branch -/

namespace Branch

theorem pinned_listed (h : Branch g roots fs s) :
    ∀ f ∈ fs, ∃ p, f.pinned = some p ∧ p ∈ g.repository.lookup f.name := by
  induction h with
  | start => exact nofun
  | @pin _ _ _ _ _ p tried rest _ _ hc _ _ ih =>
    have hmem := (Catalog.mem_of_found hc).mp (List.mem_append_right tried List.mem_cons_self)
    exact List.forall_mem_cons.mpr ⟨⟨p, rfl, hmem.1⟩, ih⟩

theorem isSome_pinned (h : Branch g roots fs s) : ∀ f ∈ fs, f.pinned.isSome = true := by
  intro f hf
  obtain ⟨p, hp, _⟩ := h.pinned_listed f hf
  rw [hp]
  rfl

theorem names_choices (h : Branch g roots fs s) :
    (choices fs).map Prod.fst = (fs.map (·.name)).reverse := by
  induction h with
  | start => rfl
  | pin _ _ _ _ _ ih =>
    rw [choices_cons, List.map_append, ih]
    simp

theorem orderly (h : Branch g roots fs s) : Orderly g roots fs where
  nodup := List.nodup_reverse.mp (h.names_choices ▸ h.nodup_choices)
  pinned f hf := h.isSome_pinned f (List.mem_of_mem_tail hf)
  listed f hf p hp := by
    obtain ⟨q, hq, hl⟩ := h.pinned_listed f hf
    rw [hq] at hp
    cases hp
    exact hl
  consistent _ _ _ hs := by
    obtain ⟨_, _, hb, hn, hbase, _⟩ := h.exists_below hs
    exact hb.consistent hn hbase

end Branch

/-! ## Whole runs -/

/-- With the next choice open on top, the stack stays in order. -/
theorem orderly_of_reaches {k : Nat} {j : Journal} (h : Reaches g roots k frames j) :
    Orderly g roots frames := by
  have hconsistent (above : List Frame) (f : Frame) (below : List Frame)
      (hs : frames = above ++ f :: below) : f.Consistent roots below := by
    obtain ⟨_, _, hb, hn, hbase, _⟩ := exists_below_of_reaches h hs
    exact hb.consistent hn hbase
  obtain ⟨f, fs, s, rfl, hb, _, hp⟩ := branch_of_reaches h
  have hfs := hb.orderly
  have hf := hconsistent [] f fs rfl
  refine ⟨?_, hb.isSome_pinned, ?_, hconsistent⟩
  · rw [List.map_cons, List.nodup_cons]
    refine ⟨fun hmem => hf.not_chosen ?_, hfs.nodup⟩
    rw [OrderedMap.mem_iff, OrderedMap.keys, hf.chosen, List.map_map]
    show f.name ∈ (choices fs).map Prod.fst
    rw [hb.names_choices]
    exact List.mem_reverse.mpr hmem
  · rw [List.forall_mem_cons]
    refine ⟨fun p hp' => ?_, hfs.listed⟩
    rw [hp] at hp'
    cases hp'

theorem mem_roundStacks {n k : Nat} {j : Journal} (h : Reaches g roots k frames j)
    (hfs : fs ∈ roundStacks g n k frames j) :
    (∃ s, Branch g roots fs s) ∨ ∃ l j', Reaches g roots l fs j' := by
  induction n generalizing k frames j with
  | zero => exact .inr ⟨k, j, List.mem_singleton.mp hfs ▸ h⟩
  | succ n ih =>
    rw [roundStacks] at hfs
    rcases List.mem_cons.mp hfs with rfl | hfs
    · exact .inr ⟨k, j, h⟩
    · split at hfs
      · rw [List.mem_singleton.mp hfs]
        exact .inl ⟨_, .start⟩
      · rename_i s frames' j' ha
        split at hfs
        · rw [List.mem_singleton.mp hfs]
          exact .inl ⟨s, pinsAt_branch ⟨_, _, _, h, ha⟩⟩
        · rename_i name c hn
          split at hfs
          · rw [List.mem_singleton.mp hfs]
            exact .inl ⟨s, pinsAt_branch ⟨_, _, _, h, ha⟩⟩
          · rename_i f j'' hf
            exact ih (.next h ha hn hf) hfs

theorem orderly_of_mem_runStacks {limit : Nat} (h : fs ∈ runStacks g roots limit) :
    Orderly g roots fs := by
  have hstart : Branch g roots [] (State.initial roots) := .start
  rw [runStacks] at h
  split at h
  · exact List.mem_singleton.mp h ▸ hstart.orderly
  · rename_i name c hn
    split at h
    · exact List.mem_singleton.mp h ▸ hstart.orderly
    · rename_i f j hf
      rcases mem_roundStacks (.start hn hf) h with ⟨s, hb⟩ | ⟨k, j, hr⟩
      · exact hb.orderly
      · exact orderly_of_reaches hr

/-- At every point between two rounds the stack of open choices is in order, and no release that is
tried for a choice leaves a name both chosen and pending. A run that ends with a solution has made
all its choices; they are the versions of the solution, and there is a graph of them. -/
theorem open_choices_orderly (g : Catalog) (roots : OrderedMap String Constraint) (limit : Nat) :
    (∀ frames ∈ runStacks g roots limit, Orderly g roots frames ∧
      ∀ f ∈ frames, ∀ p s, f.base.pin f.name p = .ok s → s.Apart) ∧
    (runStacks g roots limit).getLast? = some (run g roots limit).frames ∧
    ∀ s, (run g roots limit).ending = .solved s →
      (∀ f ∈ (run g roots limit).frames, f.pinned.isSome = true) ∧ s.Apart ∧
      s.solutions.entries =
        (run g roots limit).packages.entries.map (fun e => (e.1, e.2.version)) ∧
      ∃ graph, Graph.ofPackages (run g roots limit).packages roots.keys = .ok graph := by
  refine ⟨fun frames hfs => ?_, getLast?_runStacks g roots limit, fun s hs => ?_⟩
  · have ho := orderly_of_mem_runStacks hfs
    refine ⟨ho, fun f hf p s hp => ?_⟩
    obtain ⟨above, below, he⟩ := List.append_of_mem hf
    exact (ho.consistent above f below he).apart_of_pin hp
  · obtain ⟨hb, _⟩ := branch_of_solved hs
    refine ⟨hb.isSome_pinned, hb.apart, ?_, exists_graph_of_solved hs⟩
    rw [entries_packages_of_solved hs]
    exact hb.entries_solutions

/-- After two rounds the release chosen for `a` has been replaced, and `b` is open above it. -/
theorem detour_open_choices :
    ∃ b a, [b, a] ∈ runStacks Detour.catalog Detour.demands 10 ∧ b.name = "b" ∧
      b.pinned = none ∧ a.pinned = some Detour.a₁ ∧
      Orderly Detour.catalog Detour.demands [b, a] ∧
      (∃ s, b.base.pin b.name Detour.b₂ = .ok s ∧ s.Apart) ∧
      ∃ s, (run Detour.catalog Detour.demands 10).ending = .solved s ∧ s.Apart ∧
        s.solutions.entries = [("a", Detour.version 1), ("b", Detour.version 2)] ∧
        ∃ graph, Graph.ofPackages (run Detour.catalog Detour.demands 10).packages
          Detour.demands.keys = .ok graph := by
  have hstart : Reaches Detour.catalog Detour.demands 0 _ _ := .start rfl rfl
  have hfirst : Reaches Detour.catalog Detour.demands 1 _ _ := .next hstart rfl rfl rfl
  have hsecond : Reaches Detour.catalog Detour.demands 2 _ _ := .next hfirst rfl rfl rfl
  have hmem := List.mem_of_getElem? (getElem?_runStacks hsecond (show 2 ≤ 10 by decide))
  obtain ⟨hpoints, _, hend⟩ := open_choices_orderly Detour.catalog Detour.demands 10
  obtain ⟨horderly, hpins⟩ := hpoints _ hmem
  have hsolved : (run Detour.catalog Detour.demands 10).ending = .solved _ := rfl
  obtain ⟨_, hapart, hentries, hgraph⟩ := hend _ hsolved
  exact ⟨_, _, hmem, rfl, rfl, rfl, horderly,
    ⟨_, rfl, hpins _ List.mem_cons_self Detour.b₂ _ rfl⟩, _, hsolved, hapart, hentries, hgraph⟩

end Search
end PackageResolution
