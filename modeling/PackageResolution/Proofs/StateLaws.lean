import Mathlib.Tactic.Tauto
import PackageResolution.Proofs.Intersection
import PackageResolution.Search.State

/-!
# PackageResolution.Proofs.StateLaws

What a search state says about the versions that can still come out of it. Adding a requirement
leaves exactly the versions that meet it, and is refused only if none of them do.

* `Satisfies`: the versions chosen for some names meet constraints on names.
* `State.Fits`: versions that agree with what is chosen and meet what is pending.
* `State.Mentions`, `State.Apart`: the names met with so far; none is both chosen and pending.
* `State.require_cases`: all that adding a requirement can do. The laws of `require`, `requireAll`
  and `pin` follow from it.
-/

namespace PackageResolution
namespace Search

/-- The version chosen for `name` lies in the range. -/
def Meets (f : String → Option Version) (name : String) (c : Constraint) : Prop :=
  ∃ v, f name = some v ∧ c.contains v = true

def Satisfies (f : String → Option Version) (demands : OrderedMap String Constraint) : Prop :=
  ∀ name c, demands.get? name = some c → Meets f name c

theorem satisfies_dependencies_iff {f : String → Option Version} {p : Package} :
    Satisfies f p.dependencies ↔ ∀ r ∈ p.requirements, Meets f r.name r.constraint := by
  simp only [Satisfies, OrderedMap.get?_eq_some_iff, Package.requirements, List.mem_map]
  constructor
  · rintro h _ ⟨e, he, rfl⟩
    exact h e.1 e.2 he
  · intro h name c he
    exact h ⟨name, c, some p⟩ ⟨(name, c), he, rfl⟩

theorem mem_dependencies_iff {p : Package} {n : String} :
    n ∈ p.dependencies ↔ ∃ r ∈ p.requirements, r.name = n := by
  simp only [OrderedMap.mem_iff, OrderedMap.keys, Package.requirements, List.mem_map]
  constructor
  · rintro ⟨e, he, rfl⟩
    exact ⟨_, ⟨e, he, rfl⟩, rfl⟩
  · rintro ⟨_, ⟨e, he, rfl⟩, rfl⟩
    exact ⟨e, he, rfl⟩

namespace State

variable {s s' : State} {r : Requirement} {f : String → Option Version}

/-- The versions of `f` are a way to complete the state. -/
structure Fits (s : State) (f : String → Option Version) : Prop where
  pending : Satisfies f s.pending
  solutions : ∀ n v, s.solutions.get? n = some v → f n = some v

/-- The name has been met with, as a root or as a dependency. -/
def Mentions (s : State) (n : String) : Prop := n ∈ s.pending ∨ n ∈ s.solutions

/-- No chosen name is pending. -/
def Apart (s : State) : Prop := ∀ n ∈ s.pending, n ∉ s.solutions

@[simp] theorem note_pending (s : State) (r : Requirement) : (s.note r).pending = s.pending := rfl
@[simp] theorem note_solutions (s : State) (r : Requirement) :
    (s.note r).solutions = s.solutions := rfl
@[simp] theorem await_pending (s : State) (n : String) (c : Constraint) :
    (s.await n c).pending = s.pending.insert n c := rfl
@[simp] theorem await_solutions (s : State) (n : String) (c : Constraint) :
    (s.await n c).solutions = s.solutions := rfl
@[simp] theorem choose_pending (s : State) (n : String) (v : Version) :
    (s.choose n v).pending = s.pending := rfl
@[simp] theorem choose_solutions (s : State) (n : String) (v : Version) :
    (s.choose n v).solutions = s.solutions.insert n v := rfl
@[simp] theorem withdraw_pending (s : State) (n : String) :
    (s.withdraw n).pending = s.pending.erase n := rfl
@[simp] theorem withdraw_solutions (s : State) (n : String) :
    (s.withdraw n).solutions = s.solutions := rfl

/-! ## The name to decide next -/

theorem least_eq_none_iff {α : Type} {es : List (String × α)} :
    least? es = none ↔ es = [] := by
  cases es with
  | nil => simp [least?]
  | cons e es =>
    simp only [least?]
    split
    · simp
    · split <;> simp

theorem least_spec {α : Type} {es : List (String × α)} {e : String × α}
    (h : least? es = some e) : e ∈ es ∧ ∀ x ∈ es, e.1 ≤ x.1 := by
  induction es generalizing e with
  | nil => cases h
  | cons y es ih =>
    simp only [least?] at h
    split at h
    · rename_i hn
      cases h
      rw [least_eq_none_iff] at hn
      subst hn
      simp
    · rename_i m hm
      obtain ⟨hmem, hle⟩ := ih hm
      split at h
      · rename_i hlt
        cases h
        refine ⟨List.mem_cons_of_mem _ hmem, ?_⟩
        intro x hx
        rcases List.mem_cons.mp hx with rfl | hx
        · exact Std.le_of_lt hlt
        · exact hle x hx
      · rename_i hlt
        cases h
        refine ⟨List.mem_cons_self, ?_⟩
        intro x hx
        rcases List.mem_cons.mp hx with rfl | hx
        · exact String.le_refl _
        · exact String.le_trans (String.not_lt.mp hlt) (hle x hx)

theorem next?_eq_none_iff : s.next? = none ↔ ∀ n, n ∉ s.pending := by
  rw [next?, least_eq_none_iff]
  constructor
  · intro h n hn
    simp [OrderedMap.mem_iff, OrderedMap.keys, h] at hn
  · intro h
    rw [List.eq_nil_iff_forall_not_mem]
    exact fun e he => h e.1 (List.mem_map_of_mem he)

theorem get?_of_next? {n : String} {c : Constraint} (h : s.next? = some (n, c)) :
    s.pending.get? n = some c :=
  OrderedMap.get?_eq_some_iff.mpr (least_spec h).1

theorem mem_of_next? {n : String} {c : Constraint} (h : s.next? = some (n, c)) : n ∈ s.pending :=
  OrderedMap.mem_of_get?_eq_some (get?_of_next? h)

theorem le_of_next? {n m : String} {c : Constraint} (h : s.next? = some (n, c))
    (hm : m ∈ s.pending) : n ≤ m := by
  obtain ⟨e, he, rfl⟩ := List.mem_map.mp hm
  exact (least_spec h).2 e he

theorem mentions_iff_of_next?_eq_none (h : s.next? = none) {n : String} :
    s.Mentions n ↔ n ∈ s.solutions := by
  have hempty := next?_eq_none_iff.mp h n
  constructor
  · intro hm
    exact hm.resolve_left hempty
  · exact .inr

theorem fits_solutions (h : s.next? = none) : s.Fits s.solutions.get? := by
  constructor
  · intro n c hc
    exact absurd (OrderedMap.mem_of_get?_eq_some hc) (next?_eq_none_iff.mp h n)
  · exact fun _ _ hv => hv

/-! ## Adding a requirement -/

/-- `c` is the constraint of `r` together with what is pending on its name. -/
def Narrows (s : State) (r : Requirement) (c : Constraint) : Prop :=
  s.pending.get? r.name = none ∧ c = r.constraint ∨
    ∃ c₀, s.pending.get? r.name = some c₀ ∧ c₀.intersect r.constraint = some c

theorem contains_of_narrows {c : Constraint} (h : s.Narrows r c) (v : Version) :
    c.contains v = true ↔ r.constraint.contains v = true ∧
      ∀ c₀, s.pending.get? r.name = some c₀ → c₀.contains v = true := by
  rcases h with ⟨hn, rfl⟩ | ⟨c₀, hs, hc⟩
  · simp [hn]
  · rw [Constraint.contains_intersect hc v, Bool.and_eq_true, and_comm]
    simp [hs]

/-- All that adding a requirement can do. -/
theorem require_cases (h : s.require r = .ok s') :
    (∃ v, s.solutions.get? r.name = some v ∧ r.constraint.contains v = true ∧ s' = s.note r) ∨
    (∃ c, r.name ∉ s.solutions ∧ s.Narrows r c ∧ s' = (s.await r.name c).note r) := by
  simp only [require] at h
  split at h
  · rename_i v hv
    split at h
    · rename_i hc; cases h; exact .inl ⟨v, hv, hc, rfl⟩
    · cases h
  · rename_i hs
    rw [OrderedMap.get?_eq_none_iff] at hs
    split at h
    · rename_i hp; cases h; exact .inr ⟨_, hs, .inl ⟨hp, rfl⟩, rfl⟩
    · rename_i c hp
      split at h
      · cases h
      · rename_i merged hm; cases h; exact .inr ⟨merged, hs, .inr ⟨c, hp, hm⟩, rfl⟩

theorem solutions_require (h : s.require r = .ok s') : s'.solutions = s.solutions := by
  rcases require_cases h with ⟨_, _, _, rfl⟩ | ⟨_, _, _, rfl⟩ <;> rfl

theorem mem_pending_require (h : s.require r = .ok s') {n : String} :
    n ∈ s'.pending ↔ n ∈ s.pending ∨ n = r.name ∧ n ∉ s.solutions := by
  rcases require_cases h with ⟨v, hv, _, rfl⟩ | ⟨c, hs, _, rfl⟩
  · have hmem := OrderedMap.mem_of_get?_eq_some hv
    rw [note_pending]
    constructor
    · exact .inl
    · rintro (hn | ⟨rfl, hn⟩)
      · exact hn
      · exact absurd hmem hn
  · rw [note_pending, await_pending, OrderedMap.mem_insert]
    constructor
    · rintro (rfl | hn)
      · exact .inr ⟨rfl, hs⟩
      · exact .inl hn
    · rintro (hn | ⟨he, _⟩)
      · exact .inr hn
      · exact .inl he

theorem mentions_require (h : s.require r = .ok s') {n : String} :
    s'.Mentions n ↔ s.Mentions n ∨ n = r.name := by
  simp only [Mentions, mem_pending_require h, solutions_require h]
  tauto

theorem apart_require (h : s.require r = .ok s') (hs : s.Apart) : s'.Apart := by
  intro n hn
  rw [solutions_require h]
  rcases (mem_pending_require h).mp hn with hn | ⟨_, hn⟩
  · exact hs n hn
  · exact hn

theorem fits_await_iff {c : Constraint} (h : s.Narrows r c) :
    ((s.await r.name c).note r).Fits f ↔ s.Fits f ∧ Meets f r.name r.constraint := by
  constructor
  · intro hf
    obtain ⟨v, hv, hc⟩ := hf.pending r.name c (by simp [OrderedMap.get?_insert])
    obtain ⟨hr, hall⟩ := (contains_of_narrows h v).mp hc
    refine ⟨⟨?_, hf.solutions⟩, v, hv, hr⟩
    intro n c₀ hn
    by_cases he : n = r.name
    · subst he; exact ⟨v, hv, hall c₀ hn⟩
    · exact hf.pending n c₀ (by simpa [OrderedMap.get?_insert, he] using hn)
  · rintro ⟨hf, v, hv, hr⟩
    refine ⟨?_, hf.solutions⟩
    intro n c' hn
    rw [note_pending, await_pending, OrderedMap.get?_insert] at hn
    split at hn
    · rename_i he
      cases hn
      refine ⟨v, he ▸ hv, (contains_of_narrows h v).mpr ⟨hr, ?_⟩⟩
      intro c₀ hc₀
      obtain ⟨w, hw, hc⟩ := hf.pending r.name c₀ hc₀
      rw [hv] at hw; cases hw; exact hc
    · exact hf.pending n c' hn

theorem fits_require (h : s.require r = .ok s') :
    s'.Fits f ↔ s.Fits f ∧ Meets f r.name r.constraint := by
  rcases require_cases h with ⟨v, hv, hc, rfl⟩ | ⟨c, _, hn, rfl⟩
  · have hfit : (s.note r).Fits f ↔ s.Fits f :=
      ⟨fun hf => ⟨hf.pending, hf.solutions⟩, fun hf => ⟨hf.pending, hf.solutions⟩⟩
    rw [hfit]
    exact ⟨fun hf => ⟨hf, v, hf.solutions _ v hv, hc⟩, And.left⟩
  · exact fits_await_iff hn

theorem not_meets_of_require_eq_error {causes : List Requirement} (h : s.require r = .error causes)
    (hf : s.Fits f) : ¬ Meets f r.name r.constraint := by
  rintro ⟨v, hv, hr⟩
  simp only [require] at h
  split at h
  · rename_i w hw
    split at h
    · cases h
    · rename_i hc
      rw [hf.solutions _ w hw] at hv
      cases hv
      exact hc hr
  · split at h
    · cases h
    · rename_i c hp
      split at h
      · rename_i hx
        obtain ⟨w, hw, hc⟩ := hf.pending _ c hp
        rw [hv] at hw
        cases hw
        have := Constraint.not_contains_of_intersect_eq_none hx v
        rw [hc, hr] at this
        cases this
      · cases h

/-! ## Adding the requirements of a release -/

theorem requireAll_cons_eq_ok {rs : List Requirement} :
    s.requireAll (r :: rs) = .ok s' ↔ ∃ t, s.require r = .ok t ∧ t.requireAll rs = .ok s' := by
  rw [requireAll]
  cases s.require r with
  | error causes => simp
  | ok t => simp

theorem solutions_requireAll {rs : List Requirement} (h : s.requireAll rs = .ok s') :
    s'.solutions = s.solutions := by
  induction rs generalizing s with
  | nil => cases h; rfl
  | cons r rs ih =>
    obtain ⟨t, ht, h⟩ := requireAll_cons_eq_ok.mp h
    rw [ih h, solutions_require ht]

theorem mentions_requireAll {rs : List Requirement} (h : s.requireAll rs = .ok s') {n : String} :
    s'.Mentions n ↔ s.Mentions n ∨ ∃ r ∈ rs, r.name = n := by
  induction rs generalizing s with
  | nil => cases h; simp
  | cons r rs ih =>
    obtain ⟨t, ht, h⟩ := requireAll_cons_eq_ok.mp h
    rw [ih h, mentions_require ht, or_assoc, eq_comm (a := n)]
    simp

theorem apart_requireAll {rs : List Requirement} (h : s.requireAll rs = .ok s') (hs : s.Apart) :
    s'.Apart := by
  induction rs generalizing s with
  | nil => cases h; exact hs
  | cons r rs ih =>
    obtain ⟨t, ht, h⟩ := requireAll_cons_eq_ok.mp h
    exact ih h (apart_require ht hs)

theorem fits_requireAll {rs : List Requirement} (h : s.requireAll rs = .ok s') :
    s'.Fits f ↔ s.Fits f ∧ ∀ r ∈ rs, Meets f r.name r.constraint := by
  induction rs generalizing s with
  | nil => cases h; simp
  | cons r rs ih =>
    obtain ⟨t, ht, h⟩ := requireAll_cons_eq_ok.mp h
    rw [ih h, fits_require ht, List.forall_mem_cons, and_assoc]

/-- Requirements that some completion of the state meets are not refused. -/
theorem exists_requireAll_of_fits {rs : List Requirement} (hf : s.Fits f)
    (hm : ∀ r ∈ rs, Meets f r.name r.constraint) : ∃ s', s.requireAll rs = .ok s' := by
  induction rs generalizing s with
  | nil => exact ⟨s, rfl⟩
  | cons r rs ih =>
    rw [List.forall_mem_cons] at hm
    cases ht : s.require r with
    | error causes => exact absurd hm.1 (not_meets_of_require_eq_error ht hf)
    | ok t =>
      obtain ⟨s', h⟩ := ih ((fits_require ht).mpr ⟨hf, hm.1⟩) hm.2
      exact ⟨s', requireAll_cons_eq_ok.mpr ⟨t, ht, h⟩⟩

/-! ## Choosing a release for the next name -/

section Pin

variable {n : String} {c : Constraint} {p : Package}

theorem mentions_choose {v : Version} (hn : s.next? = some (n, c)) {m : String} :
    ((s.withdraw n).choose n v).Mentions m ↔ s.Mentions m := by
  simp only [Mentions, choose_pending, withdraw_pending, choose_solutions, withdraw_solutions,
    OrderedMap.mem_erase, OrderedMap.mem_insert]
  have hp := mem_of_next? hn
  by_cases he : m = n
  · subst he; simp [hp]
  · simp [he]

theorem apart_choose {v : Version} (hs : s.Apart) : ((s.withdraw n).choose n v).Apart := by
  intro m hm
  rw [choose_pending, withdraw_pending, OrderedMap.mem_erase] at hm
  rw [choose_solutions, withdraw_solutions, OrderedMap.mem_insert]
  rintro (he | hmem)
  · exact hm.1 he
  · exact hs m hm.2 hmem

theorem fits_choose {v : Version} (hs : s.Apart) (hn : s.next? = some (n, c))
    (hc : c.contains v = true) :
    ((s.withdraw n).choose n v).Fits f ↔ s.Fits f ∧ f n = some v := by
  have hfree := OrderedMap.get?_eq_none_iff.mpr (hs n (mem_of_next? hn))
  constructor
  · intro hf
    have hv : f n = some v := hf.solutions n v (by simp [OrderedMap.get?_insert])
    refine ⟨⟨?_, ?_⟩, hv⟩
    · intro m c' hm
      by_cases he : m = n
      · subst he
        rw [get?_of_next? hn] at hm
        cases hm
        exact ⟨v, hv, hc⟩
      · exact hf.pending m c' (by simpa [OrderedMap.get?_erase, he] using hm)
    · intro m w hm
      have he : m ≠ n := by rintro rfl; rw [hfree] at hm; cases hm
      exact hf.solutions m w (by simpa [OrderedMap.get?_insert, he] using hm)
  · rintro ⟨hf, hv⟩
    refine ⟨?_, ?_⟩
    · intro m c' hm
      rw [choose_pending, withdraw_pending, OrderedMap.get?_erase] at hm
      split at hm
      · cases hm
      · exact hf.pending m c' hm
    · intro m w hm
      rw [choose_solutions, withdraw_solutions, OrderedMap.get?_insert] at hm
      split at hm
      · rename_i he; cases hm; exact he ▸ hv
      · exact hf.solutions m w hm

theorem solutions_pin (h : (s.withdraw n).pin n p = .ok s') :
    s'.solutions = s.solutions.insert n p.version :=
  solutions_requireAll h

theorem mentions_pin (hn : s.next? = some (n, c)) (h : (s.withdraw n).pin n p = .ok s')
    {m : String} : s'.Mentions m ↔ s.Mentions m ∨ m ∈ p.dependencies := by
  rw [mentions_requireAll h, mentions_choose hn, mem_dependencies_iff]

theorem apart_pin (hs : s.Apart) (h : (s.withdraw n).pin n p = .ok s') : s'.Apart :=
  apart_requireAll h (apart_choose hs)

theorem fits_pin (hs : s.Apart) (hn : s.next? = some (n, c)) (hc : c.contains p.version = true)
    (h : (s.withdraw n).pin n p = .ok s') :
    s'.Fits f ↔ s.Fits f ∧ f n = some p.version ∧ Satisfies f p.dependencies := by
  rw [fits_requireAll h, fits_choose hs hn hc, satisfies_dependencies_iff, and_assoc]

/-- A candidate that some completion chooses, with all that it asks, is not refused. -/
theorem exists_pin_of_fits (hs : s.Apart) (hn : s.next? = some (n, c))
    (hc : c.contains p.version = true) (hf : s.Fits f) (hv : f n = some p.version)
    (hd : Satisfies f p.dependencies) : ∃ s', (s.withdraw n).pin n p = .ok s' :=
  exists_requireAll_of_fits ((fits_choose hs hn hc).mpr ⟨hf, hv⟩)
    (satisfies_dependencies_iff.mp hd)

end Pin

end State
end Search
end PackageResolution
