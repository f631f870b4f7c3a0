import PackageResolution.Proofs.Rearrangement
import PackageResolution.Proofs.StateLaws

/-!
# PackageResolution.Proofs.MergeOrder

Adding requirements in a different order. A release asks for each name once, and what a requirement
does depends on its own name alone, so the order in which they are added changes neither whether one
of them is refused nor what is pending in the end. It can change which one is refused first, and
with it the causes that are reported.

* `State.Alike`: states that a search takes for the same.
* `State.absorbed`: what a constraint makes of its name. `State.absorbed_of_requireAll` says the
  same of many requirements at once, without their order.
* `State.next?_congr`, `State.pin_alike`: alike states decide the same name next, and choosing
  rearranged releases in them is refused in both or leads to alike states.
-/

namespace PackageResolution
namespace Search
namespace State

/-- The same choices, and the same constraint pending on every name. If `fixed`, then the
requirements on a name have been met with in the same order, too. -/
structure Alike (fixed : Prop) (s t : State) : Prop where
  pending : ∀ n, s.pending.get? n = t.pending.get? n
  solutions : s.solutions = t.solutions
  known : fixed → ∀ n, s.known n = t.known n

/-- Both refused, for the same causes if `fixed`, or both granted with states that are alike. -/
abbrev Agree (fixed : Prop) :
    Except (List Requirement) State → Except (List Requirement) State → Prop :=
  Concur (fun causes causes' => fixed → causes = causes') (Alike fixed)

variable {fixed : Prop} {s s' t t' : State} {r : Requirement} {rs rs' : List Requirement}
  {causes causes' : List Requirement}

/-! ## The name to decide next -/

theorem next?_congr (h : ∀ n, s.pending.get? n = t.pending.get? n) : s.next? = t.next? := by
  have hmem (n : String) : n ∈ s.pending ↔ n ∈ t.pending := by
    rw [← not_iff_not, ← OrderedMap.get?_eq_none_iff, ← OrderedMap.get?_eq_none_iff, h n]
  cases hs : s.next? with
  | none =>
    have ht : t.next? = none := by
      rw [next?_eq_none_iff] at hs ⊢
      intro n hn
      exact hs n ((hmem n).mpr hn)
    rw [ht]
  | some e =>
    obtain ⟨n, c⟩ := e
    have hn : n ∈ t.pending := (hmem n).mp (mem_of_next? hs)
    cases ht : t.next? with
    | none => exact absurd hn (next?_eq_none_iff.mp ht n)
    | some e' =>
      obtain ⟨m, d⟩ := e'
      have hm : m ∈ s.pending := (hmem m).mpr (mem_of_next? ht)
      have heq : n = m := String.le_antisymm (le_of_next? hs hm) (le_of_next? ht hn)
      subst heq
      have hcd : some c = some d := by
        rw [← get?_of_next? hs, ← get?_of_next? ht, h n]
      cases hcd
      rfl

/-! ## One requirement -/

/-- What is pending on a name once `c` is required of it; nothing at all if that is refused. -/
def absorbed (s : State) (n : String) (c : Constraint) : Option (Option Constraint) :=
  match s.solutions.get? n with
  | some v => if c.contains v then some (s.pending.get? n) else none
  | none =>
    match s.pending.get? n with
    | none => some (some c)
    | some c₀ => (c₀.intersect c).map some

theorem absorbed_congr {n : String} (c : Constraint) (hs : s.solutions.get? n = t.solutions.get? n)
    (hp : s.pending.get? n = t.pending.get? n) : s.absorbed n c = t.absorbed n c := by
  unfold absorbed
  rw [hs, hp]

theorem absorbed_alike (h : s.Alike fixed t) (n : String) (c : Constraint) :
    s.absorbed n c = t.absorbed n c :=
  absorbed_congr c (by rw [h.solutions]) (h.pending n)

theorem get?_pending_require (h : s.require r = .ok s') {n : String} (hn : n ≠ r.name) :
    s'.pending.get? n = s.pending.get? n := by
  rcases require_cases h with ⟨_, _, _, rfl⟩ | ⟨_, _, _, rfl⟩
  · rfl
  · simp [OrderedMap.get?_insert, hn]

theorem absorbed_of_require (h : s.require r = .ok s') :
    s.absorbed r.name r.constraint = some (s'.pending.get? r.name) := by
  unfold absorbed
  rcases require_cases h with ⟨v, hv, hc, rfl⟩ | ⟨c, hs, hn, rfl⟩
  · simp [hv, hc]
  · rw [OrderedMap.get?_eq_none_iff.mpr hs]
    rcases hn with ⟨hp, rfl⟩ | ⟨c₀, hp, hc⟩
    · simp [hp, OrderedMap.get?_insert]
    · simp [hp, hc, OrderedMap.get?_insert]

theorem absorbed_of_require_eq_error (h : s.require r = .error causes) :
    s.absorbed r.name r.constraint = none ∧ causes = s.known r.name ++ [r] := by
  unfold require at h
  unfold absorbed
  cases hv : s.solutions.get? r.name with
  | some v =>
    simp only [hv] at h ⊢
    split at h
    · cases h
    · rename_i hc; cases h; exact ⟨if_neg hc, rfl⟩
  | none =>
    simp only [hv] at h ⊢
    cases hp : s.pending.get? r.name with
    | none => simp only [hp] at h; cases h
    | some c₀ =>
      simp only [hp] at h ⊢
      cases hx : c₀.intersect r.constraint with
      | none => simp only [hx] at h; cases h; exact ⟨rfl, rfl⟩
      | some c => simp only [hx] at h; cases h

theorem known_note (s : State) (r : Requirement) (n : String) :
    (s.note r).known n = if n = r.name then s.known n ++ [r] else s.known n := by
  unfold known note
  simp only [OrderedMap.get?_insert]
  split
  · rename_i hn; subst hn; rfl
  · rfl

theorem known_require (h : s.require r = .ok s') (n : String) :
    s'.known n = if n = r.name then s.known n ++ [r] else s.known n := by
  rcases require_cases h with ⟨_, _, _, rfl⟩ | ⟨_, _, _, rfl⟩
  · exact known_note s r n
  · exact known_note (s.await r.name _) r n

theorem require_alike (h : s.Alike fixed t) (r : Requirement) :
    Agree fixed (s.require r) (t.require r) := by
  have habs : s.absorbed r.name r.constraint = t.absorbed r.name r.constraint :=
    absorbed_alike h r.name r.constraint
  cases hs : s.require r with
  | error causes =>
    obtain ⟨hnone, hcs⟩ := absorbed_of_require_eq_error hs
    cases ht : t.require r with
    | ok t' => rw [habs, absorbed_of_require ht] at hnone; cases hnone
    | error causes' =>
      obtain ⟨_, hct⟩ := absorbed_of_require_eq_error ht
      refine .refused ?_
      intro hf
      rw [hcs, hct, h.known hf]
  | ok s' =>
    have hsome := absorbed_of_require hs
    cases ht : t.require r with
    | error causes' =>
      rw [habs, (absorbed_of_require_eq_error ht).1] at hsome
      cases hsome
    | ok t' =>
      refine .granted ⟨?_, ?_, ?_⟩
      · intro n
        by_cases hn : n = r.name
        · subst hn
          rw [habs, absorbed_of_require ht] at hsome
          exact (Option.some.inj hsome).symm
        · rw [get?_pending_require hs hn, get?_pending_require ht hn, h.pending n]
      · rw [solutions_require hs, solutions_require ht, h.solutions]
      · intro hf n
        rw [known_require hs, known_require ht, h.known hf n]

/-! ## Many requirements -/

theorem requireAll_alike (h : s.Alike fixed t) (rs : List Requirement) :
    Agree fixed (s.requireAll rs) (t.requireAll rs) := by
  induction rs generalizing s t with
  | nil => exact .granted h
  | cons r rs ih =>
    have hr := require_alike h r
    unfold requireAll
    cases hs : s.require r <;> cases ht : t.require r <;> rw [hs, ht] at hr
    · cases hr with
      | refused hc => exact .refused hc
    · cases hr
    · cases hr
    · cases hr with
      | granted h' => exact ih h'

/-- Requirements on different names are granted together iff each of them is granted alone, and then
each has done to its name what it does alone. -/
theorem absorbed_of_requireAll (h : s.requireAll rs = .ok s') (hd : (rs.map (·.name)).Nodup) :
    (∀ r ∈ rs, s.absorbed r.name r.constraint = some (s'.pending.get? r.name)) ∧
      ∀ n, (∀ r ∈ rs, r.name ≠ n) → s'.pending.get? n = s.pending.get? n := by
  induction rs generalizing s with
  | nil =>
    cases h
    exact ⟨fun r hr => absurd hr List.not_mem_nil, fun _ _ => rfl⟩
  | cons r rs ih =>
    obtain ⟨t, ht, h⟩ := requireAll_cons_eq_ok.mp h
    rw [List.map_cons, List.nodup_cons] at hd
    have hfresh : ∀ r' ∈ rs, r'.name ≠ r.name := by
      intro r' hr' he
      exact hd.1 (he ▸ List.mem_map_of_mem hr')
    obtain ⟨hmem, hrest⟩ := ih h hd.2
    refine ⟨List.forall_mem_cons.mpr ⟨?_, ?_⟩, ?_⟩
    · rw [absorbed_of_require ht, hrest r.name hfresh]
    · intro r' hr'
      rw [← hmem r' hr']
      exact absorbed_congr _ (by rw [solutions_require ht])
        (get?_pending_require ht (hfresh r' hr')).symm
    · intro n hn
      rw [List.forall_mem_cons] at hn
      rw [hrest n hn.2, get?_pending_require ht (Ne.symm hn.1)]

theorem absorbed_of_requireAll_eq_error (h : s.requireAll rs = .error causes)
    (hd : (rs.map (·.name)).Nodup) : ∃ r ∈ rs, s.absorbed r.name r.constraint = none := by
  induction rs generalizing s with
  | nil => cases h
  | cons r rs ih =>
    rw [List.map_cons, List.nodup_cons] at hd
    unfold requireAll at h
    cases ht : s.require r with
    | error causes' => exact ⟨r, List.mem_cons_self, (absorbed_of_require_eq_error ht).1⟩
    | ok t =>
      rw [ht] at h
      obtain ⟨r', hr', hnone⟩ := ih h hd.2
      have hne : r'.name ≠ r.name := fun he => hd.1 (he ▸ List.mem_map_of_mem hr')
      refine ⟨r', List.mem_cons_of_mem _ hr', ?_⟩
      rw [← hnone]
      exact absorbed_congr _ (by rw [solutions_require ht]) (get?_pending_require ht hne).symm

/-- The names and constraints of `rs` are among those of `rs'`. -/
def Covers (rs' rs : List Requirement) : Prop :=
  ∀ r ∈ rs, ∃ r' ∈ rs', r'.name = r.name ∧ r'.constraint = r.constraint

theorem not_refused_of_covers (h : s.Alike fixed t) (hc : Covers rs rs')
    (hd : (rs.map (·.name)).Nodup) (hd' : (rs'.map (·.name)).Nodup)
    (hs : s.requireAll rs = .ok s') :
    ∃ t', t.requireAll rs' = .ok t' := by
  cases ht : t.requireAll rs' with
  | ok t' => exact ⟨t', rfl⟩
  | error causes =>
    obtain ⟨r', hr', hnone⟩ := absorbed_of_requireAll_eq_error ht hd'
    obtain ⟨r, hr, hn, hcon⟩ := hc r' hr'
    have hsome := (absorbed_of_requireAll hs hd).1 r hr
    rw [hn, hcon, absorbed_alike h, hnone] at hsome
    cases hsome

theorem alike_of_covers (hf : ¬ fixed) (h : s.Alike fixed t) (hc : Covers rs' rs)
    (hc' : Covers rs rs') (hd : (rs.map (·.name)).Nodup) (hd' : (rs'.map (·.name)).Nodup)
    (hs : s.requireAll rs = .ok s') (ht : t.requireAll rs' = .ok t') : s'.Alike fixed t' := by
  obtain ⟨hs₁, hs₂⟩ := absorbed_of_requireAll hs hd
  obtain ⟨ht₁, ht₂⟩ := absorbed_of_requireAll ht hd'
  refine ⟨?_, ?_, fun hx => absurd hx hf⟩
  · intro n
    -- a name that is asked for is left as its one requirement leaves it, all others as they were
    by_cases hn : ∃ r ∈ rs, r.name = n
    · obtain ⟨r, hr, rfl⟩ := hn
      obtain ⟨r', hr', hn', hcon⟩ := hc r hr
      have heq := ht₁ r' hr'
      rw [hn', hcon, ← absorbed_alike h, hs₁ r hr] at heq
      exact Option.some.inj heq
    · have hn₁ : ∀ r ∈ rs, r.name ≠ n := fun r hr he => hn ⟨r, hr, he⟩
      have hn₂ : ∀ r ∈ rs', r.name ≠ n := by
        intro r' hr' he
        obtain ⟨r, hr, hnr, _⟩ := hc' r' hr'
        exact hn₁ r hr (hnr.trans he)
      rw [hs₂ n hn₁, ht₂ n hn₂, h.pending n]
  · rw [solutions_requireAll hs, solutions_requireAll ht, h.solutions]

/-! ## Choosing a release -/

theorem nodup_requirements (p : Package) : (p.requirements.map (·.name)).Nodup := by
  have h : p.requirements.map (·.name) = p.dependencies.keys := by
    simp [Package.requirements, OrderedMap.keys]
  rw [h]
  exact p.dependencies.keys_nodup

theorem covers_requirements {p q : Package}
    (h : ∀ e ∈ p.dependencies.entries, e ∈ q.dependencies.entries) :
    Covers q.requirements p.requirements := by
  intro r hr
  obtain ⟨e, he, rfl⟩ := List.mem_map.mp hr
  exact ⟨_, List.mem_map_of_mem (h e he), rfl, rfl⟩

theorem choose_alike (h : s.Alike fixed t) (n : String) (v : Version) :
    (s.choose n v).Alike fixed (t.choose n v) :=
  ⟨h.pending, by rw [choose_solutions, choose_solutions, h.solutions], h.known⟩

theorem withdraw_alike (h : s.Alike fixed t) (n : String) :
    (s.withdraw n).Alike fixed (t.withdraw n) := by
  refine ⟨?_, h.solutions, h.known⟩
  intro m
  rw [withdraw_pending, withdraw_pending, OrderedMap.get?_erase, OrderedMap.get?_erase, h.pending m]

theorem pin_alike {p q : Package} (h : s.Alike fixed t) (hp : p.Alike fixed q) (n : String) :
    Agree fixed (s.pin n p) (t.pin n q) := by
  have hchoose := choose_alike h n p.version
  unfold pin
  rw [← hp.version]
  by_cases hf : fixed
  · rw [← hp.eq hf]
    exact requireAll_alike hchoose p.requirements
  · -- the dependencies may come in another order, which the causes would show
    have hc : Covers p.requirements q.requirements :=
      covers_requirements fun e he => hp.dependencies.mem_iff.mpr he
    have hc' : Covers q.requirements p.requirements :=
      covers_requirements fun e he => hp.dependencies.mem_iff.mp he
    have hd := nodup_requirements p
    have hd' := nodup_requirements q
    have hsymm : (t.choose n p.version).Alike fixed (s.choose n p.version) :=
      ⟨fun m => (hchoose.pending m).symm, hchoose.solutions.symm, fun hx => absurd hx hf⟩
    cases hs : (s.choose n p.version).requireAll p.requirements with
    | ok s' =>
      obtain ⟨t', ht⟩ := not_refused_of_covers hchoose hc hd hd' hs
      rw [ht]
      exact .granted (alike_of_covers hf hchoose hc' hc hd hd' hs ht)
    | error causes =>
      cases ht : (t.choose n p.version).requireAll q.requirements with
      | error causes' => exact .refused fun hx => absurd hx hf
      | ok t' =>
        obtain ⟨s', hs'⟩ := not_refused_of_covers hsymm hc' hd' hd ht
        rw [hs] at hs'
        cases hs'

end State
end Search
end PackageResolution
