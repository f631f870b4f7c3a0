/-!
# PackageResolution.OrderedMap

Finite maps that remember the order in which their keys arrived. A key that is written again keeps
its place and takes the new value.

* `OrderedMap`: a list of entries with distinct keys.
* `get?`, `insert`, `erase`, `ofList`: the operations. `get?_insert`, `get?_erase` and
  `keys_insert_of_mem`, `keys_insert_of_not_mem` say what they do to the values and to the order.
-/

namespace PackageResolution

structure OrderedMap (κ α : Type) where
  entries : List (κ × α)
  nodup : (entries.map Prod.fst).Nodup
  deriving DecidableEq

namespace OrderedMap

variable {κ α β : Type}

def empty : OrderedMap κ α := ⟨[], List.nodup_nil⟩

instance : Inhabited (OrderedMap κ α) := ⟨empty⟩

def keys (m : OrderedMap κ α) : List κ := m.entries.map Prod.fst

def values (m : OrderedMap κ α) : List α := m.entries.map Prod.snd

def size (m : OrderedMap κ α) : Nat := m.entries.length

def isEmpty (m : OrderedMap κ α) : Bool := m.entries.isEmpty

def mapValues (f : κ → α → β) (m : OrderedMap κ α) : OrderedMap κ β :=
  ⟨m.entries.map fun e => (e.1, f e.1 e.2), by
    rw [List.map_map]
    exact m.nodup⟩

instance : Membership κ (OrderedMap κ α) := ⟨fun m k => k ∈ m.keys⟩

theorem mem_iff {m : OrderedMap κ α} {k : κ} : k ∈ m ↔ k ∈ m.keys := Iff.rfl

theorem size_eq_length_keys (m : OrderedMap κ α) : m.size = m.keys.length := by
  simp [size, keys]

section Lookup

variable [DecidableEq κ]

/-- The value under the first occurrence of `k` in a list of entries. -/
def find? (k : κ) : List (κ × α) → Option α
  | [] => none
  | e :: es => if e.1 = k then some e.2 else find? k es

/-- Replaces the value under `k`, or adds the entry at the end. -/
def put (k : κ) (a : α) : List (κ × α) → List (κ × α)
  | [] => [(k, a)]
  | e :: es => if e.1 = k then (k, a) :: es else e :: put k a es

def get? (m : OrderedMap κ α) (k : κ) : Option α := find? k m.entries

instance (k : κ) (m : OrderedMap κ α) : Decidable (k ∈ m) :=
  inferInstanceAs (Decidable (k ∈ m.keys))

theorem keys_put (k : κ) (a : α) (es : List (κ × α)) :
    (put k a es).map Prod.fst =
      if k ∈ es.map Prod.fst then es.map Prod.fst else es.map Prod.fst ++ [k] := by
  induction es with
  | nil => simp [put]
  | cons e es ih =>
    by_cases h : e.1 = k
    · simp [put, h]
    · simp only [put, h, if_false, List.map_cons, ih, List.mem_cons, Ne.symm h, false_or]
      split <;> rfl

theorem nodup_put {k : κ} {a : α} {es : List (κ × α)} (h : (es.map Prod.fst).Nodup) :
    ((put k a es).map Prod.fst).Nodup := by
  rw [keys_put]
  split
  · exact h
  · rename_i hk
    rw [List.nodup_append]
    refine ⟨h, List.nodup_cons.mpr ⟨List.not_mem_nil, List.nodup_nil⟩, ?_⟩
    intro x hx y hy hxy
    rw [List.mem_singleton] at hy
    exact hk (hy ▸ hxy ▸ hx)

def insert (m : OrderedMap κ α) (k : κ) (a : α) : OrderedMap κ α :=
  ⟨put k a m.entries, nodup_put m.nodup⟩

def erase (m : OrderedMap κ α) (k : κ) : OrderedMap κ α :=
  ⟨m.entries.filter fun e => e.1 ≠ k,
    List.Nodup.sublist (List.Sublist.map Prod.fst List.filter_sublist) m.nodup⟩

/-- The map that a list of entries, written in order, builds. -/
def ofList (es : List (κ × α)) : OrderedMap κ α :=
  es.foldl (fun m e => m.insert e.1 e.2) empty

/-- Same keys, in whatever order, with values that `same` accepts. -/
def agrees (same : α → α → Bool) (m n : OrderedMap κ α) : Bool :=
  m.size == n.size && m.entries.all fun e =>
    match n.get? e.1 with
    | some b => same e.2 b
    | none => false

/-! ## Laws -/

theorem find?_put (k j : κ) (a : α) (es : List (κ × α)) :
    find? j (put k a es) = if j = k then some a else find? j es := by
  induction es with
  | nil =>
    by_cases h : j = k
    · simp [put, find?, h]
    · simp [put, find?, h, Ne.symm h]
  | cons e es ih =>
    by_cases he : e.1 = k
    · by_cases hj : j = k
      · simp [put, find?, he, hj]
      · simp [put, find?, he, hj, Ne.symm hj]
    · by_cases hj : e.1 = j
      · have hjk : j ≠ k := fun h => he (hj.trans h)
        simp [put, find?, hj, hjk]
      · simp [put, find?, he, hj, ih]

theorem get?_insert (m : OrderedMap κ α) (k j : κ) (a : α) :
    (m.insert k a).get? j = if j = k then some a else m.get? j :=
  find?_put k j a m.entries

theorem find?_filter_ne (k j : κ) (es : List (κ × α)) :
    find? j (es.filter fun e => e.1 ≠ k) = if j = k then none else find? j es := by
  induction es with
  | nil => simp [find?]
  | cons e es ih =>
    rw [List.filter_cons]
    by_cases he : e.1 = k
    · by_cases hj : j = k
      · simp only [he, hj, ne_eq, not_true_eq_false, decide_false, Bool.false_eq_true, if_false,
          if_true]
        simpa [hj] using ih
      · simp only [he, ne_eq, not_true_eq_false, decide_false, Bool.false_eq_true, if_false, hj]
        simp only [find?, he, Ne.symm hj, if_false]
        simpa [hj] using ih
    · by_cases hj : e.1 = j
      · have hjk : j ≠ k := fun h => he (hj.trans h)
        simp [find?, hj, hjk]
      · simpa [find?, he, hj] using ih

theorem get?_erase (m : OrderedMap κ α) (k j : κ) :
    (m.erase k).get? j = if j = k then none else m.get? j :=
  find?_filter_ne k j m.entries

theorem keys_insert (m : OrderedMap κ α) (k : κ) (a : α) :
    (m.insert k a).keys = if k ∈ m then m.keys else m.keys ++ [k] :=
  keys_put k a m.entries

theorem keys_insert_of_mem {m : OrderedMap κ α} {k : κ} (a : α) (h : k ∈ m) :
    (m.insert k a).keys = m.keys := by
  rw [keys_insert, if_pos h]

theorem keys_insert_of_not_mem {m : OrderedMap κ α} {k : κ} (a : α) (h : k ∉ m) :
    (m.insert k a).keys = m.keys ++ [k] := by
  rw [keys_insert, if_neg h]

theorem mem_insert {m : OrderedMap κ α} {k j : κ} {a : α} : j ∈ m.insert k a ↔ j = k ∨ j ∈ m := by
  rw [mem_iff, keys_insert]
  split
  · rename_i h
    exact ⟨Or.inr, fun hj => hj.elim (fun he => he ▸ h) id⟩
  · simp [mem_iff, or_comm]

theorem keys_erase (m : OrderedMap κ α) (k : κ) :
    (m.erase k).keys = m.keys.filter fun j => j ≠ k := by
  simp only [erase, keys, List.filter_map]
  rfl

theorem mem_erase {m : OrderedMap κ α} {k j : κ} : j ∈ m.erase k ↔ j ≠ k ∧ j ∈ m := by
  rw [mem_iff, keys_erase]
  simp [mem_iff, and_comm]

theorem find?_eq_none_iff (k : κ) (es : List (κ × α)) :
    find? k es = none ↔ k ∉ es.map Prod.fst := by
  induction es with
  | nil => simp [find?]
  | cons e es ih =>
    by_cases h : e.1 = k
    · simp [find?, h]
    · simp only [find?, h, if_false, ih, List.map_cons, List.mem_cons, Ne.symm h, false_or]

theorem get?_eq_none_iff {m : OrderedMap κ α} {k : κ} : m.get? k = none ↔ k ∉ m :=
  find?_eq_none_iff k m.entries

theorem find?_eq_some_iff {k : κ} {a : α} {es : List (κ × α)} (h : (es.map Prod.fst).Nodup) :
    find? k es = some a ↔ (k, a) ∈ es := by
  induction es with
  | nil => simp [find?]
  | cons e es ih =>
    obtain ⟨k', a'⟩ := e
    rw [List.map_cons, List.nodup_cons] at h
    by_cases hk : k' = k
    · subst hk
      simp only [find?, if_true, Option.some.injEq, List.mem_cons, Prod.mk.injEq, true_and]
      refine ⟨fun ha => Or.inl ha.symm, fun ha => ha.elim (fun he => he.symm) fun hm => ?_⟩
      exact absurd (List.mem_map_of_mem hm) h.1
    · simp only [find?, hk, if_false, ih h.2, List.mem_cons, Prod.mk.injEq, Ne.symm hk, false_and,
        false_or]

theorem get?_eq_some_iff {m : OrderedMap κ α} {k : κ} {a : α} :
    m.get? k = some a ↔ (k, a) ∈ m.entries :=
  find?_eq_some_iff m.nodup

/-- Where a value is found does not depend on the order of the entries. -/
theorem find?_eq_of_perm {es es' : List (κ × α)} (h : es.Perm es') (hd : (es.map Prod.fst).Nodup)
    (k : κ) : find? k es = find? k es' := by
  have hd' : (es'.map Prod.fst).Nodup := (h.map Prod.fst).nodup hd
  ext a
  rw [find?_eq_some_iff hd, find?_eq_some_iff hd', h.mem_iff]

theorem get?_eq_of_perm {m m' : OrderedMap κ α} (h : m.entries.Perm m'.entries) (k : κ) :
    m.get? k = m'.get? k :=
  find?_eq_of_perm h m.nodup k

theorem mem_of_get?_eq_some {m : OrderedMap κ α} {k : κ} {a : α} (h : m.get? k = some a) : k ∈ m :=
  List.mem_map_of_mem (f := Prod.fst) (get?_eq_some_iff.mp h)

theorem exists_get?_of_mem {m : OrderedMap κ α} {k : κ} (h : k ∈ m) : ∃ a, m.get? k = some a := by
  obtain ⟨e, he, rfl⟩ := List.mem_map.mp h
  exact ⟨e.2, get?_eq_some_iff.mpr he⟩

/-- Maps with the same values have the same number of entries. -/
theorem size_eq_of_get?_eq {m m' : OrderedMap κ α} (h : ∀ k, m.get? k = m'.get? k) :
    m.size = m'.size := by
  rw [size_eq_length_keys, size_eq_length_keys]
  refine ((List.perm_ext_iff_of_nodup m.nodup m'.nodup).mpr ?_).length_eq
  intro k
  have hnone : k ∉ m ↔ k ∉ m' := by rw [← get?_eq_none_iff, ← get?_eq_none_iff, h k]
  exact Decidable.not_iff_not.mp hnone

theorem put_of_not_mem {k : κ} (a : α) {es : List (κ × α)} (h : k ∉ es.map Prod.fst) :
    put k a es = es ++ [(k, a)] := by
  induction es with
  | nil => rfl
  | cons e es ih =>
    rw [List.map_cons, List.mem_cons, not_or] at h
    rw [put, if_neg (Ne.symm h.1), ih h.2, List.cons_append]

/-- A new key goes to the end. -/
theorem entries_insert_of_not_mem {m : OrderedMap κ α} {k : κ} (a : α) (h : k ∉ m) :
    (m.insert k a).entries = m.entries ++ [(k, a)] :=
  put_of_not_mem a h

theorem entries_foldl_insert {m : OrderedMap κ α} {es : List (κ × α)}
    (h : (m.keys ++ es.map Prod.fst).Nodup) :
    (es.foldl (fun m e => m.insert e.1 e.2) m).entries = m.entries ++ es := by
  induction es generalizing m with
  | nil => rw [List.foldl_nil, List.append_nil]
  | cons e es ih =>
    have hk : e.1 ∉ m := by
      intro hmem
      exact (List.nodup_append.mp h).2.2 _ hmem _ List.mem_cons_self rfl
    rw [List.foldl_cons, ih, entries_insert_of_not_mem e.2 hk, List.append_assoc]
    · rfl
    · rw [keys_insert_of_not_mem e.2 hk, List.append_assoc]; exact h

theorem find?_map (f : κ → α → β) (k : κ) (es : List (κ × α)) :
    find? k (es.map fun e => (e.1, f e.1 e.2)) = (find? k es).map (f k) := by
  induction es with
  | nil => rfl
  | cons e es ih =>
    rw [List.map_cons, find?, find?, ih]
    split
    · rename_i h; rw [← h]; rfl
    · rfl

theorem get?_mapValues (f : κ → α → β) (m : OrderedMap κ α) (k : κ) :
    (m.mapValues f).get? k = (m.get? k).map (f k) :=
  find?_map f k m.entries

/-- A list with distinct keys is kept as it is. -/
theorem entries_ofList {es : List (κ × α)} (h : (es.map Prod.fst).Nodup) :
    (ofList es).entries = es :=
  entries_foldl_insert (m := empty) h

end Lookup

theorem keys_mapValues (f : κ → α → β) (m : OrderedMap κ α) : (m.mapValues f).keys = m.keys := by
  simp [mapValues, keys]

theorem keys_nodup (m : OrderedMap κ α) : m.keys.Nodup := m.nodup

end OrderedMap
end PackageResolution
