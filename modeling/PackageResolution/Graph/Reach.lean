import PackageResolution.OrderedMap

/-!
# PackageResolution.Graph.Reach

Which keys can be reached along the edges of a map. The children of every key that is come to are
looked up, and a key that the map does not have is an error, which names that key.

* `EdgeMap`: the children of each key.
* `EdgeMap.collect`: the ends of all paths from some keys. A key reaches itself only on a cycle.
* `EdgeMap.terminal`: the keys that are reached back from all that they reach.
* `EdgeMap.remove`: takes keys out of a map, and out of the children of all others.
-/

namespace PackageResolution

variable {κ : Type} [DecidableEq κ]

def without (live done : List κ) : List κ := live.filter fun n => decide (n ∉ done)

/-- Seeing a live name leaves fewer to see. -/
theorem length_without_lt {live seen fresh : List κ} {m : κ} (hl : m ∈ live) (hs : m ∉ seen)
    (hf : m ∈ fresh) : (without live (seen ++ fresh)).length < (without live seen).length := by
  have hsub : without live (seen ++ fresh) = without (without live seen) fresh := by
    simp only [without]
    rw [List.filter_filter]
    apply List.filter_congr
    intro n _
    simp [Bool.and_comm]
  rw [hsub]
  refine List.length_filter_lt_length_iff_exists.mpr ⟨m, ?_, ?_⟩
  · simp [without, hl, hs]
  · simp [hf]

/-- The children of each key. -/
abbrev EdgeMap (κ : Type) := OrderedMap κ (List κ)

namespace EdgeMap

/-- The children that have not been seen, each once. -/
def fresh (ms seen : List κ) : List κ :=
  (ms.filter fun m => decide (m ∉ seen)).eraseDups

theorem mem_fresh {ms seen : List κ} {m : κ} : m ∈ fresh ms seen ↔ m ∈ ms ∧ m ∉ seen := by
  simp [fresh]

/-- Goes through the keys on the stack and puts the new children of each on top. The result holds
all children seen, or is the first key without an entry. -/
def collect (edges : EdgeMap κ) (stack seen : List κ) : Except κ (List κ) :=
  match stack with
  | [] => .ok seen
  | n :: stack =>
    match _h : edges.get? n with
    | none => .error n
    | some ms => collect edges ((fresh ms seen).reverse ++ stack) (seen ++ fresh ms seen)
termination_by ((without edges.values.flatten seen).length, stack.length)
decreasing_by
  cases hf : fresh ms seen with
  | nil =>
    rw [List.append_nil]
    exact Prod.Lex.right _ (Nat.lt_succ_self _)
  | cons m rest =>
    have hm : m ∈ fresh ms seen := hf ▸ List.mem_cons_self
    have hvalue : ms ∈ edges.values :=
      List.mem_map.mpr ⟨(n, ms), OrderedMap.get?_eq_some_iff.mp _h, rfl⟩
    exact Prod.Lex.left _ _ (length_without_lt
      (List.mem_flatten.mpr ⟨ms, hvalue, (mem_fresh.mp hm).1⟩) (mem_fresh.mp hm).2
      List.mem_cons_self)

/-- What each of the keys reaches. -/
def collectAll (edges : EdgeMap κ) : List κ → Except κ (List (κ × List κ))
  | [] => .ok []
  | n :: ns =>
    match edges.collect [n] [] with
    | .error m => .error m
    | .ok seen =>
      match collectAll edges ns with
      | .error m => .error m
      | .ok rest => .ok ((n, seen) :: rest)

/-- All of the keys reach `n`. -/
def leadsBack (reach : EdgeMap κ) (n : κ) : List κ → Except κ Bool
  | [] => .ok true
  | m :: ms =>
    match reach.get? m with
    | none => .error m
    | some seen => if n ∈ seen then leadsBack reach n ms else .ok false

/-- The keys to which all leads back that they reach. -/
def returning (reach : EdgeMap κ) : List (κ × List κ) → Except κ (List κ)
  | [] => .ok []
  | (n, seen) :: rest =>
    match leadsBack reach n seen with
    | .error m => .error m
    | .ok back =>
      match returning reach rest with
      | .error m => .error m
      | .ok ns => .ok (if back then n :: ns else ns)

/-- The keys that are reached back from all that they reach. They form the strongly connected
components that no edge leaves. -/
def terminal (edges : EdgeMap κ) : Except κ (List κ) :=
  match edges.collectAll edges.keys with
  | .error m => .error m
  | .ok reach => returning (.ofList reach) reach

theorem keys_of_collectAll {edges : EdgeMap κ} {ns : List κ} {table : List (κ × List κ)}
    (h : edges.collectAll ns = .ok table) : table.map Prod.fst = ns := by
  induction ns generalizing table with
  | nil => cases h; rfl
  | cons n ns ih =>
    rw [collectAll] at h
    split at h
    · cases h
    · split at h
      · cases h
      · rename_i hrest
        cases h
        rw [List.map_cons, ih hrest]

theorem sublist_of_returning {reach : EdgeMap κ} {table : List (κ × List κ)} {ns : List κ}
    (h : returning reach table = .ok ns) : ns.Sublist (table.map Prod.fst) := by
  induction table generalizing ns with
  | nil => cases h; exact .slnil
  | cons e table ih =>
    rw [returning] at h
    split at h
    · cases h
    · split at h
      · cases h
      · rename_i back _ _ rest hrest
        cases h
        cases back with
        | true => exact (ih hrest).cons_cons e.1
        | false => exact (ih hrest).cons e.1

theorem sublist_of_terminal {edges : EdgeMap κ} {ns : List κ} (h : edges.terminal = .ok ns) :
    ns.Sublist edges.keys := by
  rw [terminal] at h
  split at h
  · cases h
  · rename_i table htable
    exact keys_of_collectAll htable ▸ sublist_of_returning h

/-- The map without some of its keys, also among the children of the others. -/
def remove (edges : EdgeMap κ) (done : List κ) : EdgeMap κ :=
  (done.foldl OrderedMap.erase edges).mapValues fun _ ms => without ms done

theorem keys_foldl_erase (edges : EdgeMap κ) (done : List κ) :
    (done.foldl OrderedMap.erase edges).keys = without edges.keys done := by
  induction done generalizing edges with
  | nil => exact (List.filter_eq_self.mpr fun _ _ => rfl).symm
  | cons n done ih =>
    rw [List.foldl_cons, ih, OrderedMap.keys_erase]
    simp only [without, List.filter_filter]
    apply List.filter_congr
    intro m _
    simp [Bool.and_comm]

theorem keys_remove (edges : EdgeMap κ) (done : List κ) :
    (edges.remove done).keys = without edges.keys done := by
  rw [remove, OrderedMap.keys_mapValues, keys_foldl_erase]

end EdgeMap
end PackageResolution
