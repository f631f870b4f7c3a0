import Mathlib.Data.List.Induction
import PackageResolution.Proofs.GraphBuild

/-!
# PackageResolution.Proofs.GraphCalls

Graphs as they come about: by adding vertices and edges in any order, where some of the attempts may
fail. An attempt that fails for want of a vertex changes nothing.

* `Graph.Call`, `Graph.build`: a sequence of attempts, and the graph that it leads to.
* `Graph.add_outcomes`, `Graph.connect_outcomes`: all that an attempt can do.
* `Graph.mem_perform`, `Graph.mem_edges_perform`: vertices and edges after an attempt.
  `Graph.mem_edges_build` says which edges there are in the end.
* `Graph.Joined`: edges run between vertices, and none of them to the root. `Graph.joined_build`
  says that of all graphs that are built with edges to packages.
-/

namespace PackageResolution
namespace Graph

/-- An attempt to change a graph. -/
inductive Call where
  | add (v : Vertex)
  | connect (parent child : Vertex)
  deriving DecidableEq, Repr

/-- The graph after an attempt. -/
def perform (g : Graph) : Call → Graph
  | .add v =>
    match g.add v with
    | .error _ => g
    | .ok g' => g'
  | .connect parent child => (g.connect parent child).1

def build (calls : List Call) : Graph := calls.foldl perform empty

/-- If the attempt adds an edge, then to a package. -/
def Call.ToPackage : Call → Prop
  | .add _ => True
  | .connect _ child => child ≠ .root

instance : DecidablePred Call.ToPackage
  | .add _ => inferInstanceAs (Decidable True)
  | .connect _ child => inferInstanceAs (Decidable (child ≠ .root))

/-- Edges run between vertices, and none of them to the root. -/
structure Joined (g : Graph) : Prop where
  ends : ∀ e ∈ g.edges, e.1 ∈ g ∧ e.2 ∈ g
  rootless : ∀ e ∈ g.edges, e.2 ≠ .root

variable {g g' : Graph} {call : Call} {calls : List Call} {v : Vertex} {e : Vertex × Vertex}

/-! ## One attempt -/

theorem add_outcomes (g : Graph) (v : Vertex) :
    (v ∈ g ∧ g.add v = .error .vertexExists) ∨
      v ∉ g ∧ ∃ g', g.add v = .ok g' ∧
        ((v = .root ∧ g'.parents = g.parents) ∨
          ∃ n, v = .package n ∧ g'.parents = g.parents.insert n []) := by
  by_cases hv : v ∈ g
  · exact .inl ⟨hv, by simp only [add, if_pos hv]⟩
  · refine .inr ⟨hv, ?_⟩
    simp only [add, if_neg hv]
    cases v with
    | root => exact ⟨_, rfl, .inl ⟨rfl, rfl⟩⟩
    | package n => exact ⟨_, rfl, .inr ⟨n, rfl, rfl⟩⟩

/-- Adding an edge does nothing if an end of it is missing. Otherwise the edge is recorded forwards,
and backwards if its child has an entry for parents. -/
theorem connect_outcomes (g : Graph) (parent child : Vertex) :
    (∃ v, (v = parent ∨ v = child) ∧ v ∉ g ∧ g.connect parent child = (g, some (.missing v))) ∨
      parent ∈ g ∧ child ∈ g ∧ ∃ vs, g.children.get? parent = some vs ∧
        (g.connect parent child).1.children = g.children.insert parent (join child vs) ∧
        (((∀ n, child = .package n → n ∉ g.parents) ∧
            (g.connect parent child).1.parents = g.parents) ∨
          ∃ n ps, child = .package n ∧ g.parents.get? n = some ps ∧
            (g.connect parent child).2 = none ∧
            (g.connect parent child).1.parents = g.parents.insert n (join parent ps)) := by
  cases hp : g.children.get? parent with
  | none =>
    have hparent : parent ∉ g := OrderedMap.get?_eq_none_iff.mp hp
    exact .inl ⟨parent, .inl rfl, hparent, by simp only [connect, hp]⟩
  | some vs =>
    by_cases hc : child ∈ g
    · refine .inr ⟨OrderedMap.mem_of_get?_eq_some hp, hc, vs, rfl, ?_⟩
      cases child with
      | root => simp [connect, hp, hc]
      | package n =>
        cases hps : g.parents.get? n with
        | none =>
          have hn : n ∉ g.parents := OrderedMap.get?_eq_none_iff.mp hps
          simp [connect, hp, hc, hps, hn]
        | some ps => simp [connect, hp, hc, hps]
    · exact .inl ⟨child, .inr rfl, hc, by simp only [connect, hp, if_neg hc]⟩

theorem mem_perform : v ∈ g.perform call ↔ v ∈ g ∨ call = .add v := by
  cases call with
  | add w =>
    rcases add_outcomes g w with ⟨hw, h⟩ | ⟨_, g', h, _⟩
    · simp only [perform, h, Call.add.injEq]
      exact ⟨.inl, fun hv => hv.elim id fun he => he ▸ hw⟩
    · simp only [perform, h, Call.add.injEq]
      rw [mem_of_add h, or_comm, eq_comm]
  | connect parent child => simp [perform, mem_connect]

/-- An attempt keeps all edges, and adds one if both of its ends are there. -/
theorem mem_edges_perform :
    e ∈ (g.perform call).edges ↔
      e ∈ g.edges ∨ call = .connect e.1 e.2 ∧ e.1 ∈ g ∧ e.2 ∈ g := by
  cases call with
  | add w =>
    rcases add_outcomes g w with ⟨_, h⟩ | ⟨_, g', h, _⟩
    · simp [perform, h]
    · simp [perform, h, mem_edges_of_add h]
  | connect parent child =>
    rcases connect_outcomes g parent child with ⟨v, hv, hmissing, h⟩ | ⟨hp, hc, vs, hvs, hnow, _⟩
    · have hends : ¬ (Call.connect parent child = .connect e.1 e.2 ∧ e.1 ∈ g ∧ e.2 ∈ g) := by
        rintro ⟨heq, h₁, h₂⟩
        cases heq
        rcases hv with rfl | rfl
        · exact hmissing h₁
        · exact hmissing h₂
      rw [perform, h, or_iff_left hends]
    · obtain ⟨a, b⟩ := e
      rw [mem_edges_iff, mem_edges_iff, perform, hnow, OrderedMap.get?_insert]
      have hnew : Call.connect parent child = .connect a b ∧ a ∈ g ∧ b ∈ g ↔
          a = parent ∧ b = child := by
        constructor
        · rintro ⟨heq, _⟩
          cases heq
          exact ⟨rfl, rfl⟩
        · rintro ⟨rfl, rfl⟩
          exact ⟨rfl, hp, hc⟩
      rw [hnew]
      by_cases ha : a = parent
      · subst ha
        simp [hvs, mem_join, or_comm]
      · simp [ha]

/-! ## All attempts -/

theorem build_concat (calls : List Call) (call : Call) :
    build (calls ++ [call]) = (build calls).perform call := by
  rw [build, List.foldl_append]
  rfl

/-- The edges are those that were added when both of their ends were there. -/
theorem mem_edges_build :
    e ∈ (build calls).edges ↔ ∃ before after, calls = before ++ .connect e.1 e.2 :: after ∧
      e.1 ∈ build before ∧ e.2 ∈ build before := by
  induction calls using List.reverseRecOn with
  | nil =>
    have hempty : e ∉ (build []).edges := List.not_mem_nil
    simp [hempty]
  | append_singleton calls call ih =>
    rw [build_concat, mem_edges_perform, ih]
    constructor
    · rintro (⟨before, after, rfl, hends⟩ | ⟨rfl, hends⟩)
      · exact ⟨before, after ++ [call], by simp, hends⟩
      · exact ⟨calls, [], rfl, hends⟩
    · rintro ⟨before, after, heq, hends⟩
      rcases List.eq_nil_or_concat after with rfl | ⟨after, last, rfl⟩
      · obtain ⟨rfl, hcall⟩ := List.append_inj' heq rfl
        exact .inr ⟨List.singleton_inj.mp hcall, hends⟩
      · rw [List.concat_eq_append, ← List.cons_append, ← List.append_assoc] at heq
        obtain ⟨rfl, _⟩ := List.append_inj' heq rfl
        exact .inl ⟨before, after, rfl, hends⟩

theorem ends_of_mem_edges_build (h : e ∈ (build calls).edges) :
    e.1 ∈ build calls ∧ e.2 ∈ build calls := by
  induction calls using List.reverseRecOn with
  | nil => exact absurd h List.not_mem_nil
  | append_singleton calls call ih =>
    rw [build_concat] at h ⊢
    rw [mem_perform, mem_perform]
    rcases mem_edges_perform.mp h with he | ⟨_, hp, hc⟩
    · exact ⟨.inl (ih he).1, .inl (ih he).2⟩
    · exact ⟨.inl hp, .inl hc⟩

theorem joined_build (h : ∀ call ∈ calls, call.ToPackage) : (build calls).Joined := by
  refine ⟨fun e he => ends_of_mem_edges_build he, fun e he => ?_⟩
  obtain ⟨before, after, rfl, _⟩ := mem_edges_build.mp he
  exact h (.connect e.1 e.2) (by simp)

end Graph
end PackageResolution
