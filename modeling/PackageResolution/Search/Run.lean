import PackageResolution.Catalog
import PackageResolution.Search.Journal
import PackageResolution.Search.State

/-!
# PackageResolution.Search.Run

Backtracking search for a choice of releases. The open choices form a stack. Each one remembers the
state before its choice, so that dropping it takes back all that was decided since.

* `Frame`: an open choice, with the candidates that it has left.
* `advance`: makes the next possible choice, going back over choices that have no candidates left.
* `rounds`: repeats that until nothing is pending, nothing is left to try, or the rounds are used
  up. It stops where the candidates for a name cannot be put in order.
* `run`: the search from the requirements of the root.
-/

namespace PackageResolution
namespace Search

/-- An open choice. -/
structure Frame where
  name : String
  /-- What is still to be tried, best first. -/
  candidates : List Package
  /-- The state before the choice. -/
  base : State
  /-- The candidate that is chosen at present. -/
  pinned : Option Package

/-- Opens the choice for `name`. If it has no candidates, the requirements on it are to blame. -/
def openFrame (g : Catalog) (s : State) (name : String) (c : Constraint) (j : Journal) :
    Except Text.PrintError (Frame × Journal) :=
  match g.findCandidates name c with
  | .error e => .error e
  | .ok [] => .ok (⟨name, [], s.withdraw name, none⟩, j.blame (s.known name))
  | .ok (p :: ps) => .ok (⟨name, p :: ps, s.withdraw name, none⟩, j)

/-- The first candidate that can be chosen, with the state that follows and the candidates after
it. -/
def tryCandidates (name : String) (base : State) :
    List Package → Journal → Option (State × Package × List Package) × Journal
  | [], j => (none, j)
  | p :: ps, j =>
    match base.pin name p with
    | .ok s => (some (s, p, ps), j)
    | .error causes => tryCandidates name base ps (j.reject p causes)

/-- Makes the next possible choice in the topmost frame that has one; frames above it are
dropped. -/
def advance : List Frame → Journal → Option (State × List Frame) × Journal
  | [], j => (none, j)
  | f :: fs, j =>
    match tryCandidates f.name f.base f.candidates j with
    | (some (s, p, rest), j') =>
      (some (s, { f with candidates := rest, pinned := some p } :: fs),
        j'.record (.pinning f.name p))
    | (none, j') => advance fs (j'.record (.backtracking f.name))

inductive Ending where
  /-- Nothing is pending any more. -/
  | solved (s : State)
  /-- Every choice has failed. -/
  | exhausted
  /-- The rounds are used up. -/
  | outOfRounds
  /-- A candidate for the name to decide next has a version that cannot be written. -/
  | failed (e : Text.PrintError)

/-- A finished search: its ending, the choices that are open, the latest first, and its report. -/
structure Run where
  ending : Ending
  frames : List Frame
  journal : Journal

/-- Makes at most `n` choices, the first of which is the choice number `index`. -/
def rounds (g : Catalog) : (n : Nat) → (index : Nat) → List Frame → Journal → Run
  | 0, _, frames, j => ⟨.outOfRounds, frames, j⟩
  | n + 1, index, frames, j =>
    match advance frames (j.record (.round index)) with
    | (none, j') => ⟨.exhausted, [], j'⟩
    | (some (s, frames'), j') =>
      match s.next? with
      | none => ⟨.solved s, frames', j'⟩
      | some (name, c) =>
        match openFrame g s name c j' with
        | .error e => ⟨.failed e, frames', j'⟩
        | .ok (f, j'') => rounds g n (index + 1) (f :: frames') j''

/-- Searches for a choice of releases that satisfies the roots, in at most `maxRounds` rounds. -/
def run (g : Catalog) (roots : OrderedMap String Constraint) (maxRounds : Nat) : Run :=
  match (State.initial roots).next? with
  | none => ⟨.solved (State.initial roots), [], Journal.empty⟩
  | some (name, c) =>
    match openFrame g (State.initial roots) name c Journal.empty with
    | .error e => ⟨.failed e, [], Journal.empty⟩
    | .ok (f, j) => rounds g maxRounds 0 [f] j

/-- The releases chosen in the open frames, in the order of the choices. -/
def Run.packages (r : Run) : OrderedMap String Package :=
  OrderedMap.ofList (r.frames.reverse.filterMap fun f => f.pinned.map fun p => (f.name, p))

end Search
end PackageResolution
