import PackageResolution.Graph.Build
import PackageResolution.Search

/-!
# PackageResolution.Solver

Solving a problem: choosing a release for every package that is needed, and showing how the choices
hang together. That there is no solution is an answer, not an error.

* `Outcome`: a resolution, or the requirements that cannot be met together.
* `solve`: the outcome, with the events on the way to it.
-/

namespace PackageResolution

open Search

/-- A solution: the versions, the releases and the graph of their dependencies. -/
structure Resolution where
  mapping : OrderedMap String Version
  packages : OrderedMap String Package
  graph : Graph

inductive Outcome where
  | resolved (r : Resolution)
  | unsatisfiable (causes : List Requirement)

inductive SolveError where
  /-- The search used up its rounds. -/
  | tooDeep (rounds : Int)
  /-- The chosen releases form no graph. -/
  | graph (e : GraphError)
  /-- A candidate has a version that cannot be written. -/
  | text (e : Text.PrintError)
  deriving DecidableEq, Repr

def SolveError.message : SolveError → String
  | .tooDeep rounds => toString rounds
  | .graph e => e.message
  | .text e => e.message

/-- An answer, or its failure, and the events on the way to it. -/
structure Report where
  result : Except SolveError Outcome
  events : List Event

/-- The number of rounds where none is given. -/
def defaultMaxRounds : Int := 100000

def Search.Run.report (r : Run) (roots : OrderedMap String Constraint) (maxRounds : Int) : Report :=
  let events := .starting roots :: r.journal.events
  match r.ending with
  | .outOfRounds => ⟨.error (.tooDeep maxRounds), events⟩
  | .failed e => ⟨.error (.text e), events⟩
  | .exhausted =>
    ⟨.ok (.unsatisfiable r.journal.causes), events ++ [.endingUnsatisfiable r.journal.causes]⟩
  | .solved s =>
    match Graph.ofPackages r.packages roots.keys with
    | .error e => ⟨.error (.graph e), events⟩
    | .ok graph =>
      ⟨.ok (.resolved ⟨s.solutions, r.packages, graph⟩), events ++ [.ending s.solutions]⟩

/-- Solves a problem in at most `maxRounds` rounds. -/
def solve (g : Catalog) (roots : OrderedMap String Constraint) (maxRounds : Int) : Report :=
  (run g roots maxRounds.toNat).report roots maxRounds

/-- The failure to find a solution as a value. -/
def describeUnsatisfiable (causes : List Requirement) : Except Text.PrintError String :=
  (Requirement.describeList causes).map fun t => "Unsatisfiable(" ++ t ++ ")"

end PackageResolution
