import PackageResolution.Search.Run

/-!
# PackageResolution.Search

A search that can be run once. What it chose and why it failed can be looked at afterwards.

* `Search.start`: runs the search; a second time is an error and changes nothing.
* `SearchError`: the failures of a run that are not answers.
-/

namespace PackageResolution

inductive SearchError where
  | alreadySearched
  | tooDeep (rounds : Int)
  /-- A candidate has a version that cannot be written. -/
  | text (e : Text.PrintError)
  deriving DecidableEq, Repr

def SearchError.message : SearchError → String
  | .alreadySearched => "already searched"
  | .tooDeep rounds => toString rounds
  | .text e => e.message

/-- A search and, once it has been run, its result. -/
structure Search where
  catalog : Catalog
  finished : Option Search.Run

namespace Search

def ofCatalog (g : Catalog) : Search := ⟨g, none⟩

/-- The answer of a finished search: the final state, or nothing if there is no solution. -/
def Run.answer (r : Run) (maxRounds : Int) : Except SearchError (Option State) :=
  match r.ending with
  | .solved s => .ok (some s)
  | .exhausted => .ok none
  | .outOfRounds => .error (.tooDeep maxRounds)
  | .failed e => .error (.text e)

/-- Runs the search. A negative number of rounds means none. -/
def start (s : Search) (roots : OrderedMap String Constraint) (maxRounds : Int) :
    Except SearchError (Option State) × Search :=
  match s.finished with
  | some _ => (.error .alreadySearched, s)
  | none =>
    let r := run s.catalog roots maxRounds.toNat
    (r.answer maxRounds, { s with finished := some r })

def packages (s : Search) : OrderedMap String Package :=
  match s.finished with
  | none => OrderedMap.empty
  | some r => r.packages

def causes (s : Search) : List Requirement :=
  match s.finished with
  | none => []
  | some r => r.journal.causes

end Search
end PackageResolution
