import PackageResolution.Requirement

/-!
# PackageResolution.Search.Journal

What a search reports: the events in the order in which they happen, and the requirements behind the
latest conflict.

* `Event`: the events.
* `Journal`: the events of a run so far, the latest first, and the latest causes of failure.
-/

namespace PackageResolution
namespace Search

/-- Something that happens while a problem is solved. -/
inductive Event where
  | starting (roots : OrderedMap String Constraint)
  /-- A choice is about to be made; rounds are numbered from zero. -/
  | round (index : Nat)
  | pinning (name : String) (package : Package)
  /-- A release cannot be chosen, because these requirements conflict. -/
  | rejecting (package : Package) (causes : List Requirement)
  /-- All candidates for a name have failed, and the choice before it is reconsidered. -/
  | backtracking (name : String)
  | ending (mapping : OrderedMap String Version)
  | endingUnsatisfiable (causes : List Requirement)

structure Journal where
  causes : List Requirement
  latest : List Event

namespace Journal

def empty : Journal := ⟨[], []⟩

def record (j : Journal) (e : Event) : Journal := { j with latest := e :: j.latest }

/-- Replaces the causes of the latest failure. -/
def blame (j : Journal) (causes : List Requirement) : Journal := { j with causes := causes }

/-- A release turned out to be impossible. -/
def reject (j : Journal) (p : Package) (causes : List Requirement) : Journal :=
  (j.blame causes).record (.rejecting p causes)

/-- The events in the order in which they happened. -/
def events (j : Journal) : List Event := j.latest.reverse

end Journal
end Search
end PackageResolution
