import PackageResolution.Requirement

/-!
# PackageResolution.Search.State

What a search knows on one branch: the names that are still to be decided with the constraint that
they have collected, the versions chosen so far, and every requirement that has been met with.

* `State.require`: adds one requirement, or finds the requirements that it conflicts with.
* `State.pin`: chooses a release and adds all that it requires.
* `State.next?`: the name to decide next, the first one by code point.
-/

namespace PackageResolution
namespace Search

structure State where
  pending : OrderedMap String Constraint
  solutions : OrderedMap String Version
  information : OrderedMap String (List Requirement)

namespace State

def initial (roots : OrderedMap String Constraint) : State where
  pending := roots
  solutions := OrderedMap.empty
  information := roots.mapValues fun name c => [⟨name, c, none⟩]

/-- The requirements on `name` so far. -/
def known (s : State) (name : String) : List Requirement := (s.information.get? name).getD []

/-- Notes a requirement, without regard to what it says. -/
def note (s : State) (r : Requirement) : State :=
  { s with information := s.information.insert r.name (s.known r.name ++ [r]) }

/-- Sets the constraint of a name that is still to be decided. -/
def await (s : State) (name : String) (c : Constraint) : State :=
  { s with pending := s.pending.insert name c }

/-- Adds a requirement. A chosen version has to satisfy it; the constraint of a pending name becomes
narrower; a new name becomes pending. A failure shows all requirements on the name. -/
def require (s : State) (r : Requirement) : Except (List Requirement) State :=
  match s.solutions.get? r.name with
  | some v =>
    if r.constraint.contains v then .ok (s.note r) else .error (s.known r.name ++ [r])
  | none =>
    match s.pending.get? r.name with
    | none => .ok ((s.await r.name r.constraint).note r)
    | some c =>
      match c.intersect r.constraint with
      | none => .error (s.known r.name ++ [r])
      | some merged => .ok ((s.await r.name merged).note r)

/-- Adds requirements in order, up to the first that fails. -/
def requireAll : State → List Requirement → Except (List Requirement) State
  | s, [] => .ok s
  | s, r :: rs =>
    match s.require r with
    | .error causes => .error causes
    | .ok s' => requireAll s' rs

/-- Notes the version chosen for a name. -/
def choose (s : State) (name : String) (v : Version) : State :=
  { s with solutions := s.solutions.insert name v }

/-- Chooses `p` for `name` and adds what it requires, of itself as well. -/
def pin (s : State) (name : String) (p : Package) : Except (List Requirement) State :=
  (s.choose name p.version).requireAll p.requirements

/-- The entry with the least name. -/
def least? {α : Type} : List (String × α) → Option (String × α)
  | [] => none
  | e :: es =>
    match least? es with
    | none => some e
    | some m => if m.1 < e.1 then some m else some e

/-- The pending name to decide next, with its constraint. -/
def next? (s : State) : Option (String × Constraint) := least? s.pending.entries

/-- The state once `name` is up for decision. -/
def withdraw (s : State) (name : String) : State := { s with pending := s.pending.erase name }

end State
end Search
end PackageResolution
