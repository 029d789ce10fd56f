/-!
# Storage locations

A location is a root variable and a path into it. A step of the path is a field,
or an element whose position is not tracked. **Two locations overlap** if they
have the same root and their paths agree as far as both go, an untracked step
agreeing with every other: then, and only then, an access to one may touch the
storage of the other.
-/

namespace ValueFlow

/-- One step of an access path. -/
inductive Step where
  | field (name : String)
  /-- An element whose position is not tracked. -/
  | unknown
deriving DecidableEq

namespace Step

/-- The step in messages. -/
def text : Step → String
  | field name => name
  | unknown => "[?]"

/-- The two steps may lead to the same place. -/
def agrees : Step → Step → Bool
  | field a, field b => a = b
  | _, _ => true

end Step

/-- The steps of a field path. -/
def fieldSteps (path : List String) : List Step := path.map .field

/-- A place in storage: a root variable, by name, and a path into it. -/
structure Location where
  root : String
  path : List Step
deriving DecidableEq

namespace Location

/-- The place reached by going on from a location. -/
def extend (l : Location) (steps : List Step) : Location :=
  { l with path := l.path ++ steps }

/-- The two locations may share storage. -/
def overlaps (a b : Location) : Bool :=
  a.root = b.root && (a.path.zip b.path).all fun s => s.1.agrees s.2

/-- The location in messages. -/
def text (l : Location) : String :=
  l.path.foldl (fun out s => out ++ "." ++ s.text) l.root

end Location

end ValueFlow
