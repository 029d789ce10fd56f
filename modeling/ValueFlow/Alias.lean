import ValueFlow.Fault
import ValueFlow.Location
import ValueFlow.Var

/-!
# Aliases

An alias fact says that a variable, the child, denotes a part of the storage of
another one, the parent. `AliasMap` collects the facts of a function, wherever
in the function they arise, and answers which location a variable denotes.

The first fact about a child is the one that counts. `AliasMap.location` follows
these facts from child to parent, each at most once, so facts that run in a
circle end the search where the circle closes.
-/

namespace ValueFlow

/-- How a part is taken out of its container. -/
inductive Access where
  /-- The result is another name for the part. -/
  | bind
  /-- The result is the retrieved value of the part. -/
  | retrieve
  /-- The result is a copy of the part. -/
  | copy
deriving DecidableEq

/-- **A fact that one variable denotes a part of another.** -/
structure Alias where
  parent : Var
  /-- The way from the parent to the part. -/
  path : List Step
  access : Access
  child : Var
deriving DecidableEq

namespace Alias

/-- The fact created by taking an element of an array. Only a bound element is a
part of the array; a retrieved or copied one is a value on its own. -/
def ofArray? (arr : Var) (access : Access) (child : Var) : Option Alias :=
  match access with
  | .bind => some ⟨arr, [.unknown], access, child⟩
  | _ => none

/-- The field at the end of a path holds a reference. -/
def fieldIsRef (record : Var) (path : List String) : Except Fault Bool :=
  match record.ty.fieldAt path with
  | .ok ty => .ok ty.isRef
  | .error reason => .error (.badFieldPath record.name path reason)

/-- **The fact created by taking a field of a record.** A bound field is a part
of the record; a retrieved or copied one shares storage with it only if the
field holds a reference. -/
def ofStruct? (record : Var) (path : List String) (access : Access) (child : Var) :
    Except Fault (Option Alias) := do
  let isRef ← fieldIsRef record path
  return if access = .bind ∨ isRef then some ⟨record, fieldSteps path, access, child⟩ else none

end Alias

/-- The alias facts of a function, in the order found. -/
structure AliasMap where
  facts : List Alias
deriving Inhabited

namespace AliasMap

/-- No facts. -/
def empty : AliasMap := ⟨[]⟩

/-- Adds a fact. -/
def add (m : AliasMap) (a : Alias) : AliasMap := ⟨m.facts ++ [a]⟩

/-- Follows facts from a variable to its root, the path already gone being
`path`. The fact that was followed is dropped with all others about the same
child, so the number of facts bounds the way. -/
def follow : Nat → List Alias → String → List Step → Location
  | 0, _, name, path => ⟨name, path⟩
  | n + 1, facts, name, path =>
    match facts.find? (·.child.name = name) with
    | none => ⟨name, path⟩
    | some a => follow n (facts.filter (·.child.name ≠ name)) a.parent.name (a.path ++ path)

/-- **The location that a variable denotes.** -/
def location (m : AliasMap) (v : Var) : Location :=
  follow m.facts.length m.facts v.name []

/-- The variable takes part in some fact. -/
def mentions (m : AliasMap) (v : Var) : Bool :=
  m.facts.any fun a => a.parent.name = v.name || a.child.name = v.name

/-- **The variable is stable**: it is written by its defining assignment only
and cannot be reached under another name. -/
def isStable (m : AliasMap) (v : Var) : Bool :=
  v.alloc ≠ .part && !m.mentions v

/-- The location written by storing into a variable at a path; none if the write
is the defining assignment of a stable variable. -/
def written? (m : AliasMap) (v : Var) (steps : List Step) : Option Location :=
  if steps.isEmpty && m.isStable v then none else some ((m.location v).extend steps)

end AliasMap

end ValueFlow
