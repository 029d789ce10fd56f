import ValueFlow.Ty

/-!
# Variables

**A variable is identified by its name.** Type, storage, kind of definition and
provenance travel with every occurrence of it, but two occurrences with the same
name are the same variable whatever else they carry. Tables that are indexed by
variables therefore use the name as the key and remember the occurrence that was
entered first.
-/

namespace ValueFlow

/-- Where the storage of a variable comes from. -/
inductive Alloc where
  /-- A datum of its own, allocated when the declaring block starts. -/
  | stack
  /-- A temporary datum. -/
  | temp
  /-- No storage of its own: a part of another variable. -/
  | part
  /-- A value local to the task. -/
  | task
  /-- A shared constant. -/
  | globalConst
deriving DecidableEq

/-- How a variable is defined. -/
inductive Definition where
  | localUser
  | localCompiler
  | globalConst
  | inArg
  | outArg
deriving DecidableEq

/-- Why a variable was introduced. -/
inductive Provenance where
  | unknown
  | user
  /-- It was bound as a part of another variable. -/
  | part
  | optimizer
  /-- It holds the retrieved value of the named variable. -/
  | valueOf (name : String)
  | filenameOf (name : String)
deriving DecidableEq

/-- An occurrence of a variable. -/
structure Var where
  /-- The identity of the variable. -/
  name : String
  ty : Ty
  alloc : Alloc
  definition : Definition
  provenance : Provenance
deriving DecidableEq

namespace Var

/-- A future in the data store, declared by the user. -/
def future (name : String) (s : Scalar) : Var :=
  ⟨name, .future s, .stack, .localUser, .user⟩

/-- A task-local value that the compiler introduced. -/
def value (name : String) (s : Scalar) : Var :=
  ⟨name, .value s, .task, .localCompiler, .unknown⟩

/-- The variable that holds the retrieved contents of another one. -/
def valueOf? (v : Var) : Option Var :=
  v.ty.retrieved?.map fun ty =>
    ⟨"v:" ++ v.name, ty, .task, .localCompiler, .valueOf v.name⟩

/-- It is a shared constant. -/
def isGlobalConst (v : Var) : Bool := v.definition = .globalConst

/-- It is local to the task, hence never waited for. -/
def isLocalValue (v : Var) : Bool := v.alloc = .task

/-- The occurrence stripped of everything but its identity. -/
def bare (v : Var) : Var := value v.name .void

end Var

end ValueFlow
