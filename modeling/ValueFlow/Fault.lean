import ValueFlow.Ty

/-!
# Faults

Everything that can be wrong with a program that was read successfully, each
with the text shown to the user.
-/

namespace ValueFlow

/-- **What is wrong with a program.** -/
inductive Fault where
  /-- A variable is used where no declaration of it is visible. -/
  | undeclared (var function : String)
  /-- A block declares a variable twice. -/
  | declaredTwice (var : String)
  /-- A variable is assigned twice on one path. -/
  | assignedTwice (var : String)
  /-- A field path does not fit the type of its record. -/
  | badFieldPath (struct : String) (path : List String) (reason : PathFault)
  /-- A foreign function is not registered. -/
  | unknownFunction (name : String)
  /-- A scope is left that was never entered. -/
  | unbalancedScopes
deriving DecidableEq

/-- A field path in messages and listings: the names with dots between them. -/
def pathText (path : List String) : String :=
  ".".intercalate path

/-- The message about a path into a type that leads nowhere. -/
def PathFault.message (reason : PathFault) (ty : Ty) (path : List String) : String :=
  ty.text ++ " has no field path " ++ pathText path ++ ": " ++ reason.text

/-- The text shown to the user. -/
def Fault.message : Fault → String
  | undeclared var function =>
    "Variable " ++ var ++ " referenced in " ++ function ++ " has no visible declaration"
  | declaredTwice var => "Duplicate declaration of " ++ var
  | assignedTwice var => "Variable " ++ var ++ " assigned more than once on the same path"
  | badFieldPath struct path reason =>
    "Bad field path " ++ pathText path ++ " for " ++ struct ++ ": " ++ reason.text
  | unknownFunction name => "Call to undeclared foreign function: " ++ name
  | unbalancedScopes => "Malformed IR: unbalanced scope exit"

end ValueFlow
