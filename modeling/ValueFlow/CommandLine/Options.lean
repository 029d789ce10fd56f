/-!
# Command-line options

The arguments are read from left to right. An option that takes a value has it
attached (`-oF`, `-o=F`, `--output=F`) or as the next argument, which then must
not look like an option itself. Nothing may be given twice. Behind `--` every
argument is a file name.

`Options.parse` answers with the options, with a request for the version or the
help, or with `none` for arguments that make no sense. The first problem, or the
first such request, decides.
-/

namespace ValueFlow.CommandLine

/-- What the user asks for. -/
structure Options where
  /-- The program to read. -/
  input : String
  /-- Where to write the result; standard output if not given. -/
  output : Option String := none
  /-- Where to read settings from. -/
  config : Option String := none
  /-- The optimisation level; the optimiser is off at zero. -/
  level : Nat := 1
  noConstantFold : Bool := false
  noSharedConstants : Bool := false
  noWaitPruning : Bool := false
  /-- Write a listing in place of JSON. -/
  emitListing : Bool := false
  /-- Print the counters. -/
  stats : Bool := false
deriving DecidableEq

/-- What the arguments amount to. -/
inductive Request where
  | run (options : Options)
  | version
  | help
deriving DecidableEq

/-- The options that take no value. -/
inductive Flag where
  | noConstantFold
  | noSharedConstants
  | noWaitPruning
  | emitListing
  | stats
deriving DecidableEq

/-- The options that take a value. -/
inductive Setting where
  | output
  | config
  | level
deriving DecidableEq

/-- What was given so far. -/
structure Draft where
  input : Option String := none
  output : Option String := none
  config : Option String := none
  level : Option Nat := none
  flags : List Flag := []

/-- An argument that asks for information ends the reading. -/
inductive Query where
  | version
  | help
deriving DecidableEq

/-- The meaning of an option. -/
inductive Meaning where
  | flag (f : Flag)
  | setting (s : Setting)
  | query (q : Query)
deriving DecidableEq

/-- The options with long names. -/
def longOption? : String → Option Meaning
  | "output" => some (.setting .output)
  | "config" => some (.setting .config)
  | "no-constant-fold" => some (.flag .noConstantFold)
  | "no-shared-constants" => some (.flag .noSharedConstants)
  | "no-wait-pruning" => some (.flag .noWaitPruning)
  | "emit-ir" => some (.flag .emitListing)
  | "stats" => some (.flag .stats)
  | "version" => some (.query .version)
  | "help" => some (.query .help)
  | _ => none

/-- The options with one-letter names. -/
def shortOption? : Char → Option Meaning
  | 'o' => some (.setting .output)
  | 'O' => some (.setting .level)
  | 'V' => some (.query .version)
  | 'h' => some (.query .help)
  | _ => none

/-- An optimisation level: an integer from 0 to 255, with or without a sign. -/
def levelOf? (text : String) : Option Nat :=
  let (negative, digits) := match text.toList with
    | '-' :: digits => (true, digits)
    | '+' :: digits => (false, digits)
    | digits => (false, digits)
  if digits.isEmpty || !digits.all Char.isDigit then none
  else
    let n := digits.foldl (fun n c => 10 * n + (c.toNat - '0'.toNat)) 0
    if n ≤ 255 ∧ (negative → n = 0) then some n else none

namespace Draft

/-- A file name, which must not be empty, for something that is not given yet. -/
def path? (old : Option String) (value : String) : Option String :=
  if old.isSome || value.isEmpty then none else some value

/-- Sets a value that is not given yet. -/
def set? (d : Draft) (s : Setting) (value : String) : Option Draft :=
  match s with
  | .output => (path? d.output value).map fun p => { d with output := some p }
  | .config => (path? d.config value).map fun p => { d with config := some p }
  | .level =>
    if d.level.isSome then none else (levelOf? value).map fun n => { d with level := some n }

/-- Raises a flag that is not raised yet. -/
def raise? (d : Draft) (f : Flag) : Option Draft :=
  if d.flags.contains f then none else some { d with flags := f :: d.flags }

/-- Takes a file name as the input. -/
def input? (d : Draft) (value : String) : Option Draft :=
  (path? d.input value).map fun p => { d with input := some p }

/-- The options, if the input is given. -/
def finish? (d : Draft) : Option Request :=
  d.input.map fun input => .run
    { input, output := d.output, config := d.config, level := d.level.getD 1
      noConstantFold := d.flags.contains .noConstantFold
      noSharedConstants := d.flags.contains .noSharedConstants
      noWaitPruning := d.flags.contains .noWaitPruning
      emitListing := d.flags.contains .emitListing
      stats := d.flags.contains .stats }

end Draft

/-- The argument looks like an option and cannot be the value of one. -/
def looksLikeOption (arg : String) : Bool :=
  match arg.toList with
  | '-' :: _ :: _ => true
  | _ => false

/-- What an argument is. -/
inductive Argument where
  /-- The mark behind which only file names stand. -/
  | endOfOptions
  | option (m : Meaning) (attached : Option String)
  | file (name : String)

/-- Takes an argument apart; `none` for an option that does not exist. -/
def argument? (arg : String) : Option Argument :=
  match arg.toList with
  | ['-', '-'] => some .endOfOptions
  | '-' :: '-' :: text =>
    let name := text.takeWhile (· ≠ '=')
    let attached := match text.dropWhile (· ≠ '=') with
      | _ :: value => some (String.ofList value)
      | [] => none
    (longOption? (String.ofList name)).map fun m => .option m attached
  | '-' :: c :: text =>
    (shortOption? c).map fun m =>
      match m, text with
      | .query q, _ => .option (.query q) none
      | m, [] => .option m none
      | m, '=' :: value => .option m (some (String.ofList value))
      | m, value => .option m (some (String.ofList value))
  | _ => some (.file arg)

/-- File names behind the end of the options. -/
def filesOnly? : List String → Draft → Option Draft
  | [], d => some d
  | arg :: rest, d => (d.input? arg).bind (filesOnly? rest)

/-- Reads arguments from left to right. -/
def read? : List String → Draft → Option Request
  | [], d => d.finish?
  | arg :: rest, d =>
    match argument? arg with
    | none => none
    | some .endOfOptions => (filesOnly? rest d).bind Draft.finish?
    | some (.file name) => (d.input? name).bind (read? rest)
    | some (.option (.query _) (some _)) => none
    | some (.option (.query .version) none) => some .version
    | some (.option (.query .help) none) => some .help
    | some (.option (.flag _) (some _)) => none
    | some (.option (.flag f) none) => (d.raise? f).bind (read? rest)
    | some (.option (.setting s) (some value)) => (d.set? s value).bind (read? rest)
    | some (.option (.setting s) none) =>
      match rest with
      | [] => none
      | value :: rest => if looksLikeOption value then none else (d.set? s value).bind (read? rest)

/-- **What the user asks for**, if the arguments make sense. -/
def Request.parse? (args : List String) : Option Request := read? args {}

end ValueFlow.CommandLine
