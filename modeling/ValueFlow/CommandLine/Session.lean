import ValueFlow.CommandLine.Options
import ValueFlow.Interchange.Program
import ValueFlow.Json.Writer
import ValueFlow.Optimizer

/-!
# A run of the command line

A session reads the settings and the program, optimises, prints the counters if
asked to, and writes the result. It works on files through two operations that
are given to it, so the same session runs on a real file system and on a
directory held in memory.

`Report` is all that can be seen of a session besides the files that it wrote.
-/

namespace ValueFlow.CommandLine

/-- Why a file cannot be read or written. -/
inductive FileFault where
  | notFound
  | isDirectory
  | notDirectory
  | nameTooLong
  /-- Another reason, in the words of the operating system. -/
  | other (text : String)
deriving DecidableEq

/-- The reason in the words of the operating system. -/
def FileFault.text : FileFault → String
  | notFound => "No such file or directory (os error 2)"
  | isDirectory => "Is a directory (os error 21)"
  | notDirectory => "Not a directory (os error 20)"
  | nameTooLong => "File name too long (os error 36)"
  | other text => text

/-- **How files are read and written.** -/
structure Files (m : Type → Type) where
  read : (path : String) → m (Except FileFault String)
  write : (path text : String) → m (Except FileFault Unit)

/-- Why a session fails. -/
inductive Failure where
  | file (path : String) (fault : FileFault)
  /-- The text of a file denotes no settings. -/
  | badSettings
  /-- The text of a file denotes no program. -/
  | badProgram (path : String)
  /-- The program is faulty. -/
  | faulty (fault : Fault)

namespace Failure

/-- The line for the user. What is wrong with a text that cannot be read is left
open. -/
def text : Failure → String
  | file path fault => "Error: IO error: " ++ path ++ ": " ++ fault.text ++ "\n"
  | badSettings => "Error: Could not parse IR: "
  | badProgram path => "Error: reading " ++ path ++ ": Could not parse IR: "
  | faulty fault => "Error: " ++ fault.message ++ "\n"

/-- The exit code: a faulty program is told apart from files that are no good. -/
def exitCode : Failure → Nat
  | faulty _ => 70
  | _ => 1

end Failure

/-- What a session shows. -/
structure Report where
  exitCode : Nat
  stdout : String := ""
  stderr : String := ""

/-- The report of a session that failed, behind what it printed before. -/
def Failure.report (f : Failure) (printed : String) : Report :=
  { exitCode := f.exitCode, stderr := printed ++ f.text }

/-- The settings with what the options switch off. -/
def Options.adjust (o : Options) (s : Settings) : Settings :=
  { s with
    constantFold := s.constantFold && !o.noConstantFold
    sharedConstants := s.sharedConstants && !o.noSharedConstants
    pruneWaits := s.pruneWaits && !o.noWaitPruning }

/-- Optimises a program, unless the level is zero. -/
def Options.optimize (o : Options) (settings : Settings) (p : Program) :
    Except Fault (Program × Stats) :=
  if o.level = 0 then .ok (p, {})
  else
    let run := (Optimizer.new settings).optimize p
    run.result.map (run.program, ·)

/-- The text of the result. -/
def Options.render (o : Options) (p : Program) : String :=
  if o.emitListing then p.listing else p.toJson.pretty

/-- The text of the counters, if they are wanted. -/
def Options.statsText (o : Options) (s : Stats) : String :=
  if o.stats then s.toJson.pretty ++ "\n" else ""

section

variable {m : Type → Type} [Monad m]

/-- Reads the settings. -/
def loadSettings (files : Files m) (o : Options) : m (Except Failure Settings) := do
  match o.config with
  | none => return .ok (o.adjust {})
  | some path =>
    match ← files.read path with
    | .error fault => return .error (.file path fault)
    | .ok text =>
      match Settings.ofText? text with
      | none => return .error .badSettings
      | some s => return .ok (o.adjust s)

/-- Reads the program. -/
def loadProgram (files : Files m) (path : String) : m (Except Failure Program) := do
  match ← files.read path with
  | .error fault => return .error (.file path fault)
  | .ok text =>
    match Program.ofText? text with
    | none => return .error (.badProgram path)
    | some p => return .ok p

/-- Reads, optimises and writes. -/
def execute (files : Files m) (o : Options) : m Report := do
  match ← loadSettings files o with
  | .error e => return e.report ""
  | .ok settings =>
    match ← loadProgram files o.input with
    | .error e => return e.report ""
    | .ok p =>
      match o.optimize settings p with
      | .error fault => return (Failure.faulty fault).report ""
      | .ok (p, stats) =>
        let printed := o.statsText stats
        match o.output with
        | none => return { exitCode := 0, stdout := o.render p ++ "\n", stderr := printed }
        | some path =>
          match ← files.write path (o.render p) with
          | .error fault => return (Failure.file path fault).report printed
          | .ok () => return { exitCode := 0, stderr := printed }

/-- The version of the program. -/
def versionText : String := "dfic 0.1.0\n"

/-- How the program is used. -/
def helpText : String :=
  "Value-numbering optimizer for task-parallel dataflow IR\n\n"
    ++ "Usage: dfic [OPTIONS] <FILE>\n\nOptions:\n"
    ++ "  -o, --output <FILE>        Output file, stdout if omitted\n"
    ++ "      --config <FILE>        Optimizer settings (JSON)\n"
    ++ "  -O <LEVEL>                 Optimization level (0 disables the optimizer)\n"
    ++ "      --no-constant-fold\n"
    ++ "      --no-shared-constants\n"
    ++ "      --no-wait-pruning\n"
    ++ "      --emit-ir              Emit the readable IR dump instead of JSON\n"
    ++ "      --stats                Print optimizer statistics to stderr\n"
    ++ "  -h, --help                 Print help\n"
    ++ "  -V, --version              Print version\n"

/-- **A session with the given arguments.** Arguments that make no sense give
exit code 2. -/
def session (files : Files m) (args : List String) : m Report :=
  match Request.parse? args with
  | none => return { exitCode := 2 }
  | some .version => return { exitCode := 0, stdout := versionText }
  | some .help => return { exitCode := 0, stdout := helpText }
  | some (.run o) => execute files o

end

end ValueFlow.CommandLine
