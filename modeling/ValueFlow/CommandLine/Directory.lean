import ValueFlow.CommandLine.Session

/-!
# A directory in memory

A directory with files and no directories inside it, on which a session can run
without touching a file system. A path is followed step by step, as an operating
system does it: what a step is asked of has to be a directory, and names and
paths must not be too long. The first step that goes wrong decides.

Of what lies outside the directory little is known. The directories above it and
the usual ones at the top of the file system are there, and they are taken to be
empty, the null device apart. Text that is written there is not kept.
-/

namespace ValueFlow.CommandLine

/-- A directory, by the names and the texts of its files. -/
structure Directory where
  files : Dict String
deriving DecidableEq

namespace Directory

/-! ## Places -/

/-- A place in which names can be looked up. -/
inductive Folder where
  /-- The directory itself. -/
  | here
  /-- A directory elsewhere, of which nothing is known. -/
  | elsewhere
  /-- The top of the file system. -/
  | top
  /-- The place of the devices. -/
  | devices
deriving DecidableEq

/-- The folder above a folder. -/
def Folder.parent : Folder → Folder
  | here | elsewhere => .elsewhere
  | top | devices => .top

/-- **Where steps can lead.** -/
inductive Node where
  | folder (f : Folder)
  /-- A file of the directory. -/
  | file (name : String)
  /-- The device that is always empty and keeps nothing. -/
  | nullDevice
  /-- A name that is not taken in a folder. -/
  | vacant (f : Folder) (name : String)
deriving DecidableEq

/-- The folders that are always there at the top of the file system, besides the
devices. -/
def usualFolders : List String :=
  ["bin", "etc", "home", "lib", "opt", "proc", "root", "run",
    "sbin", "srv", "sys", "tmp", "usr", "var"]

/-- What a name stands for in a folder. -/
def entry (d : Directory) : Folder → String → Node
  | .here, name => if (d.files.get? name).isSome then .file name else .vacant .here name
  | .elsewhere, name => .vacant .elsewhere name
  | .top, name =>
    if name = "dev" then .folder .devices
    else if usualFolders.contains name then .folder .elsewhere
    else .vacant .top name
  | .devices, name => if name = "null" then .nullDevice else .vacant .devices name

/-! ## Following a path -/

/-- The greatest length of a name, in bytes. -/
def maxName : Nat := 255

/-- The greatest length of a path, in bytes. -/
def maxPath : Nat := 4095

/-- One step from a folder. -/
def step (d : Directory) (f : Folder) (name : String) : Except FileFault Node :=
  if name = "." then .ok (.folder f)
  else if name = ".." then .ok (.folder f.parent)
  else if maxName < name.utf8ByteSize then .error .nameTooLong
  else .ok (d.entry f name)

/-- The folder that a node has to be for a step to go on from it. -/
def Node.enter : Node → Except FileFault Folder
  | folder f => .ok f
  | file _ | nullDevice => .error .notDirectory
  | vacant _ _ => .error .notFound

/-- The node where steps lead from a folder. -/
def walk (d : Directory) (f : Folder) (steps : List String) : Except FileFault Node :=
  steps.foldlM (fun node name => do d.step (← node.enter) name) (.folder f)

/-- A path taken apart. -/
structure Path where
  start : Folder
  /-- The steps; slashes in a row separate like one. -/
  steps : List String
  /-- A slash stands at the end, so only a directory can be meant. -/
  slash : Bool

/-- Takes a path apart. The empty path and one that is too long lead nowhere. -/
def Path.parse (text : String) : Except FileFault Path :=
  let chars := text.toList
  if chars.isEmpty then .error .notFound
  else if maxPath < text.utf8ByteSize then .error .nameTooLong
  else .ok
    { start := if chars.head? = some '/' then .top else .here
      steps := ((chars.splitOn '/').map String.ofList).filter (· ≠ "")
      slash := chars.getLast? = some '/' }

/-! ## Reading and writing -/

/-- **The text of the file at a path.** -/
def read (d : Directory) (path : String) : Except FileFault String := do
  let p ← Path.parse path
  let node ← d.walk p.start p.steps
  if p.slash then
    let _ ← node.enter
  match node with
  | .folder _ => .error .isDirectory
  | .file name => .ok ((d.files.get? name).getD "")
  | .nullDevice => .ok ""
  | .vacant _ _ => .error .notFound

/-- **The directory with a text written to a path.** A path with a slash at the
end is refused before its last step is tried. -/
def write (d : Directory) (path text : String) : Except FileFault Directory := do
  let p ← Path.parse path
  if p.slash then
    let _ ← (← d.walk p.start p.steps.dropLast).enter
    .error .isDirectory
  else
    match ← d.walk p.start p.steps with
    | .folder _ => .error .isDirectory
    | .file name | .vacant .here name => .ok ⟨d.files.insert name text⟩
    | .nullDevice | .vacant _ _ => .ok d

/-- Reading and writing, with the directory as the state. -/
def access : Files (StateM Directory) where
  read path := do return (← get).read path
  write path text := do
    match (← get).write path text with
    | .error fault => return .error fault
    | .ok d =>
      set d
      return .ok ()

end Directory

/-- A session on a directory: its report, and the directory as it leaves it. -/
def sessionIn (d : Directory) (args : List String) : Report × Directory :=
  (session Directory.access args).run d

end ValueFlow.CommandLine
