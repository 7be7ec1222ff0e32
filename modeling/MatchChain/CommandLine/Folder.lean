import MatchChain.Text.Bytes

/-!
# Folders

The files that a command can read and write. A folder holds texts under paths of names; a name in
front of a file's own is that of a folder.

A path is walked through the folders that all names but its last lead to. Reading then looks for the
last name. Writing first refuses a path that ends in a slash, and only then looks for the name, so
that the slash is the fault even if the name is too long.

Outside the folder only the places that every system has are known. Any other name is free there:
nothing is read from it, and what is written to it is not kept.
-/

set_option autoImplicit false

namespace MatchChain

/-- Why a file could not be read or written. -/
inductive FileFault where
  | notFound
  | isFolder
  | notFolder
  | nameTooLong
  | noSpace
  | notText
  /-- Any other fault of the system, with its number. -/
  | other (reason : String) (number : Nat)
deriving DecidableEq

namespace FileFault

/-- A reason as the system words it, with its number. -/
def numbered (reason : String) (number : Nat) : String :=
  reason ++ " (os error " ++ toString number ++ ")"

def message : FileFault → String
  | notFound => numbered "No such file or directory" 2
  | notFolder => numbered "Not a directory" 20
  | isFolder => numbered "Is a directory" 21
  | noSpace => numbered "No space left on device" 28
  | nameTooLong => numbered "File name too long" 36
  | notText => "stream did not contain valid UTF-8"
  | other reason number => numbered reason number

end FileFault

/-- Where text is read from or written to. -/
inductive Endpoint where
  /-- A file of the folder. -/
  | file (path : List String)
  | input
  | output
  | reports
  /-- Empty to a reader, and what is written is not kept. -/
  | void
  /-- Has no room for any text. -/
  | full
deriving DecidableEq

/-- A folder on the way along a path. -/
inductive Spot where
  /-- In the folder, by the names that lead there. -/
  | inside (path : List String)
  /-- Around the folder. -/
  | around
  /-- By the names that lead there from the top of all files. -/
  | fromTop (path : List String)
deriving DecidableEq

namespace Spot

/-- The folder that a folder is in. The top is in itself. -/
def parent : Spot → Spot
  | inside path => if path.isEmpty then around else inside path.dropLast
  | around => around
  | fromTop path => fromTop path.dropLast

/-- The names at the top of all files that every system has. -/
def topFolders : List String :=
  ["bin", "boot", "dev", "etc", "home", "lib", "media", "mnt", "opt", "proc", "root", "run", "sbin",
    "srv", "sys", "tmp", "usr", "var"]

/-- The devices of every system that hold or take text. -/
def devices : List (String × Endpoint) :=
  [("null", .void), ("full", .full), ("stdin", .input), ("stdout", .output), ("stderr", .reports)]

end Spot

/-- What a name in a folder stands for. -/
inductive Entry where
  | folder (spot : Spot)
  | endpoint (e : Endpoint)
  /-- Nothing yet; a file made under the name is `e`. -/
  | free (e : Endpoint)
deriving DecidableEq

/-- Files with their paths, in the order in which they were made. -/
structure Folder where
  files : List (List String × String) := []
deriving DecidableEq, Inhabited

namespace Folder

/-- The longest name of a file, in bytes. -/
def maxNameLength : Nat := 255

/-- The longest path, in bytes. -/
def maxPathLength : Nat := 4095

def file? (f : Folder) (path : List String) : Option String := f.files.lookup path

/-- Whether a path leads to a folder: the root, or what stands in front of a file's name. -/
def hasFolder (f : Folder) (path : List String) : Bool :=
  path.isEmpty || f.files.any fun (p, _) => path.length < p.length && p.take path.length == path

/-- What a name that is not made of dots stands for. -/
def entry (f : Folder) (spot : Spot) (name : String) : Entry :=
  match spot with
  | .inside path =>
    let path := path ++ [name]
    if f.hasFolder path then .folder (.inside path)
    else if (f.file? path).isSome then .endpoint (.file path)
    else .free (.file path)
  | .around => .free .void
  | .fromTop [] =>
    if Spot.topFolders.contains name then .folder (.fromTop [name]) else .free .void
  | .fromTop ["dev"] => (Spot.devices.lookup name).elim (.free .void) .endpoint
  | .fromTop _ => .free .void

/-- Looks a name up in a folder. -/
def lookup (f : Folder) (spot : Spot) (name : String) : Except FileFault Entry :=
  if name == "." then .ok (.folder spot)
  else if name == ".." then .ok (.folder spot.parent)
  else if maxNameLength < name.utf8ByteSize then .error .nameTooLong
  else .ok (f.entry spot name)

/-- Goes on to the folder that a name leads to. -/
def enter (f : Folder) (spot : Spot) (name : String) : Except FileFault Spot := do
  match ← f.lookup spot name with
  | .folder spot => .ok spot
  | .endpoint _ => .error .notFolder
  | .free _ => .error .notFound

/-- The folder that a path's last name is in, with that name. An empty path leads nowhere, and empty
names in a path do not count. A path of slashes alone stays where it starts. -/
def approach (f : Folder) (path : String) : Except FileFault (Spot × String) := do
  if path.isEmpty then .error .notFound
  else if maxPathLength < path.utf8ByteSize then .error .nameTooLong
  else
    let names := (path.splitOn "/").filter (!·.isEmpty)
    let start : Spot := if path.startsWith "/" then .fromTop [] else .inside []
    return (← names.dropLast.foldlM f.enter start, names.getLastD ".")

/-- Where the text at a path is read. Behind a file's name there is no slash. -/
def source (f : Folder) (path : String) : Except FileFault Endpoint := do
  let (spot, name) ← f.approach path
  match ← f.lookup spot name with
  | .folder _ => .error .isFolder
  | .free _ => .error .notFound
  | .endpoint e => if path.endsWith "/" then .error .notFolder else .ok e

/-- Where text for a path is written: a file is made if the folder that it is in exists. -/
def destination (f : Folder) (path : String) : Except FileFault Endpoint := do
  let (spot, name) ← f.approach path
  if path.endsWith "/" then .error .isFolder
  else match ← f.lookup spot name with
    | .folder _ => .error .isFolder
    | .endpoint e | .free e => .ok e

/-- Overwrites a file in its place, or adds it at the end. -/
def put (f : Folder) (path : List String) (text : String) : Folder :=
  { files := go f.files }
where
  go : List (List String × String) → List (List String × String)
    | [] => [(path, text)]
    | (p, t) :: fs => if p == path then (p, text) :: fs else (p, t) :: go fs

end Folder

end MatchChain
