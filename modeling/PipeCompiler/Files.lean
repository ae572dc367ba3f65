import PipeCompiler.Text.Bytes

/-! Path names, and files and directories as a value.

An operation on a disk of one step either says why it fails or gives the disk that it leaves behind;
one of several steps gives that disk in either case. -/
namespace PipeCompiler

namespace Path

def slash : UInt8 := '/'

def names (path : Bytes) : List Bytes :=
  (Bytes.cutAt slash path).filter (!·.isEmpty)

def isAbsolute (path : Bytes) : Bool :=
  path.head? = some slash

/-- The last name of a path. The empty path names the current directory. -/
def base (path : Bytes) : Bytes :=
  if path.isEmpty then "."
  else (names path).getLast?.getD [slash]

/-- Everything from the last point in the last name of a path, or nothing. -/
def extension (path : Bytes) : Bytes :=
  let last := (Bytes.cutAt slash path).getLast?.getD []
  let after := last.reverse.takeWhile (· ≠ '.'.toUInt8)
  if after.length = last.length then [] else '.'.toUInt8 :: after.reverse

def dropEnding (ending path : Bytes) : Bytes :=
  if ending.isSuffixOf path then path.take (path.length - ending.length) else path

/-- Adds a name to the names of a clean path: a step up takes back the name before it. -/
def cleanStep (absolute : Bool) (names : List Bytes) (name : Bytes) : List Bytes :=
  if name == "." then names
  else if name == ".." then
    match names.getLast? with
    | none => if absolute then [] else [name]
    | some last => if last == ".." then names ++ [name] else names.dropLast
  else names ++ [name]

/-- The shortest path with the same meaning, if no name in it is a link. -/
def clean (path : Bytes) : Bytes :=
  let absolute := isAbsolute path
  let kept := (names path).foldl (cleanStep absolute) []
  let body := List.intercalate [slash] kept
  if absolute then slash :: body else if kept.isEmpty then "." else body

def join (dir path : Bytes) : Bytes :=
  if dir.isEmpty then if path.isEmpty then [] else clean path
  else clean (dir ++ [slash] ++ path)

end Path

abbrev Location := List Bytes

inductive Entry
  | directory
  | file (content : Bytes) (executable : Bool)
deriving DecidableEq, Repr

inductive FileFault
  | notFound
  | notDirectory
  | isDirectory
  | alreadyExists
  | nameTooLong
  | invalid
  | denied
  | notProgram
  /-- Files refer to files too many times over. -/
  | tooManyLevels
deriving DecidableEq, Repr

def FileFault.message : FileFault → Bytes
  | notFound => "no such file or directory"
  | notDirectory => "not a directory"
  | isDirectory => "is a directory"
  | alreadyExists => "file exists"
  | nameTooLong => "file name too long"
  | invalid => "invalid argument"
  | denied => "permission denied"
  | notProgram => "exec format error"
  | tooManyLevels => "too many levels of symbolic links"

structure FileError where
  action : String
  path : Bytes
  fault : FileFault
deriving DecidableEq, Repr

def FileError.message (e : FileError) : Bytes :=
  Bytes.ofString e.action ++ " " ++ e.path ++ ": " ++ e.fault.message

/-- The entries of a file system in the order of their creation, and the current directory. The root
is a directory without an entry of its own. -/
structure Disk where
  entries : List (Location × Entry)
  cwd : Location
deriving DecidableEq, Repr

namespace Disk

def get? (d : Disk) (l : Location) : Option Entry :=
  if l = [] then some .directory else d.entries.lookup l

def putEntry (l : Location) (e : Entry) : List (Location × Entry) → List (Location × Entry)
  | [] => [(l, e)]
  | (l', e') :: rest => if l' = l then (l, e) :: rest else (l', e') :: putEntry l e rest

def put (d : Disk) (l : Location) (e : Entry) : Disk :=
  { d with entries := putEntry l e d.entries }

def remove (d : Disk) (l : Location) : Disk :=
  { d with entries := d.entries.filter fun (l', _) => !l.isPrefixOf l' }

def list (d : Disk) (l : Location) : List Bytes :=
  d.entries.filterMap fun (l', _) => if l'.dropLast = l then l'.getLast? else none

def nameLimit : Nat := 255

def step (d : Disk) (l : Location) (name : Bytes) : Except FileFault Location :=
  match d.get? l with
  | some .directory =>
    if name == "." then .ok l
    else if name == ".." then .ok l.dropLast
    else if nameLimit < name.length then .error .nameTooLong
    else .ok (l ++ [name])
  | some (.file ..) => .error .notDirectory
  | none => .error .notFound

/-- Follows names one after the other. Nothing need stand where they lead to, but all that is passed
on the way has to be a directory. -/
def follow (d : Disk) : Location → List Bytes → Except FileFault Location
  | l, [] => .ok l
  | l, name :: names => do d.follow (← d.step l name) names

def pathLimit : Nat := 4096

def pathFault? (path : Bytes) : Option FileFault :=
  if path.isEmpty then some .notFound
  else if path.contains 0 then some .invalid
  else if pathLimit ≤ path.length then some .nameTooLong
  else none

/-- Where a path leads to. One that ends in a slash leads into the directory before the slash. -/
def locate (d : Disk) (path : Bytes) : Except FileFault Location :=
  match pathFault? path with
  | some fault => .error fault
  | none =>
    let names := Path.names path
    let names := if path.getLast? = some Path.slash then names ++ [Bytes.ofString "."] else names
    d.follow (if Path.isAbsolute path then [] else d.cwd) names

def stat (d : Disk) (path : Bytes) : Except FileFault Entry := do
  match d.get? (← d.locate path) with
  | some e => .ok e
  | none => .error .notFound

def has (d : Disk) (path : Bytes) : Bool :=
  (d.stat path).toOption.isSome

def read (d : Disk) (path : Bytes) : Except FileError Bytes :=
  match d.stat path with
  | .error fault => .error ⟨"open", path, fault⟩
  | .ok .directory => .error ⟨"read", path, .isDirectory⟩
  | .ok (.file content _) => .ok content

def write (d : Disk) (path content : Bytes) : Except FileError Disk :=
  match d.locate path with
  | .error fault => .error ⟨"open", path, fault⟩
  | .ok l =>
    match d.get? l with
    | some .directory => .error ⟨"open", path, .isDirectory⟩
    | some (.file _ executable) => .ok (d.put l (.file content executable))
    | none => .ok (d.put l (.file content false))

def dropSlashes (path : Bytes) : Bytes :=
  Bytes.dropTrailing Path.slash path

def makeDirectory (d : Disk) (path : Bytes) : Except FileError Disk :=
  let name := if (dropSlashes path).isEmpty then path else dropSlashes path
  match pathFault? path, d.locate name with
  | some fault, _ => .error ⟨"mkdir", path, fault⟩
  | none, .error fault => .error ⟨"mkdir", path, fault⟩
  | none, .ok l =>
    match d.get? l with
    | some _ => .error ⟨"mkdir", path, .alreadyExists⟩
    | none => .ok (d.put l .directory)

def parentPath (path : Bytes) : Bytes :=
  let trimmed := dropSlashes path
  trimmed.take (trimmed.length - ((Bytes.cutAt Path.slash trimmed).getLast?.getD []).length - 1)

theorem parentPath_length {path : Bytes} (h : parentPath path ≠ []) :
    (parentPath path).length < path.length := by
  have hlen : (dropSlashes path).length ≤ path.length := by
    simp only [dropSlashes, Bytes.dropTrailing, List.length_reverse]
    exact Nat.le_trans (List.dropWhile_suffix _).length_le (by simp)
  have hpos : 0 < (parentPath path).length := List.length_pos_iff.mpr h
  simp only [parentPath, List.length_take] at hpos ⊢
  omega

/-- Makes a directory and those on the way to it, as far as they are not there. Those that have
been made remain if a later one cannot be made. -/
def makeDirectories (d : Disk) (path : Bytes) : Except FileError Unit × Disk :=
  match d.stat path with
  | .ok .directory => (.ok (), d)
  | .ok (.file ..) => (.error ⟨"mkdir", path, .notDirectory⟩, d)
  | .error _ =>
    let made : Except FileError Unit × Disk :=
      if _h : parentPath path = [] then (.ok (), d) else makeDirectories d (parentPath path)
    match made with
    | (.error e, d) => (.error e, d)
    | (.ok (), d) =>
      match d.makeDirectory path with
      | .ok d => (.ok (), d)
      | .error e => (if d.stat path matches .ok .directory then .ok () else .error e, d)
termination_by path.length
decreasing_by exact parentPath_length _h

end Disk

end PipeCompiler
