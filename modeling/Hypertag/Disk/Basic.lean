import Hypertag.Path

/-!
# The disk

A tree of directories, files and symbolic links. Links are followed when a path is looked up, at
most forty on the way; `..` leaves the directory actually reached, and only directories can be left
or stayed in. A directory may be closed to those who ask for its names, or for what is behind them,
and a file to those who ask for its text.
-/

namespace Hypertag

inductive DiskEntry where
  | file (name text : Text)
  | link (name target : Text)
  | directory (name : Text) (entries : List DiskEntry)
  deriving Inhabited

def DiskEntry.name : DiskEntry → Text
  | file name _ => name
  | link name _ => name
  | directory name _ => name

inductive Access where
  /-- To see the names in a directory. -/
  | list
  /-- To get at what is behind the names in a directory. -/
  | enter
  /-- To see the text of a file. -/
  | read
  deriving DecidableEq

/-- What the top directory holds, and what is allowed at a path without links. -/
structure Disk where
  entries : List DiskEntry
  allows : Access → Path → Bool := fun _ _ => true

/-- Why a path cannot be used. -/
inductive Fault where
  | noEntry
  | notDirectory
  | isDirectory
  | tooManyLinks
  | denied
  deriving DecidableEq

/-- What was asked of the disk when it failed. -/
inductive DiskCall where
  | scandir
  | lstat
  | stat
  | openFile
  | readFile
  deriving DecidableEq

structure DiskError where
  fault : Fault
  call : DiskCall
  path : Text
  deriving DecidableEq

def Fault.message : Fault → Text
  | noEntry => "ENOENT: no such file or directory"
  | notDirectory => "ENOTDIR: not a directory"
  | isDirectory => "EISDIR: illegal operation on a directory"
  | tooManyLinks => "ELOOP: too many symbolic links encountered"
  | denied => "EACCES: permission denied"

def DiskCall.name : DiskCall → Text
  | scandir => "scandir"
  | lstat => "lstat"
  | stat => "stat"
  | openFile => "open"
  | readFile => "read"

/-- The message of an error. What is read from an open file has no path any more. -/
def DiskError.message (e : DiskError) : Text :=
  let call := e.fault.message ++ ", " ++ e.call.name
  if e.call = .readFile then call else call ++ " '" ++ e.path ++ "'"

/-- A directory on the way down from the top. -/
structure Folder where
  name : Text
  entries : List DiskEntry

/-- What a path leads to. The folders above it come innermost first. -/
inductive Found where
  | folder (folders : List Folder)
  | file (folders : List Folder) (name text : Text)
  /-- A name that is free in the innermost folder. -/
  | nothing (folders : List Folder) (name : Text)

namespace Disk

/-- What is listed in the innermost folder. -/
def current (disk : Disk) : List Folder → List DiskEntry
  | [] => disk.entries
  | f :: _ => f.entries

def find? (entries : List DiskEntry) (name : Text) : Option DiskEntry :=
  entries.find? (·.name = name)

/-- Where the names of folders lead, from the top. -/
def pathOf (folders : List Folder) : Path := (folders.map Folder.name).reverse

/-- Whether the server gets at what is behind the names in the innermost folder. -/
def enters (disk : Disk) (folders : List Folder) : Bool := disk.allows .enter (pathOf folders)

/-- Takes the steps of a path one by one; `onLink` goes on at a link. -/
def lookupWith (onLink : List Folder → List Text → Except Fault Found) (disk : Disk) :
    List Folder → List Text → Except Fault Found
  | folders, [] => .ok (.folder folders)
  | folders, step :: rest =>
    if step.isEmpty then lookupWith onLink disk folders rest
    else if !disk.enters folders then .error .denied
    else if step = Path.here then lookupWith onLink disk folders rest
    else if step = Path.parent then lookupWith onLink disk (folders.drop 1) rest
    else match find? (disk.current folders) step with
      | none => if rest.isEmpty then .ok (.nothing folders step) else .error .noEntry
      | some (.directory name entries) => lookupWith onLink disk (⟨name, entries⟩ :: folders) rest
      | some (.file name text) =>
        if rest.isEmpty then .ok (.file folders name text) else .error .notDirectory
      | some (.link _ target) =>
        onLink (if Path.isAbsolute target then [] else folders) (Path.steps target ++ rest)

/-- Takes steps with a number of links left to follow. -/
def lookup (disk : Disk) : Nat → List Folder → List Text → Except Fault Found
  | 0 => disk.lookupWith fun _ _ => .error .tooManyLinks
  | links + 1 => disk.lookupWith (disk.lookup links)

def maxLinks : Nat := 40

/-- What the steps of a path lead to, from the top. -/
def reach (disk : Disk) (steps : List Text) : Except Fault Found := disk.lookup maxLinks [] steps

/-- What is there under a written path. The empty path leads nowhere. -/
def resolve (disk : Disk) (path : Text) : Except Fault Found :=
  match path, disk.reach (Path.steps path) with
  | [], _ => .error .noEntry
  | _, .ok (.nothing _ _) => .error .noEntry
  | _, found => found

def isDirectory (disk : Disk) (path : Text) : Bool :=
  match disk.resolve path with
  | .ok (.folder _) => true
  | _ => false

/-- The entries of a directory. -/
def list (disk : Disk) (path : Text) : Except DiskError (List DiskEntry) :=
  match disk.resolve path with
  | .ok (.folder folders) =>
    if disk.allows .list (pathOf folders) then .ok (disk.current folders)
    else .error ⟨.denied, .scandir, path⟩
  | .ok _ => .error ⟨.notDirectory, .scandir, path⟩
  | .error fault => .error ⟨fault, .scandir, path⟩

/-- The text of a file. -/
def read (disk : Disk) (path : Text) : Except DiskError Text :=
  match disk.resolve path with
  | .ok (.file folders name text) =>
    if disk.allows .read (pathOf folders ++ [name]) then .ok text
    else .error ⟨.denied, .openFile, path⟩
  | .ok (.folder folders) =>
    if disk.allows .list (pathOf folders) then .error ⟨.isDirectory, .readFile, path⟩
    else .error ⟨.denied, .openFile, path⟩
  | .ok (.nothing _ _) => .error ⟨.noEntry, .openFile, path⟩
  | .error fault => .error ⟨fault, .openFile, path⟩

def read? (disk : Disk) (path : Text) : Option Text := (disk.read path).toOption

end Disk

end Hypertag
