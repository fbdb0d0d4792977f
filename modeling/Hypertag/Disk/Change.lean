import Hypertag.Disk.Basic

/-!
# Changing the disk

Making directories, files and links, with the directories above them, and removing things. A
change goes through links in the directories above it, and a file is written through a link. Where
something is in the way nothing is changed. What is allowed at a path stays as it is.
-/

namespace Hypertag

inductive DiskChange where
  | makeDirectory (path : Path)
  | writeFile (path : Path) (text : Text)
  | makeLink (path : Path) (target : Text)
  | remove (path : Path)

namespace DiskEntry

/-- Puts an entry in place of the one with its name, or at the end. -/
def put (entry : DiskEntry) : List DiskEntry → List DiskEntry
  | [] => [entry]
  | e :: es => if e.name = entry.name then entry :: es else e :: put entry es

def contents : Option DiskEntry → List DiskEntry
  | some (.directory _ entries) => entries
  | _ => []

/-- Changes the entries of the directory at a path, making directories on the way. -/
def changeAt (change : List DiskEntry → List DiskEntry) : Path → List DiskEntry → List DiskEntry
  | [], entries => change entries
  | name :: rest, entries =>
    put (.directory name (changeAt change rest (contents (Disk.find? entries name)))) entries

end DiskEntry

namespace Disk

/-- The disk with nothing but one empty directory at the top. -/
def withDirectory (name : Text) : Disk := { entries := [.directory name []] }

/-- The folders at a path, innermost first, when it leads to a directory. -/
def folders? (disk : Disk) (path : Path) : Option (List Folder) :=
  match disk.reach path with
  | .ok (.folder folders) => some folders
  | _ => none

/-- Where a directory is or would be made, with links replaced as far as it exists. -/
def settle? (disk : Disk) : Path → Path → Option Path
  | found, [] => some found
  | found, name :: rest =>
    (disk.folders? found).bind fun folders =>
      if (find? (disk.current folders) name).isNone then some (found ++ name :: rest)
      else (disk.folders? (found ++ [name])).bind fun next => disk.settle? (pathOf next) rest

def changeEntries (disk : Disk) (path : Path) (change : List DiskEntry → List DiskEntry) : Disk :=
  { disk with entries := DiskEntry.changeAt change path disk.entries }

/-- Puts an entry into the directory at a path. -/
def putEntry (disk : Disk) (directory : Path) (entry : DiskEntry) : Disk :=
  disk.changeEntries directory (DiskEntry.put entry)

/-- Makes a directory and those above it. Gives its actual path too. -/
def makeDirectory? (disk : Disk) (path : Path) : Option (Disk × Path) :=
  (disk.settle? [] path).map fun directory => (disk.changeEntries directory id, directory)

/-- Writes a file in a directory that is there, through a link if one has its name. -/
def writeIn (disk : Disk) (directory : Path) (name text : Text) : Disk :=
  match disk.reach (directory ++ [name]) with
  | .ok (.file folders name _) => disk.putEntry (pathOf folders) (.file name text)
  | .ok (.nothing folders name) => disk.putEntry (pathOf folders) (.file name text)
  | _ => disk

def apply (disk : Disk) : DiskChange → Disk
  | .makeDirectory path => (disk.makeDirectory? path).elim disk Prod.fst
  | .writeFile path text =>
    (disk.makeDirectory? path.dropLast).elim disk fun (disk, directory) =>
      disk.writeIn directory (path.getLast?.getD []) text
  | .makeLink path target =>
    (disk.makeDirectory? path.dropLast).elim disk fun (disk, directory) =>
      disk.putEntry directory (.link (path.getLast?.getD []) target)
  | .remove path =>
    (disk.folders? path.dropLast).elim disk fun folders =>
      disk.changeEntries (pathOf folders) (List.filter (·.name ≠ path.getLast?.getD []))

end Disk

end Hypertag
