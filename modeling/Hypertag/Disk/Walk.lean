import Hypertag.Disk.Basic
import Hypertag.Log
import Hypertag.Text.Order

/-!
# Walking directories

Every file below a directory, depth first, names in order. Links are neither listed nor followed,
and a few directories that hold no sources are left out.
-/

namespace Hypertag

def skippedDirectories : List Text := ["node_modules", ".git", "__pycache__", "target"]

/-- The files of a walk, and the directories that could not be listed. -/
structure Walk where
  files : List Text
  skipped : List DiskError

namespace Walk

def empty : Walk := ⟨[], []⟩

/-- Walks that were made one after the other. -/
def concat (walks : List Walk) : Walk := ⟨walks.flatMap files, walks.flatMap skipped⟩

end Walk

namespace DiskEntry

mutual

/-- How deep directories lie inside one another. -/
def height : DiskEntry → Nat
  | .file _ _ => 0
  | .link _ _ => 0
  | .directory _ entries => maxHeight entries + 1

def maxHeight : List DiskEntry → Nat
  | [] => 0
  | entry :: rest => max entry.height (maxHeight rest)

end

/-- What a walk does with an entry of a directory; `descend` walks a directory. -/
def walkWith (descend : Text → Walk) (directory : Text) : DiskEntry → Walk
  | .file name _ => ⟨[Path.join directory name], []⟩
  | .link _ _ => .empty
  | .directory name _ =>
    if name ∈ skippedDirectories then .empty else descend (Path.join directory name)

end DiskEntry

namespace Disk

/-- Walks a directory with directories inside one another down to a depth. -/
def walkFrom (disk : Disk) : Nat → Text → Walk
  | 0, _ => .empty
  | depth + 1, directory =>
    match disk.list directory with
    | .error e => ⟨[], [e]⟩
    | .ok entries => .concat ((Text.sortBy DiskEntry.name entries).map
        (DiskEntry.walkWith (disk.walkFrom depth) directory))

/-- Walks a directory. A path with a `..` in it may lead elsewhere than its normal form, by which
the directories in it are looked up; so the whole depth of the disk may be left below them. -/
def walk (disk : Disk) (root : Text) : Walk :=
  disk.walkFrom (DiskEntry.maxHeight disk.entries + 2) root

end Disk

/-- The line about a directory that cannot be listed, or a file that cannot be named or read. -/
def skippedLine (path : Text) (e : DiskError) : Text := "Skipping " ++ path ++ ": " ++ e.message

/-- Logs what a walk had to leave out. -/
def Walk.report (w : Walk) (log : Log) : Log :=
  w.skipped.foldl (fun log e => log.debug "scan" (skippedLine e.path e)) log

end Hypertag
