import Hypertag.Disk.Basic
import Hypertag.Uri.Basic

/-!
# Canonical paths

The canonical path of a file has no links in it, so that a file reached in two ways has one name.
Links are replaced from the left, a link being checked before it is followed. The path that it
stands for is put in normal form, without a look at the disk, and its own links are replaced before
the rest of the path is read. So a link may come to be replaced while it is being replaced, and then
there is no end to it.
-/

namespace Hypertag

/-- Why there is no canonical path. -/
inductive CanonicalError where
  | disk (e : DiskError)
  /-- The links go round in circles, and no answer ever comes. -/
  | endless
  deriving DecidableEq

/-- The path to what was found. -/
def Found.path : Found → Path
  | folder folders => Disk.pathOf folders
  | file folders name _ => Disk.pathOf folders ++ [name]
  | nothing folders name => Disk.pathOf folders ++ [name]

namespace DiskEntry

mutual

/-- The paths that the links of an entry stand for, without a look at the disk. -/
def linkTargets (above : Path) : DiskEntry → List Path
  | .file _ _ => []
  | .link _ target => [Path.resolve above target]
  | .directory name entries => allLinkTargets (above ++ [name]) entries

def allLinkTargets (above : Path) : List DiskEntry → List Path
  | [] => []
  | entry :: rest => entry.linkTargets above ++ allLinkTargets above rest

end

end DiskEntry

namespace Disk

/-- Goes on from what has been found by one more part; `onLink` replaces a link. -/
def canonicalStep (onLink : Path → Except CanonicalError Found) (disk : Disk) :
    Found → Text → Except CanonicalError Found
  | .folder folders, part =>
    let here := pathOf folders ++ [part]
    if !disk.enters folders then .error (.disk ⟨.denied, .lstat, Path.render here⟩)
    else match find? (disk.current folders) part with
      | none => .error (.disk ⟨.noEntry, .lstat, Path.render here⟩)
      | some (.directory name entries) => .ok (.folder (⟨name, entries⟩ :: folders))
      | some (.file name text) => .ok (.file folders name text)
      | some (.link _ target) =>
        match disk.resolve (Path.render here) with
        | .error fault => .error (.disk ⟨fault, .stat, Path.render here⟩)
        | .ok _ => onLink (Path.resolve (pathOf folders) target)
  | found, part => .error (.disk ⟨.notDirectory, .lstat, Path.render (found.path ++ [part])⟩)

def canonicalWith (onLink : Path → Except CanonicalError Found) (disk : Disk) (found : Found)
    (path : Path) : Except CanonicalError Found :=
  path.foldlM (disk.canonicalStep onLink) found

/-- What a path leads to once its links are replaced, with links inside links down to a depth. -/
def canonicalFrom (disk : Disk) : Nat → Path → Except CanonicalError Found
  | 0, _ => .error .endless
  | depth + 1, path => disk.canonicalWith (disk.canonicalFrom depth) (.folder []) path

def linkTargets (disk : Disk) : List Path := DiskEntry.allLinkTargets [] disk.entries

/-- One path and as many links inside one another as there are. At a greater depth some link is
being replaced inside itself. -/
def linkDepth (disk : Disk) : Nat := disk.linkTargets.length + 1

/-- The canonical form of a written path. -/
def canonical (disk : Disk) (path : Text) : Except CanonicalError Path :=
  (disk.canonicalFrom disk.linkDepth (Path.ofText path)).map Found.path

/-- The uri of a file by its canonical path. -/
def canonicalUri (disk : Disk) (path : Text) : Except CanonicalError Text :=
  (disk.canonical path).map fun p => Uri.ofPath (Path.render p)

end Disk

end Hypertag
