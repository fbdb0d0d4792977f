import Hypertag.Disk.Canonical
import Hypertag.Disk.Walk
import Hypertag.Workspace.Ownership

/-!
# The project scan

A scan forgets all files and reads the configured directories anew, templates first, then scripts,
then backend files. The first directory that claims a file decides its domain. Open documents win
over the disk. A scan that fails keeps what it has read so far. Where a canonical path is not to be
had because its links go round in circles, the scan does not come to an end.
-/

namespace Hypertag

inductive ScanError where
  | grammarsNotLoaded
  | noDirectory (path : Text)
  | disk (e : DiskError)
  /-- There is no end to the scan, and nobody is told. -/
  | endless
  deriving DecidableEq

def ScanError.message : ScanError → Text
  | grammarsNotLoaded => "Grammars are not loaded."
  | noDirectory path => "Directory " ++ path ++ " does not exist."
  | disk e => e.message
  | endless => ""

/-- How a scan ends at a directory without a canonical path. -/
def CanonicalError.scanError : CanonicalError → ScanError
  | disk e => .disk e
  | endless => .endless

/-- How many files a scan has read, and what was refused. -/
structure ScanTotals where
  files : Nat
  conflicts : List Tag

/-- The totals after one more file. Nothing is counted for a file that was passed over. -/
def ScanTotals.count (totals : ScanTotals) : Option (List Tag) → ScanTotals
  | none => totals
  | some refused => ⟨totals.files + 1, totals.conflicts ++ refused⟩

namespace Workspace

/-- The text of a document: what is open counts before the disk. -/
def textOf (disk : Disk) (ws : Workspace) (uri path : Text) : Except DiskError Text :=
  match ws.documents.get? uri with
  | some text => .ok text
  | none => disk.read path

/-- Reads one file of the walk. Gives nothing when the file is already claimed, and when it cannot
be named or read; in the last case it stays in the index. -/
def addFile (g : Grammars) (disk : Disk) (ws : Workspace) (domain : Domain) (path : Text) :
    Workspace × Except ScanError (Option (List Tag)) :=
  match disk.canonicalUri path with
  | .error .endless => (ws, .error .endless)
  | .error (.disk e) => (ws.debug "scan" (skippedLine path e), .ok none)
  | .ok uri =>
    match ws.index.register? uri with
    | none => (ws, .ok none)
    | some (file, index) =>
      let ws := { ws with index }
      match textOf disk ws uri path with
      | .error e => (ws.debug "scan" (skippedLine path e), .ok none)
      | .ok text =>
        let (ws, refused) := ws.indexFile g file (some domain) text
        (ws, .ok (some refused))

/-- Reads files of a walk that belong to a domain. -/
def addFiles (g : Grammars) (disk : Disk) (config : Config) (domain : Domain) :
    Workspace → ScanTotals → List Text → Workspace × Except ScanError ScanTotals
  | ws, totals, [] => (ws, .ok totals)
  | ws, totals, path :: rest =>
    if domain ∈ config.classify path then
      match ws.addFile g disk domain path with
      | (ws, .error e) => (ws, .error e)
      | (ws, .ok refused) => addFiles g disk config domain ws (totals.count refused) rest
    else addFiles g disk config domain ws totals rest

/-- Walks a directory, with a log line for what could not be listed. -/
def walkDirectory (disk : Disk) (ws : Workspace) (root label : Text) : Workspace × List Text :=
  let found := disk.walk root
  let ws := { ws with log := found.report ws.log }
  (ws.timing ("workspace.walk " ++ label) none, found.files)

/-- Reads the configured directories one after the other. -/
def scanDirectories (g : Grammars) (disk : Disk) (config : Config) (base : Path) :
    Workspace → ScanTotals → List (Domain × Text) → Workspace × Except ScanError ScanTotals
  | ws, totals, [] => (ws, .ok totals)
  | ws, totals, (domain, directory) :: rest =>
    let root := Path.render (Path.resolve base directory)
    if disk.isDirectory root then
      match disk.canonical root with
      | .error e => (ws, .error e.scanError)
      | .ok real =>
        let ws := { ws with roots := ws.roots ++ [ProjectRoot.mk domain (Path.render real)] }
        let (ws, files) := ws.walkDirectory disk root directory
        match addFiles g disk config domain ws totals files with
        | (ws, .error e) => (ws, .error e)
        | (ws, .ok totals) => scanDirectories g disk config base ws totals rest
    else (ws, .error (.noDirectory root))

/-- The configured directories in scan order, each with its domain. -/
def scanOrder (config : Config) : List (Domain × Text) :=
  config.directoryGroups.flatMap fun (domain, directories) => directories.map (domain, ·)

/-- Scans a project. The result is every refused tag, in the order of the scan. -/
def scan (g : Grammars) (disk : Disk) (ws : Workspace) (config : Config) (root : Text) :
    Workspace × Except ScanError (List Tag) :=
  if ws.ready then
    let ws := { (ws.setConfig config).reset with roots := [] }
    match scanDirectories g disk config (Path.ofText root) ws ⟨0, []⟩ (scanOrder config) with
    | (ws, .error e) => (ws, .error e)
    | (ws, .ok totals) =>
      (ws.timing "workspace.initialProjectScan" (some
        [("files", Text.ofNat totals.files), ("tags", Text.ofNat ws.tags.size),
         ("conflicts", Text.ofNat totals.conflicts.length)]), .ok totals.conflicts)
  else (ws, .error .grammarsNotLoaded)

end Workspace

end Hypertag
