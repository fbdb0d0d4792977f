import Hypertag.Proofs.Outcome

/-!
# The loops of a scan

A scan goes over directories, and over the files of each. One step of either loop is stated here as
an equation, so that facts about a scan follow by induction on what is still to be read. A
directory either becomes a root or ends the scan. A file ends it only if the links on the way to it
go round in circles.
-/

namespace Hypertag

theorem ScanTotals.count_conflicts (totals : ScanTotals) (refused : Option (List Tag)) :
    (totals.count refused).conflicts = totals.conflicts ++ refused.getD [] := by
  cases refused with
  | none => exact (List.append_nil _).symm
  | some refused => rfl

namespace Workspace

def andThen {ε α β : Type} (first : Workspace × Except ε α)
    (next : Workspace → α → Workspace × Except ε β) : Workspace × Except ε β :=
  match first with
  | (ws, .error e) => (ws, .error e)
  | (ws, .ok a) => next ws a

theorem andThen_eq_ok {ε α β : Type} {first : Workspace × Except ε α}
    {next : Workspace → α → Workspace × Except ε β} {after : Workspace} {b : β} :
    andThen first next = (after, .ok b) ↔
      ∃ between a, first = (between, .ok a) ∧ next between a = (after, .ok b) := by
  obtain ⟨ws, result⟩ := first
  cases result <;> simp [andThen]

/-! ### Files -/

section File

variable (g : Grammars) {disk : Disk} {ws : Workspace} {path uri : Text} (domain : Domain)

theorem addFile_of_endless (endless : disk.canonicalUri path = .error .endless) :
    ws.addFile g disk domain path = (ws, .error .endless) := by
  simp only [addFile, endless]

theorem addFile_of_unnamed {e : DiskError} (failed : disk.canonicalUri path = .error (.disk e)) :
    ws.addFile g disk domain path = (ws.debug "scan" (skippedLine path e), .ok none) := by
  simp only [addFile, failed]

theorem addFile_of_claimed {file : FileId} (named : disk.canonicalUri path = .ok uri)
    (known : ws.index.idOf? uri = some file) :
    ws.addFile g disk domain path = (ws, .ok none) := by
  have claimed : ws.index.register? uri = none := by
    have member : uri ∈ ws.index.entries.map Prod.fst :=
      List.mem_map.mpr ⟨_, ws.index.idOf?_eq_some_iff.mp known, rfl⟩
    rw [DocumentIndex.register?, dif_pos member]
  simp only [addFile, named, claimed]

variable {file : FileId} {index : DocumentIndex}

theorem addFile_of_unreadable (named : disk.canonicalUri path = .ok uri)
    (new : ws.index.register? uri = some (file, index))
    (missing : (ws.documents.get? uri).or (disk.read? path) = none) :
    ∃ log, ws.addFile g disk domain path = ({ ws with index, log }, .ok none) := by
  have text := textOf_toOption disk { ws with index } uri path
  cases found : textOf disk { ws with index } uri path with
  | ok content =>
    rw [found] at text
    cases text.trans missing
  | error e =>
    simp only [addFile, named, new, found]
    exact ⟨_, rfl⟩

theorem addFile_of_read {text : Text} (named : disk.canonicalUri path = .ok uri)
    (new : ws.index.register? uri = some (file, index))
    (found : (ws.documents.get? uri).or (disk.read? path) = some text) :
    ws.addFile g disk domain path =
      (({ ws with index }.indexFile g file (some domain) text).1,
        .ok (some ({ ws with index }.indexFile g file (some domain) text).2)) := by
  have content := textOf_toOption disk { ws with index } uri path
  cases result : textOf disk { ws with index } uri path with
  | ok other =>
    rw [result] at content
    obtain rfl : other = text := Option.some.inj (content.trans found)
    simp only [addFile, named, new, result]
  | error e =>
    rw [result] at content
    cases content.trans found

/-- Only endless links keep a file from being taken up or passed over. -/
theorem addFile_ok (ends : disk.canonicalUri path ≠ .error .endless) :
    ∃ after refused, ws.addFile g disk domain path = (after, .ok refused) := by
  have outcome := addFile_outcome g disk ws domain path
  generalize ws.addFile g disk domain path = result at outcome
  cases outcome with
  | endless named => exact absurd named ends
  | unnamed log named => exact ⟨_, _, rfl⟩
  | claimed named known => exact ⟨_, _, rfl⟩
  | unreadable log named new closed => exact ⟨_, _, rfl⟩
  | read named new found => exact ⟨_, _, rfl⟩

end File

section Files

variable (g : Grammars) (disk : Disk) {config : Config} {domain : Domain}

theorem addFiles_of_fit (ws : Workspace) (totals : ScanTotals) {path : Text}
    (fits : domain ∈ config.classify path) (paths : List Text) :
    addFiles g disk config domain ws totals (path :: paths) =
      andThen (ws.addFile g disk domain path) fun ws refused =>
        addFiles g disk config domain ws (totals.count refused) paths := by
  rw [addFiles, if_pos fits]
  split
  · next failed => rw [failed, andThen]
  · next taken => rw [taken, andThen]

theorem addFiles_of_unfit (ws : Workspace) (totals : ScanTotals) {path : Text}
    (unfit : domain ∉ config.classify path) (paths : List Text) :
    addFiles g disk config domain ws totals (path :: paths) =
      addFiles g disk config domain ws totals paths := by
  rw [addFiles, if_neg unfit]

/-- The files of a walk are read if none of them has endless links, and otherwise there is no end to
it. -/
theorem addFiles_result (ws : Workspace) (totals : ScanTotals) (paths : List Text) :
    ((∀ path ∈ paths, domain ∈ config.classify path →
        disk.canonicalUri path ≠ .error .endless) ∧
      ∃ after totals', addFiles g disk config domain ws totals paths = (after, .ok totals')) ∨
    (∃ path ∈ paths, domain ∈ config.classify path ∧
        disk.canonicalUri path = .error .endless) ∧
      ∃ after, addFiles g disk config domain ws totals paths = (after, .error .endless) := by
  induction paths generalizing ws totals with
  | nil => exact Or.inl ⟨fun _ member => (List.not_mem_nil member).elim, ws, totals, rfl⟩
  | cons path paths ih =>
    by_cases fits : domain ∈ config.classify path
    · by_cases endless : disk.canonicalUri path = .error .endless
      · rw [addFiles_of_fit g disk ws totals fits, addFile_of_endless g domain endless]
        exact Or.inr ⟨⟨path, List.mem_cons_self, fits, endless⟩, ws, rfl⟩
      · obtain ⟨after, refused, added⟩ := @addFile_ok g disk ws path domain endless
        rw [addFiles_of_fit g disk ws totals fits, added]
        rcases ih after (totals.count refused) with ⟨end_, read⟩ | ⟨⟨other, member, more⟩, stuck⟩
        · exact Or.inl ⟨List.forall_mem_cons.mpr ⟨fun _ => endless, end_⟩, read⟩
        · exact Or.inr ⟨⟨other, List.mem_cons_of_mem path member, more⟩, stuck⟩
    · rw [addFiles_of_unfit g disk ws totals fits]
      rcases ih ws totals with ⟨end_, read⟩ | ⟨⟨other, member, more⟩, stuck⟩
      · exact Or.inl ⟨List.forall_mem_cons.mpr ⟨fun fit => absurd fit fits, end_⟩, read⟩
      · exact Or.inr ⟨⟨other, List.mem_cons_of_mem path member, more⟩, stuck⟩

end Files

/-! ### Directories -/

def directoryPath (base : Path) (directory : Text) : Text :=
  Path.render (Path.resolve base directory)

/-- The root that a configured directory becomes, or why a scan ends at it. -/
def projectRoot (disk : Disk) (base : Path) (item : Domain × Text) :
    Except ScanError ProjectRoot :=
  if disk.isDirectory (directoryPath base item.2) then
    match disk.canonical (directoryPath base item.2) with
    | .error e => .error e.scanError
    | .ok real => .ok ⟨item.1, Path.render real⟩
  else .error (.noDirectory (directoryPath base item.2))

def addDirectory (g : Grammars) (disk : Disk) (config : Config) (base : Path) (ws : Workspace)
    (totals : ScanTotals) (item : Domain × Text) (root : ProjectRoot) :
    Workspace × Except ScanError ScanTotals :=
  let (ws, files) := { ws with roots := ws.roots ++ [root] }.walkDirectory disk
    (directoryPath base item.2) item.2
  addFiles g disk config item.1 ws totals files

/-- Whether the canonical path of every file that is claimed in a directory comes to an end. -/
def FilesEnd (disk : Disk) (config : Config) (base : Path) (item : Domain × Text) : Prop :=
  ∀ path ∈ (disk.walk (directoryPath base item.2)).files, item.1 ∈ config.classify path →
    disk.canonicalUri path ≠ .error .endless

/-- Whether a scan gets through a directory. -/
def Scannable (disk : Disk) (config : Config) (base : Path) (item : Domain × Text) : Prop :=
  (∃ root, projectRoot disk base item = .ok root) ∧ FilesEnd disk config base item

section Directories

variable (g : Grammars) {disk : Disk} (config : Config) {base : Path} (ws : Workspace)
  (totals : ScanTotals) {item : Domain × Text}

theorem addDirectory_result (root : ProjectRoot) :
    (FilesEnd disk config base item ∧ ∃ after totals',
      addDirectory g disk config base ws totals item root = (after, .ok totals')) ∨
    ¬ FilesEnd disk config base item ∧ ∃ after,
      addDirectory g disk config base ws totals item root = (after, .error .endless) := by
  rcases addFiles_result g disk _ totals (disk.walk (directoryPath base item.2)).files with
    ⟨end_, read⟩ | ⟨⟨path, member, fits, endless⟩, stuck⟩
  · exact Or.inl ⟨end_, read⟩
  · exact Or.inr ⟨fun end_ => end_ path member fits endless, stuck⟩

theorem scanDirectories_of_root {root : ProjectRoot} (h : projectRoot disk base item = .ok root)
    (rest : List (Domain × Text)) :
    scanDirectories g disk config base ws totals (item :: rest) =
      andThen (addDirectory g disk config base ws totals item root) fun ws totals =>
        scanDirectories g disk config base ws totals rest := by
  obtain ⟨domain, directory⟩ := item
  unfold projectRoot at h
  split at h
  · next isDirectory =>
    split at h
    · cases h
    · next real canonical =>
      cases h
      have isDirectory : disk.isDirectory (Path.render (Path.resolve base directory)) = true :=
        isDirectory
      have canonical : disk.canonical (Path.render (Path.resolve base directory)) = .ok real :=
        canonical
      rw [scanDirectories]
      simp only [isDirectory, if_true, canonical, addDirectory, directoryPath]
      split
      · next failed => rw [failed, andThen]
      · next done => rw [done, andThen]
  · cases h

theorem scanDirectories_of_fault {e : ScanError} (h : projectRoot disk base item = .error e)
    (rest : List (Domain × Text)) :
    scanDirectories g disk config base ws totals (item :: rest) = (ws, .error e) := by
  obtain ⟨domain, directory⟩ := item
  rw [scanDirectories]
  unfold projectRoot directoryPath at h
  simp only
  split at h
  · next isDirectory =>
    rw [if_pos isDirectory]
    split at h
    · next fault canonical =>
      cases h
      rw [canonical]
    · cases h
  · next missing =>
    cases h
    rw [if_neg missing]

end Directories

/-- A scan over more directories goes on where the scan over the first ones ended. -/
theorem scanDirectories_append (g : Grammars) (disk : Disk) (config : Config) (base : Path)
    {ws after : Workspace} {totals totals' : ScanTotals} {done : List (Domain × Text)}
    (h : scanDirectories g disk config base ws totals done = (after, .ok totals'))
    (rest : List (Domain × Text)) :
    scanDirectories g disk config base ws totals (done ++ rest) =
      scanDirectories g disk config base after totals' rest := by
  induction done generalizing ws totals with
  | nil =>
    cases h
    rfl
  | cons item done ih =>
    rw [List.cons_append]
    cases becomes : projectRoot disk base item with
    | error e =>
      rw [scanDirectories_of_fault g config ws totals becomes] at h
      cases h
    | ok root =>
      rw [scanDirectories_of_root g config ws totals becomes] at h ⊢
      obtain ⟨between, counted, added, later⟩ := andThen_eq_ok.mp h
      rw [added]
      exact ih later

/-- A scan succeeds exactly when it gets through every directory. -/
theorem scanDirectories_ok_iff (g : Grammars) (disk : Disk) (config : Config) (base : Path)
    (ws : Workspace) (totals : ScanTotals) (items : List (Domain × Text)) :
    (∃ after totals', scanDirectories g disk config base ws totals items = (after, .ok totals')) ↔
      ∀ item ∈ items, Scannable disk config base item := by
  induction items generalizing ws totals with
  | nil => exact ⟨fun _ _ h => (List.not_mem_nil h).elim, fun _ => ⟨ws, totals, rfl⟩⟩
  | cons item items ih =>
    rw [List.forall_mem_cons, Scannable]
    cases becomes : projectRoot disk base item with
    | error e =>
      rw [scanDirectories_of_fault g config ws totals becomes]
      simp
    | ok root =>
      rw [scanDirectories_of_root g config ws totals becomes]
      rcases @addDirectory_result g disk config base ws totals item root with
        ⟨end_, after, totals', added⟩ | ⟨endless, after, added⟩
      · rw [added, andThen, ih]
        exact ⟨fun later => ⟨⟨⟨root, rfl⟩, end_⟩, later⟩, fun h => h.2⟩
      · rw [added, andThen]
        constructor
        · rintro ⟨_, _, h⟩
          cases h
        · rintro ⟨⟨_, end_⟩, _⟩
          exact absurd end_ endless

/-! ### The whole scan -/

/-- The state in which a scan begins: no files and no roots. -/
def restarted (ws : Workspace) (config : Config) : Workspace :=
  { (ws.setConfig config).reset with roots := [] }

theorem restarted_backend {ws : Workspace} (ready : ws.ready = true) (config : Config) :
    (ws.restarted config).trees.backend = some config.lang := by
  obtain ⟨lang, hl⟩ := ready_iff.mp ready
  simp [restarted, setConfig, reset, TreeCache.switch, TreeCache.clear, hl]

theorem restarted_tracked (ws : Workspace) (config : Config) : Tracked (ws.restarted config) :=
  tracked_of_unread (fun file => Table.get?_empty file)
    fun _ hl => setConfig_configured ws config hl

theorem scan_of_ok (g : Grammars) {disk : Disk} {ws after : Workspace} {config : Config}
    {root : Text} {totals : ScanTotals} (ready : ws.ready = true)
    (h : scanDirectories g disk config (Path.ofText root) (ws.restarted config) ⟨0, []⟩
      (scanOrder config) = (after, .ok totals)) :
    ∃ log, ws.scan g disk config root = ({ after with log }, .ok totals.conflicts) := by
  have h : scanDirectories g disk config (Path.ofText root)
      { (ws.setConfig config).reset with roots := [] } ⟨0, []⟩ (scanOrder config) =
        (after, .ok totals) := h
  simp only [scan, ready, if_true, h]
  exact ⟨_, rfl⟩

theorem scan_of_error (g : Grammars) {disk : Disk} {ws after : Workspace} {config : Config}
    {root : Text} {e : ScanError} (ready : ws.ready = true)
    (h : scanDirectories g disk config (Path.ofText root) (ws.restarted config) ⟨0, []⟩
      (scanOrder config) = (after, .error e)) :
    ws.scan g disk config root = (after, .error e) := by
  have h : scanDirectories g disk config (Path.ofText root)
      { (ws.setConfig config).reset with roots := [] } ⟨0, []⟩ (scanOrder config) =
        (after, .error e) := h
  simp only [scan, ready, if_true, h]

/-- A scan succeeds when it gets through every directory. -/
theorem scan_succeeds (g : Grammars) {disk : Disk} {ws : Workspace} {config : Config} {root : Text}
    (ready : ws.ready = true)
    (through : ∀ item ∈ scanOrder config, Scannable disk config (Path.ofText root) item) :
    ∃ refused, (ws.scan g disk config root).2 = .ok refused := by
  obtain ⟨after, totals, loop⟩ := (scanDirectories_ok_iff g disk config (Path.ofText root)
    (ws.restarted config) ⟨0, []⟩ (scanOrder config)).mpr through
  obtain ⟨log, scanned⟩ := scan_of_ok g ready loop
  exact ⟨totals.conflicts, by rw [scanned]⟩

/-- What a scan that succeeds has gone through. -/
theorem scan_eq_ok {g : Grammars} {disk : Disk} {ws : Workspace} {config : Config} {root : Text}
    {refused : List Tag} (h : (ws.scan g disk config root).2 = .ok refused) :
    ws.ready = true ∧ ∃ after totals log,
      scanDirectories g disk config (Path.ofText root) (ws.restarted config) ⟨0, []⟩
        (scanOrder config) = (after, .ok totals) ∧
      (ws.scan g disk config root).1 = { after with log } ∧ refused = totals.conflicts := by
  cases ready : ws.ready with
  | false => simp [scan, ready] at h
  | true =>
    refine ⟨rfl, ?_⟩
    cases loop : scanDirectories g disk config (Path.ofText root) (ws.restarted config) ⟨0, []⟩
        (scanOrder config) with
    | mk after result =>
      cases result with
      | error e =>
        rw [scan_of_error g ready loop] at h
        cases h
      | ok totals =>
        obtain ⟨log, scanned⟩ := scan_of_ok g ready loop
        rw [scanned] at h ⊢
        exact ⟨after, totals, log, rfl, rfl, (Except.ok.inj h).symm⟩

end Workspace

end Hypertag
