import Hypertag.Proofs.ScanLoop
import Hypertag.Workspace.Request

/-!
# Workspaces that answer alike

The log is written and never read, and after a scan only the language and the template extension of
the settings are read again. Two workspaces that differ in nothing else answer alike, and they do so
still after any run of operations. What they log may differ.
-/

namespace Hypertag

/-- Whether two settings sort files into domains in the same way. The directories may differ. -/
structure Config.SameKinds (c d : Config) : Prop where
  lang : d.lang = c.lang
  templateExt : d.templateExt = c.templateExt

theorem Config.SameKinds.refl (c : Config) : SameKinds c c := ⟨rfl, rfl⟩

theorem Config.SameKinds.classify {c d : Config} (h : SameKinds c d) (file : Text) :
    d.classify file = c.classify file := by
  rw [Config.classify, Config.classify, h.lang, h.templateExt]

namespace Workspace

structure Alike (a b : Workspace) : Prop where
  index : b.index = a.index
  trees : b.trees = a.trees
  tags : b.tags = a.tags
  documents : b.documents = a.documents
  conflicts : b.conflicts = a.conflicts
  roots : b.roots = a.roots
  config : Option.Rel Config.SameKinds a.config b.config

structure AnsweredAlike {α : Type} (x y : Workspace × α) : Prop where
  state : Alike x.1 y.1
  answer : y.2 = x.2

/-- Calls that may fail are alike when their first halves are and what follows a success is. -/
theorem AnsweredAlike.andThen {ε α β : Type} {x y : Workspace × Except ε α}
    (h : AnsweredAlike x y) {next : Workspace → α → Workspace × Except ε β}
    (later : ∀ {a b}, Alike a b → ∀ r, AnsweredAlike (next a r) (next b r)) :
    AnsweredAlike (Workspace.andThen x next) (Workspace.andThen y next) := by
  obtain ⟨ws, result⟩ := x
  obtain ⟨ws', result'⟩ := y
  obtain ⟨state, answer⟩ := h
  obtain rfl : result' = result := answer
  cases result' with
  | error e => exact ⟨state, rfl⟩
  | ok r => exact later state r

theorem sameKinds_refl (config : Option Config) : Option.Rel Config.SameKinds config config := by
  cases config with
  | none => exact .none
  | some c => exact .some (.refl c)

theorem Alike.refl (ws : Workspace) : Alike ws ws :=
  ⟨rfl, rfl, rfl, rfl, rfl, rfl, sameKinds_refl ws.config⟩

namespace Alike

variable {a b : Workspace}

theorem relog (h : Alike a b) (log log' : Log) : Alike { a with log } { b with log := log' } :=
  ⟨h.index, h.trees, h.tags, h.documents, h.conflicts, h.roots, h.config⟩

theorem ready (h : Alike a b) : b.ready = a.ready := by
  rw [Workspace.ready, Workspace.ready, h.trees]

theorem withDocument (h : Alike a b) (uri text : Text) :
    Alike (a.withDocument uri text) (b.withDocument uri text) :=
  ⟨h.index, h.trees, h.tags, congrArg (·.set uri text) h.documents, h.conflicts, h.roots, h.config⟩

/-! ### Owners -/

theorem reconcileFile (h : Alike a b) (file : FileId) (tags : List Tag) :
    AnsweredAlike (a.reconcileFile file tags) (b.reconcileFile file tags) := by
  simp only [Workspace.reconcileFile, h.tags, h.conflicts]
  exact ⟨⟨h.index, h.trees, rfl, h.documents, rfl, h.roots, h.config⟩, rfl⟩

theorem tagsIn? (h : Alike a b) : b.tagsIn? = a.tagsIn? := by
  funext entry
  rw [Workspace.tagsIn?, Workspace.tagsIn?, h.trees]

theorem promoteFile (h : Alike a b) (updated : FileId) (row : FileId × List Tag) :
    Alike (promoteFile updated a row) (promoteFile updated b row) := by
  have read : (b.trees.get? row.1).bind b.tagsIn? = (a.trees.get? row.1).bind a.tagsIn? := by
    rw [h.trees, h.tagsIn?]
  unfold Workspace.promoteFile
  dsimp only
  rw [h.tags, read]
  split
  · exact h
  · cases (a.trees.get? row.1).bind a.tagsIn? with
    | none => exact h
    | some tags => exact (h.reconcileFile row.1 tags).state.relog _ _

theorem foldl_promoteFile (h : Alike a b) (updated : FileId) (rows : List (FileId × List Tag)) :
    Alike (rows.foldl (Workspace.promoteFile updated) a)
      (rows.foldl (Workspace.promoteFile updated) b) := by
  induction rows generalizing a b with
  | nil => exact h
  | cons row rows ih => exact ih (h.promoteFile updated row)

theorem promote (h : Alike a b) (updated : FileId) :
    Alike (a.promote updated) (b.promote updated) := by
  rw [Workspace.promote, Workspace.promote, h.conflicts]
  exact h.foldl_promoteFile updated a.conflicts.entries

theorem updateTags (h : Alike a b) (file : FileId) (entry : FileTree) :
    AnsweredAlike (a.updateTags file entry) (b.updateTags file entry) := by
  simp only [Workspace.updateTags, h.tagsIn?]
  split
  · exact ⟨h, rfl⟩
  · next tags _ =>
    have claimed := h.reconcileFile file tags
    exact ⟨(claimed.state.promote file).relog _ _, claimed.answer⟩

theorem indexFile (h : Alike a b) (g : Grammars) (file : FileId) (domain : Option Domain)
    (text : Text) :
    AnsweredAlike (a.indexFile g file domain text) (b.indexFile g file domain text) := by
  simp only [Workspace.indexFile, h.trees]
  split
  · next trees entry _ =>
    have stored : Alike { a with trees } { b with trees } :=
      ⟨h.index, rfl, h.tags, h.documents, h.conflicts, h.roots, h.config⟩
    exact stored.updateTags file entry
  · exact ⟨⟨h.index, rfl, h.tags, h.documents, h.conflicts, h.roots, h.config⟩, rfl⟩

/-! ### Edits -/

theorem reindex (h : Alike a b) (index : DocumentIndex) :
    Alike { a with index } { b with index } :=
  ⟨rfl, h.trees, h.tags, h.documents, h.conflicts, h.roots, h.config⟩

/-- A uri is classified by language, extension and roots. -/
theorem classifyUri (h : Alike a b) (uri : Text) : b.classifyUri uri = a.classifyUri uri := by
  have settings := h.config
  rw [Workspace.classifyUri, Workspace.classifyUri, h.roots]
  cases ha : a.config with
  | none =>
    rw [ha] at settings
    cases hb : b.config with
    | none => rfl
    | some d =>
      rw [hb] at settings
      cases settings
  | some c =>
    rw [ha] at settings
    cases hb : b.config with
    | none =>
      rw [hb] at settings
      cases settings
    | some d =>
      rw [hb] at settings
      cases settings with
      | some kinds => simp only [domainOfPath?, kinds.classify]

theorem enroll (h : Alike a b) (g : Grammars) (uri : Text) (domain : Domain) (text : Text) :
    AnsweredAlike (a.enroll g uri domain text) (b.enroll g uri domain text) := by
  simp only [Workspace.enroll, h.index]
  split
  · exact ⟨h, rfl⟩
  · next file index _ =>
    exact ((h.reindex index).relog _ _).indexFile g file (some domain) text

theorem refresh (h : Alike a b) (g : Grammars) (file : FileId) (text : Text) :
    AnsweredAlike (a.refresh g file text) (b.refresh g file text) := by
  have read := h.indexFile g file none text
  exact ⟨read.state.relog _ _, read.answer⟩

theorem edit (h : Alike a b) (g : Grammars) (uri text : Text) :
    AnsweredAlike (a.edit g uri text) (b.edit g uri text) := by
  have stored := h.withDocument uri text
  cases ready : a.ready with
  | false =>
    rw [edit_of_idle g ready, edit_of_idle g (h.ready.trans ready)]
    exact ⟨stored, rfl⟩
  | true =>
    have ready' : b.ready = true := h.ready.trans ready
    cases known : a.index.idOf? uri with
    | some file =>
      have known' : b.index.idOf? uri = some file := by rw [h.index, known]
      have read := stored.refresh g file text
      rw [edit_of_known g ready known, edit_of_known g ready' known']
      exact ⟨read.state, congrArg Except.ok read.answer⟩
    | none =>
      have unknown' : b.index.idOf? uri = none := by rw [h.index, known]
      rw [edit_of_unknown g ready known, edit_of_unknown g ready' unknown', h.classifyUri]
      cases a.classifyUri uri with
      | error e => exact ⟨stored, rfl⟩
      | ok found =>
        cases found with
        | none => exact ⟨stored, rfl⟩
        | some domain =>
          have enrolled := stored.enroll g uri domain text
          exact ⟨enrolled.state, congrArg Except.ok enrolled.answer⟩

theorem save (h : Alike a b) (uri : Text) : AnsweredAlike (a.save uri) (b.save uri) := by
  simp only [Workspace.save, h.index, h.documents, h.trees]
  split
  · next file _ _ _ =>
    split
    · next entry _ =>
      split
      · have updated := h.updateTags file entry
        exact ⟨updated.state, congrArg some updated.answer⟩
      · exact ⟨h, rfl⟩
    · exact ⟨h, rfl⟩
  · exact ⟨h, rfl⟩

/-! ### Scans -/

theorem addFile (h : Alike a b) (g : Grammars) (disk : Disk) (domain : Domain) (path : Text) :
    AnsweredAlike (a.addFile g disk domain path) (b.addFile g disk domain path) := by
  cases named : disk.canonicalUri path with
  | error e =>
    cases e with
    | endless =>
      rw [addFile_of_endless g domain named, addFile_of_endless g domain named]
      exact ⟨h, rfl⟩
    | disk e =>
      rw [addFile_of_unnamed g domain named, addFile_of_unnamed g domain named]
      exact ⟨h.relog _ _, rfl⟩
  | ok uri =>
    cases known : a.index.idOf? uri with
    | some file =>
      have known' : b.index.idOf? uri = some file := by rw [h.index, known]
      rw [addFile_of_claimed g domain named known, addFile_of_claimed g domain named known']
      exact ⟨h, rfl⟩
    | none =>
      obtain ⟨index, new⟩ := DocumentIndex.register?_of_unknown known
      have new' : b.index.register? uri = some (a.index.next, index) := by rw [h.index, new]
      cases found : (a.documents.get? uri).or (disk.read? path) with
      | none =>
        have found' : (b.documents.get? uri).or (disk.read? path) = none := by
          rw [h.documents, found]
        obtain ⟨log, left⟩ := addFile_of_unreadable g domain named new found
        obtain ⟨log', left'⟩ := addFile_of_unreadable g domain named new' found'
        rw [left, left']
        exact ⟨(h.reindex index).relog log log', rfl⟩
      | some text =>
        have found' : (b.documents.get? uri).or (disk.read? path) = some text := by
          rw [h.documents, found]
        have read := (h.reindex index).indexFile g a.index.next (some domain) text
        rw [addFile_of_read g domain named new found, addFile_of_read g domain named new' found']
        exact ⟨read.state, congrArg (Except.ok ∘ some) read.answer⟩

theorem addFiles (h : Alike a b) (g : Grammars) (disk : Disk) (config : Config) (domain : Domain)
    (totals : ScanTotals) (paths : List Text) :
    AnsweredAlike (addFiles g disk config domain a totals paths)
      (addFiles g disk config domain b totals paths) := by
  induction paths generalizing a b totals with
  | nil => exact ⟨h, rfl⟩
  | cons path paths ih =>
    by_cases fits : domain ∈ config.classify path
    · rw [addFiles_of_fit g disk a totals fits, addFiles_of_fit g disk b totals fits]
      exact (h.addFile g disk domain path).andThen fun state refused => ih state _
    · rw [addFiles_of_unfit g disk a totals fits, addFiles_of_unfit g disk b totals fits]
      exact ih h totals

theorem addDirectory (h : Alike a b) (g : Grammars) (disk : Disk) (config : Config) (base : Path)
    (totals : ScanTotals) (item : Domain × Text) (root : ProjectRoot) :
    AnsweredAlike (addDirectory g disk config base a totals item root)
      (addDirectory g disk config base b totals item root) := by
  have rooted : Alike { a with roots := a.roots ++ [root] } { b with roots := b.roots ++ [root] } :=
    ⟨h.index, h.trees, h.tags, h.documents, h.conflicts, by rw [h.roots], h.config⟩
  exact (rooted.relog _ _).addFiles g disk config item.1 totals _

theorem scanDirectories (h : Alike a b) (g : Grammars) (disk : Disk) (config : Config)
    (base : Path) (totals : ScanTotals) (items : List (Domain × Text)) :
    AnsweredAlike (scanDirectories g disk config base a totals items)
      (scanDirectories g disk config base b totals items) := by
  induction items generalizing a b totals with
  | nil => exact ⟨h, rfl⟩
  | cons item items ih =>
    cases becomes : projectRoot disk base item with
    | error e =>
      rw [scanDirectories_of_fault g config a totals becomes,
        scanDirectories_of_fault g config b totals becomes]
      exact ⟨h, rfl⟩
    | ok root =>
      rw [scanDirectories_of_root g config a totals becomes,
        scanDirectories_of_root g config b totals becomes]
      exact (h.addDirectory g disk config base totals item root).andThen ih

end Alike

/-- Of the state before it, a scan reads the open documents and the counter of the index. -/
theorem restarted_alike {a b : Workspace} (ready : a.ready = true) (ready' : b.ready = true)
    (documents : b.documents = a.documents) (next : b.index.next = a.index.next)
    {c d : Config} (kinds : Config.SameKinds c d) : Alike (a.restarted c) (b.restarted d) where
  index := by
    simp only [restarted, reset, setConfig, DocumentIndex.reset, next]
  trees := by
    have trees : ∀ (ws : Workspace) config, ws.ready = true →
        (ws.restarted config).trees = ⟨some config.lang, Table.empty⟩ := by
      intro ws config ready
      rw [← restarted_backend ready config]
      rfl
    rw [trees a c ready, trees b d ready', kinds.lang]
  tags := rfl
  documents := documents
  conflicts := rfl
  roots := rfl
  config := .some kinds

theorem addFiles_congr (g : Grammars) (disk : Disk) {c d : Config} (kinds : Config.SameKinds c d)
    (domain : Domain) (ws : Workspace) (totals : ScanTotals) (paths : List Text) :
    addFiles g disk d domain ws totals paths = addFiles g disk c domain ws totals paths := by
  induction paths generalizing ws totals with
  | nil => rfl
  | cons path paths ih =>
    have same := kinds.classify path
    by_cases fits : domain ∈ c.classify path
    · simp only [addFiles_of_fit g disk ws totals fits,
        addFiles_of_fit g disk ws totals (same ▸ fits), ih]
    · rw [addFiles_of_unfit g disk ws totals fits,
        addFiles_of_unfit g disk ws totals (same ▸ fits), ih]

/-- Settings that sort files in the same way read given directories in the same way. -/
theorem scanDirectories_congr (g : Grammars) (disk : Disk) {c d : Config}
    (kinds : Config.SameKinds c d) (base : Path) (ws : Workspace) (totals : ScanTotals)
    (items : List (Domain × Text)) :
    scanDirectories g disk d base ws totals items =
      scanDirectories g disk c base ws totals items := by
  induction items generalizing ws totals with
  | nil => rfl
  | cons item items ih =>
    cases becomes : projectRoot disk base item with
    | error e =>
      rw [scanDirectories_of_fault g d ws totals becomes,
        scanDirectories_of_fault g c ws totals becomes]
    | ok root =>
      have same : addDirectory g disk d base ws totals item root =
          addDirectory g disk c base ws totals item root :=
        addFiles_congr g disk kinds item.1 _ totals _
      rw [scanDirectories_of_root g d ws totals becomes,
        scanDirectories_of_root g c ws totals becomes, same]
      simp only [ih]

theorem scan_alike (g : Grammars) (disk : Disk) {a b : Workspace} (ready : a.ready = true)
    (ready' : b.ready = true) (documents : b.documents = a.documents)
    (next : b.index.next = a.index.next) (config : Config) (root : Text) :
    AnsweredAlike (a.scan g disk config root) (b.scan g disk config root) := by
  have started := restarted_alike ready ready' documents next (.refl config)
  have loop := started.scanDirectories g disk config (Path.ofText root) ⟨0, []⟩ (scanOrder config)
  cases hb : scanDirectories g disk config (Path.ofText root) (b.restarted config) ⟨0, []⟩
      (scanOrder config) with
  | mk after' result' =>
    cases ha : scanDirectories g disk config (Path.ofText root) (a.restarted config) ⟨0, []⟩
        (scanOrder config) with
    | mk after result =>
      rw [ha, hb] at loop
      obtain ⟨state, answer⟩ := loop
      obtain rfl : result' = result := answer
      cases result' with
      | error e =>
        rw [scan_of_error g ready ha, scan_of_error g ready' hb]
        exact ⟨state, rfl⟩
      | ok totals =>
        obtain ⟨log, scanned⟩ := scan_of_ok g ready ha
        obtain ⟨log', scanned'⟩ := scan_of_ok g ready' hb
        rw [scanned, scanned']
        exact ⟨state.relog log log', rfl⟩

namespace Alike

variable {a b : Workspace}

theorem scan (h : Alike a b) (g : Grammars) (disk : Disk) (config : Config) (root : Text) :
    AnsweredAlike (a.scan g disk config root) (b.scan g disk config root) := by
  cases ready : a.ready with
  | true =>
    exact scan_alike g disk ready (h.ready.trans ready) h.documents (by rw [h.index]) config root
  | false =>
    have idle : b.ready = false := h.ready.trans ready
    simp only [Workspace.scan, ready, idle]
    exact ⟨h, rfl⟩

/-! ### Runs and requests -/

theorem setConfig (h : Alike a b) (config : Config) :
    Alike (a.setConfig config) (b.setConfig config) :=
  ⟨h.index, by rw [Workspace.setConfig, Workspace.setConfig, h.trees], h.tags, h.documents,
    h.conflicts, h.roots, .some (.refl config)⟩

theorem loadGrammars (h : Alike a b) : Alike a.loadGrammars b.loadGrammars := by
  have lang : b.config.elim .rust Config.lang = a.config.elim .rust Config.lang := by
    have settings := h.config
    generalize a.config = c, b.config = d at settings
    cases settings with
    | none => rfl
    | some kinds => exact kinds.lang
  refine ⟨h.index, ?_, h.tags, h.documents, h.conflicts, h.roots, h.config⟩
  rw [Workspace.loadGrammars, Workspace.loadGrammars, h.trees, lang]

theorem perform (h : Alike a b) (g : Grammars) (op : Operation) :
    Alike (a.perform g op) (b.perform g op) := by
  cases op with
  | load => exact h.loadGrammars
  | setConfig config => exact h.setConfig config
  | edit uri text => exact (h.edit g uri text).state
  | save uri => exact (h.save uri).state
  | close uri =>
    exact ⟨h.index, h.trees, h.tags, congrArg (·.erase uri) h.documents, h.conflicts, h.roots,
      h.config⟩
  | reset =>
    exact ⟨congrArg DocumentIndex.reset h.index, congrArg TreeCache.clear h.trees, rfl, h.documents,
      rfl, h.roots, h.config⟩
  | scan disk config root => exact (h.scan g disk config root).state

theorem run (h : Alike a b) (g : Grammars) (ops : List Operation) :
    Alike (a.run g ops) (b.run g ops) := by
  induction ops generalizing a b with
  | nil => exact h
  | cons op ops ih => exact ih (h.perform g op)

theorem position? (h : Alike a b) (g : Grammars) (uri : Text) (p : Point) (mode : Markup.Mode) :
    b.position? g uri p mode = a.position? g uri p mode := by
  rw [Workspace.position?, Workspace.position?, h.ready, treeOf?, treeOf?, h.index, h.trees,
    h.documents]

theorem row? (h : Alike a b) (uri : Text) (row : Int) : b.row? uri row = a.row? uri row := by
  rw [Workspace.row?, Workspace.row?, h.documents]

theorem linkedTag? (h : Alike a b) (uri : Text) (p : Point) (name value : Text) :
    b.linkedTag? uri p name value = a.linkedTag? uri p name value := by
  rw [Workspace.linkedTag?, Workspace.linkedTag?, h.row?, h.tags]

theorem declaredTag? (h : Alike a b) (uri : Text) (p : Point) :
    b.declaredTag? uri p = a.declaredTag? uri p := by
  rw [Workspace.declaredTag?, Workspace.declaredTag?, treeOf?, treeOf?, h.index, h.trees, h.row?,
    h.tags]

theorem hover (h : Alike a b) (g : Grammars) (uri : Text) (p : Point) :
    b.hover g uri p = a.hover g uri p := by
  simp only [Workspace.hover, tagHover, h.declaredTag?, h.position?, h.linkedTag?, h.index]

theorem completion (h : Alike a b) (g : Grammars) (uri : Text) (p : Point) :
    b.completion g uri p = a.completion g uri p := by
  simp only [Workspace.completion, h.position?, h.index, h.tags]

theorem gotoDefinition (h : Alike a b) (g : Grammars) (uri : Text) (p : Point) :
    AnsweredAlike (a.gotoDefinition g uri p) (b.gotoDefinition g uri p) := by
  have same : b.definition? g uri p = a.definition? g uri p := by
    have tag : b.tagAt? uri p = a.tagAt? uri p := by
      funext position
      cases position with
      | name name => rw [tagAt?, tagAt?, h.tags]
      | value name value => exact h.linkedTag? uri p name value
    rw [definition?, definition?, h.position?, tag, h.index]
  rw [Workspace.gotoDefinition, Workspace.gotoDefinition, same]
  split
  · exact ⟨h, rfl⟩
  · exact ⟨h.relog _ _, rfl⟩

end Alike

end Workspace

end Hypertag
