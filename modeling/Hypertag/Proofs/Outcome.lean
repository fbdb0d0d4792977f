import Hypertag.Proofs.Edit

/-!
# What an edit or a scanned file comes to

Every way through an edit, and every way to take up one file of a scan, is named once, with what
led to it and what it leaves behind. Facts about these operations are then proved by cases on the
outcome. Whether a disk can be read at all, or which uris can be, is left open.
-/

namespace Hypertag

namespace DocumentIndex

/-- An unknown uri gets the next number. -/
theorem register?_of_unknown {x : DocumentIndex} {uri : Text} (unknown : x.idOf? uri = none) :
    ∃ index, x.register? uri = some (x.next, index) := by
  have absent : uri ∉ x.entries.map Prod.fst := by
    intro known
    obtain ⟨entry, member, rfl⟩ := List.mem_map.mp known
    rw [x.idOf?_eq_some_iff.mpr member] at unknown
    cases unknown
  exact ⟨x.add uri absent, by rw [register?, dif_neg absent]⟩

/-- What a registration does: the uri was unknown, and its entry is the last one now. -/
theorem register?_eq_some {x y : DocumentIndex} {uri : Text} {file : FileId}
    (h : x.register? uri = some (file, y)) :
    uri ∉ x.entries.map Prod.fst ∧ file = x.next ∧ y.entries = x.entries ++ [(uri, file)] := by
  unfold register? at h
  split at h
  · cases h
  · next absent =>
    obtain ⟨rfl, rfl⟩ := Prod.mk.inj (Option.some.inj h)
    exact ⟨absent, rfl, rfl⟩

theorem next_of_register {x y : DocumentIndex} {uri : Text} {file : FileId}
    (h : x.register? uri = some (file, y)) : y.next = x.next + 1 := by
  unfold register? at h
  split at h
  · cases h
  · cases h
    rfl

theorem unknown_of_register {x y : DocumentIndex} {uri : Text} {file : FileId}
    (h : x.register? uri = some (file, y)) : x.idOf? uri = none := by
  obtain ⟨absent, _, _⟩ := register?_eq_some h
  rw [Option.eq_none_iff_forall_ne_some]
  intro id known
  rw [idOf?_eq_some_iff] at known
  exact absent (List.mem_map.mpr ⟨_, known, rfl⟩)

theorem idOf?_register_of_ne {x y : DocumentIndex} {uri other : Text} {file : FileId}
    (h : x.register? uri = some (file, y)) (hne : other ≠ uri) :
    y.idOf? other = x.idOf? other := by
  obtain ⟨_, _, entries⟩ := register?_eq_some h
  simp [idOf?, entries, Ne.symm hne]

/-- A number that is handed out belonged to no document. -/
theorem idOf?_ne_registered {x y : DocumentIndex} {uri : Text} {file : FileId}
    (h : x.register? uri = some (file, y)) (other : Text) : x.idOf? other ≠ some file := by
  intro known
  obtain ⟨_, rfl, _⟩ := register?_eq_some h
  rw [idOf?_eq_some_iff] at known
  exact Int.lt_irrefl x.next (x.ids_lt_next x.next (List.mem_map.mpr ⟨_, known, rfl⟩))

/-- No two documents share a number. -/
theorem idOf?_injective {x : DocumentIndex} {u v : Text} {file : FileId}
    (hu : x.idOf? u = some file) (hv : x.idOf? v = some file) : u = v := by
  rw [idOf?_eq_some_iff, ← uriOf?_eq_some_iff] at hu hv
  exact Option.some.inj (hu.symm.trans hv)

end DocumentIndex

namespace Workspace

/-- Nothing is read for a known file that has no tree. -/
theorem indexFile_of_unread (g : Grammars) {ws : Workspace} {file : FileId}
    (unread : ws.trees.get? file = none) (text : Text) :
    ws.indexFile g file none text = (ws, []) := by
  have undecided : ws.trees.domainFor? file none = none := by simp [TreeCache.domainFor?, unread]
  rcases indexFile_cases g ws file none text with ⟨same, _⟩ | ⟨_, d, _, hd, _⟩
  · exact same
  · cases undecided.symm.trans hd

/-- A number that is handed out has no tree. -/
theorem Tracked.unread_of_register {ws : Workspace} (h : Tracked ws) {uri : Text} {file : FileId}
    {index : DocumentIndex} (new : ws.index.register? uri = some (file, index)) :
    ws.trees.get? file = none := by
  cases cached : ws.trees.get? file with
  | none => rfl
  | some entry =>
    obtain ⟨other, known⟩ := h.indexed file entry cached
    exact absurd known (DocumentIndex.idOf?_ne_registered new other)

theorem Tracked.domainFor?_of_register {ws : Workspace} (h : Tracked ws) {uri : Text}
    {file : FileId} {index : DocumentIndex} (new : ws.index.register? uri = some (file, index))
    (domain : Domain) : ws.trees.domainFor? file (some domain) = some domain := by
  simp [TreeCache.domainFor?, h.unread_of_register new]

/-- The ways through an edit. The text is stored in all of them. -/
inductive EditOutcome (g : Grammars) (ws : Workspace) (uri text : Text) :
    Workspace × Except UriError (List Tag) → Prop where
  /-- No grammars are loaded yet. -/
  | idle (unloaded : ws.ready = false) :
      EditOutcome g ws uri text (ws.withDocument uri text, .ok [])
  /-- The uri of an unknown document cannot be read. -/
  | failed {e : UriError} (ready : ws.ready = true) (unknown : ws.index.idOf? uri = none)
      (why : ws.classifyUri uri = .error e) :
      EditOutcome g ws uri text (ws.withDocument uri text, .error e)
  /-- The document lies outside the project. -/
  | outside (ready : ws.ready = true) (unknown : ws.index.idOf? uri = none)
      (why : ws.classifyUri uri = .ok none) :
      EditOutcome g ws uri text (ws.withDocument uri text, .ok [])
  /-- The file is known, but was never read. -/
  | unread {file : FileId} (log : Log) (ready : ws.ready = true)
      (known : ws.index.idOf? uri = some file) (missing : ws.trees.get? file = none) :
      EditOutcome g ws uri text ({ ws.withDocument uri text with log }, .ok [])
  | reread {file : FileId} {entry : FileTree} {lang : BackendLang} (log : Log)
      (known : ws.index.idOf? uri = some file) (cached : ws.trees.get? file = some entry)
      (hl : ws.trees.backend = some lang) :
      EditOutcome g ws uri text
        ({ (ws.reread uri file (readAs g lang entry.domain text)).1 with log },
          .ok (ws.reread uri file (readAs g lang entry.domain text)).2)
  | enrolled {file : FileId} {index : DocumentIndex} {domain : Domain} {lang : BackendLang}
      (log : Log) (new : ws.index.register? uri = some (file, index))
      (fits : ws.classifyUri uri = .ok (some domain)) (hl : ws.trees.backend = some lang) :
      EditOutcome g ws uri text
        (({ ws with index, log }.reread uri file (readAs g lang domain text)).1,
          .ok ({ ws with index, log }.reread uri file (readAs g lang domain text)).2)

theorem edit_of_idle (g : Grammars) {ws : Workspace} (unloaded : ws.ready = false)
    (uri text : Text) : ws.edit g uri text = (ws.withDocument uri text, .ok []) := by
  have idle : ¬ (ws.withDocument uri text).ready = true := by
    rw [show (ws.withDocument uri text).ready = ws.ready from rfl, unloaded]
    exact Bool.false_ne_true
  exact if_neg idle

/-- What an edit of an unknown document does depends on its domain. -/
theorem edit_of_unknown (g : Grammars) {ws : Workspace} {uri : Text} (ready : ws.ready = true)
    (unknown : ws.index.idOf? uri = none) (text : Text) :
    ws.edit g uri text = match ws.classifyUri uri with
      | .error e => (ws.withDocument uri text, .error e)
      | .ok none => (ws.withDocument uri text, .ok [])
      | .ok (some domain) =>
        (((ws.withDocument uri text).enroll g uri domain text).1,
          .ok ((ws.withDocument uri text).enroll g uri domain text).2) := by
  simp only [edit]
  split
  · split
    · next found => cases unknown.symm.trans found
    · rfl
  · next idle => exact absurd ready idle

theorem edit_of_unread (g : Grammars) {ws : Workspace} {uri : Text} {file : FileId}
    (ready : ws.ready = true) (known : ws.index.idOf? uri = some file)
    (missing : ws.trees.get? file = none) (text : Text) :
    ∃ log, ws.edit g uri text = ({ ws.withDocument uri text with log }, .ok []) := by
  have unread : (ws.withDocument uri text).trees.get? file = none := missing
  rw [edit_of_known g ready known, refresh, indexFile_of_unread g unread]
  exact ⟨_, rfl⟩

theorem enroll_of_new (g : Grammars) {ws : Workspace} (h : Tracked ws) {uri : Text} {file : FileId}
    {index : DocumentIndex} {lang : BackendLang}
    (new : ws.index.register? uri = some (file, index)) (hl : ws.trees.backend = some lang)
    (domain : Domain) (text : Text) :
    ∃ log, (ws.withDocument uri text).enroll g uri domain text =
      { ws with index, log }.reread uri file (readAs g lang domain text) := by
  have registered : (ws.withDocument uri text).index.register? uri = some (file, index) := new
  have read : ∀ before : Workspace, before.trees = ws.trees →
      before.indexFile g file (some domain) text =
        (before.withTree file (readAs g lang domain text)).updateTags file
          (readAs g lang domain text) := by
    intro before same
    apply indexFile_of_read g (by rw [same, hl])
    rw [same, h.domainFor?_of_register new]
  simp only [enroll, registered]
  exact ⟨_, read _ rfl⟩

theorem edit_outcome (g : Grammars) {ws : Workspace} (h : Tracked ws) (uri text : Text) :
    EditOutcome g ws uri text (ws.edit g uri text) := by
  cases ready : ws.ready with
  | false =>
    rw [edit_of_idle g ready]
    exact .idle ready
  | true =>
    obtain ⟨lang, hl⟩ := ready_iff.mp ready
    cases known : ws.index.idOf? uri with
    | some file =>
      cases cached : ws.trees.get? file with
      | none =>
        obtain ⟨log, edited⟩ := edit_of_unread g ready known cached text
        rw [edited]
        exact .unread log ready known cached
      | some entry =>
        obtain ⟨log, edited⟩ := edit_of_cached g known cached hl text
        rw [edited]
        exact .reread log known cached hl
    | none =>
      rw [edit_of_unknown g ready known]
      cases domain : ws.classifyUri uri with
      | error e => exact .failed ready known domain
      | ok found =>
        cases found with
        | none => exact .outside ready known domain
        | some d =>
          obtain ⟨index, new⟩ := DocumentIndex.register?_of_unknown known
          obtain ⟨log, enrolled⟩ := enroll_of_new g h new hl d text
          simp only [enrolled]
          exact .enrolled log new domain hl

/-- A save concerns owners and conflicts only. -/
theorem save_sameFiles (ws : Workspace) (uri : Text) : SameFiles ws (ws.save uri).1 := by
  unfold save
  split
  · split
    · split
      · exact updateTags_sameFiles ws _ _
      · exact .refl ws
    · exact .refl ws
  · exact .refl ws

theorem textOf_toOption (disk : Disk) (ws : Workspace) (uri path : Text) :
    (textOf disk ws uri path).toOption = (ws.documents.get? uri).or (disk.read? path) := by
  unfold textOf
  cases ws.documents.get? uri <;> rfl

inductive AddOutcome (g : Grammars) (disk : Disk) (ws : Workspace) (domain : Domain)
    (path : Text) : Workspace × Except ScanError (Option (List Tag)) → Prop where
  | endless (named : disk.canonicalUri path = .error .endless) :
      AddOutcome g disk ws domain path (ws, .error .endless)
  | unnamed {e : DiskError} (log : Log) (named : disk.canonicalUri path = .error (.disk e)) :
      AddOutcome g disk ws domain path ({ ws with log }, .ok none)
  | claimed {uri : Text} (named : disk.canonicalUri path = .ok uri)
      (known : ws.index.register? uri = none) :
      AddOutcome g disk ws domain path (ws, .ok none)
  | unreadable {uri : Text} {file : FileId} {index : DocumentIndex} (log : Log)
      (named : disk.canonicalUri path = .ok uri)
      (new : ws.index.register? uri = some (file, index))
      (closed : (ws.documents.get? uri).or (disk.read? path) = none) :
      AddOutcome g disk ws domain path ({ ws with index, log }, .ok none)
  /-- An open document counts before the disk. -/
  | read {uri text : Text} {file : FileId} {index : DocumentIndex}
      (named : disk.canonicalUri path = .ok uri)
      (new : ws.index.register? uri = some (file, index))
      (found : (ws.documents.get? uri).or (disk.read? path) = some text) :
      AddOutcome g disk ws domain path
        (({ ws with index }.indexFile g file (some domain) text).1,
          .ok (some ({ ws with index }.indexFile g file (some domain) text).2))

theorem addFile_outcome (g : Grammars) (disk : Disk) (ws : Workspace) (domain : Domain)
    (path : Text) : AddOutcome g disk ws domain path (ws.addFile g disk domain path) := by
  unfold addFile
  split
  · next named => exact .endless named
  · next named => exact .unnamed _ named
  · next uri named =>
    split
    · next known => exact .claimed named known
    · next file index new =>
      have text := textOf_toOption disk { ws with index } uri path
      simp only
      split
      · next failed =>
        rw [failed] at text
        exact .unreadable _ named new text.symm
      · next found =>
        rw [found] at text
        exact .read named new text.symm

end Workspace

end Hypertag
