import Hypertag.Proofs.Ownership
import Hypertag.Workspace.Edit
import Hypertag.Workspace.Scan
import Mathlib.Logic.Relation

/-!
# Runs of a workspace

A run performs operations one after the other from a new workspace. Operations that fail count as
well; they leave whatever state they had come to. Each operation other than a change of settings is
a chain of elementary moves, so that an invariant has to be checked on the moves only.
-/

namespace Hypertag

/-- What can be asked of a workspace. A scan comes with the disk as it is at that time. -/
inductive Operation where
  | load
  | setConfig (config : Config)
  | edit (uri text : Text)
  | save (uri : Text)
  | close (uri : Text)
  | reset
  | scan (disk : Disk) (config : Config) (root : Text)

namespace DocumentIndex

theorem idOf?_register {x y : DocumentIndex} {uri : Text} {file : FileId}
    (h : x.register? uri = some (file, y)) : y.idOf? uri = some file := by
  unfold register? at h
  split at h
  · cases h
  · obtain ⟨rfl, rfl⟩ := Prod.mk.inj (Option.some.inj h)
    rw [idOf?_eq_some_iff]
    exact List.mem_append_right _ List.mem_cons_self

theorem idOf?_register_of_known {x y : DocumentIndex} {uri other : Text} {file id : FileId}
    (h : x.register? uri = some (file, y)) (known : x.idOf? other = some id) :
    y.idOf? other = some id := by
  unfold register? at h
  split at h
  · cases h
  · obtain ⟨rfl, rfl⟩ := Prod.mk.inj (Option.some.inj h)
    rw [idOf?_eq_some_iff] at known ⊢
    exact List.mem_append_left _ known

end DocumentIndex

namespace Workspace

def perform (g : Grammars) (ws : Workspace) : Operation → Workspace
  | .load => ws.loadGrammars
  | .setConfig config => ws.setConfig config
  | .edit uri text => (ws.edit g uri text).1
  | .save uri => (ws.save uri).1
  | .close uri => ws.close uri
  | .reset => ws.reset
  | .scan disk config root => (ws.scan g disk config root).1

def run (g : Grammars) (ws : Workspace) (ops : List Operation) : Workspace :=
  ops.foldl (perform g) ws

theorem run_snoc (g : Grammars) (ws : Workspace) (ops : List Operation) (op : Operation) :
    run g ws (ops ++ [op]) = (run g ws ops).perform g op := by
  rw [run, run, List.foldl_append]
  rfl

/-- The states that some run from a new workspace ends in. -/
def Reachable (g : Grammars) (ws : Workspace) : Prop := ∃ log ops, ws = run g (new log) ops

inductive Move (g : Grammars) (ws : Workspace) : Workspace → Prop where
  | log (log : Log) : Move g ws { ws with log }
  | documents (documents : Table Text Text) : Move g ws { ws with documents }
  | roots (roots : List ProjectRoot) : Move g ws { ws with roots }
  | register {uri : Text} {file : FileId} {index : DocumentIndex}
      (new : ws.index.register? uri = some (file, index)) : Move g ws { ws with index }
  | read {uri : Text} {file : FileId} (known : ws.index.idOf? uri = some file)
      (domain : Option Domain) (text : Text) : Move g ws (ws.indexFile g file domain text).1
  | retag {file : FileId} {entry : FileTree} (cached : ws.trees.get? file = some entry)
      (source : entry.domain.declaresTags) : Move g ws (ws.updateTags file entry).1
  | forget : Move g ws ws.reset
  | load : Move g ws ws.loadGrammars
  | restart (config : Config) : Move g ws { (ws.setConfig config).reset with roots := [] }

def Moves (g : Grammars) : Workspace → Workspace → Prop := Relation.ReflTransGen (Move g)

namespace Moves

variable {g : Grammars}

theorem refl (ws : Workspace) : Moves g ws ws := Relation.ReflTransGen.refl

theorem trans {a b c : Workspace} (h : Moves g a b) (h' : Moves g b c) : Moves g a c :=
  Relation.ReflTransGen.trans h h'

theorem single {a b : Workspace} (h : Move g a b) : Moves g a b := Relation.ReflTransGen.single h

theorem tail {a b c : Workspace} (h : Moves g a b) (h' : Move g b c) : Moves g a c :=
  Relation.ReflTransGen.tail h h'

/-- What every move keeps, a chain of moves keeps. -/
theorem preserve {P : Workspace → Prop} (step : ∀ a b, P a → Move g a b → P b)
    {a b : Workspace} (h : Moves g a b) (start : P a) : P b := by
  induction h with
  | refl => exact start
  | tail _ move ih => exact step _ _ ih move

end Moves

/-! ### Operations as chains of moves -/

theorem enroll_moves (g : Grammars) (ws : Workspace) (uri : Text) (domain : Domain)
    (text : Text) : Moves g ws (ws.enroll g uri domain text).1 := by
  unfold enroll
  split
  · exact .refl ws
  · next file index new =>
    have registered : Moves g ws _ := Moves.single (.register new)
    exact (registered.tail (.log _)).tail
      (.read (DocumentIndex.idOf?_register new) (some domain) text)

theorem refresh_moves (g : Grammars) (ws : Workspace) {uri : Text} {file : FileId}
    (known : ws.index.idOf? uri = some file) (text : Text) :
    Moves g ws (ws.refresh g file text).1 :=
  (Moves.single (.read known none text)).tail (.log _)

theorem edit_moves (g : Grammars) (ws : Workspace) (uri text : Text) :
    Moves g ws (ws.edit g uri text).1 := by
  have opened : Moves g ws _ := Moves.single (.documents (ws.documents.set uri text))
  simp only [edit]
  split
  · split
    · next file known =>
      exact opened.trans
        (refresh_moves g { ws with documents := ws.documents.set uri text } known text)
    · split
      · exact opened
      · exact opened
      · next domain _ => exact opened.trans (enroll_moves g _ uri domain text)
  · exact opened

theorem save_moves (g : Grammars) (ws : Workspace) (uri : Text) :
    Moves g ws (ws.save uri).1 := by
  unfold save
  split
  · split
    · next entry cached =>
      split
      · next source => exact .single (.retag cached source)
      · exact .refl ws
    · exact .refl ws
  · exact .refl ws

theorem addFile_moves (g : Grammars) (disk : Disk) (ws : Workspace) (domain : Domain)
    (path : Text) : Moves g ws (ws.addFile g disk domain path).1 := by
  unfold addFile
  split
  · exact .refl ws
  · exact .single (.log _)
  · split
    · exact .refl ws
    · next uri _ _ file index new =>
      have registered : Moves g ws _ := Moves.single (.register new)
      simp only
      split
      · exact registered.tail (.log _)
      · next text _ =>
        exact registered.tail (.read (DocumentIndex.idOf?_register new) (some domain) text)

/-- What every file keeps, all files of a walk keep. -/
theorem addFiles_preserve {P : Workspace → Prop} {g : Grammars} {disk : Disk}
    (add : ∀ ws domain path, P ws → P (ws.addFile g disk domain path).1) (config : Config)
    (domain : Domain) {ws : Workspace} (totals : ScanTotals) (paths : List Text) (h : P ws) :
    P (addFiles g disk config domain ws totals paths).1 := by
  induction paths generalizing ws totals with
  | nil => exact h
  | cons path paths ih =>
    have first := add ws domain path h
    simp only [addFiles]
    split
    · split
      · next failed =>
        rw [failed] at first
        exact first
      · next taken =>
        rw [taken] at first
        exact ih _ first
    · exact ih totals h

/-- What the files keep, and changes of roots and log, the configured directories keep. -/
theorem scanDirectories_preserve {P : Workspace → Prop} {g : Grammars} {disk : Disk}
    (log : ∀ ws log, P ws → P { ws with log }) (roots : ∀ ws roots, P ws → P { ws with roots })
    (add : ∀ ws domain path, P ws → P (ws.addFile g disk domain path).1) (config : Config)
    (base : Path) {ws : Workspace} (totals : ScanTotals) (directories : List (Domain × Text))
    (h : P ws) : P (scanDirectories g disk config base ws totals directories).1 := by
  induction directories generalizing ws totals with
  | nil => exact h
  | cons head directories ih =>
    obtain ⟨domain, directory⟩ := head
    simp only [scanDirectories]
    split
    · split
      · exact h
      · next real _ =>
        have rooted := roots ws (ws.roots ++ [ProjectRoot.mk domain (Path.render real)]) h
        have walked : P (walkDirectory disk _ (Path.render (Path.resolve base directory))
          directory).1 := log _ _ (log _ _ rooted)
        have added := fun paths => addFiles_preserve add config domain totals paths walked
        split
        · next failed => exact failed ▸ added _
        · next after totals' done =>
          have kept : P (after, Except.ok totals').1 := done ▸ added _
          exact ih _ kept
    · exact h

/-- A scan starts from a workspace without files and adds them one by one. -/
theorem scan_preserve {P : Workspace → Prop} (g : Grammars) (disk : Disk)
    (log : ∀ ws log, P ws → P { ws with log }) (roots : ∀ ws roots, P ws → P { ws with roots })
    (add : ∀ ws domain path, P ws → P (ws.addFile g disk domain path).1) {ws : Workspace}
    {config : Config} (root : Text) (ready : ws.ready = true)
    (start : P { (ws.setConfig config).reset with roots := [] }) :
    P (ws.scan g disk config root).1 := by
  have scanned := scanDirectories_preserve log roots add config (Path.ofText root) ⟨0, []⟩
    (scanOrder config) start
  simp only [scan, ready, if_true]
  split
  · next failed =>
    rw [failed] at scanned
    exact scanned
  · next done =>
    rw [done] at scanned
    exact log _ _ scanned

theorem scan_of_idle (g : Grammars) (disk : Disk) {ws : Workspace} (idle : ws.ready = false)
    (config : Config) (root : Text) : (ws.scan g disk config root).1 = ws := by
  simp [scan, idle]

theorem scan_moves (g : Grammars) (disk : Disk) (ws : Workspace) (config : Config)
    (root : Text) : Moves g ws (ws.scan g disk config root).1 := by
  cases ready : ws.ready with
  | true =>
    exact scan_preserve g disk (fun _ log h => h.tail (.log log))
      (fun _ roots h => h.tail (.roots roots))
      (fun next domain path h => h.trans (addFile_moves g disk next domain path)) root ready
      (Moves.single (.restart config))
  | false =>
    rw [scan_of_idle g disk ready]
    exact .refl ws

/-- Every operation is a chain of moves or a change of settings. -/
theorem perform_moves (g : Grammars) (ws : Workspace) (op : Operation) :
    Moves g ws (ws.perform g op) ∨
      ∃ config, op = .setConfig config ∧ ws.perform g op = ws.setConfig config := by
  cases op with
  | load => exact Or.inl (.single .load)
  | setConfig config => exact Or.inr ⟨config, rfl, rfl⟩
  | edit uri text => exact Or.inl (edit_moves g ws uri text)
  | save uri => exact Or.inl (save_moves g ws uri)
  | close uri => exact Or.inl (.single (.documents _))
  | reset => exact Or.inl (.single .forget)
  | scan disk config root => exact Or.inl (scan_moves g disk ws config root)

/-- What moves and changes of settings keep, holds in every reachable state. -/
theorem Reachable.invariant {P : Workspace → Prop} {g : Grammars}
    (start : ∀ log, P (new log)) (move : ∀ a b, P a → Move g a b → P b)
    (configure : ∀ a config, P a → P (a.setConfig config)) {ws : Workspace}
    (h : Reachable g ws) : P ws := by
  obtain ⟨log, ops, rfl⟩ := h
  have go : ∀ (ops : List Operation) ws, P ws → P (run g ws ops) := by
    intro ops
    induction ops with
    | nil => exact fun _ h => h
    | cons op ops ih =>
      intro ws h
      refine ih (ws.perform g op) ?_
      rcases perform_moves g ws op with moves | ⟨config, _, configured⟩
      · exact moves.preserve move h
      · exact configured ▸ configure ws config h
  exact go ops (new log) (start log)

theorem Reachable.perform {g : Grammars} {ws : Workspace} (h : Reachable g ws) (op : Operation) :
    Reachable g (ws.perform g op) := by
  obtain ⟨log, ops, rfl⟩ := h
  exact ⟨log, ops ++ [op], (run_snoc g (new log) ops op).symm⟩

/-- What every operation keeps, holds in every reachable state. -/
theorem Reachable.induction {P : Workspace → Prop} {g : Grammars} (start : ∀ log, P (new log))
    (step : ∀ ws op, Reachable g ws → P ws → P (ws.perform g op)) {ws : Workspace}
    (h : Reachable g ws) : P ws := by
  obtain ⟨log, ops, rfl⟩ := h
  have go : ∀ (ops : List Operation) ws, Reachable g ws → P ws → P (run g ws ops) := by
    intro ops
    induction ops with
    | nil => exact fun _ _ h => h
    | cons op ops ih =>
      intro ws reachable h
      exact ih (ws.perform g op) (reachable.perform op) (step ws op reachable h)
  exact go ops (new log) ⟨log, [], rfl⟩ (start log)

/-! ### Cached trees -/

/-- Cached trees belong to known documents and were read with loaded grammars, and the backend
language in force is the configured one. -/
structure Tracked (ws : Workspace) : Prop where
  indexed : ∀ file entry, ws.trees.get? file = some entry →
    ∃ uri, ws.index.idOf? uri = some file
  loaded : ∀ file entry, ws.trees.get? file = some entry → ∃ lang, ws.trees.backend = some lang
  configured : ∀ lang, ws.trees.backend = some lang → ws.config.elim .rust Config.lang = lang

theorem SameFiles.tracked {a b : Workspace} (same : SameFiles a b) (h : Tracked a) :
    Tracked b where
  indexed := by
    intro file entry cached
    rw [same.trees] at cached
    rw [same.index]
    exact h.indexed file entry cached
  loaded := by
    intro file entry cached
    rw [same.trees] at cached ⊢
    exact h.loaded file entry cached
  configured := by
    intro lang hl
    rw [same.trees] at hl
    rw [same.config]
    exact h.configured lang hl

theorem withTree_tracked {ws : Workspace} {uri : Text} {file : FileId} (h : Tracked ws)
    (known : ws.index.idOf? uri = some file) {lang : BackendLang}
    (hl : ws.trees.backend = some lang) (entry : FileTree) :
    Tracked (ws.withTree file entry) where
  indexed := by
    intro other e cached
    by_cases same : other = file
    · exact ⟨uri, same ▸ known⟩
    · rw [withTree_get?_of_ne ws same] at cached
      exact h.indexed other e cached
  loaded _ _ _ := ⟨lang, hl⟩
  configured := h.configured

theorem tracked_of_unread {ws : Workspace} (unread : ∀ file, ws.trees.get? file = none)
    (configured : ∀ lang, ws.trees.backend = some lang →
      ws.config.elim .rust Config.lang = lang) : Tracked ws where
  indexed := by
    intro file entry cached
    rw [unread file] at cached
    cases cached
  loaded := by
    intro file entry cached
    rw [unread file] at cached
    cases cached
  configured := configured

/-- Switching leaves the configured language in force, if any. -/
theorem setConfig_configured (ws : Workspace) (config : Config) {lang : BackendLang}
    (h : (ws.setConfig config).trees.backend = some lang) : config.lang = lang := by
  obtain ⟨_, _, rfl⟩ := Option.map_eq_some_iff.mp h
  rfl

theorem setConfig_tracked {ws : Workspace} (h : Tracked ws) (config : Config) :
    Tracked (ws.setConfig config) where
  indexed := h.indexed
  loaded := by
    intro file entry cached
    obtain ⟨lang, hl⟩ := h.loaded file entry cached
    exact ⟨config.lang, by simp [setConfig, TreeCache.switch, hl]⟩
  configured _ hl := setConfig_configured ws config hl

theorem move_tracked {g : Grammars} {a b : Workspace} (h : Tracked a) (move : Move g a b) :
    Tracked b := by
  cases move with
  | log log => exact ⟨h.indexed, h.loaded, h.configured⟩
  | documents documents => exact ⟨h.indexed, h.loaded, h.configured⟩
  | roots roots => exact ⟨h.indexed, h.loaded, h.configured⟩
  | register new =>
    refine ⟨?_, h.loaded, h.configured⟩
    intro file entry cached
    obtain ⟨uri, known⟩ := h.indexed file entry cached
    exact ⟨uri, DocumentIndex.idOf?_register_of_known new known⟩
  | read known domain text =>
    rcases indexFile_files g a _ domain text with same | ⟨lang, d, hl, _, same⟩
    · exact same.tracked h
    · exact same.tracked (withTree_tracked h known hl _)
  | retag cached source => exact (updateTags_sameFiles a _ _).tracked h
  | forget => exact tracked_of_unread (fun file => Table.get?_empty file) h.configured
  | load =>
    refine ⟨h.indexed, fun _ _ _ => ⟨_, rfl⟩, ?_⟩
    intro lang hl
    exact Option.some.inj hl
  | restart config =>
    exact tracked_of_unread (fun file => Table.get?_empty file)
      fun lang hl => setConfig_configured a config hl

theorem new_tracked (log : Log) : Tracked (new log) :=
  tracked_of_unread (fun file => Table.get?_empty file) fun lang hl => by cases hl

theorem Reachable.tracked {g : Grammars} {ws : Workspace} (h : Reachable g ws) : Tracked ws :=
  h.invariant new_tracked (fun _ _ => move_tracked) fun _ config h => setConfig_tracked h config

/-! ### Owners -/

theorem reset_declarations (ws : Workspace) (file : FileId) : ws.reset.declarations file = [] :=
  declarations_of_unread (Table.get?_empty file)

theorem new_declarations (log : Log) (file : FileId) : (new log).declarations file = [] :=
  declarations_of_unread (Table.get?_empty file)

/-- Loading grammars again keeps the language in force, and before there were no trees. -/
theorem loadGrammars_declarations {ws : Workspace} (h : Tracked ws) (file : FileId) :
    ws.loadGrammars.declarations file = ws.declarations file := by
  cases hl : ws.trees.backend with
  | some lang =>
    refine declarations_congr ?_ rfl
    rw [hl]
    exact congrArg some (h.configured lang hl)
  | none =>
    have unread : ws.trees.get? file = none := by
      rw [Option.eq_none_iff_forall_ne_some]
      intro entry cached
      obtain ⟨lang, loaded⟩ := h.loaded file entry cached
      cases hl.symm.trans loaded
    rw [declarations_of_unread unread]
    exact declarations_of_unread unread

theorem move_settled {g : Grammars} {a b : Workspace} (tracked : Tracked a)
    (h : Settled a.declarations a.tags a.conflicts) (move : Move g a b) :
    Settled b.declarations b.tags b.conflicts := by
  cases move with
  | log log => exact h
  | documents documents => exact h
  | roots roots => exact h
  | register new => exact h
  | read known domain text => exact indexFile_settled g _ domain text h
  | retag cached source =>
    obtain ⟨lang, hl⟩ := tracked.loaded _ _ cached
    have u := updateTags_updated h.toConsistent (fun _ _ => rfl) cached
      (tagsIn?_of_source source hl)
    exact (u.settled h fun _ _ => rfl).congr (updateTags_sameFiles _ _ _).declarations
  | forget => exact settled_empty.congr (reset_declarations a)
  | load => exact h.congr (loadGrammars_declarations tracked)
  | restart config => exact settled_empty.congr (reset_declarations (a.setConfig config))

theorem accounted_of_unread {ws : Workspace} (unread : ∀ file, ws.trees.get? file = none)
    (tags : ws.tags = .empty) (conflicts : ws.conflicts = .empty) : ws.Accounted := by
  refine ⟨fun _ => .rust, ?_⟩
  rw [tags, conflicts]
  exact (settled_empty.congr fun file => declaredUnder_of_unread (unread file) _).toConsistent

theorem move_accounted {g : Grammars} {a b : Workspace} (tracked : Tracked a) (h : a.Accounted)
    (move : Move g a b) : b.Accounted := by
  cases move with
  | log log => exact h
  | documents documents => exact h
  | roots roots => exact h
  | register new => exact h
  | read known domain text => exact indexFile_accounted g _ domain text h
  | retag cached source =>
    obtain ⟨lang, hl⟩ := tracked.loaded _ _ cached
    obtain ⟨query, consistent⟩ := h
    exact updateTags_accounted consistent (fun _ _ => rfl) cached (tagsIn?_of_source source hl)
  | forget => exact accounted_of_unread (fun file => Table.get?_empty file) rfl rfl
  | load => exact h
  | restart config => exact accounted_of_unread (fun file => Table.get?_empty file) rfl rfl

/-- In every reachable state each file's entries in the tables come from its cached tree, under some
query. -/
theorem Reachable.accounted {g : Grammars} {ws : Workspace} (h : Reachable g ws) :
    ws.Accounted := by
  have both : Tracked ws ∧ ws.Accounted := by
    refine h.invariant (P := fun ws => Tracked ws ∧ ws.Accounted) ?_ ?_ ?_
    · intro log
      exact ⟨new_tracked log, accounted_of_unread (fun file => Table.get?_empty file) rfl rfl⟩
    · intro a b h move
      exact ⟨move_tracked h.1 move, move_accounted h.1 h.2 move⟩
    · intro a config h
      exact ⟨setConfig_tracked h.1 config, h.2⟩
  exact both.2

/-- An owner is declared in the tracked file of its number. -/
theorem Reachable.owner_tracked {g : Grammars} {ws : Workspace} (h : Reachable g ws) {name : Text}
    {owner : Tag} (owned : ws.tags.lookup name = some owner) :
    ∃ uri entry, ws.index.idOf? uri = some owner.file ∧ ws.trees.get? owner.file = some entry ∧
      entry.domain.declaresTags ∧ owner.name = name ∧
      ∃ query, ∃ t ∈ entry.declared query, t.assign owner.file = owner := by
  obtain ⟨query, consistent⟩ := h.accounted
  obtain ⟨declared, named⟩ := Tag.mem_of_first? (consistent.owner_first name owner owned)
  obtain ⟨_, entry, cached, source⟩ := source_of_declaredUnder declared
  obtain ⟨uri, known⟩ := h.tracked.indexed owner.file entry cached
  rw [declaredUnder_of_source cached source] at declared
  exact ⟨uri, entry, known, cached, source, named, _, List.mem_map.mp declared⟩

/-- What holds of whatever the grammars make of a text, holds of every cached tree. -/
theorem Reachable.cached_of_read {P : FileTree → Prop} {g : Grammars}
    (read : ∀ lang domain text, P (readAs g lang domain text)) {ws : Workspace}
    (h : Reachable g ws) : ∀ file entry, ws.trees.get? file = some entry → P entry := by
  refine h.invariant (P := fun ws => ∀ file entry, ws.trees.get? file = some entry → P entry)
    ?_ ?_ fun _ _ h => h
  · intro log file entry cached
    cases cached
  · intro a b ha move
    cases move with
    | log log => exact ha
    | documents documents => exact ha
    | roots roots => exact ha
    | register new => exact ha
    | @read uri file known domain text =>
      rcases indexFile_files g a file domain text with same | ⟨lang, d, _, _, same⟩
      · rw [same.trees]
        exact ha
      · rw [same.trees]
        intro other entry cached
        by_cases hf : other = file
        · subst hf
          rw [withTree_get?] at cached
          exact Option.some.inj cached ▸ read lang d text
        · rw [withTree_get?_of_ne a hf] at cached
          exact ha other entry cached
    | retag cached source =>
      rw [(updateTags_sameFiles a _ _).trees]
      exact ha
    | forget =>
      intro file entry cached
      cases cached
    | load => exact ha
    | restart config =>
      intro file entry cached
      cases cached

/-! ### The language in force -/

/-- Every cached tree is what the grammars now in force make of its text. -/
def InForce (g : Grammars) (ws : Workspace) : Prop :=
  ∀ file entry, ws.trees.get? file = some entry →
    ∃ lang, ws.trees.backend = some lang ∧ entry = readAs g lang entry.domain entry.text

/-- A change of settings switches the language only while no backend tree is cached. -/
def KeepsLanguage (ws : Workspace) : Operation → Prop
  | .setConfig config => ws.trees.backend = some config.lang ∨
      ∀ file entry, ws.trees.get? file = some entry → entry.domain ≠ .backend
  | _ => True

/-- The language is switched by scans, or else while no backend tree is cached. -/
def LanguageKept (g : Grammars) : Workspace → List Operation → Prop
  | _, [] => True
  | ws, op :: ops => KeepsLanguage ws op ∧ LanguageKept g (ws.perform g op) ops

theorem readAs_switch (g : Grammars) {domain : Domain} (h : domain ≠ .backend)
    (lang lang' : BackendLang) (text : Text) :
    readAs g lang domain text = readAs g lang' domain text := by
  cases domain with
  | template => rfl
  | javascript => rfl
  | backend => exact absurd rfl h

theorem SameFiles.inForce {g : Grammars} {a b : Workspace} (same : SameFiles a b)
    (h : InForce g a) : InForce g b := by
  intro file entry cached
  rw [same.trees] at cached ⊢
  exact h file entry cached

theorem withTree_inForce {g : Grammars} {ws : Workspace} (h : InForce g ws) (file : FileId)
    {lang : BackendLang} (hl : ws.trees.backend = some lang) (domain : Domain) (text : Text) :
    InForce g (ws.withTree file (readAs g lang domain text)) := by
  intro other entry cached
  by_cases same : other = file
  · subst same
    rw [withTree_get?] at cached
    obtain rfl := Option.some.inj cached
    exact ⟨lang, hl, rfl⟩
  · rw [withTree_get?_of_ne ws same] at cached
    exact h other entry cached

theorem inForce_of_unread (g : Grammars) {ws : Workspace}
    (unread : ∀ file, ws.trees.get? file = none) : InForce g ws := by
  intro file entry cached
  rw [unread file] at cached
  cases cached

theorem new_inForce (g : Grammars) (log : Log) : InForce g (new log) :=
  inForce_of_unread g fun file => Table.get?_empty file

theorem move_inForce {g : Grammars} {a b : Workspace} (tracked : Tracked a) (h : InForce g a)
    (move : Move g a b) : InForce g b := by
  cases move with
  | log log => exact h
  | documents documents => exact h
  | roots roots => exact h
  | register new => exact h
  | read known domain text =>
    rcases indexFile_files g a _ domain text with same | ⟨lang, d, hl, _, same⟩
    · exact same.inForce h
    · exact same.inForce (withTree_inForce h _ hl d text)
  | retag cached source => exact (updateTags_sameFiles a _ _).inForce h
  | forget => exact inForce_of_unread g fun file => Table.get?_empty file
  | load =>
    intro file entry cached
    obtain ⟨lang, hl, read⟩ := h file entry cached
    exact ⟨lang, congrArg some (tracked.configured lang hl), read⟩
  | restart config => exact inForce_of_unread g fun file => Table.get?_empty file

theorem setConfig_inForce {g : Grammars} {ws : Workspace} (h : InForce g ws) {config : Config}
    (kept : KeepsLanguage ws (.setConfig config)) : InForce g (ws.setConfig config) := by
  intro file entry cached
  obtain ⟨lang, hl, read⟩ := h file entry cached
  refine ⟨config.lang, by simp [setConfig, TreeCache.switch, hl], ?_⟩
  rcases kept with same | silent
  · rw [Option.some.inj (same.symm.trans hl)]
    exact read
  · exact read.trans (readAs_switch g (silent file entry cached) lang config.lang entry.text)

theorem readAs_declared_switch (g : Grammars) {domain : Domain} (h : domain ≠ .backend)
    (lang query query' : BackendLang) (text : Text) :
    (readAs g lang domain text).declared query = (readAs g lang domain text).declared query' := by
  cases domain with
  | template => rfl
  | javascript => rfl
  | backend => exact absurd rfl h

/-- A switch of the language that leaves all trees in force changes no declaration. -/
theorem setConfig_declarations {g : Grammars} {ws : Workspace} (h : InForce g ws) {config : Config}
    (kept : KeepsLanguage ws (.setConfig config)) (file : FileId) :
    (ws.setConfig config).declarations file = ws.declarations file := by
  cases cached : ws.trees.get? file with
  | none =>
    rw [declarations_of_unread cached]
    exact declarations_of_unread cached
  | some entry =>
    obtain ⟨lang, hl, read⟩ := h file entry cached
    have switched : (ws.setConfig config).trees.backend = some config.lang := by
      simp [setConfig, TreeCache.switch, hl]
    rcases kept with same | silent
    · exact declarations_congr (switched.trans same.symm) rfl
    · by_cases source : entry.domain.declaresTags
      · have cached' : (ws.setConfig config).trees.get? file = some entry := cached
        rw [declarations_of_source cached source hl, declarations_of_source cached' source switched,
          read, readAs_declared_switch g (silent file entry cached) lang config.lang lang]
      · rw [declarations_of_template cached source]
        exact declarations_of_template cached source

/-- What holds in every state of a run that keeps to one language between scans. -/
structure InStep (g : Grammars) (ws : Workspace) : Prop where
  tracked : Tracked ws
  inForce : InForce g ws
  settled : Settled ws.declarations ws.tags ws.conflicts

theorem run_inStep {g : Grammars} {ws : Workspace} (ops : List Operation) (h : InStep g ws)
    (kept : LanguageKept g ws ops) : InStep g (run g ws ops) := by
  induction ops generalizing ws with
  | nil => exact h
  | cons op ops ih =>
    obtain ⟨head, tail⟩ := kept
    rcases perform_moves g ws op with moves | ⟨config, rfl, configured⟩
    · refine ih ?_ tail
      refine moves.preserve (P := InStep g) ?_ h
      intro a b h move
      exact ⟨move_tracked h.tracked move, move_inForce h.tracked h.inForce move,
        move_settled h.tracked h.settled move⟩
    · rw [configured] at tail
      exact ih ⟨setConfig_tracked h.tracked config, setConfig_inForce h.inForce head,
        h.settled.congr (setConfig_declarations h.inForce head)⟩ tail

theorem new_inStep (g : Grammars) (log : Log) : InStep g (new log) :=
  ⟨new_tracked log, new_inForce g log, settled_empty.congr (new_declarations log)⟩

theorem LanguageKept.snoc {g : Grammars} {start : Workspace} {ops : List Operation}
    (h : LanguageKept g start ops) {op : Operation} (kept : KeepsLanguage (run g start ops) op) :
    LanguageKept g start (ops ++ [op]) := by
  induction ops generalizing start with
  | nil => exact ⟨kept, trivial⟩
  | cons first ops ih => exact ⟨h.1, ih h.2 kept⟩

/-- The states of runs in which no query meets a tree of another backend language. -/
def Unmixed (g : Grammars) (ws : Workspace) : Prop :=
  ∃ log ops, LanguageKept g (new log) ops ∧ ws = run g (new log) ops

section Unmixed

variable {g : Grammars} {ws : Workspace} (h : Unmixed g ws)
include h

theorem Unmixed.reachable : Reachable g ws := by
  obtain ⟨log, ops, _, rfl⟩ := h
  exact ⟨log, ops, rfl⟩

theorem Unmixed.inStep : InStep g ws := by
  obtain ⟨log, ops, kept, rfl⟩ := h
  exact run_inStep ops (new_inStep g log) kept

theorem Unmixed.settled : Settled ws.declarations ws.tags ws.conflicts := h.inStep.settled

theorem Unmixed.perform (op : Operation) (kept : KeepsLanguage ws op) :
    Unmixed g (ws.perform g op) := by
  obtain ⟨log, ops, before, rfl⟩ := h
  exact ⟨log, ops ++ [op], before.snoc kept, (run_snoc g (new log) ops op).symm⟩

end Unmixed

/-! ### Owners and conflicts after a run -/

def IsSource (ws : Workspace) (file : FileId) : Prop :=
  ∃ entry, ws.trees.get? file = some entry ∧ entry.domain.declaresTags

section Sources

variable {ws : Workspace} {declared : FileId → List Tag}
  (sources : ∀ file, ∀ t ∈ declared file, t.file = file ∧ ws.IsSource file)
include sources

theorem Consistent.owner_isSource (h : Consistent declared ws.tags ws.conflicts) {t : Tag}
    (ht : t ∈ ws.tags.tags) : ws.IsSource t.file := by
  have owner := ws.tags.lookup_eq_some_iff.mpr ⟨ht, rfl⟩
  exact (sources t.file t (Tag.mem_of_first? (h.owner_first t.name t owner)).1).2

theorem Consistent.row_isSource (h : Consistent declared ws.tags ws.conflicts) {file : FileId}
    {row : List Tag} (found : ws.conflicts.get? file = some row) :
    ws.IsSource file ∧ ∀ t ∈ row, t.file = file := by
  have hrow := h.refused file
  rw [found, Option.getD_some] at hrow
  have member : ∀ t ∈ row, t ∈ declared file := fun t ht =>
    Tag.mem_of_mem_withoutFirsts (hrow ▸ ht)
  cases row with
  | nil => exact absurd found (h.recorded file)
  | cons t row =>
    exact ⟨(sources file t (member t List.mem_cons_self)).2,
      fun u hu => (sources file u (member u hu)).1⟩

end Sources

/-- After any run, the registered names are those that the cached trees declare, each owner is the
first declaration of its name in its file, and the conflicts of a file are its other declarations,
in order. The cached trees are those of the language in force. -/
theorem ownership_of_run (g : Grammars) (log : Log) (ops : List Operation)
    (kept : LanguageKept g (new log) ops) :
    let ws := run g (new log) ops
    (∀ n, (∃ t, ws.tags.lookup n = some t) ↔ ∃ file, ∃ t ∈ ws.declarations file, t.name = n) ∧
    (∀ t ∈ ws.tags.tags, Tag.first? t.name (ws.declarations t.file) = some t) ∧
    (∀ file, (ws.conflicts.get? file).getD [] =
      Tag.withoutFirsts (ws.tags.owns file) (ws.declarations file)) ∧
    (∀ file, ws.conflicts.get? file ≠ some []) ∧
    (∀ t ∈ ws.tags.tags, ws.IsSource t.file) ∧
    (∀ file row, ws.conflicts.get? file = some row →
      ws.IsSource file ∧ ∀ t ∈ row, t.file = file) ∧
    InForce g ws := by
  intro ws
  have inStep : InStep g ws := run_inStep ops (new_inStep g log) kept
  have settled := inStep.settled
  have sources : ∀ file, ∀ t ∈ ws.declarations file, t.file = file ∧ ws.IsSource file :=
    fun _ _ => source_of_declared
  refine ⟨?_, ?_, settled.refused, settled.recorded,
    fun t => settled.toConsistent.owner_isSource sources,
    fun file row => settled.toConsistent.row_isSource sources, inStep.inForce⟩
  · intro n
    constructor
    · rintro ⟨t, ht⟩
      obtain ⟨declared, hn⟩ := Tag.mem_of_first? (settled.owner_first n t ht)
      exact ⟨t.file, t, declared, hn⟩
    · rintro ⟨file, t, declared, rfl⟩
      exact settled.owned file t declared
  · intro t ht
    exact settled.owner_first t.name t (ws.tags.lookup_eq_some_iff.mpr ⟨ht, rfl⟩)

end Workspace

/-! A small project: every text is one comment, and two backend files declare the same tag. -/

namespace Sample

def grammars : Grammars where
  outline text := .mk .document 0 text.length []
  comments _ text := .ofSpans [⟨0, text.length⟩]
  foreign _ _ _ := []

def log : Log := ⟨[], true, []⟩

def config (lang : BackendLang) : Config :=
  { lang, templateExt := "html", templates := [], jsTags := [], backendTags := ["app"] }

def disk : Disk :=
  { entries := [.directory "ws" [.directory "app" [.file "x.py" "# hx@a", .file "y.py" "# hx@a"]]] }

def scanned : Workspace :=
  Workspace.run grammars (.new log) [.load, .scan disk (config .python) "/ws"]

theorem scanned_unmixed : Workspace.Unmixed grammars scanned :=
  ⟨log, [.load, .scan disk (config .python) "/ws"], ⟨trivial, trivial, trivial⟩, rfl⟩

def handover : List Operation :=
  [.load, .setConfig (config .python), .scan disk (config .python) "/ws",
    .setConfig (config .python), .edit "file:///ws/app/x.py" "# hx@b"]

end Sample

open Workspace in
/-- The tag goes to the second file. -/
theorem ownership_of_handover :
    LanguageKept Sample.grammars (new Sample.log) Sample.handover ∧
    (run Sample.grammars (new Sample.log) Sample.handover).tags.tags.map
      (fun t => (t.name, t.file)) = [(Text.ofString "hx@b", 0), (Text.ofString "hx@a", 1)] ∧
    ∀ t ∈ (run Sample.grammars (new Sample.log) Sample.handover).tags.tags,
      Tag.first? t.name ((run Sample.grammars (new Sample.log) Sample.handover).declarations
        t.file) = some t := by
  have kept : LanguageKept Sample.grammars (new Sample.log) Sample.handover :=
    ⟨trivial, Or.inr (fun _ _ h => by cases h), trivial, Or.inl rfl, trivial, trivial⟩
  exact ⟨kept, by decide, (ownership_of_run _ _ _ kept).2.1⟩

end Hypertag
