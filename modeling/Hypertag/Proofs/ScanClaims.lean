import Hypertag.Proofs.Alike
import Hypertag.Proofs.OpenText

/-!
# Which files a scan claims

The files that a scan takes up are known before it starts: they are those that the walks of the
configured directories list, in the order of the directories, as far as they belong to the domain
of the directory and can be named. The first claim of a uri decides its number, its domain and its
text. Which files a walk lists is left to the walk.
-/

namespace Hypertag

/-- A file that a walk lists: the domain of the directory, its path in the walk, and the uri of its
canonical path. -/
structure ScanClaim where
  domain : Domain
  path : Text
  uri : Text
  deriving DecidableEq

namespace Workspace

/-- The claims among listed files: those that belong to the domain and can be named. -/
def claimsAmong (disk : Disk) (config : Config) (domain : Domain) (paths : List Text) :
    List ScanClaim :=
  (paths.filter (domain ∈ config.classify ·)).filterMap fun path =>
    (disk.canonicalUri path).toOption.map (ScanClaim.mk domain path)

def claimsIn (disk : Disk) (config : Config) (base : Path) (item : Domain × Text) :
    List ScanClaim :=
  claimsAmong disk config item.1 (disk.walk (directoryPath base item.2)).files

/-- All claims in the order of the scan. A uri may be claimed more than once. -/
def claims (disk : Disk) (config : Config) (base : Path) : List ScanClaim :=
  (scanOrder config).flatMap (claimsIn disk config base)

/-- The first claim of a uri: that of the first directory which has one. -/
def firstClaim? (disk : Disk) (config : Config) (base : Path) (uri : Text) : Option ScanClaim :=
  (scanOrder config).findSome? fun item => (claimsIn disk config base item).find? (·.uri = uri)

theorem firstClaim?_eq (disk : Disk) (config : Config) (base : Path) (uri : Text) :
    firstClaim? disk config base uri = (claims disk config base).find? (·.uri = uri) :=
  List.find?_flatMap.symm

theorem uri_of_firstClaim? {disk : Disk} {config : Config} {base : Path} {uri : Text}
    {c : ScanClaim} (first : firstClaim? disk config base uri = some c) : c.uri = uri := by
  rw [firstClaim?_eq] at first
  simpa using List.find?_some first

section Among

variable {disk : Disk} {config : Config} {domain : Domain} {path uri : Text} (paths : List Text)

theorem claimsAmong_of_unfit (unfit : domain ∉ config.classify path) :
    claimsAmong disk config domain (path :: paths) = claimsAmong disk config domain paths := by
  rw [claimsAmong, List.filter_cons_of_neg (by simpa using unfit), claimsAmong]

theorem claimsAmong_of_unnamed {e : CanonicalError} (failed : disk.canonicalUri path = .error e) :
    claimsAmong disk config domain (path :: paths) = claimsAmong disk config domain paths := by
  by_cases fits : domain ∈ config.classify path
  · rw [claimsAmong, List.filter_cons_of_pos (by simpa using fits), List.filterMap_cons, failed]
    rfl
  · exact claimsAmong_of_unfit paths fits

theorem claimsAmong_of_named (fits : domain ∈ config.classify path)
    (named : disk.canonicalUri path = .ok uri) :
    claimsAmong disk config domain (path :: paths) =
      ⟨domain, path, uri⟩ :: claimsAmong disk config domain paths := by
  rw [claimsAmong, List.filter_cons_of_pos (by simpa using fits), List.filterMap_cons, named]
  rfl

variable {paths}

theorem mem_claimsAmong {c : ScanClaim} : c ∈ claimsAmong disk config domain paths ↔
    c.domain = domain ∧ c.path ∈ paths ∧ c.domain ∈ config.classify c.path ∧
      disk.canonicalUri c.path = .ok c.uri := by
  simp only [claimsAmong, List.mem_filterMap, List.mem_filter, decide_eq_true_eq,
    Option.map_eq_some_iff]
  constructor
  · rintro ⟨p, ⟨listed, fits⟩, u, named, rfl⟩
    refine ⟨rfl, listed, fits, ?_⟩
    cases result : disk.canonicalUri p with
    | error e =>
      rw [result] at named
      cases named
    | ok v =>
      rw [result] at named
      cases named
      rfl
  · rintro ⟨rfl, listed, fits, named⟩
    exact ⟨c.path, ⟨listed, fits⟩, c.uri, by rw [named]; rfl, rfl⟩

end Among

/-- Whether a configured directory lists a file of its domain that has the uri. -/
def ListedAs (disk : Disk) (config : Config) (base : Path) (uri : Text) : Prop :=
  ∃ domain directory path, (domain, directory) ∈ scanOrder config ∧
    path ∈ (disk.walk (directoryPath base directory)).files ∧
    domain ∈ config.classify path ∧ disk.canonicalUri path = .ok uri

theorem exists_claim_iff {disk : Disk} {config : Config} {base : Path} {uri : Text} :
    uri ∈ (claims disk config base).map ScanClaim.uri ↔ ListedAs disk config base uri := by
  simp only [claims, List.mem_map, List.mem_flatMap]
  constructor
  · rintro ⟨c, ⟨⟨domain, directory⟩, configured, claimed⟩, rfl⟩
    obtain ⟨rfl, listed, fits, named⟩ := mem_claimsAmong.mp claimed
    exact ⟨c.domain, directory, c.path, configured, listed, fits, named⟩
  · rintro ⟨domain, directory, path, configured, listed, fits, named⟩
    exact ⟨⟨domain, path, uri⟩, ⟨(domain, directory), configured,
      mem_claimsAmong.mpr ⟨rfl, listed, fits, named⟩⟩, rfl⟩

/-! ### Claims one by one -/

section Induction

variable {P : Workspace → List Tag → List ScanClaim → Prop} {g : Grammars} {disk : Disk}

/-- What one claim does to the state, to the refused tags and to the claims made so far, the files
of a walk do one after the other. -/
theorem addFiles_claims
    (log : ∀ ws refused done log, P ws refused done → P { ws with log } refused done)
    (add : ∀ ws refused done c after more, disk.canonicalUri c.path = .ok c.uri →
      ws.addFile g disk c.domain c.path = (after, .ok more) → P ws refused done →
      P after (refused ++ more.getD []) (done ++ [c]))
    {config : Config} {domain : Domain} {ws after : Workspace} {totals totals' : ScanTotals}
    {done : List ScanClaim} {paths : List Text}
    (success : addFiles g disk config domain ws totals paths = (after, .ok totals'))
    (h : P ws totals.conflicts done) :
    P after totals'.conflicts (done ++ claimsAmong disk config domain paths) := by
  induction paths generalizing ws totals done with
  | nil =>
    cases success
    rw [show claimsAmong disk config domain [] = [] from rfl, List.append_nil]
    exact h
  | cons path paths ih =>
    by_cases fits : domain ∈ config.classify path
    · rw [addFiles_of_fit g disk ws totals fits] at success
      obtain ⟨between, more, added, later⟩ := andThen_eq_ok.mp success
      cases named : disk.canonicalUri path with
      | error e =>
        rw [claimsAmong_of_unnamed paths named]
        cases e with
        | endless =>
          rw [addFile_of_endless g domain named] at added
          cases added
        | disk e =>
          rw [addFile_of_unnamed g domain named] at added
          cases added
          exact ih later (log _ _ _ _ h)
      | ok uri =>
        have rest := ih later (by
          rw [ScanTotals.count_conflicts]
          exact add ws totals.conflicts done ⟨domain, path, uri⟩ between more named added h)
        rw [List.append_assoc, List.singleton_append] at rest
        rw [claimsAmong_of_named paths fits named]
        exact rest
    · rw [addFiles_of_unfit g disk ws totals fits] at success
      rw [claimsAmong_of_unfit paths fits]
      exact ih success h

theorem scanDirectories_claims
    (log : ∀ ws refused done log, P ws refused done → P { ws with log } refused done)
    (roots : ∀ ws refused done roots, P ws refused done → P { ws with roots } refused done)
    (add : ∀ ws refused done c after more, disk.canonicalUri c.path = .ok c.uri →
      ws.addFile g disk c.domain c.path = (after, .ok more) → P ws refused done →
      P after (refused ++ more.getD []) (done ++ [c]))
    {config : Config} {base : Path} {ws after : Workspace} {totals totals' : ScanTotals}
    {done : List ScanClaim} {items : List (Domain × Text)}
    (success : scanDirectories g disk config base ws totals items = (after, .ok totals'))
    (h : P ws totals.conflicts done) :
    P after totals'.conflicts (done ++ items.flatMap (claimsIn disk config base)) := by
  induction items generalizing ws totals done with
  | nil =>
    cases success
    rw [List.flatMap_nil, List.append_nil]
    exact h
  | cons item items ih =>
    cases becomes : projectRoot disk base item with
    | error e =>
      rw [scanDirectories_of_fault g config ws totals becomes] at success
      cases success
    | ok root =>
      rw [scanDirectories_of_root g config ws totals becomes] at success
      have rooted := roots ws totals.conflicts done (ws.roots ++ [root]) h
      have walked : P ({ ws with roots := ws.roots ++ [root] }.walkDirectory disk
          (directoryPath base item.2) item.2).1 totals.conflicts done :=
        log _ _ _ _ (log _ _ _ _ rooted)
      obtain ⟨between, counted, added, later⟩ := andThen_eq_ok.mp success
      rw [List.flatMap_cons, ← List.append_assoc]
      exact ih later (addFiles_claims log add added walked)

end Induction

/-! ### The index and the trees -/

def numbered (next : FileId) (uris : List Text) : List (Text × FileId) :=
  uris.zipIdx.map fun (uri, i) => (uri, next + i)

theorem numbered_snoc (next : FileId) (uris : List Text) (uri : Text) :
    numbered next (uris ++ [uri]) = numbered next uris ++ [(uri, next + uris.length)] := by
  simp [numbered, List.zipIdx_append]

theorem numbered_uris (next : FileId) (uris : List Text) :
    (numbered next uris).map Prod.fst = uris := by
  rw [numbered, List.map_map]
  exact List.zipIdx_map_fst 0 uris

theorem eraseDups_snoc_of_mem {uris : List Text} {uri : Text} (h : uri ∈ uris) :
    (uris ++ [uri]).eraseDups = uris.eraseDups := by
  rw [List.eraseDups_append]
  simp [List.removeAll, h]

theorem eraseDups_snoc_of_not_mem {uris : List Text} {uri : Text} (h : uri ∉ uris) :
    (uris ++ [uri]).eraseDups = uris.eraseDups ++ [uri] := by
  rw [List.eraseDups_append]
  simp [List.removeAll, h, List.eraseDups_cons]

/-- What is read for a claim. An open document counts before the disk. -/
def claimTree? (g : Grammars) (disk : Disk) (lang : BackendLang) (documents : Table Text Text)
    (c : ScanClaim) : Option FileTree :=
  ((documents.get? c.uri).or (disk.read? c.path)).map (readAs g lang c.domain)

/-- A scan that began in `start`, once some claims are made. -/
structure Progress (g : Grammars) (disk : Disk) (lang : BackendLang) (start : Workspace)
    (done : List ScanClaim) (ws : Workspace) : Prop where
  tracked : Tracked ws
  loaded : ws.trees.backend = some lang
  documents : ws.documents = start.documents
  next : ws.index.next = start.index.next + (done.map ScanClaim.uri).eraseDups.length
  entries : ws.index.entries = numbered start.index.next (done.map ScanClaim.uri).eraseDups
  trees : ∀ uri, ws.treeOf? uri =
    (done.find? (·.uri = uri)).bind (claimTree? g disk lang start.documents)

variable {g : Grammars} {disk : Disk} {lang : BackendLang} {start ws : Workspace}
  {done : List ScanClaim}

theorem Progress.known_iff (h : Progress g disk lang start done ws) {uri : Text} :
    (∃ file, ws.index.idOf? uri = some file) ↔ uri ∈ done.map ScanClaim.uri := by
  have uris : ws.index.entries.map Prod.fst = (done.map ScanClaim.uri).eraseDups := by
    rw [h.entries, numbered_uris]
  rw [← List.mem_eraseDups, ← uris, List.mem_map]
  constructor
  · rintro ⟨file, known⟩
    exact ⟨(uri, file), ws.index.idOf?_eq_some_iff.mp known, rfl⟩
  · rintro ⟨⟨_, file⟩, member, rfl⟩
    exact ⟨file, ws.index.idOf?_eq_some_iff.mpr member⟩

theorem SameFiles.treeOf? {a b : Workspace} (same : SameFiles a b) (uri : Text) :
    b.treeOf? uri = a.treeOf? uri := by
  rw [Workspace.treeOf?, Workspace.treeOf?, same.index, same.trees]

/-- What a newly claimed file adds: its uri to the index, and its tree if it can be read. -/
theorem addFile_of_new (h : Progress g disk lang start done ws) {c : ScanClaim} {file : FileId}
    {index : DocumentIndex} (named : disk.canonicalUri c.path = .ok c.uri)
    (new : ws.index.register? c.uri = some (file, index)) :
    SameFiles ((claimTree? g disk lang start.documents c).elim { ws with index }
      ({ ws with index }.withTree file)) (ws.addFile g disk c.domain c.path).1 := by
  rw [claimTree?, ← h.documents]
  cases found : (ws.documents.get? c.uri).or (disk.read? c.path) with
  | none =>
    obtain ⟨log, left⟩ := addFile_of_unreadable g c.domain named new found
    rw [left]
    exact ⟨rfl, rfl, rfl, rfl, rfl⟩
  | some text =>
    have domain : ({ ws with index } : Workspace).trees.domainFor? file (some c.domain) =
        some c.domain := h.tracked.domainFor?_of_register new c.domain
    have read := @indexFile_of_read g { ws with index } file (some c.domain) lang c.domain h.loaded
      domain text
    rw [addFile_of_read g c.domain named new found, read]
    exact updateTags_sameFiles _ file _

/-- Claiming a known uri once more changes nothing. -/
theorem Progress.again (h : Progress g disk lang start done ws) {c : ScanClaim}
    (claimed : c.uri ∈ done.map ScanClaim.uri) :
    Progress g disk lang start (done ++ [c]) ws where
  tracked := h.tracked
  loaded := h.loaded
  documents := h.documents
  next := by
    rw [List.map_append, List.map_singleton, eraseDups_snoc_of_mem claimed]
    exact h.next
  entries := by
    rw [List.map_append, List.map_singleton, eraseDups_snoc_of_mem claimed]
    exact h.entries
  trees := by
    intro uri
    have first : (done ++ [c]).find? (·.uri = uri) = done.find? (·.uri = uri) := by
      rw [List.find?_append]
      by_cases same : c.uri = uri
      · obtain ⟨d, hd, hu⟩ := List.mem_map.mp claimed
        have found : (done.find? (·.uri = uri)).isSome :=
          List.find?_isSome.mpr ⟨d, hd, by simpa using hu.trans same⟩
        rw [Option.or_of_isSome found]
      · simp [same]
    rw [first]
    exact h.trees uri

/-- The tree of each document once a new one is numbered and perhaps read. -/
theorem treeOf?_of_new (tracked : Tracked ws) {uri : Text} {file : FileId} {index : DocumentIndex}
    (new : ws.index.register? uri = some (file, index)) (read? : Option FileTree) (other : Text) :
    (read?.elim { ws with index } ({ ws with index }.withTree file)).treeOf? other =
      if other = uri then read? else ws.treeOf? other := by
  have tree : ∀ w : Workspace, w.index = index →
      w.treeOf? other = (index.idOf? other).bind w.trees.get? := by
    intro w indexed
    rw [Workspace.treeOf?, indexed]
  by_cases same : other = uri
  · subst same
    rw [DocumentIndex.idOf?_register new] at tree
    rw [if_pos rfl]
    cases read? with
    | none => exact (tree { ws with index } rfl).trans (tracked.unread_of_register new)
    | some entry =>
      refine (tree ({ ws with index }.withTree file entry) rfl).trans ?_
      exact withTree_get? { ws with index } file entry
  · rw [DocumentIndex.idOf?_register_of_ne new same] at tree
    rw [if_neg same]
    cases read? with
    | none => exact tree { ws with index } rfl
    | some entry =>
      refine (tree ({ ws with index }.withTree file entry) rfl).trans ?_
      rw [Workspace.treeOf?]
      cases known : ws.index.idOf? other with
      | none => rfl
      | some number =>
        have foreign : number ≠ file := by
          rintro rfl
          exact DocumentIndex.idOf?_ne_registered new other known
        exact withTree_get?_of_ne { ws with index } foreign entry

theorem addFile_progress {c : ScanClaim} {after : Workspace} {more : Option (List Tag)}
    (named : disk.canonicalUri c.path = .ok c.uri)
    (added : ws.addFile g disk c.domain c.path = (after, .ok more))
    (h : Progress g disk lang start done ws) :
    Progress g disk lang start (done ++ [c]) after := by
  obtain rfl : (ws.addFile g disk c.domain c.path).1 = after := by rw [added]
  by_cases claimed : c.uri ∈ done.map ScanClaim.uri
  · obtain ⟨file, known⟩ := h.known_iff.mpr claimed
    rw [addFile_of_claimed g c.domain named known]
    exact h.again claimed
  · have unknown : ws.index.idOf? c.uri = none := by
      rw [Option.eq_none_iff_forall_ne_some]
      intro file known
      exact claimed (h.known_iff.mp ⟨file, known⟩)
    obtain ⟨index, new⟩ := DocumentIndex.register?_of_unknown unknown
    obtain ⟨_, _, entries⟩ := DocumentIndex.register?_eq_some new
    have same := addFile_of_new h named new
    have trees := treeOf?_of_new h.tracked new (claimTree? g disk lang start.documents c)
    have uris := eraseDups_snoc_of_not_mem claimed
    generalize hread : claimTree? g disk lang start.documents c = read? at same trees
    have frame : (read?.elim { ws with index } ({ ws with index }.withTree ws.index.next)).index =
        index ∧ (read?.elim { ws with index }
          ({ ws with index }.withTree ws.index.next)).trees.backend = ws.trees.backend ∧
        (read?.elim { ws with index } ({ ws with index }.withTree ws.index.next)).documents =
          ws.documents := by
      cases read? with
      | none => exact ⟨rfl, rfl, rfl⟩
      | some entry => exact ⟨rfl, rfl, rfl⟩
    refine ⟨addFile_tracked h.tracked c.domain c.path, ?_, ?_, ?_, ?_, ?_⟩
    · rw [same.trees, frame.2.1, h.loaded]
    · rw [same.documents, frame.2.2, h.documents]
    · rw [same.index, frame.1, DocumentIndex.next_of_register new, h.next, List.map_append,
        List.map_singleton, uris, List.length_append, List.length_singleton]
      exact Int.add_assoc _ _ _
    · rw [same.index, frame.1, entries, h.entries, h.next, List.map_append, List.map_singleton,
        uris, numbered_snoc]
    · intro uri
      rw [same.treeOf?, trees, List.find?_append]
      by_cases hu : uri = c.uri
      · subst hu
        have first : done.find? (·.uri = c.uri) = none := by
          rw [List.find?_eq_none]
          intro d hd hu
          exact claimed (List.mem_map.mpr ⟨d, hd, by simpa using hu⟩)
        rw [if_pos rfl, first, Option.none_or, List.find?_cons_of_pos (by simp)]
        exact hread.symm
      · rw [if_neg hu, List.find?_cons_of_neg (by simpa using Ne.symm hu), List.find?_nil,
          Option.or_none]
        exact h.trees uri

/-! ### The whole scan -/

theorem Progress.relog (h : Progress g disk lang start done ws) (log : Log) :
    Progress g disk lang start done { ws with log } :=
  ⟨move_tracked (g := g) h.tracked (.log log), h.loaded, h.documents, h.next, h.entries, h.trees⟩

theorem Progress.reroot (h : Progress g disk lang start done ws) (roots : List ProjectRoot) :
    Progress g disk lang start done { ws with roots } :=
  ⟨move_tracked (g := g) h.tracked (.roots roots), h.loaded, h.documents, h.next, h.entries,
    h.trees⟩

theorem restarted_progress (g : Grammars) (disk : Disk) (ready : start.ready = true)
    (config : Config) :
    Progress g disk config.lang start [] (start.restarted config) where
  tracked := restarted_tracked start config
  loaded := restarted_backend ready config
  documents := rfl
  next := (Int.add_zero _).symm
  entries := rfl
  trees _ := rfl

theorem scanDirectories_progress {config : Config} {base : Path} {after : Workspace}
    {totals : ScanTotals} (ready : start.ready = true)
    (loop : scanDirectories g disk config base (start.restarted config) ⟨0, []⟩
      (scanOrder config) = (after, .ok totals)) :
    Progress g disk config.lang start (claims disk config base) after :=
  scanDirectories_claims (P := fun ws _ done => Progress g disk config.lang start done ws)
    (fun _ _ _ log h => h.relog log) (fun _ _ _ roots h => h.reroot roots)
    (fun _ _ _ _ _ _ named added h => addFile_progress named added h) loop
    (restarted_progress g disk ready config)

/-- Settings and roots are none of a file's business. -/
theorem addFile_frame (g : Grammars) (disk : Disk) (ws : Workspace) (domain : Domain)
    (path : Text) : (ws.addFile g disk domain path).1.roots = ws.roots ∧
      (ws.addFile g disk domain path).1.config = ws.config := by
  have outcome := addFile_outcome g disk ws domain path
  generalize ws.addFile g disk domain path = result at outcome ⊢
  cases outcome with
  | endless named => exact ⟨rfl, rfl⟩
  | unnamed log named => exact ⟨rfl, rfl⟩
  | claimed named known => exact ⟨rfl, rfl⟩
  | unreadable log named new closed => exact ⟨rfl, rfl⟩
  | @read uri text file index named new found =>
    rcases indexFile_files g { ws with index } file (some domain) text with
      same | ⟨_, _, _, _, same⟩
    · exact ⟨same.roots, same.config⟩
    · exact ⟨same.roots, same.config⟩

/-- A scan leaves its settings behind. -/
theorem scan_config (g : Grammars) (disk : Disk) {ws : Workspace} (ready : ws.ready = true)
    (config : Config) (root : Text) : (ws.scan g disk config root).1.config = some config := by
  refine scan_preserve (P := fun w => w.config = some config) g disk (fun _ _ h => h)
    (fun _ _ h => h) ?_ root ready rfl
  intro w domain path h
  rw [(addFile_frame g disk w domain path).2, h]

/-- Each directory leaves the root that it becomes. -/
theorem scanDirectories_roots {config : Config} {base : Path} {after : Workspace}
    {totals totals' : ScanTotals} {items : List (Domain × Text)}
    (success : scanDirectories g disk config base ws totals items = (after, .ok totals')) :
    ∃ roots, items.mapM (projectRoot disk base) = .ok roots ∧ after.roots = ws.roots ++ roots := by
  induction items generalizing ws totals with
  | nil =>
    cases success
    exact ⟨[], rfl, (List.append_nil _).symm⟩
  | cons item items ih =>
    cases becomes : projectRoot disk base item with
    | error e =>
      rw [scanDirectories_of_fault g config ws totals becomes] at success
      cases success
    | ok root =>
      rw [scanDirectories_of_root g config ws totals becomes] at success
      obtain ⟨between, counted, added, later⟩ := andThen_eq_ok.mp success
      obtain ⟨roots, rest, all⟩ := ih later
      have first : (addDirectory g disk config base ws totals item root).1.roots =
          ws.roots ++ [root] :=
        addFiles_preserve (P := fun w => w.roots = ws.roots ++ [root])
          (fun w domain path h => (addFile_frame g disk w domain path).1.trans h) config item.1
          totals _ rfl
      refine ⟨root :: roots, ?_, ?_⟩
      · rw [List.mapM_cons, becomes, rest]
        rfl
      · rw [added] at first
        rw [all, first, List.append_assoc, List.singleton_append]

structure Claimed (g : Grammars) (disk : Disk) (config : Config) (base : Path)
    (ws after : Workspace) : Prop where
  /-- Nothing but listed files is indexed. -/
  only : ∀ uri id, (uri, id) ∈ after.index.entries → ListedAs disk config base uri
  indexed : ∀ uri, ListedAs disk config base uri → ∃! id, (uri, id) ∈ after.index.entries
  /-- Numbers run on from the counter, in the order of the first claims. -/
  numbers : after.index.entries =
    numbered ws.index.next ((claims disk config base).map ScanClaim.uri).eraseDups
  counter : after.index.next = ws.index.next + after.index.entries.length
  /-- The first claim decides the domain and, unless the document is open, the text. -/
  first : ∀ uri, ListedAs disk config base uri →
    ∃ c, firstClaim? disk config base uri = some c ∧ after.treeOf? uri =
      ((ws.documents.get? uri).or (disk.read? c.path)).map (readAs g config.lang c.domain)
  cached : ∀ file entry, after.trees.get? file = some entry →
    ∃ uri, after.index.idOf? uri = some file
  roots : (scanOrder config).mapM (projectRoot disk base) = .ok after.roots

theorem length_numbered (next : FileId) (uris : List Text) :
    (numbered next uris).length = uris.length := by
  rw [numbered, List.length_map, List.length_zipIdx]

theorem Progress.claimed {config : Config} {base : Path} {after : Workspace}
    (h : Progress g disk config.lang ws (claims disk config base) after)
    (roots : (scanOrder config).mapM (projectRoot disk base) = .ok after.roots) :
    Claimed g disk config base ws after where
  only uri id member :=
    exists_claim_iff.mp (h.known_iff.mp ⟨id, after.index.idOf?_eq_some_iff.mpr member⟩)
  indexed uri listed := by
    obtain ⟨id, known⟩ := h.known_iff.mpr (exists_claim_iff.mpr listed)
    refine ⟨id, after.index.idOf?_eq_some_iff.mp known, ?_⟩
    intro other member
    exact Option.some.inj ((after.index.idOf?_eq_some_iff.mpr member).symm.trans known)
  numbers := h.entries
  counter := by rw [h.next, h.entries, length_numbered]
  first uri listed := by
    obtain ⟨d, hd, rfl⟩ := List.mem_map.mp (exists_claim_iff.mpr listed)
    have found : ((claims disk config base).find? (·.uri = d.uri)).isSome :=
      List.find?_isSome.mpr ⟨d, hd, by simp⟩
    obtain ⟨c, hc⟩ := Option.isSome_iff_exists.mp found
    have named : c.uri = d.uri := by simpa using List.find?_some hc
    refine ⟨c, (firstClaim?_eq disk config base d.uri).trans hc, ?_⟩
    rw [h.trees, hc, ← named]
    rfl
  cached := h.tracked.indexed
  roots := roots

/-- A scan that succeeds indexes exactly the files that its directories list, each once and in the
order of the first claims, and reads each as its first claim says. Of the state before, it keeps
the open documents and the counter and nothing else. -/
theorem scan_claims_first {g : Grammars} {disk : Disk} {ws : Workspace} {config : Config}
    {root : Text} {refused : List Tag} (scanned : (ws.scan g disk config root).2 = .ok refused) :
    Claimed g disk config (Path.ofText root) ws (ws.scan g disk config root).1 ∧
    ∀ other : Workspace, other.ready = true → other.documents = ws.documents →
      other.index.next = ws.index.next →
      AnsweredAlike (ws.scan g disk config root) (other.scan g disk config root) := by
  obtain ⟨ready, after, totals, log, loop, state, _⟩ := scan_eq_ok scanned
  constructor
  · obtain ⟨roots, made, all⟩ := scanDirectories_roots loop
    have all : after.roots = roots := all
    rw [state]
    apply ((scanDirectories_progress ready loop).relog log).claimed
    rw [made, all]
  · intro other ready' documents next
    exact scan_alike g disk ready ready' documents next config root

end Workspace

namespace Sample

/-- A directory with another one in it and a link to it; the inner one is also configured for
templates, and templates have the extension of backend files. -/
def overlapping : Disk :=
  { entries := [.directory "ws" [.directory "app" [.file "x.py" "# hx@b", .directory "lib"
    [.file "y.py" "# hx@c"]], .link "alias" "app"]] }

def overlappingConfig : Config :=
  { lang := .python, templateExt := "py", templates := ["app/lib"], jsTags := [],
    backendTags := ["alias", "app", "app/lib"] }

def rescanned : Workspace × Except ScanError (List Tag) :=
  scanned.scan grammars overlapping overlappingConfig "/ws"

end Sample

open Workspace in
/-- The inner file is claimed as a template, and the other one once, though two directories list
it. -/
theorem scan_claims_nested :
    Sample.rescanned.2 = .ok [] ∧
    Sample.rescanned.1.index.entries =
      [(Text.ofString "file:///ws/app/lib/y.py", 2), (Text.ofString "file:///ws/app/x.py", 3)] ∧
    Sample.rescanned.1.treeOf? "file:///ws/app/lib/y.py" =
      some (readAs Sample.grammars .python .template "# hx@c") := by
  have scanned : Sample.rescanned.2 = .ok [] := rfl
  have claimed := (scan_claims_first scanned).1
  refine ⟨scanned, claimed.numbers.trans (by decide), ?_⟩
  obtain ⟨c, first, read⟩ := claimed.first "file:///ws/app/lib/y.py"
    (claimed.only _ 2 (by rw [claimed.numbers]; decide))
  have template : firstClaim? Sample.overlapping Sample.overlappingConfig (Path.ofText "/ws")
    "file:///ws/app/lib/y.py" =
      some ⟨.template, "/ws/app/lib/y.py", "file:///ws/app/lib/y.py"⟩ := by decide
  cases first.symm.trans template
  exact read

end Hypertag
