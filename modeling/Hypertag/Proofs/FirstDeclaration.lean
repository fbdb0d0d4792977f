import Hypertag.Proofs.History
import Hypertag.Proofs.ScanClaims

/-!
# A scan gives each name to its first declaration

During a scan every file is new, so that it gives up no name and nobody is promoted. The tags of
the claimed files are inserted in the order of the claims; the first declaration of a name stays,
and the others are refused in that order. The order of the registry itself is left open.
-/

namespace Hypertag

namespace Tag

theorem first?_append (n : Text) (tags more : List Tag) :
    first? n (tags ++ more) = (first? n tags).or (first? n more) :=
  List.find?_append

/-- What comes later is left out only where nothing of its name came before. -/
theorem withoutFirsts_append (taken : Text → Bool) (tags more : List Tag) :
    withoutFirsts taken (tags ++ more) = withoutFirsts taken tags ++
      withoutFirsts (fun n => taken n && (first? n tags).isNone) more := by
  induction tags generalizing taken with
  | nil => simp [withoutFirsts]
  | cons t tags ih =>
    rw [List.cons_append]
    cases ht : taken t.name with
    | true =>
      rw [withoutFirsts_cons_taken ht, withoutFirsts_cons_taken ht, ih]
      congr 2
      funext n
      by_cases hn : n = t.name
      · subst hn
        simp [first?_cons_self]
      · simp [first?_cons_of_ne (Ne.symm hn), hn]
    | false =>
      rw [withoutFirsts_cons_free ht, withoutFirsts_cons_free ht, ih, List.cons_append]
      congr 3
      funext n
      by_cases hn : n = t.name
      · subst hn
        simp [ht]
      · rw [first?_cons_of_ne (Ne.symm hn)]

def repeats (tags : List Tag) : List Tag := withoutFirsts (fun _ => true) tags

theorem repeats_append (tags more : List Tag) : repeats (tags ++ more) =
    repeats tags ++ withoutFirsts (fun n => (first? n tags).isNone) more := by
  rw [repeats, withoutFirsts_append]
  simp only [Bool.true_and]
  rfl

end Tag

theorem Table.set_of_absent {κ α : Type} [DecidableEq κ] {t : Table κ α} {k : κ}
    (h : t.get? k = none) (v : α) : (t.set k v).entries = t.entries ++ [(k, v)] := by
  have absent : k ∉ t.entries.map Prod.fst := by
    intro present
    obtain ⟨⟨_, w⟩, member, rfl⟩ := List.mem_map.mp present
    cases h.symm.trans (t.get?_eq_some_iff.mpr member)
  rw [set, dif_neg absent]

namespace Workspace

/-! ### A new file -/

section Fresh

variable {declared : FileId → List Tag} {ws : Workspace} {file : FileId}

theorem Settled.lookup_foreign (h : Settled declared ws.tags ws.conflicts)
    (fresh : declared file = []) (n : Text) :
    (ws.tags.lookup n).filter (·.file ≠ file) = ws.tags.lookup n := by
  cases owner : ws.tags.lookup n with
  | none => rfl
  | some t =>
    have foreign : t.file ≠ file := by
      intro own
      have first := h.owner_first n t owner
      rw [own, fresh] at first
      cases first
    rw [Option.filter_some, if_pos (decide_eq_true foreign)]

theorem Settled.row_of_fresh (h : Settled declared ws.tags ws.conflicts)
    (fresh : declared file = []) : ws.conflicts.get? file = none := by
  have row := h.refused file
  rw [fresh] at row
  cases found : ws.conflicts.get? file with
  | none => rfl
  | some tags =>
    rw [found] at row
    have empty : tags = [] := row
    exact absurd (empty ▸ found) (h.recorded file)

theorem Settled.lookup_claim_fresh (h : Settled declared ws.tags ws.conflicts)
    (fresh : declared file = []) (tags : List Tag) (n : Text) :
    (ws.tags.reconcile file tags).1.lookup n =
      (ws.tags.lookup n).or (Tag.first? n (tags.map (Tag.assign file))) := by
  rw [Registry.lookup_reconcile, h.lookup_foreign fresh]

theorem Settled.refused_fresh (h : Settled declared ws.tags ws.conflicts)
    (fresh : declared file = []) (tags : List Tag) :
    (ws.tags.reconcile file tags).2 =
      Tag.withoutFirsts (fun n => (ws.tags.lookup n).isNone) (tags.map (Tag.assign file)) := by
  rw [Registry.reconcile_refused]
  simp only [h.lookup_foreign fresh]

/-- A new file gets the last row, if any. -/
theorem Settled.entries_fresh (h : Settled declared ws.tags ws.conflicts)
    (fresh : declared file = []) (tags : List Tag) :
    (ws.reconcileFile file tags).1.allConflicts =
      ws.allConflicts ++ (ws.tags.reconcile file tags).2 := by
  have absent := h.row_of_fresh fresh
  simp only [reconcileFile, allConflicts, Table.values]
  cases refused : (ws.tags.reconcile file tags).2 with
  | nil =>
    rw [List.isEmpty_nil, if_pos rfl, Table.erase_of_absent absent, List.append_nil]
  | cons t rest =>
    rw [List.isEmpty_cons, if_neg Bool.false_ne_true, Table.set_of_absent absent, List.map_append,
      List.flatten_append]
    simp

/-- Nobody waits for a name that a new file could release, so that nobody is promoted. -/
theorem Settled.promote_fresh (h : Settled declared ws.tags ws.conflicts)
    (fresh : declared file = []) (tags : List Tag) :
    (ws.reconcileFile file tags).1.promote file = (ws.reconcileFile file tags).1 := by
  apply foldl_promoteFile_of_owned
  intro row hrow t ht
  have found := (Table.get?_eq_some_iff _).mpr hrow
  apply Option.isSome_iff_exists.mp
  rw [reconcileFile_tags, h.lookup_claim_fresh fresh]
  by_cases own : row.1 = file
  · rw [own, reconcileFile_row] at found
    split at found
    · cases found
    · rw [← Option.some.inj found, h.refused_fresh fresh] at ht
      obtain ⟨first, hfirst⟩ := Tag.exists_first? (Tag.mem_of_mem_withoutFirsts ht)
      rw [hfirst]
      cases ws.tags.lookup t.name with
      | none => rfl
      | some o => rfl
  · rw [reconcileFile_row_of_ne ws own] at found
    obtain ⟨owner, ho⟩ := h.owned_of_recorded ((Table.get?_eq_some_iff _).mp found) ht
    rw [ho]
    rfl

/-- What becomes of tags that are inserted behind all others: the free names get their first tag,
and the rest are refused and recorded last. -/
structure Inserted (ws : Workspace) (tags : List Tag) (after : Workspace × List Tag) : Prop where
  owners : ∀ n, after.1.tags.lookup n = (ws.tags.lookup n).or (Tag.first? n tags)
  refused : after.2 = Tag.withoutFirsts (fun n => (ws.tags.lookup n).isNone) tags
  recorded : after.1.allConflicts = ws.allConflicts ++ after.2

theorem Inserted.none (ws : Workspace) : Inserted ws [] (ws, []) :=
  ⟨fun _ => (Option.or_none).symm, rfl, (List.append_nil _).symm⟩

theorem updateTags_inserted {entry : FileTree} (h : Settled declared ws.tags ws.conflicts)
    (fresh : declared file = []) (cached : ws.trees.get? file = some entry) :
    Inserted ws (ws.declarations file) (ws.updateTags file entry) := by
  cases found : ws.tagsIn? entry with
  | none =>
    have silent : (ws.trees.get? file).bind ws.tagsIn? = none := by
      rw [cached, Option.bind_some, found]
    rw [declarations_of_silent silent, updateTags_of_silent found]
    exact .none ws
  | some tags =>
    rw [declarations_of_tags cached found]
    simp only [updateTags, found, h.promote_fresh fresh]
    exact ⟨h.lookup_claim_fresh fresh _, h.refused_fresh fresh _, h.entries_fresh fresh _⟩

end Fresh

/-! ### File after file -/

/-- Whether the first declaration of each name owns it, the files taken in the order of the index,
and the others are recorded in their order. -/
structure FirstWins (ws : Workspace) (refused : List Tag) : Prop where
  settled : Settled ws.declarations ws.tags ws.conflicts
  owners : ∀ n, ws.tags.lookup n = Tag.first? n ws.allDeclarations
  repeated : refused = Tag.repeats ws.allDeclarations
  recorded : ws.allConflicts = refused

theorem FirstWins.extend {ws after : Workspace} {refused more tags : List Tag}
    (h : FirstWins ws refused) (inserted : Inserted ws tags (after, more))
    (declared : after.allDeclarations = ws.allDeclarations ++ tags)
    (settled : Settled after.declarations after.tags after.conflicts) :
    FirstWins after (refused ++ more) where
  settled := settled
  owners n := by rw [declared, Tag.first?_append, ← h.owners]; exact inserted.owners n
  repeated := by
    rw [declared, Tag.repeats_append, ← h.repeated]
    simp only [← h.owners]
    exact congrArg (refused ++ ·) inserted.refused
  recorded := by rw [← h.recorded]; exact inserted.recorded

/-- A new file comes last, and the declarations of the others stay. -/
theorem allDeclarations_of_new {ws after : Workspace} {uri : Text} {file : FileId}
    {index : DocumentIndex} (new : ws.index.register? uri = some (file, index))
    (indexed : after.index = index) (loaded : after.trees.backend = ws.trees.backend)
    (others : ∀ other, other ≠ file → after.trees.get? other = ws.trees.get? other) :
    after.allDeclarations = ws.allDeclarations ++ after.declarations file := by
  obtain ⟨_, rfl, entries⟩ := DocumentIndex.register?_eq_some new
  rw [allDeclarations, indexed, entries, List.flatMap_append, List.flatMap_singleton,
    allDeclarations]
  congr 1
  apply List.flatMap_congr
  rintro ⟨other, number⟩ member
  apply declarations_congr loaded
  apply others
  rintro rfl
  exact DocumentIndex.idOf?_ne_registered new other (ws.index.idOf?_eq_some_iff.mpr member)

/-- A number without a file behind it changes nothing. -/
theorem FirstWins.numbered {ws : Workspace} {refused : List Tag} (h : FirstWins ws refused)
    (tracked : Tracked ws) {uri : Text} {file : FileId} {index : DocumentIndex}
    (new : ws.index.register? uri = some (file, index)) : FirstWins { ws with index } refused := by
  have declared : ({ ws with index } : Workspace).allDeclarations =
      ws.allDeclarations ++ ws.declarations file :=
    allDeclarations_of_new new rfl rfl fun _ _ => rfl
  rw [declarations_of_unread (tracked.unread_of_register new), List.append_nil] at declared
  refine ⟨h.settled, ?_, ?_, h.recorded⟩
  · rw [declared]
    exact h.owners
  · rw [declared]
    exact h.repeated

theorem addFile_firstWins {g : Grammars} {disk : Disk} {lang : BackendLang} {start ws : Workspace}
    {done : List ScanClaim} {refused : List Tag} {c : ScanClaim}
    (named : disk.canonicalUri c.path = .ok c.uri) {after : Workspace} {more : Option (List Tag)}
    (added : ws.addFile g disk c.domain c.path = (after, .ok more))
    (progress : Progress g disk lang start done ws) (h : FirstWins ws refused) :
    FirstWins after (refused ++ more.getD []) := by
  cases known : ws.index.idOf? c.uri with
  | some file =>
    rw [addFile_of_claimed g c.domain named known] at added
    cases added
    rw [Option.getD_none, List.append_nil]
    exact h
  | none =>
    obtain ⟨index, new⟩ := DocumentIndex.register?_of_unknown known
    have unread := progress.tracked.unread_of_register new
    cases found : (ws.documents.get? c.uri).or (disk.read? c.path) with
    | none =>
      obtain ⟨log, left⟩ := addFile_of_unreadable g c.domain named new found
      rw [left] at added
      cases added
      rw [Option.getD_none, List.append_nil]
      have numbered := h.numbered progress.tracked new
      exact ⟨numbered.settled, numbered.owners, numbered.repeated, numbered.recorded⟩
    | some text =>
      have domain := progress.tracked.domainFor?_of_register new c.domain
      have read := @indexFile_of_read g { ws with index } ws.index.next (some c.domain) lang
        c.domain progress.loaded domain text
      have settled := indexFile_settled g ws.index.next (some c.domain) text
        (h.numbered progress.tracked new).settled
      rw [addFile_of_read g c.domain named new found] at added
      cases added
      rw [read] at settled ⊢
      generalize readAs g lang c.domain text = entry at settled ⊢
      have same := updateTags_sameFiles ({ ws with index }.withTree ws.index.next entry)
        ws.index.next entry
      have declared := allDeclarations_of_new new same.index (by rw [same.trees]; rfl)
        fun other foreign => by
          rw [same.trees]
          exact withTree_get?_of_ne { ws with index } foreign entry
      rw [same.declarations] at declared
      have inserted : Inserted ({ ws with index }.withTree ws.index.next entry) _ _ :=
        updateTags_inserted h.settled (declarations_of_unread unread)
          (withTree_get? { ws with index } ws.index.next entry)
      exact h.extend ⟨inserted.owners, inserted.refused, inserted.recorded⟩ declared settled

/-! ### The whole scan -/

def claimedTags (g : Grammars) (disk : Disk) (lang : BackendLang) (documents : Table Text Text)
    (file : FileId) (c : ScanClaim) : List Tag :=
  if c.domain.declaresTags then
    match (documents.get? c.uri).or (disk.read? c.path) with
    | none => []
    | some text =>
      (Tag.extract text (g.comments (c.domain.grammar lang) text).spans).map (Tag.assign file)
  else []

/-- What the files that a scan claims declare, in the order of their claims. -/
def scanDeclarations (g : Grammars) (disk : Disk) (config : Config) (base : Path)
    (ws : Workspace) : List Tag :=
  (numbered ws.index.next ((claims disk config base).map ScanClaim.uri).eraseDups).flatMap
    fun (uri, file) => (firstClaim? disk config base uri).elim []
      (claimedTags g disk config.lang ws.documents file)

theorem declarations_of_claim {g : Grammars} {disk : Disk} {lang : BackendLang}
    {documents : Table Text Text} {ws : Workspace} {file : FileId} {c : ScanClaim}
    (hl : ws.trees.backend = some lang)
    (read : ws.trees.get? file = claimTree? g disk lang documents c) :
    ws.declarations file = claimedTags g disk lang documents file c := by
  unfold claimedTags
  cases found : (documents.get? c.uri).or (disk.read? c.path) with
  | none =>
    rw [claimTree?, found] at read
    rw [declarations_of_unread read, ite_self]
  | some text =>
    rw [claimTree?, found, Option.map_some] at read
    by_cases source : c.domain.declaresTags
    · rw [if_pos source, declarations_of_source read source hl, readAs_declared g lang source]
    · rw [if_neg source, declarations_of_template read source]

theorem Progress.allDeclarations {g : Grammars} {disk : Disk} {config : Config} {base : Path}
    {ws after : Workspace}
    (h : Progress g disk config.lang ws (claims disk config base) after) :
    after.allDeclarations = scanDeclarations g disk config base ws := by
  rw [Workspace.allDeclarations, scanDeclarations, ← h.entries]
  apply List.flatMap_congr
  rintro ⟨uri, file⟩ member
  have known := after.index.idOf?_eq_some_iff.mpr member
  have read := h.trees uri
  rw [treeOf?_of_known known, ← firstClaim?_eq] at read
  dsimp only
  cases first : firstClaim? disk config base uri with
  | none =>
    rw [first] at read
    exact declarations_of_unread read
  | some c =>
    rw [first] at read
    exact declarations_of_claim h.loaded read

theorem restarted_firstWins (ws : Workspace) (config : Config) :
    FirstWins (ws.restarted config) [] where
  settled := settled_empty.congr (reset_declarations (ws.setConfig config))
  owners _ := rfl
  repeated := rfl
  recorded := rfl

theorem scanDirectories_firstWins {g : Grammars} {disk : Disk} {config : Config} {base : Path}
    {ws after : Workspace} {totals : ScanTotals} (ready : ws.ready = true)
    (loop : scanDirectories g disk config base (ws.restarted config) ⟨0, []⟩ (scanOrder config) =
      (after, .ok totals)) : FirstWins after totals.conflicts :=
  (scanDirectories_claims
    (P := fun w refused done => Progress g disk config.lang ws done w ∧ FirstWins w refused)
    (fun _ _ _ log h => ⟨h.1.relog log, h.2.settled, h.2.owners, h.2.repeated, h.2.recorded⟩)
    (fun _ _ _ roots h => ⟨h.1.reroot roots, h.2.settled, h.2.owners, h.2.repeated, h.2.recorded⟩)
    (fun _ _ _ _ _ _ named added h => ⟨addFile_progress named added h.1,
      addFile_firstWins named added h.1 h.2⟩) loop
    ⟨restarted_progress g disk ready config, restarted_firstWins ws config⟩).2

/-- After a scan that succeeds, each name belongs to the first of its declarations in the order of
the claims, and no other name is registered. The scan returns the other declarations in that order,
and these are the recorded conflicts. -/
theorem scan_first_declaration_wins {g : Grammars} {disk : Disk} {ws : Workspace} {config : Config}
    {root : Text} {refused : List Tag} (scanned : (ws.scan g disk config root).2 = .ok refused) :
    (∀ n, (ws.scan g disk config root).1.tags.lookup n =
      Tag.first? n (scanDeclarations g disk config (Path.ofText root) ws)) ∧
    refused = Tag.repeats (scanDeclarations g disk config (Path.ofText root) ws) ∧
    (ws.scan g disk config root).1.allConflicts = refused := by
  obtain ⟨ready, after, totals, log, loop, state, rfl⟩ := scan_eq_ok scanned
  have wins := scanDirectories_firstWins ready loop
  rw [state, ← (scanDirectories_progress ready loop).allDeclarations]
  exact ⟨wins.owners, wins.repeated, wins.recorded⟩

end Workspace

namespace Sample

def repeated : Disk :=
  { entries := [.directory "ws" [.directory "app" [.file "x.py" "# hx@a\n# hx@a",
    .file "y.py" "# hx@b\n# hx@a", .file "z.py" "# hx@a"]]] }

end Sample

open Workspace in
/-- The repeated tags are returned file by file, and the first one owns the name. -/
theorem first_declaration_of_repeated :
    (Sample.scanned.scan Sample.grammars Sample.repeated (Sample.config .python) "/ws").2 =
      .ok [⟨"hx@a", 2, 6, 2, 1⟩, ⟨"hx@a", 2, 6, 3, 1⟩, ⟨"hx@a", 2, 6, 4, 0⟩] ∧
    (Sample.scanned.scan Sample.grammars Sample.repeated (Sample.config .python)
      "/ws").1.tags.lookup "hx@a" = some ⟨"hx@a", 2, 6, 2, 0⟩ ∧
    (Sample.scanned.scan Sample.grammars Sample.repeated (Sample.config .python)
      "/ws").1.allConflicts =
        [⟨"hx@a", 2, 6, 2, 1⟩, ⟨"hx@a", 2, 6, 3, 1⟩, ⟨"hx@a", 2, 6, 4, 0⟩] := by
  have scanned : (Sample.scanned.scan Sample.grammars Sample.repeated (Sample.config .python)
    "/ws").2 = .ok [⟨"hx@a", 2, 6, 2, 1⟩, ⟨"hx@a", 2, 6, 3, 1⟩, ⟨"hx@a", 2, 6, 4, 0⟩] := rfl
  obtain ⟨owners, _, recorded⟩ := scan_first_declaration_wins scanned
  exact ⟨scanned, (owners "hx@a").trans (by decide), recorded⟩

end Hypertag
