import Hypertag.Proofs.Outcome

/-!
# Repeated edits and saves

A repeated edit releases and claims all tags of its file once more, and so does a save. In a state
that a run has come to, this finds every name with its owner: no owner, no conflict and no tree
changes. The order in which the registry keeps its tags may change, and nothing is said about it.
-/

namespace Hypertag

namespace Table

theorem eq_of_entries {κ α : Type} {t u : Table κ α} (h : t.entries = u.entries) : t = u := by
  cases t
  cases u
  cases h
  rfl

variable {κ α : Type} [DecidableEq κ]

/-- Setting a key to the value that it has changes nothing. -/
theorem set_of_get? {t : Table κ α} {k : κ} {v : α} (h : t.get? k = some v) : t.set k v = t := by
  have present : k ∈ t.entries.map Prod.fst :=
    List.mem_map.mpr ⟨(k, v), t.get?_eq_some_iff.mp h, rfl⟩
  have keep : ∀ e ∈ t.entries, replaced k v e = id e := by
    rintro ⟨j, w⟩ member
    by_cases hk : j = k
    · subst hk
      have same := (t.get?_eq_some_iff.mpr member).symm.trans h
      simp [replaced, Option.some.inj same]
    · simp [replaced, hk]
  apply eq_of_entries
  rw [set, dif_pos present]
  exact (List.map_congr_left keep).trans (List.map_id _)

theorem erase_of_absent {t : Table κ α} {k : κ} (h : t.get? k = none) : t.erase k = t := by
  apply eq_of_entries
  apply List.filter_eq_self.mpr
  rintro ⟨j, w⟩ member
  have found := t.get?_eq_some_iff.mpr member
  have hne : j ≠ k := by
    rintro rfl
    rw [h] at found
    cases found
  simpa using hne

end Table

namespace Workspace

/-- Two workspaces that differ at most in the order of the registry and in the log. -/
structure Unchanged (ws ws' : Workspace) : Prop extends SameFiles ws ws' where
  owners : ∀ n, ws'.tags.lookup n = ws.tags.lookup n
  conflicts : ws'.conflicts = ws.conflicts

theorem Unchanged.refl (ws : Workspace) : Unchanged ws ws :=
  ⟨.refl ws, fun _ => rfl, rfl⟩

/-! ### Claiming once more -/

section Claim

variable {declared : FileId → List Tag} {tags : Registry} {conflicts : Table FileId (List Tag)}
  {file : FileId} {list : List Tag}

/-- Where every name has its owner, a file that claims its declarations once more ends up with what
it had. -/
theorem Settled.lookup_reclaim (h : Settled declared tags conflicts)
    (same : declared file = list.map (Tag.assign file)) (n : Text) :
    (tags.reconcile file list).1.lookup n = tags.lookup n := by
  rw [Registry.lookup_reconcile, ← same]
  cases owner : tags.lookup n with
  | none =>
    have undeclared : Tag.first? n (declared file) = none := by
      rw [Tag.first?_eq_none_iff]
      rintro t ht rfl
      obtain ⟨o, ho⟩ := h.owned file t ht
      cases owner.symm.trans ho
    simp [undeclared]
  | some o =>
    by_cases own : o.file = file
    · have first := h.owner_first n o owner
      rw [own] at first
      have mine : ¬ decide (o.file ≠ file) = true := by simp [own]
      rw [Option.filter_some, if_neg mine, first]
      rfl
    · simp [own]

theorem Settled.refused_reclaim (h : Settled declared tags conflicts)
    (same : declared file = list.map (Tag.assign file)) :
    (tags.reconcile file list).2 = (conflicts.get? file).getD [] := by
  rw [Registry.reconcile_refused_of_owns, ← same, h.refused]
  apply Tag.withoutFirsts_congr
  intro t _
  rw [Registry.owns, Registry.owns, h.lookup_reclaim same]

end Claim

/-- The row of the file is written again, or there was none and there is none. -/
theorem Settled.conflicts_reclaim {declared : FileId → List Tag} {ws : Workspace} {file : FileId}
    {list : List Tag} (h : Settled declared ws.tags ws.conflicts)
    (same : declared file = list.map (Tag.assign file)) :
    (ws.reconcileFile file list).1.conflicts = ws.conflicts := by
  simp only [reconcileFile, h.refused_reclaim same]
  cases found : ws.conflicts.get? file with
  | none => exact Table.erase_of_absent found
  | some row =>
    cases row with
    | nil => exact absurd found (h.recorded file)
    | cons t row => exact Table.set_of_get? found

/-- Files whose refused names all have owners are passed over. -/
theorem foldl_promoteFile_of_owned (updated : FileId) {rows : List (FileId × List Tag)}
    {ws : Workspace}
    (owned : ∀ row ∈ rows, ∀ t ∈ row.2, ∃ owner, ws.tags.lookup t.name = some owner) :
    rows.foldl (promoteFile updated) ws = ws := by
  induction rows with
  | nil => rfl
  | cons row rows ih =>
    have waiting : row.2.all (fun t => (ws.tags.lookup t.name).isSome) = true := by
      rw [List.all_eq_true]
      intro t ht
      exact Option.isSome_iff_exists.mpr (owned row List.mem_cons_self t ht)
    have skipped : promoteFile updated ws row = ws := if_pos (Or.inr waiting)
    rw [List.foldl_cons, skipped]
    exact ih fun other ho => owned other (List.mem_cons_of_mem row ho)

/-- What is recorded as refused has an owner. -/
theorem Settled.owned_of_recorded {declared : FileId → List Tag} {tags : Registry}
    {conflicts : Table FileId (List Tag)} (h : Settled declared tags conflicts)
    {row : FileId × List Tag} (hrow : row ∈ conflicts.entries) {t : Tag} (ht : t ∈ row.2) :
    ∃ owner, tags.lookup t.name = some owner := by
  have refused := h.refused row.1
  rw [conflicts.get?_eq_some_iff.mpr hrow, Option.getD_some] at refused
  exact h.owned row.1 t (Tag.mem_of_mem_withoutFirsts (refused ▸ ht))

/-- In a settled state, taking over the declarations of a cached tree changes nothing and reports
the recorded conflicts. -/
theorem updateTags_of_settled {ws : Workspace} {file : FileId} {entry : FileTree}
    (h : Settled ws.declarations ws.tags ws.conflicts)
    (cached : ws.trees.get? file = some entry) :
    Unchanged ws (ws.updateTags file entry).1 ∧
      (ws.updateTags file entry).2 = (ws.conflicts.get? file).getD [] := by
  cases found : ws.tagsIn? entry with
  | some tags =>
    have same := declarations_of_tags cached found
    have owners : ∀ n, (ws.reconcileFile file tags).1.tags.lookup n = ws.tags.lookup n :=
      h.lookup_reclaim same
    have conflicts := h.conflicts_reclaim same
    have settled : (ws.reconcileFile file tags).1.promote file =
        (ws.reconcileFile file tags).1 := by
      apply foldl_promoteFile_of_owned
      intro row hrow t ht
      rw [conflicts] at hrow
      rw [owners]
      exact h.owned_of_recorded hrow ht
    obtain ⟨log, updated⟩ := @updateTags_of_tags ws file entry tags found
    rw [updated, settled]
    exact ⟨⟨⟨rfl, rfl, rfl, rfl, rfl⟩, owners, conflicts⟩, h.refused_reclaim same⟩
  | none =>
    have silent : ws.declarations file = [] :=
      declarations_of_silent (by rw [cached, Option.bind_some, found])
    rw [updateTags_of_silent found]
    refine ⟨.refl ws, ?_⟩
    rw [h.refused, silent]
    rfl

/-! ### Repeated edits -/

theorem withDocument_of_open {ws : Workspace} {uri text : Text}
    (opened : ws.documents.get? uri = some text) : ws.withDocument uri text = ws := by
  rw [withDocument, Table.set_of_get? opened]

theorem withTree_of_cached {ws : Workspace} {file : FileId} {entry : FileTree}
    (cached : ws.trees.get? file = some entry) : ws.withTree file entry = ws := by
  rw [withTree, Table.set_of_get? cached]

/-- An edit begins with storing the text, so that a text stored before makes no difference. -/
theorem edit_withDocument (g : Grammars) (ws : Workspace) (uri text : Text) :
    (ws.withDocument uri text).edit g uri text = ws.edit g uri text := by
  have stored : (ws.withDocument uri text).documents.set uri text = ws.documents.set uri text :=
    Table.set_of_get? (Table.get?_set_self _ _ _)
  simp only [edit, stored]
  rfl

/-- What was read stays open and cached. -/
theorem reread_files (ws : Workspace) (uri : Text) (file : FileId) (read : FileTree) :
    SameFiles ((ws.withDocument uri read.text).withTree file read) (ws.reread uri file read).1 :=
  updateTags_sameFiles _ file read

theorem reread_open (ws : Workspace) (uri : Text) (file : FileId) (read : FileTree) :
    (ws.reread uri file read).1.documents.get? uri = some read.text := by
  rw [(reread_files ws uri file read).documents]
  exact Table.get?_set_self _ _ _

theorem reread_cached (ws : Workspace) (uri : Text) (file : FileId) (read : FileTree) :
    (ws.reread uri file read).1.trees.get? file = some read := by
  rw [(reread_files ws uri file read).trees]
  exact withTree_get? _ file read

/-- The owners and conflicts once a tag source is read. -/
theorem reread_updated {ws : Workspace} (h : Settled ws.declarations ws.tags ws.conflicts)
    (uri : Text) (file : FileId) {read : FileTree} {tags : List Tag}
    (found : ws.tagsIn? read = some tags) :
    Updated ((ws.withDocument uri read.text).withTree file read) file
      (ws.reread uri file read) := by
  have others : ∀ other, other ≠ file →
      ((ws.withDocument uri read.text).withTree file read).declarations other =
        ws.declarations other :=
    fun other hne => declarations_congr rfl (withTree_get?_of_ne _ hne read)
  have before : Consistent ws.declarations
      ((ws.withDocument uri read.text).withTree file read).tags
      ((ws.withDocument uri read.text).withTree file read).conflicts := h.toConsistent
  exact updateTags_updated before others (withTree_get? _ file read) found

/-- The conflicts that are reported when a file is read are those recorded for it afterwards. -/
theorem reread_returned {ws : Workspace} (h : Settled ws.declarations ws.tags ws.conflicts)
    (uri : Text) (file : FileId) (read : FileTree)
    (after : Settled (ws.reread uri file read).1.declarations (ws.reread uri file read).1.tags
      (ws.reread uri file read).1.conflicts) :
    (ws.reread uri file read).2 = ((ws.reread uri file read).1.conflicts.get? file).getD [] := by
  cases found : ws.tagsIn? read with
  | some tags => exact (reread_updated h uri file found).returned
  | none =>
    have unread : ws.reread uri file read =
        ((ws.withDocument uri read.text).withTree file read, []) :=
      updateTags_of_silent found
    have silent : (ws.reread uri file read).1.declarations file = [] := by
      rw [unread]
      refine declarations_of_silent ?_
      rw [withTree_get?]
      exact found
    rw [after.refused, silent, unread]
    rfl

/-- A second edit after a file was read with the same text. -/
theorem edit_of_current (g : Grammars) {ws : Workspace} {uri text : Text} {file : FileId}
    {lang : BackendLang} {domain : Domain} (h : Settled ws.declarations ws.tags ws.conflicts)
    (opened : ws.documents.get? uri = some text) (known : ws.index.idOf? uri = some file)
    (cached : ws.trees.get? file = some (readAs g lang domain text))
    (hl : ws.trees.backend = some lang) :
    Unchanged ws (ws.edit g uri text).1 ∧
      (ws.edit g uri text).2 = .ok ((ws.conflicts.get? file).getD []) := by
  obtain ⟨log, edited⟩ := edit_of_cached g known cached hl text
  have again : ws.reread uri file (readAs g lang domain text) =
      ws.updateTags file (readAs g lang domain text) := by
    rw [reread, show (readAs g lang domain text).text = text from rfl,
      withDocument_of_open opened, withTree_of_cached cached]
  obtain ⟨unchanged, returned⟩ := updateTags_of_settled h cached
  rw [edited, show (readAs g lang domain text).domain = domain from rfl, again, returned]
  exact ⟨⟨⟨unchanged.index, unchanged.trees, unchanged.documents, unchanged.config,
    unchanged.roots⟩, unchanged.owners, unchanged.conflicts⟩, rfl⟩

/-- Once a file is read, the same edit finds everything as it is to be. -/
theorem edit_after_reread (g : Grammars) {ws : Workspace} {uri text : Text} {file : FileId}
    {lang : BackendLang} {domain : Domain} {log : Log}
    (h : Settled ws.declarations ws.tags ws.conflicts) (known : ws.index.idOf? uri = some file)
    (hl : ws.trees.backend = some lang)
    (after : Unmixed g { (ws.reread uri file (readAs g lang domain text)).1 with log }) :
    Unchanged { (ws.reread uri file (readAs g lang domain text)).1 with log }
      ({ (ws.reread uri file (readAs g lang domain text)).1 with log }.edit g uri text).1 ∧
    ({ (ws.reread uri file (readAs g lang domain text)).1 with log }.edit g uri text).2 =
      .ok (ws.reread uri file (readAs g lang domain text)).2 := by
  have files := reread_files ws uri file (readAs g lang domain text)
  have opened := reread_open ws uri file (readAs g lang domain text)
  have cached := reread_cached ws uri file (readAs g lang domain text)
  have same : (ws.reread uri file (readAs g lang domain text)).1.index.idOf? uri = some file := by
    rw [files.index]
    exact known
  have loaded : (ws.reread uri file (readAs g lang domain text)).1.trees.backend = some lang := by
    rw [files.trees]
    exact hl
  rw [reread_returned h uri file _ after.settled]
  exact edit_of_current g after.settled opened same cached loaded

/-! ### Repetition in a run -/

theorem edit_twice {g : Grammars} {ws : Workspace} (unmixed : Unmixed g ws)
    (uri text : Text) :
    Unchanged (ws.edit g uri text).1 ((ws.edit g uri text).1.edit g uri text).1 ∧
      ((ws.edit g uri text).1.edit g uri text).2 = (ws.edit g uri text).2 := by
  have outcome := edit_outcome g unmixed.inStep.tracked uri text
  have after : Unmixed g (ws.edit g uri text).1 :=
    unmixed.perform (.edit uri text) trivial
  generalize ws.edit g uri text = first at outcome after ⊢
  cases outcome with
  | idle unloaded =>
    rw [edit_withDocument, edit_of_idle g unloaded]
    exact ⟨.refl _, rfl⟩
  | failed ready unknown why =>
    rw [edit_withDocument, edit_of_unknown g ready unknown, why]
    exact ⟨.refl _, rfl⟩
  | outside ready unknown why =>
    rw [edit_withDocument, edit_of_unknown g ready unknown, why]
    exact ⟨.refl _, rfl⟩
  | unread log ready known missing =>
    obtain ⟨later, again⟩ :=
      @edit_of_unread g { ws.withDocument uri text with log } uri _ ready known missing text
    have opened := Table.get?_set_self ws.documents uri text
    rw [again, @withDocument_of_open { ws.withDocument uri text with log } uri text opened]
    exact ⟨⟨⟨rfl, rfl, rfl, rfl, rfl⟩, fun _ => rfl, rfl⟩, rfl⟩
  | reread log known cached hl => exact edit_after_reread g unmixed.settled known hl after
  | @enrolled file index domain lang log new fits hl =>
    exact @edit_after_reread g { ws with index, log } uri text file lang domain _ unmixed.settled
      (DocumentIndex.idOf?_register new) hl after

theorem save_eq_updateTags {ws : Workspace} {uri : Text} {refused : List Tag}
    (h : (ws.save uri).2 = some refused) : ∃ file entry, ws.index.idOf? uri = some file ∧
      ws.trees.get? file = some entry ∧ ws.save uri =
        ((ws.updateTags file entry).1, some (ws.updateTags file entry).2) := by
  unfold save at h ⊢
  split at h
  · next file text known opened =>
    split at h
    · next entry cached =>
      split at h
      · next source =>
        refine ⟨file, entry, known, cached, ?_⟩
        simp only [source, if_true]
      · cases h
    · cases h
  · cases h

/-- An edit that is made twice reports the same conflicts both times and changes nothing the second
time, and a save that reports conflicts reports those recorded for its file and changes nothing. No
query has met a tree of another language. -/
theorem repetition_changes_nothing {g : Grammars} {ws : Workspace} (unmixed : Unmixed g ws)
    (uri text : Text) :
    (Unchanged (ws.edit g uri text).1 ((ws.edit g uri text).1.edit g uri text).1 ∧
      ((ws.edit g uri text).1.edit g uri text).2 = (ws.edit g uri text).2) ∧
    ∀ refused, (ws.save uri).2 = some refused →
      Unchanged ws (ws.save uri).1 ∧ ∃ file, ws.index.idOf? uri = some file ∧
        refused = (ws.conflicts.get? file).getD [] := by
  refine ⟨edit_twice unmixed uri text, ?_⟩
  intro refused reported
  obtain ⟨file, entry, known, cached, saved⟩ := save_eq_updateTags reported
  obtain ⟨unchanged, returned⟩ := updateTags_of_settled unmixed.settled cached
  rw [saved] at reported ⊢
  refine ⟨unchanged, file, known, ?_⟩
  rw [← returned]
  exact (Option.some.inj reported).symm

end Workspace

open Workspace

def Sample.opened : Workspace :=
  run grammars (new log) [.load, .scan disk (config .python) "/ws",
    .edit "file:///ws/app/y.py" "# hx@a"]

/-- The second file keeps its conflict, however often it is saved or edited to the same text. -/
theorem repetition_of_conflict :
    (Sample.opened.save "file:///ws/app/y.py").2 = some [⟨"hx@a", 2, 6, 1, 0⟩] ∧
    (Sample.opened.save "file:///ws/app/y.py").1.conflicts = Sample.opened.conflicts ∧
    ((Sample.opened.edit Sample.grammars "file:///ws/app/y.py" "# hx@a").1.edit Sample.grammars
      "file:///ws/app/y.py" "# hx@a").2 =
        (Sample.opened.edit Sample.grammars "file:///ws/app/y.py" "# hx@a").2 := by
  have unmixed : Unmixed Sample.grammars Sample.opened :=
    Sample.scanned_unmixed.perform (.edit "file:///ws/app/y.py" "# hx@a") trivial
  have saved : (Sample.opened.save "file:///ws/app/y.py").2 = some [⟨"hx@a", 2, 6, 1, 0⟩] := by
    decide
  obtain ⟨edited, recorded⟩ :=
    repetition_changes_nothing unmixed "file:///ws/app/y.py" "# hx@a"
  exact ⟨saved, (recorded _ saved).1.conflicts, edited.2⟩

end Hypertag
