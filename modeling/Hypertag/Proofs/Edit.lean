import Hypertag.Proofs.Run
import Mathlib.Data.List.Basic

/-!
# What an edit does to owners and conflicts

An edit of a tag source is described name by name. Names of other files stay where they are. Names
that the edited file gives up go to the first file in the conflict table that was refused them, and
only the conflicts that this resolves disappear.
-/

namespace Hypertag.Workspace

theorem readAs_declared (g : Grammars) (lang : BackendLang) {domain : Domain}
    (source : domain.declaresTags) (text : Text) :
    (readAs g lang domain text).declared lang =
      Tag.extract text (g.comments (domain.grammar lang) text).spans := by
  cases domain with
  | template => cases source
  | javascript => rfl
  | backend => simp [readAs, Domain.grammar, Grammars.parse, CachedTree.declared, Grammars.captures]

def withDocument (ws : Workspace) (uri text : Text) : Workspace :=
  { ws with documents := ws.documents.set uri text }

theorem edit_of_known (g : Grammars) {ws : Workspace} {uri : Text} {file : FileId}
    (ready : ws.ready = true) (known : ws.index.idOf? uri = some file) (text : Text) :
    ws.edit g uri text = (((ws.withDocument uri text).refresh g file text).1,
      .ok ((ws.withDocument uri text).refresh g file text).2) := by
  simp only [edit]
  split
  · split
    · next id found =>
      obtain rfl : id = file := Option.some.inj (found.symm.trans known)
      rfl
    · next unknown => cases unknown.symm.trans known
  · next idle => exact absurd ready idle

theorem ready_iff {ws : Workspace} : ws.ready = true ↔ ∃ lang, ws.trees.backend = some lang := by
  rw [ready, Option.isSome_iff_exists]

/-- A text is read when grammars are loaded and the domain is settled. -/
theorem indexFile_of_read (g : Grammars) {ws : Workspace} {file : FileId} {domain : Option Domain}
    {lang : BackendLang} {d : Domain} (hl : ws.trees.backend = some lang)
    (hd : ws.trees.domainFor? file domain = some d) (text : Text) :
    ws.indexFile g file domain text =
      (ws.withTree file (readAs g lang d text)).updateTags file (readAs g lang d text) := by
  simp [indexFile, TreeCache.upsert, hl, hd, withTree, readAs]

/-- The state and the conflicts once a known file has a new tree, the log apart. -/
def reread (ws : Workspace) (uri : Text) (file : FileId) (read : FileTree) :
    Workspace × List Tag :=
  ((ws.withDocument uri read.text).withTree file read).updateTags file read

/-- An edit of a known file stores the text, reads it in the file's domain and updates its tags. -/
theorem edit_of_cached (g : Grammars) {ws : Workspace} {uri : Text} {file : FileId}
    {entry : FileTree} {lang : BackendLang} (known : ws.index.idOf? uri = some file)
    (cached : ws.trees.get? file = some entry) (hl : ws.trees.backend = some lang)
    (text : Text) :
    ∃ log, ws.edit g uri text =
      ({ (ws.reread uri file (readAs g lang entry.domain text)).1 with log },
        .ok (ws.reread uri file (readAs g lang entry.domain text)).2) := by
  have indexed : (ws.withDocument uri text).indexFile g file none text =
      ws.reread uri file (readAs g lang entry.domain text) :=
    @indexFile_of_read g (ws.withDocument uri text) file none lang entry.domain hl
      (domainFor?_of_cached cached none) text
  refine ⟨((ws.withDocument uri text).refresh g file text).1.log, ?_⟩
  rw [edit_of_known g (ready_iff.mpr ⟨lang, hl⟩) known text, refresh, indexed]
  rfl

/-- The first file in the order of the conflict table, the given one apart, that was refused a
name. -/
def heir? (ws : Workspace) (file : FileId) (n : Text) : Option FileId :=
  ((ws.conflicts.entries.filter (·.1 ≠ file)).find? (·.2.any (·.name = n))).map Prod.fst

def FreeFor (ws : Workspace) (file : FileId) (n : Text) : Prop :=
  ∀ t, ws.tags.lookup n = some t → t.file = file

theorem FreeFor.filter {ws : Workspace} {file : FileId} {n : Text} (h : ws.FreeFor file n) :
    (ws.tags.lookup n).filter (·.file ≠ file) = none := by
  rw [Option.filter_eq_none_iff]
  intro t ht
  simpa using h t ht

theorem findSome?_eq_find?_bind {α β : Type} {p : α → Bool} {f : α → Option β} {l : List α}
    (h : ∀ a ∈ l, (f a).isSome = p a) : l.findSome? f = (l.find? p).bind f := by
  induction l with
  | nil => rfl
  | cons a l ih =>
    have head := h a List.mem_cons_self
    have tail := ih fun b hb => h b (List.mem_cons_of_mem a hb)
    cases hp : p a with
    | true =>
      rw [hp] at head
      obtain ⟨b, hb⟩ := Option.isSome_iff_exists.mp head
      rw [List.findSome?_cons, hb, List.find?_cons_of_pos hp]
      exact hb.symm
    | false =>
      rw [hp] at head
      have none := Option.isSome_eq_false_iff.mp head
      rw [List.findSome?_cons, Option.isNone_iff_eq_none.mp none,
        List.find?_cons_of_neg (by simp [hp]), tail]

/-- A file that does not own a name lists all its declarations of it as conflicts. -/
theorem Consistent.first?_row {declared : FileId → List Tag} {tags : Registry}
    {conflicts : Table FileId (List Tag)} (h : Consistent declared tags conflicts)
    {file : FileId} {n : Text} (foreign : tags.owns file n = false) :
    Tag.first? n ((conflicts.get? file).getD []) = Tag.first? n (declared file) := by
  rw [h.refused file]
  exact Tag.first?_withoutFirsts_of_free foreign (declared file)

theorem FreeFor.owns_eq_false {ws : Workspace} {file other : FileId} {n : Text}
    (h : ws.FreeFor file n) (hne : other ≠ file) : ws.tags.owns other n = false := by
  rw [Bool.eq_false_iff]
  intro owned
  obtain ⟨t, ht, hf⟩ := Registry.owns_iff.mp owned
  exact hne (hf.symm.trans (h t ht))

/-- Among the waiting files, the first that declares a name is the heir. -/
theorem findSome?_first?_eq_heir {ws : Workspace} {file : FileId} {n : Text}
    (h : Consistent ws.declarations ws.tags ws.conflicts) (free : ws.FreeFor file n) :
    ((ws.conflicts.entries.filter (·.1 ≠ file)).findSome? fun row =>
        Tag.first? n (ws.declarations row.1)) =
      (ws.heir? file n).bind fun other => Tag.first? n (ws.declarations other) := by
  have waits : ∀ row ∈ ws.conflicts.entries.filter (·.1 ≠ file),
      (Tag.first? n (ws.declarations row.1)).isSome = row.2.any (·.name = n) := by
    intro row hrow
    obtain ⟨hm, hne⟩ := List.mem_filter.mp hrow
    have foreign := free.owns_eq_false (by simpa using hne : row.1 ≠ file)
    have first := h.first?_row foreign
    rw [(Table.get?_eq_some_iff _).mpr hm, Option.getD_some] at first
    rw [← first, Tag.first?, List.isSome_find?]
  rw [findSome?_eq_find?_bind waits, heir?, Option.bind_map]
  rfl

/-- How `after` comes from `ws` when a file now declares `tags` and `returned` is reported for it.
The rules for a name apply in their order: a foreign owner stays, else the file takes what it
declares, else the heir takes over, else the name is gone. -/
structure EditEffect (ws after : Workspace) (file : FileId) (tags returned : List Tag) :
    Prop where
  kept : ∀ n t, ws.tags.lookup n = some t → t.file ≠ file → after.tags.lookup n = some t
  taken : ∀ n t, ws.FreeFor file n → Tag.first? n tags = some t →
    after.tags.lookup n = some (t.assign file)
  inherited : ∀ n other, ws.FreeFor file n → Tag.first? n tags = none →
    ws.heir? file n = some other → ∃ t, after.tags.lookup n = some t ∧ t.file = other ∧
      Tag.first? n (ws.declarations other) = some t
  dropped : ∀ n, ws.FreeFor file n → Tag.first? n tags = none → ws.heir? file n = none →
    after.tags.lookup n = none
  resolved : ∀ other, other ≠ file → (after.conflicts.get? other).getD [] =
    Tag.withoutFirsts (fun n => after.tags.owns other n && !ws.tags.owns other n)
      ((ws.conflicts.get? other).getD [])
  /-- The first conflict of a name that a file did not own is its first declaration of it. -/
  first_conflict : ∀ other n, ws.tags.owns other n = false →
    Tag.first? n ((ws.conflicts.get? other).getD []) = Tag.first? n (ws.declarations other)
  reported : returned = (after.conflicts.get? file).getD []

theorem first?_assign (file : FileId) (n : Text) (tags : List Tag) :
    Tag.first? n (tags.map (Tag.assign file)) = (Tag.first? n tags).map (Tag.assign file) := by
  simp only [Tag.first?, List.find?_map]
  rfl

/-- The heir of a name declares it. -/
theorem first?_of_heir {ws : Workspace} {file other : FileId} {n : Text}
    (h : Consistent ws.declarations ws.tags ws.conflicts) (heir : ws.heir? file n = some other) :
    ∃ t, Tag.first? n (ws.declarations other) = some t ∧ t.file = other := by
  obtain ⟨row, found, rfl⟩ := Option.map_eq_some_iff.mp heir
  have waits : row.2.any (·.name = n) = true := by simpa using List.find?_some found
  obtain ⟨r, hr, hn⟩ := List.any_eq_true.mp waits
  have listed := (List.mem_filter.mp (List.mem_of_find?_eq_some found)).1
  have hrow := h.refused row.1
  rw [(Table.get?_eq_some_iff _).mpr listed, Option.getD_some] at hrow
  have declared : r ∈ ws.declarations row.1 := Tag.mem_of_mem_withoutFirsts (hrow ▸ hr)
  obtain ⟨t, ht⟩ := Tag.exists_first? declared
  have hn : r.name = n := by simpa using hn
  rw [hn] at ht
  exact ⟨t, ht, (source_of_declared (Tag.mem_of_first? ht).1).1⟩

/-- The effect of an update, from what the update does and what the tables were before. -/
theorem Updated.effect {ws stored : Workspace} {file : FileId} {tags : List Tag}
    {after : Workspace × List Tag} (u : Updated stored file after)
    (h : Consistent ws.declarations ws.tags ws.conflicts)
    (same : stored.tags = ws.tags ∧ stored.conflicts = ws.conflicts)
    (others : ∀ other, other ≠ file → stored.declarations other = ws.declarations other)
    (new : stored.declarations file = tags.map (Tag.assign file)) :
    EditEffect ws after.1 file tags after.2 := by
  have owners : ∀ n, after.1.tags.lookup n =
      (((ws.tags.lookup n).filter (·.file ≠ file)).or
        ((Tag.first? n tags).map (Tag.assign file))).or
        ((ws.conflicts.entries.filter (·.1 ≠ file)).findSome? fun row =>
          Tag.first? n (ws.declarations row.1)) := by
    intro n
    rw [u.owners, same.1, same.2, new, first?_assign]
    congr 1
    rw [← List.head?_filterMap, ← List.head?_filterMap]
    congr 1
    apply List.filterMap_congr
    intro row hrow
    rw [others row.1 (by simpa using (List.mem_filter.mp hrow).2)]
  have kept : ∀ n t, ws.tags.lookup n = some t → t.file ≠ file →
      after.1.tags.lookup n = some t := by
    intro n t ht hf
    have foreign : decide (t.file ≠ file) = true := by simpa using hf
    rw [owners, ht, Option.filter_some, if_pos foreign]
    rfl
  refine ⟨kept, ?_, ?_, ?_, ?_, fun other n => h.first?_row, u.returned⟩
  · intro n t free first
    rw [owners, free.filter, first]
    rfl
  · intro n other free first heir
    obtain ⟨t, ht, hf⟩ := first?_of_heir h heir
    refine ⟨t, ?_, hf, ht⟩
    rw [owners, free.filter, first, findSome?_first?_eq_heir h free, heir]
    exact ht
  · intro n free first heir
    rw [owners, free.filter, first, findSome?_first?_eq_heir h free, heir]
    rfl
  · intro other hne
    rw [u.consistent.refused other, h.refused other, others other hne,
      Tag.withoutFirsts_withoutFirsts (fun n hn => by simp [hn])]
    apply Tag.withoutFirsts_congr
    intro t _
    cases owned : ws.tags.owns other t.name with
    | false => simp
    | true =>
      obtain ⟨o, ho, hf⟩ := Registry.owns_iff.mp owned
      exact Registry.owns_iff.mpr ⟨o, kept t.name o ho (hf ▸ hne), hf⟩

/-- The exact effect of an edit of a tracked tag source, in every state of a run in which no query
meets a tree of another language. -/
theorem edit_effect {g : Grammars} {ws : Workspace} (unmixed : Unmixed g ws) {uri : Text}
    {file : FileId} {entry : FileTree} (known : ws.index.idOf? uri = some file)
    (cached : ws.trees.get? file = some entry) (source : entry.domain.declaresTags)
    (text : Text) :
    ∃ lang after returned, ws.trees.backend = some lang ∧
      ws.edit g uri text = (after, .ok returned) ∧
      EditEffect ws after file
        (Tag.extract text (g.comments (entry.domain.grammar lang) text).spans) returned := by
  have settled := unmixed.settled
  obtain ⟨lang, hl⟩ := unmixed.inStep.tracked.loaded file entry cached
  obtain ⟨log, edited⟩ := edit_of_cached g known cached hl text
  refine ⟨lang, _, _, hl, edited, ?_⟩
  have others : ∀ other, other ≠ file →
      ((ws.withDocument uri text).withTree file (readAs g lang entry.domain text)).declarations
        other = ws.declarations other :=
    fun other hne => declarations_congr rfl (withTree_get?_of_ne _ hne _)
  have stored := withTree_get? (ws.withDocument uri text) file (readAs g lang entry.domain text)
  have before : Consistent ws.declarations
      ((ws.withDocument uri text).withTree file (readAs g lang entry.domain text)).tags
      ((ws.withDocument uri text).withTree file (readAs g lang entry.domain text)).conflicts :=
    settled.toConsistent
  have u := updateTags_updated before others stored (tagsIn?_of_source source hl)
  have effect := u.effect settled.toConsistent ⟨rfl, rfl⟩ others
    (declarations_of_source stored source hl)
  rw [readAs_declared g lang source] at effect
  exact ⟨effect.kept, effect.taken, effect.inherited, effect.dropped, effect.resolved,
    effect.first_conflict, effect.reported⟩

/-- In the sample project the second file is the heir of the tag that the first one drops. -/
theorem edit_effect_handover :
    Sample.scanned.heir? 0 "hx@a" = some 1 ∧
    ∃ after returned, Sample.scanned.edit Sample.grammars "file:///ws/app/x.py" "# hx@b" =
        (after, .ok returned) ∧
      ∃ t, after.tags.lookup "hx@a" = some t ∧ t.file = 1 := by
  have known : Sample.scanned.index.idOf? "file:///ws/app/x.py" = some 0 := by decide
  have cached : Sample.scanned.trees.get? 0 =
    some (readAs Sample.grammars .python .backend "# hx@a") := rfl
  have heir : Sample.scanned.heir? 0 "hx@a" = some 1 := by decide
  have owner : Sample.scanned.tags.lookup "hx@a" = some ⟨"hx@a", 2, 6, 0, 0⟩ := by decide
  have free : Sample.scanned.FreeFor 0 "hx@a" := by
    intro t ht
    rw [owner] at ht
    rw [← Option.some.inj ht]
  obtain ⟨lang, after, returned, hl, edited, effect⟩ :=
    edit_effect Sample.scanned_unmixed known cached rfl "# hx@b"
  obtain rfl : BackendLang.python = lang := Option.some.inj hl
  obtain ⟨t, ht, hf, _⟩ := effect.inherited "hx@a" 1 free (by decide) heir
  exact ⟨heir, after, returned, edited, t, ht, hf⟩

end Hypertag.Workspace
