import Hypertag.Proofs.Registry
import Hypertag.Workspace.Ownership

/-!
# Who owns a tag after an update

The registry and the conflict table are measured against what the cached trees declare. Between
the claim of a file and the promotion of others the tables are consistent, but names may be without
an owner; the promotion hands them on in the order of the conflict table. The order of the
registry itself is left open.
-/

namespace Hypertag

namespace Table

variable {κ α : Type} [DecidableEq κ]

/-- Setting a key moves no other entry. -/
theorem set_others (t : Table κ α) (k : κ) (v : α) :
    (t.set k v).entries.filter (·.1 ≠ k) = t.entries.filter (·.1 ≠ k) := by
  unfold set
  split
  · simp only [List.filter_map]
    have keep : ∀ e ∈ t.entries.filter ((·.1 ≠ k) ∘ replaced k v), replaced k v e = id e := by
      intro e he
      have hk : (replaced k v e).1 ≠ k := by simpa using (List.mem_filter.mp he).2
      rw [replaced_fst] at hk
      simp [replaced, hk]
    rw [List.map_congr_left keep, List.map_id]
    congr 1
    funext e
    simp [replaced_fst]
  · simp

/-- Erasing a key moves no other entry. -/
theorem erase_others (t : Table κ α) (k : κ) :
    (t.erase k).entries.filter (·.1 ≠ k) = t.entries.filter (·.1 ≠ k) := by
  simp [erase]

end Table

namespace Workspace

theorem tagsIn?_of_source {ws : Workspace} {entry : FileTree} {lang : BackendLang}
    (source : entry.domain.declaresTags) (hl : ws.trees.backend = some lang) :
    ws.tagsIn? entry = some (entry.declared lang) := by
  simp [tagsIn?, source, hl]

theorem tagsIn?_of_template {ws : Workspace} {entry : FileTree}
    (template : ¬ entry.domain.declaresTags) : ws.tagsIn? entry = none := by
  simp [tagsIn?, template]

theorem tagsIn?_eq_some {ws : Workspace} {entry : FileTree} {tags : List Tag}
    (h : ws.tagsIn? entry = some tags) : entry.domain.declaresTags ∧
      ∃ lang, ws.trees.backend = some lang ∧ tags = entry.declared lang := by
  unfold tagsIn? at h
  split at h
  · next source =>
    obtain ⟨lang, hl, rfl⟩ := Option.map_eq_some_iff.mp h
    exact ⟨source, lang, hl, rfl⟩
  · cases h

/-- The tags that a file's cached tree declares under a query, as tags of that file. Templates
declare none. -/
def declaredUnder (ws : Workspace) (query : BackendLang) (file : FileId) : List Tag :=
  match ws.trees.get? file with
  | some entry =>
    if entry.domain.declaresTags then (entry.declared query).map (Tag.assign file) else []
  | none => []

theorem declaredUnder_of_source {ws : Workspace} {file : FileId} {entry : FileTree}
    (cached : ws.trees.get? file = some entry) (source : entry.domain.declaresTags)
    (query : BackendLang) :
    ws.declaredUnder query file = (entry.declared query).map (Tag.assign file) := by
  simp [declaredUnder, cached, source]

theorem declaredUnder_of_template {ws : Workspace} {file : FileId} {entry : FileTree}
    (cached : ws.trees.get? file = some entry) (template : ¬ entry.domain.declaresTags)
    (query : BackendLang) : ws.declaredUnder query file = [] := by
  simp [declaredUnder, cached, template]

theorem declaredUnder_of_unread {ws : Workspace} {file : FileId}
    (unread : ws.trees.get? file = none) (query : BackendLang) :
    ws.declaredUnder query file = [] := by
  simp [declaredUnder, unread]

theorem declaredUnder_congr {ws ws' : Workspace} {file : FileId}
    (same : ws'.trees.get? file = ws.trees.get? file) (query : BackendLang) :
    ws'.declaredUnder query file = ws.declaredUnder query file := by
  simp [declaredUnder, same]

/-- Only a tag source declares anything. -/
theorem source_of_declaredUnder {ws : Workspace} {query : BackendLang} {file : FileId} {t : Tag}
    (h : t ∈ ws.declaredUnder query file) : t.file = file ∧
      ∃ entry, ws.trees.get? file = some entry ∧ entry.domain.declaresTags := by
  cases cached : ws.trees.get? file with
  | none =>
    rw [declaredUnder_of_unread cached] at h
    cases h
  | some entry =>
    by_cases source : entry.domain.declaresTags
    · rw [declaredUnder_of_source cached source] at h
      obtain ⟨u, _, rfl⟩ := List.mem_map.mp h
      exact ⟨rfl, entry, rfl, source⟩
    · rw [declaredUnder_of_template cached source] at h
      cases h

def declarations (ws : Workspace) (file : FileId) : List Tag :=
  ws.trees.backend.elim [] (ws.declaredUnder · file)

theorem declarations_of_loaded {ws : Workspace} {lang : BackendLang}
    (hl : ws.trees.backend = some lang) (file : FileId) :
    ws.declarations file = ws.declaredUnder lang file := by
  rw [declarations, hl]
  rfl

theorem declarations_of_tags {ws : Workspace} {file : FileId} {entry : FileTree} {tags : List Tag}
    (cached : ws.trees.get? file = some entry) (found : ws.tagsIn? entry = some tags) :
    ws.declarations file = tags.map (Tag.assign file) := by
  obtain ⟨source, lang, hl, rfl⟩ := tagsIn?_eq_some found
  rw [declarations_of_loaded hl, declaredUnder_of_source cached source]

theorem declarations_of_source {ws : Workspace} {file : FileId} {entry : FileTree}
    {lang : BackendLang} (cached : ws.trees.get? file = some entry)
    (source : entry.domain.declaresTags) (hl : ws.trees.backend = some lang) :
    ws.declarations file = (entry.declared lang).map (Tag.assign file) :=
  declarations_of_tags cached (tagsIn?_of_source source hl)

theorem declarations_of_silent {ws : Workspace} {file : FileId}
    (silent : (ws.trees.get? file).bind ws.tagsIn? = none) : ws.declarations file = [] := by
  cases hl : ws.trees.backend with
  | none => simp [declarations, hl]
  | some lang =>
    rw [declarations_of_loaded hl]
    cases cached : ws.trees.get? file with
    | none => exact declaredUnder_of_unread cached lang
    | some entry =>
      refine declaredUnder_of_template cached ?_ lang
      intro source
      rw [cached, Option.bind_some, tagsIn?_of_source source hl] at silent
      cases silent

theorem declarations_of_template {ws : Workspace} {file : FileId} {entry : FileTree}
    (cached : ws.trees.get? file = some entry) (template : ¬ entry.domain.declaresTags) :
    ws.declarations file = [] :=
  declarations_of_silent (by rw [cached, Option.bind_some, tagsIn?_of_template template])

theorem declarations_of_unread {ws : Workspace} {file : FileId}
    (unread : ws.trees.get? file = none) : ws.declarations file = [] :=
  declarations_of_silent (by rw [unread, Option.bind_none])

theorem declarations_congr {ws ws' : Workspace} {file : FileId}
    (loaded : ws'.trees.backend = ws.trees.backend)
    (same : ws'.trees.get? file = ws.trees.get? file) :
    ws'.declarations file = ws.declarations file := by
  simp [declarations, loaded, declaredUnder_congr same]

/-- What is declared is declared in a tag source, under the query of the language in force. -/
theorem source_of_declared {ws : Workspace} {file : FileId} {t : Tag}
    (h : t ∈ ws.declarations file) : t.file = file ∧
      ∃ entry, ws.trees.get? file = some entry ∧ entry.domain.declaresTags := by
  cases hl : ws.trees.backend with
  | none =>
    simp [declarations, hl] at h
  | some lang =>
    rw [declarations_of_loaded hl] at h
    exact source_of_declaredUnder h

/-- Each owner is the first declaration of its name in its file, and the conflicts of a file are
its other declarations. A name may still lack an owner. -/
structure Consistent (declared : FileId → List Tag) (tags : Registry)
    (conflicts : Table FileId (List Tag)) : Prop where
  owner_first : ∀ n t, tags.lookup n = some t → Tag.first? n (declared t.file) = some t
  refused : ∀ file, (conflicts.get? file).getD [] =
    Tag.withoutFirsts (tags.owns file) (declared file)
  recorded : ∀ file, conflicts.get? file ≠ some []

/-- Consistent tables in which every declared name has an owner. -/
structure Settled (declared : FileId → List Tag) (tags : Registry)
    (conflicts : Table FileId (List Tag)) : Prop
    extends Consistent declared tags conflicts where
  owned : ∀ file, ∀ t ∈ declared file, ∃ owner, tags.lookup t.name = some owner

theorem Settled.congr {declared declared' : FileId → List Tag} {tags : Registry}
    {conflicts : Table FileId (List Tag)} (h : Settled declared tags conflicts)
    (same : ∀ file, declared' file = declared file) : Settled declared' tags conflicts := by
  have eq : declared' = declared := funext same
  exact eq ▸ h

theorem settled_empty : Settled (fun _ => []) .empty .empty where
  owner_first := by
    intro n t h
    cases h
  refused _ := rfl
  recorded := by
    intro file h
    cases h
  owned := by
    intro file t h
    cases h

/-- A declaration that is not an owner's is recorded as a conflict. -/
theorem Consistent.recorded_of_foreign {declared : FileId → List Tag} {tags : Registry}
    {conflicts : Table FileId (List Tag)} (h : Consistent declared tags conflicts)
    {file : FileId} {t : Tag} (ht : t ∈ declared file) (foreign : tags.owns file t.name = false) :
    ∃ row, conflicts.get? file = some row ∧ t ∈ row := by
  have hrow := h.refused file
  have left := Tag.mem_withoutFirsts_of_free ht foreign
  rw [← hrow] at left
  cases found : conflicts.get? file with
  | none =>
    rw [found] at left
    cases left
  | some row =>
    rw [found] at left
    exact ⟨row, rfl, left⟩

/-! ### The claim of one file -/

@[simp] theorem reconcileFile_tags (ws : Workspace) (file : FileId) (tags : List Tag) :
    (ws.reconcileFile file tags).1.tags = (ws.tags.reconcile file tags).1 := rfl

@[simp] theorem reconcileFile_trees (ws : Workspace) (file : FileId) (tags : List Tag) :
    (ws.reconcileFile file tags).1.trees = ws.trees := rfl

theorem reconcileFile_row (ws : Workspace) (file : FileId) (tags : List Tag) :
    (ws.reconcileFile file tags).1.conflicts.get? file =
      if (ws.tags.reconcile file tags).2.isEmpty then none
      else some (ws.tags.reconcile file tags).2 := by
  simp only [reconcileFile]
  split
  · exact Table.get?_erase_self _ _
  · exact Table.get?_set_self _ _ _

theorem reconcileFile_row_of_ne (ws : Workspace) {file other : FileId} (h : other ≠ file)
    (tags : List Tag) : (ws.reconcileFile file tags).1.conflicts.get? other =
      ws.conflicts.get? other := by
  simp only [reconcileFile]
  split
  · exact Table.get?_erase_of_ne _ h
  · exact Table.get?_set_of_ne _ _ h

theorem reconcileFile_row_getD (ws : Workspace) (file : FileId) (tags : List Tag) :
    ((ws.reconcileFile file tags).1.conflicts.get? file).getD [] =
      (ws.tags.reconcile file tags).2 := by
  rw [reconcileFile_row]
  split
  · next h => exact (List.isEmpty_iff.mp h).symm
  · rfl

/-- A claim keeps the tables consistent, also when the file declares something new. -/
theorem reconcileFile_consistent {declared declared' : FileId → List Tag} {ws : Workspace}
    {file : FileId} {tags : List Tag} (h : Consistent declared ws.tags ws.conflicts)
    (others : ∀ other, other ≠ file → declared' other = declared other)
    (new : declared' file = tags.map (Tag.assign file)) :
    Consistent declared' (ws.reconcileFile file tags).1.tags
      (ws.reconcileFile file tags).1.conflicts where
  owner_first := by
    intro n t ht
    rw [reconcileFile_tags, Registry.lookup_reconcile, Option.or_eq_some_iff] at ht
    rcases ht with old | ⟨_, first⟩
    · obtain ⟨hold, hf⟩ := Option.filter_eq_some_iff.mp old
      rw [others t.file (by simpa using hf)]
      exact h.owner_first n t hold
    · obtain ⟨u, _, rfl⟩ := List.mem_map.mp (Tag.mem_of_first? first).1
      rw [Tag.assign_file, new]
      exact first
  refused := by
    intro other
    by_cases ho : other = file
    · subst ho
      rw [reconcileFile_row_getD, new, reconcileFile_tags]
      exact Registry.reconcile_refused_of_owns ws.tags other tags
    · rw [reconcileFile_row_of_ne ws ho, others other ho, h.refused other]
      exact Tag.withoutFirsts_congr fun t _ =>
        (Registry.owns_reconcile_of_ne ho ws.tags tags t.name).symm
  recorded := by
    intro other
    by_cases ho : other = file
    · subst ho
      rw [reconcileFile_row]
      split
      · simp
      · next nonempty =>
        intro he
        exact nonempty (by rw [Option.some.inj he]; rfl)
    · rw [reconcileFile_row_of_ne ws ho]
      exact h.recorded other

/-! ### What an update leaves alone -/

/-- Two workspaces that differ at most in who owns which tag and in the log. -/
structure SameFiles (ws ws' : Workspace) : Prop where
  index : ws'.index = ws.index
  trees : ws'.trees = ws.trees
  documents : ws'.documents = ws.documents
  config : ws'.config = ws.config
  roots : ws'.roots = ws.roots

theorem SameFiles.refl (ws : Workspace) : SameFiles ws ws := ⟨rfl, rfl, rfl, rfl, rfl⟩

theorem SameFiles.trans {a b c : Workspace} (h : SameFiles a b) (h' : SameFiles b c) :
    SameFiles a c where
  index := h'.index.trans h.index
  trees := h'.trees.trans h.trees
  documents := h'.documents.trans h.documents
  config := h'.config.trans h.config
  roots := h'.roots.trans h.roots

theorem SameFiles.declarations {ws ws' : Workspace} (h : SameFiles ws ws') (file : FileId) :
    ws'.declarations file = ws.declarations file :=
  declarations_congr (by rw [h.trees]) (by rw [h.trees])

/-! ### Promotion -/

/-- A file is passed over, or it claims its declarations once more. It is passed over when it is
the updated one, when it waits for nothing, or when it declares nothing. -/
theorem promoteFile_cases (updated : FileId) (ws : Workspace) (row : FileId × List Tag) :
    (promoteFile updated ws row = ws ∧ (row.1 = updated ∨
      (∀ t ∈ row.2, ∃ owner, ws.tags.lookup t.name = some owner) ∨
      ws.declarations row.1 = [])) ∨
    (row.1 ≠ updated ∧ ∃ entry tags log, ws.trees.get? row.1 = some entry ∧
      ws.tagsIn? entry = some tags ∧
      promoteFile updated ws row = { (ws.reconcileFile row.1 tags).1 with log }) := by
  obtain ⟨file, refused⟩ := row
  simp only [promoteFile]
  split
  · next skip =>
    rcases skip with same | owned
    · exact Or.inl ⟨rfl, Or.inl same⟩
    · refine Or.inl ⟨rfl, Or.inr (Or.inl ?_)⟩
      intro t ht
      exact Option.isSome_iff_exists.mp (List.all_eq_true.mp owned t ht)
  · next go =>
    split
    · next silent => exact Or.inl ⟨rfl, Or.inr (Or.inr (declarations_of_silent silent))⟩
    · next tags found =>
      obtain ⟨entry, cached, found⟩ := Option.bind_eq_some_iff.mp found
      exact Or.inr ⟨fun same => go (Or.inl same), entry, tags, _, cached, found, rfl⟩

theorem promoteFile_sameFiles (updated : FileId) (ws : Workspace) (row : FileId × List Tag) :
    SameFiles ws (promoteFile updated ws row) := by
  rcases promoteFile_cases updated ws row with ⟨same, _⟩ | ⟨_, entry, tags, log, _, _, claimed⟩
  · rw [same]
    exact .refl ws
  · rw [claimed]
    exact ⟨rfl, rfl, rfl, rfl, rfl⟩

theorem promoteFile_row_of_ne {updated other : FileId} (ws : Workspace)
    {row : FileId × List Tag} (h : other = updated ∨ other ≠ row.1) :
    (promoteFile updated ws row).conflicts.get? other = ws.conflicts.get? other := by
  rcases promoteFile_cases updated ws row with ⟨same, _⟩ | ⟨hu, entry, tags, log, _, _, claimed⟩
  · rw [same]
  · rw [claimed]
    apply reconcileFile_row_of_ne
    rcases h with rfl | h
    · exact hu.symm
    · exact h

theorem promoteFile_consistent (updated : FileId) {ws : Workspace} (row : FileId × List Tag)
    (h : Consistent ws.declarations ws.tags ws.conflicts) :
    Consistent ws.declarations (promoteFile updated ws row).tags
      (promoteFile updated ws row).conflicts := by
  rcases promoteFile_cases updated ws row with
    ⟨same, _⟩ | ⟨_, entry, tags, log, cached, found, claimed⟩
  · rw [same]
    exact h
  · rw [claimed]
    exact reconcileFile_consistent h (fun _ _ => rfl) (declarations_of_tags cached found)

def Listed (updated : FileId) (ws : Workspace) (row : FileId × List Tag) : Prop :=
  ∀ t ∈ ws.declarations row.1, (∃ owner, ws.tags.lookup t.name = some owner) ∨
    (row.1 ≠ updated ∧ ∃ r ∈ row.2, r.name = t.name)

/-- A promoted file takes the free names among its declarations and no others. The equation also
holds of a file that is passed over, because all its names have owners then. -/
theorem promoteFile_lookup {updated : FileId} {ws : Workspace} {row : FileId × List Tag}
    (h : Consistent ws.declarations ws.tags ws.conflicts) (listed : Listed updated ws row)
    (n : Text) : (promoteFile updated ws row).tags.lookup n =
      (ws.tags.lookup n).or (Tag.first? n (ws.declarations row.1)) := by
  rcases promoteFile_cases updated ws row with
    ⟨same, why⟩ | ⟨_, entry, tags, log, cached, found, claimed⟩
  · rw [same]
    cases first : Tag.first? n (ws.declarations row.1) with
    | none => simp
    | some t =>
      obtain ⟨ht, rfl⟩ := Tag.mem_of_first? first
      have owned : ∃ owner, ws.tags.lookup t.name = some owner := by
        rcases listed t ht with owned | ⟨hu, r, hr, hn⟩
        · exact owned
        · rcases why with same | waiting | silent
          · exact absurd same hu
          · exact hn ▸ waiting r hr
          · rw [silent] at ht
            cases ht
      obtain ⟨owner, ho⟩ := owned
      simp [ho]
  · have new := declarations_of_tags cached found
    rw [claimed, reconcileFile_tags, Registry.lookup_reconcile, ← new]
    cases owner : ws.tags.lookup n with
    | none => rfl
    | some o =>
      by_cases own : o.file = row.1
      · have first := h.owner_first n o owner
        rw [own] at first
        have mine : ¬ decide (o.file ≠ row.1) = true := by simp [own]
        rw [Option.filter_some, if_neg mine, first]
        rfl
      · simp [own]

/-- A row stays listed while other files are promoted. -/
theorem Listed.promoteFile {updated : FileId} {ws : Workspace} {row other : FileId × List Tag}
    (h : Consistent ws.declarations ws.tags ws.conflicts) (listed : Listed updated ws row)
    (ho : Listed updated ws other) : Listed updated (promoteFile updated ws row) other := by
  intro t ht
  rw [(promoteFile_sameFiles updated ws row).declarations] at ht
  rcases ho t ht with ⟨owner, hown⟩ | waits
  · exact Or.inl ⟨owner, by rw [promoteFile_lookup h listed, hown]; rfl⟩
  · exact Or.inr waits

theorem foldl_promoteFile_sameFiles (updated : FileId) (rows : List (FileId × List Tag))
    (ws : Workspace) : SameFiles ws (rows.foldl (promoteFile updated) ws) := by
  induction rows generalizing ws with
  | nil => exact .refl ws
  | cons row rows ih => exact (promoteFile_sameFiles updated ws row).trans (ih _)

theorem foldl_promoteFile_row (updated : FileId) (rows : List (FileId × List Tag))
    (ws : Workspace) : (rows.foldl (promoteFile updated) ws).conflicts.get? updated =
      ws.conflicts.get? updated := by
  induction rows generalizing ws with
  | nil => rfl
  | cons row rows ih => exact (ih _).trans (promoteFile_row_of_ne ws (Or.inl rfl))

/-- One pass over the rows, in their order. -/
theorem foldl_promoteFile {updated : FileId} (rows : List (FileId × List Tag)) (ws : Workspace)
    (h : Consistent ws.declarations ws.tags ws.conflicts)
    (listed : ∀ row ∈ rows, Listed updated ws row) :
    Consistent ws.declarations (rows.foldl (promoteFile updated) ws).tags
      (rows.foldl (promoteFile updated) ws).conflicts ∧
    ∀ n, (rows.foldl (promoteFile updated) ws).tags.lookup n =
      (ws.tags.lookup n).or (rows.findSome? fun row => Tag.first? n (ws.declarations row.1)) := by
  induction rows generalizing ws with
  | nil => exact ⟨h, by simp⟩
  | cons row rows ih =>
    have same := promoteFile_sameFiles updated ws row
    have declared : (promoteFile updated ws row).declarations = ws.declarations :=
      funext same.declarations
    have first := listed row List.mem_cons_self
    have next := promoteFile_consistent updated row h
    rw [← declared] at next
    obtain ⟨consistent, owners⟩ := ih (promoteFile updated ws row) next
      fun other ho => Listed.promoteFile h first (listed other (List.mem_cons_of_mem row ho))
    rw [declared] at consistent owners
    refine ⟨consistent, ?_⟩
    intro n
    rw [List.foldl_cons, owners, promoteFile_lookup h first, Option.or_assoc, List.findSome?_cons]
    cases Tag.first? n (ws.declarations row.1) with
    | none => rfl
    | some t => rfl

theorem reconcileFile_others (ws : Workspace) (file : FileId) (tags : List Tag) :
    (ws.reconcileFile file tags).1.conflicts.entries.filter (·.1 ≠ file) =
      ws.conflicts.entries.filter (·.1 ≠ file) := by
  simp only [reconcileFile]
  split
  · exact Table.erase_others _ _
  · exact Table.set_others _ _ _

/-- After the claim of a file whose declarations may have changed, every row lists what its file
waits for. -/
theorem listed_of_claim {ws : Workspace} {file : FileId} {tags : List Tag}
    (new : ws.declarations file = tags.map (Tag.assign file))
    (h : Consistent ws.declarations (ws.reconcileFile file tags).1.tags
      (ws.reconcileFile file tags).1.conflicts) :
    ∀ row ∈ (ws.reconcileFile file tags).1.conflicts.entries,
      Listed file (ws.reconcileFile file tags).1 row := by
  intro row hrow t ht
  have ht : t ∈ ws.declarations row.1 := ht
  by_cases own : row.1 = file
  · rw [own, new] at ht
    obtain ⟨first, hfirst⟩ := Tag.exists_first? ht
    refine Or.inl (Option.isSome_iff_exists.mp ?_)
    rw [reconcileFile_tags, Registry.lookup_reconcile, hfirst]
    simp
  · cases owned : (ws.reconcileFile file tags).1.tags.owns row.1 t.name with
    | true =>
      obtain ⟨owner, ho, _⟩ := Registry.owns_iff.mp owned
      exact Or.inl ⟨owner, ho⟩
    | false =>
      obtain ⟨refused, found, hm⟩ := h.recorded_of_foreign ht owned
      have same := ((Table.get?_eq_some_iff _).mpr hrow).symm.trans found
      rw [Option.some.inj same]
      exact Or.inr ⟨own, t, hm, rfl⟩

theorem updateTags_of_silent {ws : Workspace} {file : FileId} {entry : FileTree}
    (silent : ws.tagsIn? entry = none) : ws.updateTags file entry = (ws, []) := by
  simp [updateTags, silent]

theorem updateTags_of_template {ws : Workspace} {file : FileId} {entry : FileTree}
    (template : ¬ entry.domain.declaresTags) : ws.updateTags file entry = (ws, []) :=
  updateTags_of_silent (tagsIn?_of_template template)

/-- An update is a claim and a promotion. -/
theorem updateTags_of_tags {ws : Workspace} {file : FileId} {entry : FileTree} {tags : List Tag}
    (found : ws.tagsIn? entry = some tags) : ∃ log, ws.updateTags file entry =
      ({ (ws.reconcileFile file tags).1.promote file with log },
        (ws.reconcileFile file tags).2) := by
  simp only [updateTags, found]
  exact ⟨_, rfl⟩

theorem updateTags_sameFiles (ws : Workspace) (file : FileId) (entry : FileTree) :
    SameFiles ws (ws.updateTags file entry).1 := by
  cases found : ws.tagsIn? entry with
  | none =>
    rw [updateTags_of_silent found]
    exact .refl ws
  | some tags =>
    have frame := foldl_promoteFile_sameFiles file
      (ws.reconcileFile file tags).1.conflicts.entries (ws.reconcileFile file tags).1
    obtain ⟨log, updated⟩ := @updateTags_of_tags ws file entry tags found
    rw [updated]
    exact ⟨frame.index, frame.trees, frame.documents, frame.config, frame.roots⟩

/-- What an update of a file's tags does, when its declarations may have changed and the tables
were consistent with the old ones. -/
structure Updated (ws : Workspace) (file : FileId) (after : Workspace × List Tag) : Prop where
  consistent : Consistent ws.declarations after.1.tags after.1.conflicts
  owners : ∀ n, after.1.tags.lookup n =
    (((ws.tags.lookup n).filter (·.file ≠ file)).or (Tag.first? n (ws.declarations file))).or
      ((ws.conflicts.entries.filter (·.1 ≠ file)).findSome? fun row =>
        Tag.first? n (ws.declarations row.1))
  returned : after.2 = (after.1.conflicts.get? file).getD []

theorem findSome?_filter_of_none {α β : Type} {p : α → Bool} {f : α → Option β} {l : List α}
    (h : ∀ a ∈ l, p a = false → f a = none) : l.findSome? f = (l.filter p).findSome? f := by
  induction l with
  | nil => rfl
  | cons a l ih =>
    have tail := ih fun b hb => h b (List.mem_cons_of_mem a hb)
    cases hp : p a with
    | true => rw [List.filter_cons_of_pos hp, List.findSome?_cons, List.findSome?_cons, tail]
    | false =>
      rw [List.filter_cons_of_neg (by simp [hp]), List.findSome?_cons,
        h a List.mem_cons_self hp, tail]

theorem updateTags_updated {declared : FileId → List Tag} {ws : Workspace} {file : FileId}
    {entry : FileTree} {tags : List Tag} (h : Consistent declared ws.tags ws.conflicts)
    (others : ∀ other, other ≠ file → ws.declarations other = declared other)
    (cached : ws.trees.get? file = some entry) (found : ws.tagsIn? entry = some tags) :
    Updated ws file (ws.updateTags file entry) := by
  have new := declarations_of_tags cached found
  have claimed := reconcileFile_consistent h others new
  have kept := foldl_promoteFile_row file
    (ws.reconcileFile file tags).1.conflicts.entries (ws.reconcileFile file tags).1
  obtain ⟨consistent, owners⟩ :=
    foldl_promoteFile (ws.reconcileFile file tags).1.conflicts.entries
      (ws.reconcileFile file tags).1 claimed (listed_of_claim new claimed)
  obtain ⟨log, updated⟩ := @updateTags_of_tags ws file entry tags found
  rw [updated]
  refine ⟨consistent, ?_, ?_⟩
  · intro n
    refine (owners n).trans ?_
    rw [reconcileFile_tags, Registry.lookup_reconcile, ← new]
    cases own : Tag.first? n (ws.declarations file) with
    | some t =>
      cases (ws.tags.lookup n).filter (·.file ≠ file) with
      | some o => rfl
      | none => rfl
    | none =>
      rw [findSome?_filter_of_none (p := (·.1 ≠ file)), reconcileFile_others]
      · rfl
      · intro row _ hrow
        have hrow : row.1 = file := by simpa using hrow
        exact hrow ▸ own
  · refine (reconcileFile_row_getD ws file tags).symm.trans ?_
    exact congrArg (Option.getD · []) kept.symm

/-- The promotion finds an owner for every name that the updated file gave up. -/
theorem Updated.settled {declared : FileId → List Tag} {ws : Workspace} {file : FileId}
    {after : Workspace × List Tag} (u : Updated ws file after)
    (h : Settled declared ws.tags ws.conflicts)
    (others : ∀ other, other ≠ file → ws.declarations other = declared other) :
    Settled ws.declarations after.1.tags after.1.conflicts where
  toConsistent := u.consistent
  owned := by
    intro other t ht
    apply Option.isSome_iff_exists.mp
    rw [u.owners]
    cases kept : ((ws.tags.lookup t.name).filter (·.file ≠ file)).or
        (Tag.first? t.name (ws.declarations file)) with
    | some o => rfl
    | none =>
      obtain ⟨released, undeclared⟩ := Option.or_eq_none_iff.mp kept
      have hne : other ≠ file := by
        intro same
        exact Tag.first?_eq_none_iff.mp undeclared t (same ▸ ht) rfl
      have ht' : t ∈ declared other := others other hne ▸ ht
      have foreign : ws.tags.owns other t.name = false := by
        obtain ⟨owner, ho⟩ := h.owned other t ht'
        have mine : owner.file = file := by simpa [ho] using released
        simp [Registry.owns, ho, mine, hne.symm]
      obtain ⟨row, found, _⟩ := h.toConsistent.recorded_of_foreign ht' foreign
      obtain ⟨first, hfirst⟩ := Tag.exists_first? ht
      rw [Option.none_or, List.findSome?_isSome_iff]
      refine ⟨(other, row), List.mem_filter.mpr ⟨?_, by simpa using hne⟩, by simp [hfirst]⟩
      exact (Table.get?_eq_some_iff _).mp found

/-! ### Queries that are no longer in force -/

/-- Whether the tables are consistent with the trees, each file being read under the query that was
in force when its tags were last claimed. -/
def Accounted (ws : Workspace) : Prop :=
  ∃ query : FileId → BackendLang,
    Consistent (fun file => ws.declaredUnder (query file) file) ws.tags ws.conflicts

theorem SameFiles.declaredUnder {ws ws' : Workspace} (h : SameFiles ws ws') (query : BackendLang)
    (file : FileId) : ws'.declaredUnder query file = ws.declaredUnder query file :=
  declaredUnder_congr (by rw [h.trees]) query

section Accounted

variable {declared : FileId → List Tag} {ws : Workspace} {query : FileId → BackendLang}
  {file : FileId} {entry : FileTree} {tags : List Tag}

/-- A claim is made under the query in force, and leaves other files to theirs. -/
theorem reconcileFile_accounted (h : Consistent declared ws.tags ws.conflicts)
    (others : ∀ other, other ≠ file → ws.declaredUnder (query other) other = declared other)
    (cached : ws.trees.get? file = some entry) (found : ws.tagsIn? entry = some tags) (log : Log) :
    Accounted { (ws.reconcileFile file tags).1 with log } := by
  obtain ⟨source, lang, _, rfl⟩ := tagsIn?_eq_some found
  refine ⟨fun other => if other = file then lang else query other,
    reconcileFile_consistent h ?_ ?_⟩
  · intro other hne
    simp only [if_neg hne]
    exact others other hne
  · simp only [if_true]
    exact declaredUnder_of_source cached source lang

theorem promoteFile_accounted (updated : FileId) (row : FileId × List Tag) (h : ws.Accounted) :
    (promoteFile updated ws row).Accounted := by
  obtain ⟨query, consistent⟩ := h
  rcases promoteFile_cases updated ws row with
    ⟨same, _⟩ | ⟨_, entry, tags, log, cached, found, claimed⟩
  · rw [same]
    exact ⟨query, consistent⟩
  · rw [claimed]
    exact reconcileFile_accounted consistent (fun _ _ => rfl) cached found log

theorem foldl_promoteFile_accounted (updated : FileId) (rows : List (FileId × List Tag))
    (h : ws.Accounted) : (rows.foldl (promoteFile updated) ws).Accounted := by
  induction rows generalizing ws with
  | nil => exact h
  | cons row rows ih => exact ih (promoteFile_accounted updated row h)

theorem updateTags_accounted (h : Consistent declared ws.tags ws.conflicts)
    (others : ∀ other, other ≠ file → ws.declaredUnder (query other) other = declared other)
    (cached : ws.trees.get? file = some entry) (found : ws.tagsIn? entry = some tags) :
    (ws.updateTags file entry).1.Accounted := by
  have claimed := reconcileFile_accounted h others cached found ws.log
  obtain ⟨log, updated⟩ := @updateTags_of_tags ws file entry tags found
  rw [updated]
  exact foldl_promoteFile_accounted file (ws.reconcileFile file tags).1.conflicts.entries claimed

end Accounted

/-! ### Reading a file -/

/-- The workspace with a tree in the cache whose tags are not taken over yet. -/
def withTree (ws : Workspace) (file : FileId) (entry : FileTree) : Workspace :=
  { ws with trees := { ws.trees with entries := ws.trees.entries.set file entry } }

theorem withTree_get? (ws : Workspace) (file : FileId) (entry : FileTree) :
    (ws.withTree file entry).trees.get? file = some entry :=
  Table.get?_set_self _ _ _

theorem withTree_get?_of_ne (ws : Workspace) {file other : FileId} (h : other ≠ file)
    (entry : FileTree) : (ws.withTree file entry).trees.get? other = ws.trees.get? other :=
  Table.get?_set_of_ne _ _ h

def readAs (g : Grammars) (lang : BackendLang) (domain : Domain) (text : Text) : FileTree :=
  ⟨domain, text, g.parse (domain.grammar lang) text⟩

/-- Nothing is read without grammars or for a new file without a domain. Otherwise the text is
kept with its tree, in the domain that the file had. -/
theorem indexFile_cases (g : Grammars) (ws : Workspace) (file : FileId) (domain : Option Domain)
    (text : Text) :
    (ws.indexFile g file domain text = (ws, []) ∧
      (ws.trees.backend = none ∨ ws.trees.domainFor? file domain = none)) ∨
    ∃ lang d, ws.trees.backend = some lang ∧ ws.trees.domainFor? file domain = some d ∧
      ws.indexFile g file domain text =
        (ws.withTree file (readAs g lang d text)).updateTags file (readAs g lang d text) := by
  cases lang : ws.trees.backend with
  | none => exact Or.inl ⟨by simp [indexFile, TreeCache.upsert, lang], Or.inl rfl⟩
  | some l =>
    cases found : ws.trees.domainFor? file domain with
    | none => exact Or.inl ⟨by simp [indexFile, TreeCache.upsert, lang, found], Or.inr rfl⟩
    | some d =>
      refine Or.inr ⟨l, d, rfl, rfl, ?_⟩
      simp [indexFile, TreeCache.upsert, lang, found, withTree, readAs]

/-- A file keeps the domain it was first read in. -/
theorem domainFor?_of_cached {trees : TreeCache SyntaxTree} {file : FileId} {entry : FileTree}
    (cached : trees.get? file = some entry) (domain : Option Domain) :
    trees.domainFor? file domain = some entry.domain := by
  simp [TreeCache.domainFor?, cached]

theorem indexFile_settled (g : Grammars) {ws : Workspace} (file : FileId)
    (domain : Option Domain) (text : Text)
    (h : Settled ws.declarations ws.tags ws.conflicts) :
    Settled (ws.indexFile g file domain text).1.declarations
      (ws.indexFile g file domain text).1.tags (ws.indexFile g file domain text).1.conflicts := by
  rcases indexFile_cases g ws file domain text with ⟨same, _⟩ | ⟨lang, d, hl, found, stored⟩
  · rw [same]
    exact h
  · rw [stored]
    generalize hentry : readAs g lang d text = entry
    have hd : entry.domain = d := hentry ▸ rfl
    have cached := ws.withTree_get? file entry
    have loaded : (ws.withTree file entry).trees.backend = some lang := hl
    have others : ∀ other, other ≠ file →
        (ws.withTree file entry).declarations other = ws.declarations other :=
      fun other hne => declarations_congr rfl (ws.withTree_get?_of_ne hne entry)
    have h : Settled ws.declarations (ws.withTree file entry).tags
      (ws.withTree file entry).conflicts := h
    by_cases source : entry.domain.declaresTags
    · have u := updateTags_updated h.toConsistent others cached (tagsIn?_of_source source loaded)
      exact (u.settled h others).congr (updateTags_sameFiles _ file entry).declarations
    · rw [updateTags_of_template source]
      refine h.congr fun other => ?_
      by_cases hne : other = file
      · subst hne
        rw [declarations_of_template cached source]
        cases old : ws.trees.get? other with
        | none => rw [declarations_of_unread old]
        | some e =>
          have sticky := Option.some.inj ((domainFor?_of_cached old domain).symm.trans found)
          exact (declarations_of_template old (sticky.trans hd.symm ▸ source)).symm
      · exact others other hne

theorem indexFile_accounted (g : Grammars) {ws : Workspace} (file : FileId)
    (domain : Option Domain) (text : Text) (h : ws.Accounted) :
    (ws.indexFile g file domain text).1.Accounted := by
  rcases indexFile_cases g ws file domain text with ⟨same, _⟩ | ⟨lang, d, hl, found, stored⟩
  · rw [same]
    exact h
  · obtain ⟨query, consistent⟩ := h
    rw [stored]
    generalize hentry : readAs g lang d text = entry
    have hd : entry.domain = d := hentry ▸ rfl
    have cached := ws.withTree_get? file entry
    have others : ∀ other, other ≠ file → (ws.withTree file entry).declaredUnder (query other)
        other = ws.declaredUnder (query other) other :=
      fun other hne => declaredUnder_congr (ws.withTree_get?_of_ne hne entry) _
    have consistent : Consistent (fun other => ws.declaredUnder (query other) other)
      (ws.withTree file entry).tags (ws.withTree file entry).conflicts := consistent
    by_cases source : entry.domain.declaresTags
    · have loaded : (ws.withTree file entry).trees.backend = some lang := hl
      exact updateTags_accounted consistent others cached (tagsIn?_of_source source loaded)
    · rw [updateTags_of_template source]
      have same : (fun other => (ws.withTree file entry).declaredUnder (query other) other) =
          fun other => ws.declaredUnder (query other) other := by
        funext other
        by_cases hne : other = file
        · subst hne
          rw [declaredUnder_of_template cached source]
          cases old : ws.trees.get? other with
          | none => rw [declaredUnder_of_unread old]
          | some e =>
            have sticky := Option.some.inj ((domainFor?_of_cached old domain).symm.trans found)
            exact (declaredUnder_of_template old (sticky.trans hd.symm ▸ source) _).symm
        · exact others other hne
      refine ⟨query, ?_⟩
      rw [same]
      exact consistent

/-- All that reading a file changes besides tags and log is its tree. -/
theorem indexFile_files (g : Grammars) (ws : Workspace) (file : FileId) (domain : Option Domain)
    (text : Text) : SameFiles ws (ws.indexFile g file domain text).1 ∨
      ∃ lang d, ws.trees.backend = some lang ∧ ws.trees.domainFor? file domain = some d ∧
        SameFiles (ws.withTree file (readAs g lang d text))
          (ws.indexFile g file domain text).1 := by
  rcases indexFile_cases g ws file domain text with ⟨same, _⟩ | ⟨lang, d, hl, hd, stored⟩
  · rw [same]
    exact Or.inl (.refl ws)
  · rw [stored]
    exact Or.inr ⟨lang, d, hl, hd, updateTags_sameFiles _ file _⟩

end Workspace

end Hypertag
