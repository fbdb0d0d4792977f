import Hypertag.Proofs.Run
import Mathlib.Algebra.BigOperators.Group.Finset.Piecewise
import Mathlib.Algebra.Ring.Nat
import Mathlib.Data.Set.Function

/-!
# What the history of a workspace cannot change

The names in the registry and the number of conflicts of each name are functions of the tracked
tag sources alone. Who owns a shared name, the numbers of the files and the order of the tables do
depend on the history, and nothing is said about them.
-/

namespace Hypertag

namespace Workspace

def allDeclarations (ws : Workspace) : List Tag :=
  ws.index.entries.flatMap fun entry => ws.declarations entry.2

def fileIds (ws : Workspace) : Finset FileId := (ws.index.entries.map Prod.snd).toFinset

theorem mem_fileIds {ws : Workspace} {uri : Text} {file : FileId}
    (known : ws.index.idOf? uri = some file) : file ∈ ws.fileIds := by
  rw [DocumentIndex.idOf?_eq_some_iff] at known
  exact List.mem_toFinset.mpr (List.mem_map.mpr ⟨(uri, file), known, rfl⟩)

theorem Tracked.mem_fileIds_of_isSource {ws : Workspace} (tracked : Tracked ws) {file : FileId}
    (source : ws.IsSource file) : file ∈ ws.fileIds := by
  obtain ⟨entry, cached, _⟩ := source
  obtain ⟨uri, known⟩ := tracked.indexed file entry cached
  exact mem_fileIds known

theorem tally_flatten (n : Text) (rows : List (List Tag)) :
    Tag.tally n rows.flatten = (rows.map (Tag.tally n)).sum := by
  simp [Tag.tally, List.countP_flatten]
  rfl

theorem tally_allDeclarations (ws : Workspace) (n : Text) : Tag.tally n ws.allDeclarations =
    (ws.index.entries.map fun entry => Tag.tally n (ws.declarations entry.2)).sum := by
  rw [allDeclarations, List.flatMap, tally_flatten, List.map_map]
  rfl

/-- Declarations counted file by file. -/
theorem tally_allDeclarations_files (ws : Workspace) (n : Text) :
    Tag.tally n ws.allDeclarations = ∑ file ∈ ws.fileIds, Tag.tally n (ws.declarations file) := by
  have nodup : (ws.index.entries.map Prod.snd).Nodup :=
    ws.index.ids_increasing.imp fun h => ne_of_lt h
  rw [fileIds, List.sum_toFinset _ nodup, tally_allDeclarations, List.map_map]
  rfl

/-- Conflicts are recorded for tracked files only, so that they can be counted file by file. -/
theorem tally_allConflicts {ws : Workspace} (tracked : Tracked ws)
    (h : Consistent ws.declarations ws.tags ws.conflicts) (n : Text) :
    Tag.tally n ws.allConflicts =
      ∑ file ∈ ws.fileIds, Tag.tally n ((ws.conflicts.get? file).getD []) := by
  have rows : ws.conflicts.values.map (Tag.tally n) =
      ws.conflicts.keys.map fun file => Tag.tally n ((ws.conflicts.get? file).getD []) := by
    rw [Table.values, Table.keys, List.map_map, List.map_map]
    apply List.map_congr_left
    intro row hrow
    have found := (Table.get?_eq_some_iff ws.conflicts).mpr hrow
    simp [found]
  have nodup : ws.conflicts.keys.Nodup := ws.conflicts.keys_nodup
  rw [allConflicts, tally_flatten, rows, ← List.sum_toFinset _ nodup]
  apply Finset.sum_subset
  · intro file hfile
    obtain ⟨row, hrow, rfl⟩ := List.mem_map.mp (List.mem_toFinset.mp hfile)
    have found := (Table.get?_eq_some_iff ws.conflicts).mpr hrow
    exact tracked.mem_fileIds_of_isSource (h.row_isSource (fun _ _ => source_of_declared) found).1
  · intro file _ absent
    cases found : ws.conflicts.get? file with
    | none => rfl
    | some row =>
      have hrow := (Table.get?_eq_some_iff ws.conflicts).mp found
      exact absurd (List.mem_toFinset.mpr (List.mem_map.mpr ⟨_, hrow, rfl⟩)) absent

/-- In each file, all declarations of a name are conflicts but for the one that owns it. -/
theorem Consistent.tally_row {declared : FileId → List Tag} {tags : Registry}
    {conflicts : Table FileId (List Tag)} (h : Consistent declared tags conflicts)
    (file : FileId) (n : Text) :
    Tag.tally n ((conflicts.get? file).getD []) + (if tags.owns file n then 1 else 0) =
      Tag.tally n (declared file) := by
  have named : ∀ t : Tag, decide (t.name = n) = true → t.name = n := fun _ => of_decide_eq_true
  rw [h.refused file]
  cases owned : tags.owns file n with
  | false => exact Tag.countP_withoutFirsts_of_free named owned (declared file)
  | true =>
    obtain ⟨t, ht, rfl⟩ := Registry.owns_iff.mp owned
    have first := h.owner_first n t ht
    have counted := Tag.countP_withoutFirsts_of_taken named owned first
    rw [if_pos (decide_eq_true (Tag.mem_of_first? first).2)] at counted
    exact counted

/-- A name has as many conflicts as it has declarations, less one for its owner. -/
theorem conflicts_add_owner {ws : Workspace} (tracked : Tracked ws)
    (h : Consistent ws.declarations ws.tags ws.conflicts) (n : Text) :
    Tag.tally n ws.allConflicts + (if (ws.tags.lookup n).isSome then 1 else 0) =
      Tag.tally n ws.allDeclarations := by
  have owner : (∑ file ∈ ws.fileIds, if ws.tags.owns file n then 1 else 0) =
      if (ws.tags.lookup n).isSome then 1 else 0 := by
    cases found : ws.tags.lookup n with
    | none => simp [Registry.owns, found]
    | some t =>
      have ht := (ws.tags.lookup_eq_some_iff.mp found).1
      have source := h.owner_isSource (fun _ _ => source_of_declared) ht
      have mem := tracked.mem_fileIds_of_isSource source
      simp [Registry.owns, found, mem]
  rw [tally_allConflicts tracked h, tally_allDeclarations_files, ← owner, ← Finset.sum_add_distrib]
  exact Finset.sum_congr rfl fun file _ => h.tally_row file n

/-! ### Two runs with the same sources -/

/-- Whether a document is tracked and its cached tree may declare tags. -/
def IsSourceUri (ws : Workspace) (uri : Text) : Prop :=
  ∃ entry, ws.treeOf? uri = some entry ∧ entry.domain.declaresTags

/-- A one-to-one correspondence of the tag sources of two workspaces under which cached domain and
cached text agree. -/
structure SameSources (a b : Workspace) (σ : Text → Text) : Prop where
  bijective : Set.BijOn σ {uri | a.IsSourceUri uri} {uri | b.IsSourceUri uri}
  agree : ∀ uri, a.IsSourceUri uri →
    (b.treeOf? (σ uri)).map (fun entry => (entry.domain, entry.text)) =
      (a.treeOf? uri).map fun entry => (entry.domain, entry.text)

def declarationsOf (ws : Workspace) (uri : Text) : List Tag :=
  ((ws.index.idOf? uri).map ws.declarations).getD []

theorem declarationsOf_of_source {ws : Workspace} {uri : Text} {entry : FileTree}
    {lang : BackendLang} (found : ws.treeOf? uri = some entry)
    (source : entry.domain.declaresTags) (hl : ws.trees.backend = some lang) (n : Text) :
    Tag.tally n (ws.declarationsOf uri) = Tag.tally n (entry.declared lang) := by
  obtain ⟨file, known, cached⟩ := Option.bind_eq_some_iff.mp found
  rw [declarationsOf, known, Option.map_some, Option.getD_some,
    declarations_of_source cached source hl, Tag.tally, List.countP_map]
  rfl

theorem declarationsOf_of_not_source {ws : Workspace} {uri : Text}
    (silent : ¬ ws.IsSourceUri uri) : ws.declarationsOf uri = [] := by
  cases known : ws.index.idOf? uri with
  | none => simp [declarationsOf, known]
  | some file =>
    rw [declarationsOf, known, Option.map_some, Option.getD_some, List.eq_nil_iff_forall_not_mem]
    intro t ht
    obtain ⟨_, entry, cached, source⟩ := source_of_declared ht
    exact silent ⟨entry, by simp [treeOf?, known, cached], source⟩

/-- The tag sources as a finite set of uris. -/
noncomputable def sourceUris (ws : Workspace) : Finset Text := by
  classical
  exact (ws.index.entries.map Prod.fst).toFinset.filter ws.IsSourceUri

theorem mem_sourceUris {ws : Workspace} {uri : Text} :
    uri ∈ ws.sourceUris ↔ ws.IsSourceUri uri := by
  classical
  simp only [sourceUris, Finset.mem_filter, List.mem_toFinset]
  constructor
  · exact fun h => h.2
  · intro h
    obtain ⟨entry, found, _⟩ := id h
    obtain ⟨file, known, _⟩ := Option.bind_eq_some_iff.mp found
    rw [DocumentIndex.idOf?_eq_some_iff] at known
    exact ⟨List.mem_map.mpr ⟨_, known, rfl⟩, h⟩

/-- Declarations counted uri by uri. -/
theorem tally_allDeclarations_uris (ws : Workspace) (n : Text) :
    Tag.tally n ws.allDeclarations =
      ∑ uri ∈ ws.sourceUris, Tag.tally n (ws.declarationsOf uri) := by
  classical
  have rows : (ws.index.entries.map fun entry => Tag.tally n (ws.declarations entry.2)) =
      (ws.index.entries.map Prod.fst).map fun uri => Tag.tally n (ws.declarationsOf uri) := by
    rw [List.map_map]
    apply List.map_congr_left
    intro entry hentry
    have known := ws.index.idOf?_eq_some_iff.mpr hentry
    simp [declarationsOf, known]
  rw [tally_allDeclarations, rows, ← List.sum_toFinset _ ws.index.uris_nodup, sourceUris,
    Finset.sum_filter]
  apply Finset.sum_congr rfl
  intro uri _
  split
  · rfl
  · next silent => rw [declarationsOf_of_not_source silent]; rfl

/-- Cached domain and text decide the declarations, once the language in force is given. -/
theorem tally_of_sameSources {g : Grammars} {a b : Workspace} {σ : Text → Text}
    (same : SameSources a b σ) (ha : InForce g a) (hb : InForce g b)
    (lang : a.trees.backend = b.trees.backend) (n : Text) :
    Tag.tally n a.allDeclarations = Tag.tally n b.allDeclarations := by
  rw [tally_allDeclarations_uris, tally_allDeclarations_uris]
  refine Finset.sum_nbij σ ?_ ?_ ?_ ?_
  · intro uri hu
    exact mem_sourceUris.mpr (same.bijective.mapsTo (mem_sourceUris.mp hu))
  · intro u hu v hv
    exact same.bijective.injOn (mem_sourceUris.mp hu) (mem_sourceUris.mp hv)
  · intro v hv
    obtain ⟨u, hu, rfl⟩ := same.bijective.surjOn (mem_sourceUris.mp hv)
    exact ⟨u, mem_sourceUris.mpr hu, rfl⟩
  · intro uri hu
    obtain ⟨entry, found, source⟩ := mem_sourceUris.mp hu
    have agree := same.agree uri ⟨entry, found, source⟩
    rw [found, Option.map_some] at agree
    obtain ⟨other, found', pair⟩ := Option.map_eq_some_iff.mp agree
    obtain ⟨domain, text⟩ := Prod.mk.inj pair
    obtain ⟨f, _, cached⟩ := Option.bind_eq_some_iff.mp found
    obtain ⟨f', _, cached'⟩ := Option.bind_eq_some_iff.mp found'
    obtain ⟨l, hl, read⟩ := ha f entry cached
    obtain ⟨l', hl', read'⟩ := hb f' other cached'
    obtain rfl : l = l' := Option.some.inj (hl.symm.trans (lang.trans hl'))
    have eq : other = entry := by rw [read', domain, text, ← read]
    subst eq
    rw [declarationsOf_of_source found source hl, declarationsOf_of_source found' source hl']

/-- A name is registered exactly when something declares it. -/
theorem registered_iff {ws : Workspace} (tracked : Tracked ws)
    (h : Settled ws.declarations ws.tags ws.conflicts) (n : Text) :
    (∃ t, ws.tags.lookup n = some t) ↔ Tag.tally n ws.allDeclarations ≠ 0 := by
  have count := conflicts_add_owner tracked h.toConsistent n
  constructor
  · rintro ⟨t, ht⟩
    rw [ht] at count
    simp only [Option.isSome_some, if_true] at count
    omega
  · intro declared
    obtain ⟨t, ht⟩ := Option.ne_none_iff_exists'.mp (mt Tag.tally_eq_zero_iff.mpr declared)
    obtain ⟨hm, rfl⟩ := Tag.mem_of_first? ht
    obtain ⟨entry, _, ht⟩ := List.mem_flatMap.mp hm
    exact h.owned entry.2 t ht

theorem conflicts_eq_declarations_sub_one {ws : Workspace} (tracked : Tracked ws)
    (h : Settled ws.declarations ws.tags ws.conflicts) (n : Text) :
    Tag.tally n ws.allConflicts = Tag.tally n ws.allDeclarations - 1 := by
  have count := conflicts_add_owner tracked h.toConsistent n
  have named := registered_iff tracked h n
  cases owner : ws.tags.lookup n with
  | none =>
    rw [owner] at count named
    have undeclared : Tag.tally n ws.allDeclarations = 0 := by simpa using named
    omega
  | some t =>
    rw [owner] at count
    simp only [Option.isSome_some, if_true] at count
    omega

/-- Two runs that end in the same language with the same tag sources end with the same names, and
with the same number of conflicts for each of them. -/
theorem history_independent (g : Grammars) (log₁ log₂ : Log) (ops₁ ops₂ : List Operation)
    (kept₁ : LanguageKept g (new log₁) ops₁) (kept₂ : LanguageKept g (new log₂) ops₂)
    (lang : (run g (new log₁) ops₁).trees.backend = (run g (new log₂) ops₂).trees.backend)
    {σ : Text → Text} (same : SameSources (run g (new log₁) ops₁) (run g (new log₂) ops₂) σ)
    (n : Text) :
    ((∃ t, (run g (new log₁) ops₁).tags.lookup n = some t) ↔
      ∃ t, (run g (new log₂) ops₂).tags.lookup n = some t) ∧
    Tag.tally n (run g (new log₁) ops₁).allConflicts =
      Tag.tally n (run g (new log₂) ops₂).allConflicts ∧
    Tag.tally n (run g (new log₁) ops₁).allConflicts =
      Tag.tally n (run g (new log₁) ops₁).allDeclarations - 1 := by
  have run₁ := run_inStep ops₁ (new_inStep g log₁) kept₁
  have run₂ := run_inStep ops₂ (new_inStep g log₂) kept₂
  have declared := tally_of_sameSources same run₁.inForce run₂.inForce lang n
  have less₁ := conflicts_eq_declarations_sub_one run₁.tracked run₁.settled n
  have less₂ := conflicts_eq_declarations_sub_one run₂.tracked run₂.settled n
  refine ⟨?_, ?_, less₁⟩
  · rw [registered_iff run₁.tracked run₁.settled, registered_iff run₂.tracked run₂.settled,
      declared]
  · rw [less₁, less₂, declared]

theorem sameSources_id {a b : Workspace} (index : b.index.entries = a.index.entries)
    (trees : b.trees = a.trees) : SameSources a b id := by
  have treeOf : ∀ uri, b.treeOf? uri = a.treeOf? uri := by
    intro uri
    rw [treeOf?, treeOf?, DocumentIndex.idOf?, DocumentIndex.idOf?, index, trees]
  have sources : {uri | b.IsSourceUri uri} = {uri | a.IsSourceUri uri} := by
    ext uri
    simp only [Set.mem_ofPred_eq, IsSourceUri, treeOf uri]
  refine ⟨?_, fun uri _ => by rw [id, treeOf uri]⟩
  rw [sources]
  exact Set.bijOn_id _

theorem treeOf?_single {ws : Workspace} {uri : Text} {file : FileId} {entry : FileTree}
    (index : ws.index.entries = [(uri, file)]) (cached : ws.trees.get? file = some entry)
    (u : Text) : ws.treeOf? u = if u = uri then some entry else none := by
  by_cases h : u = uri
  · have known : ws.index.idOf? u = some file := by simp [DocumentIndex.idOf?, index, h]
    rw [treeOf?, known, if_pos h]
    exact cached
  · have unknown : ws.index.idOf? u = none := by simp [DocumentIndex.idOf?, index, Ne.symm h]
    rw [treeOf?, unknown, if_neg h]
    rfl

/-- Two workspaces with one source each have the same sources when domain and text agree. -/
theorem sameSources_single {a b : Workspace} {u v : Text} {i j : FileId} {e d : FileTree}
    (indexA : a.index.entries = [(u, i)]) (cachedA : a.trees.get? i = some e)
    (indexB : b.index.entries = [(v, j)]) (cachedB : b.trees.get? j = some d)
    (source : e.domain.declaresTags) (domain : d.domain = e.domain) (text : d.text = e.text) :
    SameSources a b fun _ => v := by
  have inA : ∀ w, a.IsSourceUri w ↔ w = u := by
    intro w
    by_cases h : w = u
    · simp [IsSourceUri, treeOf?_single indexA cachedA, h, source]
    · simp [IsSourceUri, treeOf?_single indexA cachedA, h]
  have inB : ∀ w, b.IsSourceUri w ↔ w = v := by
    intro w
    by_cases h : w = v
    · simp [IsSourceUri, treeOf?_single indexB cachedB, h, domain, source]
    · simp [IsSourceUri, treeOf?_single indexB cachedB, h]
  refine ⟨⟨?_, ?_, ?_⟩, ?_⟩
  · intro w _
    exact (inB v).mpr rfl
  · intro w hw w' hw' _
    exact ((inA w).mp hw).trans ((inA w').mp hw').symm
  · intro w hw
    exact ⟨u, (inA u).mpr rfl, ((inB w).mp hw).symm⟩
  · intro w hw
    rw [(inA w).mp hw, treeOf?_single indexA cachedA, treeOf?_single indexB cachedB, if_pos rfl,
      if_pos rfl, Option.map_some, Option.map_some, domain, text]

end Workspace

open Workspace

def Sample.detour : List Operation :=
  [.load, .scan disk (config .python) "/ws", .edit "file:///ws/app/x.py" "# hx@b",
    .edit "file:///ws/app/x.py" "# hx@a"]

/-- The detour changes the owner of the shared tag, but not the number of its conflicts. -/
theorem history_independent_detour :
    (Sample.scanned.tags.lookup "hx@a").map Tag.file = some 0 ∧
    ((run Sample.grammars (new Sample.log) Sample.detour).tags.lookup "hx@a").map Tag.file =
      some 1 ∧
    Tag.tally "hx@a" Sample.scanned.allConflicts =
      Tag.tally "hx@a" (run Sample.grammars (new Sample.log) Sample.detour).allConflicts := by
  have kept₁ : LanguageKept Sample.grammars (new Sample.log)
      [.load, .scan Sample.disk (Sample.config .python) "/ws"] := ⟨trivial, trivial, trivial⟩
  have kept₂ : LanguageKept Sample.grammars (new Sample.log) Sample.detour :=
    ⟨trivial, trivial, trivial, trivial, trivial⟩
  let read := readAs Sample.grammars .python .backend "# hx@a"
  let trees : TreeCache SyntaxTree := ⟨some .python, ⟨[(0, read), (1, read)], by decide⟩⟩
  have trees₁ : Sample.scanned.trees = trees := rfl
  have trees₂ : (run Sample.grammars (new Sample.log) Sample.detour).trees = trees := rfl
  have same := sameSources_id (a := Sample.scanned)
    (b := run Sample.grammars (new Sample.log) Sample.detour) (by decide)
    (trees₂.trans trees₁.symm)
  exact ⟨by decide, by decide,
    (history_independent _ _ _ _ _ kept₁ kept₂ rfl same "hx@a").2.1⟩

namespace Sample

/-- Grammars that find a comment in Python texts only. -/
def hashComments : Grammars where
  outline text := .mk .document 0 text.length []
  comments
    | .backend .python, text => .ofSpans [⟨0, text.length⟩]
    | _, _ => .ofSpans []
  foreign _ _ _ := []

def hashProject (lang : BackendLang) (name : Text) : Workspace :=
  run hashComments (new log) [.load,
    .scan { entries := [.directory "ws" [.directory "app" [.file name "# hx@a"]]] } (config lang)
      "/ws"]

end Sample

/-- The same text in the same domain declares different tags in different languages, so that
without the same language in force even the names differ. -/
theorem names_depend_on_language :
    SameSources (Sample.hashProject .python "x.py") (Sample.hashProject .rust "x.rs")
      (fun _ => "file:///ws/app/x.rs") ∧
    (∃ t, (Sample.hashProject .python "x.py").tags.lookup "hx@a" = some t) ∧
    ¬ ∃ t, (Sample.hashProject .rust "x.rs").tags.lookup "hx@a" = some t := by
  have python : (Sample.hashProject .python "x.py").trees.get? 0 =
    some (readAs Sample.hashComments .python .backend "# hx@a") := rfl
  have rust : (Sample.hashProject .rust "x.rs").trees.get? 0 =
    some (readAs Sample.hashComments .rust .backend "# hx@a") := rfl
  refine ⟨sameSources_single (u := "file:///ws/app/x.py") (by decide) python (by decide) rust
    rfl rfl rfl, ⟨⟨"hx@a", 2, 6, 0, 0⟩, by decide⟩, ?_⟩
  rintro ⟨t, ht⟩
  have none : (Sample.hashProject .rust "x.rs").tags.lookup "hx@a" = none := by decide
  rw [none] at ht
  cases ht

end Hypertag
