import Hypertag.Proofs.SkippedDirectories

/-!
# Documents that are opened before the scan

Before the grammars are loaded an edit only keeps its text, and leaves it to the scan to find the
file. The scan takes up what its walks list, under canonical uris, and nothing else. So an open
document of the project is missing from the index as long as it is neither listed nor edited after
the scan. Once it is in the index, its tree is that of the open text, unless its file could not be
read when it was not open yet: such a document stays without a tree.
-/

namespace Hypertag

/-- Whether an operation leaves the index, the settings and the roots of a project in force. -/
def Operation.steady : Operation → Bool
  | .reset => false
  | .setConfig _ => false
  | .scan _ _ _ => false
  | _ => true

theorem Operation.forgets_of_steady {op : Operation} (h : op.steady = true) :
    op.forgets = false := by
  cases op with
  | reset => cases h
  | setConfig config => cases h
  | scan disk config root => cases h
  | load => rfl
  | edit uri text => rfl
  | save uri => rfl
  | close uri => rfl

theorem Operation.unscanned_of_steady {op : Operation} (h : op.steady = true) (disk : Disk)
    (config : Config) (root : Text) : op ≠ .scan disk config root := by
  rintro rfl
  cases h

namespace Workspace

/-! ### Classification stays -/

theorem perform_config {g : Grammars} {ws : Workspace} (tracked : Tracked ws) {op : Operation}
    (steady : op.steady = true) : (ws.perform g op).config = ws.config := by
  cases op with
  | load => rfl
  | edit uri text => exact (edit_frame tracked uri text).2
  | save uri => exact (save_sameFiles ws uri).config
  | close uri => rfl
  | reset => cases steady
  | setConfig config => cases steady
  | scan disk config root => cases steady

theorem classifyUri_congr {a b : Workspace} (config : a.config = b.config)
    (roots : a.roots = b.roots) (uri : Text) : a.classifyUri uri = b.classifyUri uri := by
  rw [classifyUri, classifyUri, config, roots]

theorem run_classifyUri {g : Grammars} {start : Workspace} (reachable : Reachable g start)
    {ops : List Operation} (steady : ∀ op ∈ ops, op.steady = true) (uri : Text) :
    (run g start ops).classifyUri uri = start.classifyUri uri := by
  induction ops using List.reverseRecOn with
  | nil => rfl
  | append_singleton ops op ih =>
    have last := steady op (List.mem_append_right ops List.mem_cons_self)
    have tracked := (reachable.run ops).tracked
    rw [run_snoc, ← ih fun o member => steady o (List.mem_append_left [op] member)]
    exact classifyUri_congr (perform_config tracked last)
      (perform_roots tracked (Operation.unscanned_of_steady last)) uri

/-! ### Documents without a tree -/

def Unread (ws : Workspace) (uri : Text) : Prop :=
  ∃ file, ws.index.idOf? uri = some file ∧ ws.trees.get? file = none

theorem SameFiles.unread_iff {a b : Workspace} (same : SameFiles a b) {uri : Text} :
    b.Unread uri ↔ a.Unread uri := by
  rw [Unread, Unread, same.index, same.trees]

theorem reread_unread {ws : Workspace} {uri : Text} {file : FileId}
    (known : ws.index.idOf? uri = some file) (read : FileTree) {other : Text} :
    (ws.reread uri file read).1.Unread other ↔ other ≠ uri ∧ ws.Unread other := by
  rw [(reread_files ws uri file read).unread_iff]
  constructor
  · rintro ⟨number, indexed, missing⟩
    have foreign : number ≠ file := by
      rintro rfl
      cases (withTree_get? _ number read).symm.trans missing
    refine ⟨?_, number, indexed, (withTree_get?_of_ne _ foreign read).symm.trans missing⟩
    rintro rfl
    exact foreign (Option.some.inj (indexed.symm.trans known))
  · rintro ⟨different, number, indexed, missing⟩
    have foreign : number ≠ file := by
      rintro rfl
      exact different (DocumentIndex.idOf?_injective indexed known)
    exact ⟨number, indexed, (withTree_get?_of_ne _ foreign read).trans missing⟩

/-- An edit neither reads a document that was never read nor leaves another one without a tree. -/
theorem edit_unread {g : Grammars} {ws : Workspace} (tracked : Tracked ws) (uri text : Text)
    {other : Text} : (ws.edit g uri text).1.Unread other ↔ ws.Unread other := by
  have outcome := edit_outcome g tracked uri text
  generalize ws.edit g uri text = result at outcome ⊢
  cases outcome with
  | idle unloaded => exact Iff.rfl
  | failed ready unknown why => exact Iff.rfl
  | outside ready unknown why => exact Iff.rfl
  | unread log ready known missing => exact Iff.rfl
  | reread log known cached hl =>
    refine (reread_unread known _).trans (and_iff_right_of_imp ?_)
    rintro ⟨number, indexed, missing⟩ rfl
    cases indexed.symm.trans known
    cases missing.symm.trans cached
  | @enrolled number index domain lang log new fits hl =>
    have known : ({ ws with index, log } : Workspace).index.idOf? uri = some number :=
      DocumentIndex.idOf?_register new
    refine (reread_unread known _).trans ?_
    constructor
    · rintro ⟨different, old, indexed, missing⟩
      exact ⟨old, (DocumentIndex.idOf?_register_of_ne new different).symm.trans indexed, missing⟩
    · rintro ⟨old, indexed, missing⟩
      have different : other ≠ uri := by
        rintro rfl
        cases indexed.symm.trans (DocumentIndex.unknown_of_register new)
      exact ⟨different, old, (DocumentIndex.idOf?_register_of_ne new different).trans indexed,
        missing⟩

theorem run_unread {g : Grammars} {start : Workspace} (reachable : Reachable g start)
    {ops : List Operation} (steady : ∀ op ∈ ops, op.steady = true) {uri : Text} :
    (run g start ops).Unread uri ↔ start.Unread uri := by
  induction ops using List.reverseRecOn with
  | nil => exact Iff.rfl
  | append_singleton ops op ih =>
    have last := steady op (List.mem_append_right ops List.mem_cons_self)
    rw [run_snoc, ← ih fun o member => steady o (List.mem_append_left [op] member)]
    cases op with
    | load => exact Iff.rfl
    | edit other text => exact edit_unread (reachable.run ops).tracked other text
    | save other => exact (save_sameFiles _ other).unread_iff
    | close other => exact Iff.rfl
    | reset => cases last
    | setConfig config => cases last
    | scan disk config root => cases last

/-- Whether the file that a scan takes for a document cannot be read, with no open text in its
place. -/
def LeftUnread (disk : Disk) (config : Config) (base : Path) (ws : Workspace) (uri : Text) : Prop :=
  ∃ c, firstClaim? disk config base uri = some c ∧ ws.documents.get? uri = none ∧
    disk.read? c.path = none

/-! ### After a scan -/

section Scan

variable {g : Grammars} {disk : Disk} {ws : Workspace} {config : Config} {root : Text}
  {refused : List Tag} (scanned : (ws.scan g disk config root).2 = .ok refused)

include scanned

theorem indexed_of_scan_iff {uri : Text} :
    (∃ file, (ws.scan g disk config root).1.index.idOf? uri = some file) ↔
      ListedAs disk config (Path.ofText root) uri := by
  rw [(scan_progress scanned).known_iff, exists_claim_iff]

/-- A scan reads all that it lists, but for files that cannot be read. -/
theorem scan_unread {uri : Text} : (ws.scan g disk config root).1.Unread uri ↔
    LeftUnread disk config (Path.ofText root) ws uri := by
  have progress := scan_progress scanned
  have tree := progress.trees uri
  rw [← firstClaim?_eq] at tree
  constructor
  · rintro ⟨file, known, missing⟩
    cases first : firstClaim? disk config (Path.ofText root) uri with
    | none => cases ((unknown_of_scan scanned uri).mpr first).symm.trans known
    | some c =>
      rw [treeOf?_of_known known, missing, first, Option.bind_some, claimTree?,
        uri_of_firstClaim? first, eq_comm, Option.map_eq_none_iff, Option.or_eq_none_iff] at tree
      exact ⟨c, first, tree⟩
  · rintro ⟨c, first, closed, unreadable⟩
    cases known : (ws.scan g disk config root).1.index.idOf? uri with
    | none => cases first.symm.trans ((unknown_of_scan scanned uri).mp known)
    | some file =>
      rw [treeOf?_of_known known, first, Option.bind_some, claimTree?, uri_of_firstClaim? first,
        closed, unreadable] at tree
      exact ⟨file, known, tree⟩

/-- After a scan and no other one, a document of the project is indexed if it was listed or has been
edited since. -/
theorem indexed_since_scan_iff (reachable : Reachable g ws) {ops : List Operation}
    (steady : ∀ op ∈ ops, op.steady = true) {uri : Text} {domain : Domain}
    (fits : (run g (ws.scan g disk config root).1 ops).classifyUri uri = .ok (some domain)) :
    (∃ file, (run g (ws.scan g disk config root).1 ops).index.idOf? uri = some file) ↔
      ListedAs disk config (Path.ofText root) uri ∨ ∃ text, .edit uri text ∈ ops := by
  have there : Reachable g (ws.scan g disk config root).1 :=
    reachable.perform (.scan disk config root)
  have ready : (ws.scan g disk config root).1.ready = true :=
    ready_iff.mpr ⟨_, (scan_progress scanned).loaded⟩
  constructor
  · rintro ⟨file, known⟩
    rcases indexed_since there (fun op member => Operation.unscanned_of_steady (steady op member))
      known with old | ⟨before, text, after, rfl, _⟩
    · exact Or.inl ((indexed_of_scan_iff scanned).mp old)
    · exact Or.inr ⟨text, List.mem_append_right before List.mem_cons_self⟩
  · rintro (listed | ⟨text, edited⟩)
    · obtain ⟨file, known⟩ := (indexed_of_scan_iff scanned).mpr listed
      exact ⟨file, run_keeps there known fun op member =>
        Operation.forgets_of_steady (steady op member)⟩
    · obtain ⟨before, after, rfl⟩ := List.append_of_mem edited
      have keeps : ∀ op ∈ after, op.forgets = false := fun op member =>
        Operation.forgets_of_steady (steady op (by simp [member]))
      cases known : (run g (ws.scan g disk config root).1 before).index.idOf? uri with
      | none =>
        refine EnrolledBy.indexed there ready ⟨before, text, after, rfl, known, ⟨domain, ?_⟩, keeps⟩
        rw [run_classifyUri there fun op member => steady op (List.mem_append_left _ member)]
        rwa [run_classifyUri there steady] at fits
      | some file =>
        refine ⟨file, ?_⟩
        rw [run, List.foldl_append]
        refine run_keeps (there.run before) known ?_
        intro op member
        rcases List.mem_cons.mp member with rfl | later
        · rfl
        · exact keeps op later

end Scan

/-- After a scan and operations that leave the project in force, an open document that has a domain
is in the index if and only if the scan has listed it or it has been edited since. Its tree is then
that of the open text, unless the scan could not read its file and it was not open at that time: it
then has no tree. All files that can be read are listed whose canonical path goes through no
directory that is left out or cannot be listed. -/
theorem early_edits_wait_for_a_walk {g : Grammars} {disk : Disk} {ws after : Workspace}
    {config : Config} {root : Text} {refused : List Tag} (reachable : Reachable g ws)
    (scanned : ws.scan g disk config root = (after, .ok refused)) {ops : List Operation}
    (steady : ∀ op ∈ ops, op.steady = true) {uri text : Text} {domain : Domain}
    (opened : (run g after ops).documents.get? uri = some text)
    (fits : (run g after ops).classifyUri uri = .ok (some domain)) :
    ((∃ file, (run g after ops).index.idOf? uri = some file) ↔
      ListedAs disk config (Path.ofText root) uri ∨ ∃ t, .edit uri t ∈ ops) ∧
    (∀ file, (run g after ops).index.idOf? uri = some file →
      (LeftUnread disk config (Path.ofText root) ws uri →
        (run g after ops).trees.get? file = none) ∧
      (¬ LeftUnread disk config (Path.ofText root) ws uri →
        ∃ entry, (run g after ops).trees.get? file = some entry ∧ entry.text = text)) ∧
    (disk.WellFormed → (∀ item ∈ scanOrder config,
        disk.Faithful (directoryPath (Path.ofText root) item.2) ∧
        disk.canonical (directoryPath (Path.ofText root) item.2) ≠ .ok []) →
      ∀ p, disk.IsFile p → Listable disk (Path.ofText root) (scanOrder config) p →
        (∀ name ∈ p.dropLast, name ∉ skippedDirectories) → p.ReadsBack →
        uri = Uri.ofPath (Path.render p) → ListedAs disk config (Path.ofText root) uri) := by
  have answer : (ws.scan g disk config root).2 = .ok refused := by rw [scanned]
  obtain rfl : (ws.scan g disk config root).1 = after := by rw [scanned]
  have there : Reachable g (ws.scan g disk config root).1 :=
    reachable.perform (.scan disk config root)
  refine ⟨indexed_since_scan_iff answer reachable steady fits, ?_, ?_⟩
  · intro file known
    rw [← scan_unread answer, ← run_unread there steady]
    constructor
    · rintro ⟨number, indexed, missing⟩
      cases indexed.symm.trans known
      exact missing
    · intro read
      cases cached : (run g (ws.scan g disk config root).1 ops).trees.get? file with
      | none => exact absurd ⟨file, known, cached⟩ read
      | some entry =>
        exact ⟨entry, rfl, (there.run ops).current uri text entry opened
          (treeOf?_eq_some_iff.mpr ⟨file, known, cached⟩)⟩
  · rintro well directories p file lists kept back rfl
    rw [run_classifyUri there steady, classifyUri_of_scan answer well
      (fun item h => (directories item h).1) back (fun item h => (directories item h).2) file
      lists kept, Except.ok.injEq, Option.map_eq_some_iff] at fits
    obtain ⟨entry, tracked, _⟩ := fits
    obtain ⟨number, known, _⟩ := treeOf?_eq_some_iff.mp tracked
    exact (indexed_of_scan_iff answer).mp ⟨number, known⟩

end Workspace

namespace Sample

def unsaved : Workspace :=
  Workspace.run grammars (.new log) [.edit "file:///ws/app/x.py" "# hx@e",
    .edit "file:///ws/app/new.py" "# hx@n", .load]

def unsavedScan : Workspace × Except ScanError (List Tag) :=
  unsaved.scan grammars disk (config .python) "/ws"

end Sample

open Workspace in
/-- The scan reads the open text of the file that is there, and the other one gets into the index
when it is edited once more. -/
theorem early_edits_of_unsaved :
    Sample.unsavedScan.2 = .ok [] ∧
    ListedAs Sample.disk (Sample.config .python) (Path.ofText "/ws") "file:///ws/app/x.py" ∧
    (∃ file entry, Sample.unsavedScan.1.index.idOf? "file:///ws/app/x.py" = some file ∧
      Sample.unsavedScan.1.trees.get? file = some entry ∧ entry.text = "# hx@e") ∧
    ∃ file, (run Sample.grammars Sample.unsavedScan.1
        [.edit "file:///ws/app/new.py" "# hx@m"]).index.idOf? "file:///ws/app/new.py" =
      some file := by
  have reachable : Reachable Sample.grammars Sample.unsaved := ⟨_, _, rfl⟩
  have scanned : Sample.unsaved.scan Sample.grammars Sample.disk (Sample.config .python) "/ws" =
    (Sample.unsavedScan.1, .ok []) := rfl
  have well : Sample.disk.WellFormed := by decide
  have order : scanOrder (Sample.config .python) = [(.backend, Text.ofString "app")] := rfl
  have directories : ∀ item ∈ scanOrder (Sample.config .python),
      Sample.disk.Faithful (directoryPath (Path.ofText "/ws") item.2) ∧
        Sample.disk.canonical (directoryPath (Path.ofText "/ws") item.2) ≠ .ok [] := by
    rw [order, List.forall_mem_singleton]
    exact ⟨Disk.faithful_of_resolved rfl rfl, by decide⟩
  have file : Sample.disk.IsFile (Path.ofText "/ws/app/x.py") := ⟨rfl, _, rfl⟩
  have back : (Path.ofText "/ws/app/x.py").ReadsBack :=
    Disk.Holds.readsBack well (by decide) ⟨_, rfl⟩
  have opened : (run Sample.grammars Sample.unsavedScan.1 []).documents.get?
    "file:///ws/app/x.py" = some (Text.ofString "# hx@e") := by decide
  have fits : (run Sample.grammars Sample.unsavedScan.1 []).classifyUri "file:///ws/app/x.py" =
    .ok (some .backend) := by decide
  obtain ⟨indexed, current, listed⟩ :=
    early_edits_wait_for_a_walk reachable scanned (by simp) opened fits
  have opened' : (run Sample.grammars Sample.unsavedScan.1
    [.edit "file:///ws/app/new.py" "# hx@m"]).documents.get? "file:///ws/app/new.py" =
      some (Text.ofString "# hx@m") := by decide
  have fits' : (run Sample.grammars Sample.unsavedScan.1
    [.edit "file:///ws/app/new.py" "# hx@m"]).classifyUri "file:///ws/app/new.py" =
      .ok (some .backend) := by decide
  obtain ⟨later, _⟩ := early_edits_wait_for_a_walk reachable scanned
    (by simp [Operation.steady]) opened' fits'
  have there := listed well directories (Path.ofText "/ws/app/x.py") file
    (fun _ _ _ _ _ _ _ _ => rfl) (by decide) back (by decide)
  obtain ⟨number, known⟩ := indexed.mpr (Or.inl there)
  have read : ¬ LeftUnread Sample.disk (Sample.config .python) (Path.ofText "/ws") Sample.unsaved
      "file:///ws/app/x.py" := by
    rintro ⟨_, _, closed, _⟩
    cases closed
  obtain ⟨entry, cached, text⟩ := (current number known).2 read
  exact ⟨rfl, there, ⟨number, entry, known, cached, text⟩,
    later.mpr (Or.inr ⟨_, List.mem_singleton.mpr rfl⟩)⟩

open Workspace in
/-- The file that is not saved yet is open and has a domain after the scan, and is not in the
index. -/
theorem scan_misses_unsaved_document :
    Sample.unsavedScan.2 = .ok [] ∧
    Sample.unsavedScan.1.documents.get? "file:///ws/app/new.py" =
      some (Text.ofString "# hx@n") ∧
    Sample.unsavedScan.1.classifyUri "file:///ws/app/new.py" = .ok (some .backend) ∧
    Sample.unsavedScan.1.index.idOf? "file:///ws/app/new.py" = none ∧
    Sample.unsavedScan.1.tags.tags.map Tag.name =
      [Text.ofString "hx@e", Text.ofString "hx@a"] := by
  decide

end Hypertag
