import Hypertag.Proofs.Classification
import Hypertag.Proofs.FileIdentity

/-!
# Directories that are left out

A walk leaves out some directories and takes no step up, so that whatever a scan indexes lies below
a root by names alone. An edit asks only whether the file path of its uri starts with a root, and
takes up documents in those directories, and behind steps up, like all others. Nothing else brings
them into the index.
-/

namespace Hypertag

namespace Workspace

/-- Whether the file path of a uri goes down from a root by names, through no directory that is
left out. -/
def Sheltered (roots : List ProjectRoot) (uri : Text) : Prop :=
  ∃ u root real below, Uri.parse uri = .ok u ∧ root ∈ roots ∧
    root.directory = Path.render real ∧ u.filePath = Path.render (real ++ below) ∧
    Path.Proper (real ++ below) ∧ below ≠ [] ∧ ∀ name ∈ below.dropLast, name ∉ skippedDirectories

/-- What a scan indexes is sheltered. -/
theorem sheltered_of_scan {g : Grammars} {disk : Disk} {ws : Workspace} {config : Config}
    {root : Text} {refused : List Tag} (scanned : (ws.scan g disk config root).2 = .ok refused)
    (well : disk.WellFormed)
    (faithful : ∀ item ∈ scanOrder config, disk.Faithful (directoryPath (Path.ofText root) item.2))
    (back : ∀ p, disk.Holds p → p.ReadsBack) {uri : Text} {file : FileId}
    (known : (ws.scan g disk config root).1.index.idOf? uri = some file) :
    Sheltered (ws.scan g disk config root).1.roots uri := by
  obtain ⟨c, claimed, rfl⟩ := List.mem_map.mp ((scan_progress scanned).known_iff.mp ⟨file, known⟩)
  obtain ⟨made, member, real, below, directory, held, behind, kept, named⟩ :=
    claim_of_scan scanned well faithful claimed
  obtain ⟨u, parsed, path⟩ := back _ held
  obtain ⟨text, found⟩ := held
  rw [named]
  exact ⟨u, made, real, below, parsed, member, directory, path,
    DiskEntry.proper_of_textAt? well found, behind, kept⟩

/-! ### Runs without a scan -/

section Run

variable {g : Grammars} {start : Workspace} (reachable : Reachable g start) {ops : List Operation}

include reachable

theorem Reachable.run (ops : List Operation) : Reachable g (run g start ops) := by
  obtain ⟨log, before, rfl⟩ := reachable
  exact ⟨log, before ++ ops, by rw [Workspace.run, Workspace.run, Workspace.run, List.foldl_append]⟩

theorem run_roots (unscanned : ∀ op ∈ ops, ∀ disk config root, op ≠ .scan disk config root) :
    (run g start ops).roots = start.roots := by
  induction ops using List.reverseRecOn with
  | nil => rfl
  | append_singleton ops op ih =>
    have earlier := ih fun o ho => unscanned o (List.mem_append_left [op] ho)
    rw [run_snoc, perform_roots (reachable.run ops).tracked
      (unscanned op (List.mem_append_right ops List.mem_cons_self)), earlier]

/-- Without a scan nothing gets into the index but by edits. -/
theorem indexed_since
    (unscanned : ∀ op ∈ ops, ∀ disk config root, op ≠ .scan disk config root) {uri : Text}
    {file : FileId} (known : (run g start ops).index.idOf? uri = some file) :
    (∃ old, start.index.idOf? uri = some old) ∨ EnrolledBy g start ops uri := by
  induction ops using List.reverseRecOn generalizing file with
  | nil => exact Or.inl ⟨file, known⟩
  | append_singleton ops op ih =>
    have tracked := (reachable.run ops).tracked
    rw [run_snoc] at known
    cases forgets : op.forgets with
    | false =>
      rcases perform_index tracked forgets known with old | ⟨text, rfl, _, unknown, fits⟩
      · have earlier := ih (fun o ho => unscanned o (List.mem_append_left [op] ho)) old
        exact earlier.imp_right fun h => h.snoc forgets
      · exact Or.inr ⟨ops, text, [], rfl, unknown, fits, by simp⟩
    | true =>
      cases op with
      | reset => cases known
      | scan disk config root =>
        have other := unscanned (.scan disk config root)
          (List.mem_append_right ops List.mem_cons_self)
        exact absurd rfl (other disk config root)
      | load => cases forgets
      | setConfig config => cases forgets
      | edit other text => cases forgets
      | save other => cases forgets
      | close other => cases forgets

theorem run_keeps {uri : Text} {file : FileId} (known : start.index.idOf? uri = some file)
    (keeps : ∀ op ∈ ops, op.forgets = false) : (run g start ops).index.idOf? uri = some file := by
  induction ops using List.reverseRecOn with
  | nil => exact known
  | append_singleton ops op ih =>
    rw [run_snoc]
    exact perform_keeps (reachable.run ops).tracked
      (keeps op (List.mem_append_right ops List.mem_cons_self))
      (ih fun o ho => keeps o (List.mem_append_left [op] ho))

omit reachable in
theorem run_ready (ready : start.ready = true) : (run g start ops).ready = true := by
  induction ops using List.reverseRecOn with
  | nil => exact ready
  | append_singleton ops op ih =>
    rw [run_snoc]
    exact perform_ready ih op

/-- What is enrolled is indexed. -/
theorem EnrolledBy.indexed (ready : start.ready = true) {uri : Text}
    (h : EnrolledBy g start ops uri) : ∃ file, (run g start ops).index.idOf? uri = some file := by
  obtain ⟨before, text, after, rfl, unknown, ⟨domain, fits⟩, keeps⟩ := h
  have there := reachable.run before
  obtain ⟨file, _, _, taken⟩ :=
    edit_takes_up there (run_ready ready) unknown fits text
  refine ⟨file, ?_⟩
  have later := run_keeps (there.perform (.edit uri text)) taken.numbered keeps
  rw [Workspace.run, List.foldl_append]
  exact later

end Run

/-- An enrolled document lies in a recorded root as far as the text of its path goes. -/
theorem EnrolledBy.inDirectory {g : Grammars} {start : Workspace} (reachable : Reachable g start)
    {ops : List Operation}
    (unscanned : ∀ op ∈ ops, ∀ disk config root, op ≠ .scan disk config root) {uri : Text}
    (h : EnrolledBy g start ops uri) : ∃ u root, Uri.parse uri = .ok u ∧ root ∈ start.roots ∧
      Workspace.inDirectory root.directory u.filePath = true := by
  obtain ⟨before, text, after, rfl, _, ⟨domain, fits⟩, _⟩ := h
  obtain ⟨config, u, _, parsed, _, taken⟩ := classifyUri_eq_some.mp fits
  rw [run_roots reachable fun op member => unscanned op (List.mem_append_left _ member)] at taken
  obtain ⟨root, found, _⟩ := Option.map_eq_some_iff.mp taken
  have takes := List.find?_some found
  rw [Bool.and_eq_true] at takes
  exact ⟨u, root, parsed, List.mem_of_find?_eq_some found, takes.2⟩

/-- After a scan and further operations without one, a document whose path does not go down from a
root by names, or goes through a directory that is left out, is indexed exactly when an edit has
enrolled it. For that it is enough that its path starts with a root. The configured directories are
where their canonical paths say, as `faithful` has it, and nothing at the top of the disk has a name
like a drive: a scanned file below such a name has a uri that is read as another path. -/
theorem skipped_directories_enter_by_edits {g : Grammars} {disk : Disk} {ws after : Workspace}
    {config : Config} {root : Text} {refused : List Tag} (reachable : Reachable g ws)
    (scanned : ws.scan g disk config root = (after, .ok refused)) (well : disk.WellFormed)
    (faithful : ∀ item ∈ scanOrder config, disk.Faithful (directoryPath (Path.ofText root) item.2))
    (bare : ∀ entry ∈ disk.entries, Path.startsWithDrive entry.name = false)
    {ops : List Operation}
    (unscanned : ∀ op ∈ ops, ∀ disk config root, op ≠ .scan disk config root) :
    (run g after ops).roots = after.roots ∧ ∀ uri,
      ((∃ file, (run g after ops).index.idOf? uri = some file) →
        Sheltered after.roots uri ∨ EnrolledBy g after ops uri) ∧
      (EnrolledBy g after ops uri →
        (∃ file, (run g after ops).index.idOf? uri = some file) ∧
        ∃ u made, Uri.parse uri = .ok u ∧ made ∈ after.roots ∧
          Workspace.inDirectory made.directory u.filePath = true) := by
  have answer : (ws.scan g disk config root).2 = .ok refused := by rw [scanned]
  obtain rfl : (ws.scan g disk config root).1 = after := by rw [scanned]
  have there : Reachable g (ws.scan g disk config root).1 :=
    reachable.perform (.scan disk config root)
  have ready : (ws.scan g disk config root).1.ready = true :=
    ready_iff.mpr ⟨_, (scan_progress answer).loaded⟩
  refine ⟨run_roots there unscanned, fun uri => ⟨?_, ?_⟩⟩
  · rintro ⟨file, known⟩
    rcases indexed_since there unscanned known with ⟨old, scanned⟩ | enrolled
    · exact Or.inl (sheltered_of_scan answer well faithful
        (fun _ held => held.readsBack well bare) scanned)
    · exact Or.inr enrolled
  · intro enrolled
    exact ⟨EnrolledBy.indexed there ready enrolled, EnrolledBy.inDirectory there unscanned enrolled⟩

/-- A sheltered path is that of a root with proper names behind it. -/
theorem Sheltered.parts {roots : List ProjectRoot} {uri : Text} (h : Sheltered roots uri) {u : Uri}
    (parsed : Uri.parse uri = .ok u) : ∃ root ∈ roots, ∃ below,
      Path.parts u.filePath = Path.parts root.directory ++ below ∧ Path.Proper below ∧
      ∀ name ∈ below.dropLast, name ∉ skippedDirectories := by
  obtain ⟨u', root, real, below, parsed', member, directory, path, proper, _, kept⟩ := h
  cases parsed.symm.trans parsed'
  refine ⟨root, member, below, ?_, proper.right, kept⟩
  rw [path, directory, Path.parts_render proper, Path.parts_render proper.left]

end Workspace

namespace Sample

def vendored : Disk :=
  { entries := [.directory "ws" [.directory "app" [.file "a.py" "# hx@a",
    .directory "node_modules" [.file "b.py" "# hx@b"]]]] }

def beforeIntrusion : Workspace × Except ScanError (List Tag) :=
  scanned.scan grammars vendored (config .python) "/ws"

/-- The inner file is opened, and then a file beside the project. -/
def intrusion : List Operation :=
  [.edit "file:///ws/app/node_modules/b.py" "# hx@b", .edit "file:///ws/app/../c.py" "# hx@c"]

def inner : Uri := ⟨"file", [], "/ws/app/node_modules/b.py"⟩

def outer : Uri := ⟨"file", [], "/ws/app/../c.py"⟩

end Sample

open Workspace in
/-- The scanned file is sheltered, and the one that scans leave out got into the index by its
edit. -/
theorem skipped_directories_of_intrusion :
    Sample.beforeIntrusion.2 = .ok [] ∧
    Sheltered Sample.beforeIntrusion.1.roots "file:///ws/app/a.py" ∧
    (∃ file, (run Sample.grammars Sample.beforeIntrusion.1 Sample.intrusion).index.idOf?
      "file:///ws/app/node_modules/b.py" = some file) := by
  have reachable : Reachable Sample.grammars Sample.scanned := ⟨_, _, rfl⟩
  have scanned : Sample.scanned.scan Sample.grammars Sample.vendored (Sample.config .python) "/ws" =
    (Sample.beforeIntrusion.1, .ok []) := rfl
  have faithful : ∀ item ∈ scanOrder (Sample.config .python),
      Sample.vendored.Faithful (directoryPath (Path.ofText "/ws") item.2) := by
    have order : scanOrder (Sample.config .python) = [(.backend, Text.ofString "app")] := rfl
    rw [order, List.forall_mem_singleton]
    exact Disk.faithful_of_resolved rfl rfl
  have unscanned : ∀ op ∈ Sample.intrusion, ∀ disk config root, op ≠ .scan disk config root := by
    simp [Sample.intrusion]
  obtain ⟨_, documents⟩ := skipped_directories_enter_by_edits reachable scanned (by decide) faithful
    (by decide) unscanned
  refine ⟨rfl, ?_, ?_⟩
  · rcases (documents "file:///ws/app/a.py").1 ⟨2, by decide⟩ with sheltered | enrolled
    · exact sheltered
    · obtain ⟨before, text, after, ops, _⟩ := enrolled
      have edited : Operation.edit "file:///ws/app/a.py" text ∈ Sample.intrusion := by
        rw [ops]
        exact List.mem_append_right before List.mem_cons_self
      simp only [Sample.intrusion, List.mem_cons, List.not_mem_nil, or_false,
        Operation.edit.injEq] at edited
      rcases edited with ⟨same, _⟩ | ⟨same, _⟩
      · exact absurd same (by decide)
      · exact absurd same (by decide)
  · refine ((documents "file:///ws/app/node_modules/b.py").2 ?_).1
    exact ⟨[], "# hx@b", _, rfl, by decide, ⟨.backend, by decide⟩, by simp [Operation.forgets]⟩

open Workspace in
/-- Edits bring a file into the index that scans leave out, and one whose path goes up. -/
theorem edits_take_up_skipped_files :
    Sample.beforeIntrusion.2 = .ok [] ∧
    (run Sample.grammars Sample.beforeIntrusion.1 Sample.intrusion).index.entries =
      [(Text.ofString "file:///ws/app/a.py", 2),
       (Text.ofString "file:///ws/app/node_modules/b.py", 3),
       (Text.ofString "file:///ws/app/../c.py", 4)] ∧
    (run Sample.grammars Sample.beforeIntrusion.1 Sample.intrusion).roots =
      [⟨.backend, "/ws/app"⟩] ∧
    ¬ Sheltered [⟨.backend, "/ws/app"⟩] "file:///ws/app/node_modules/b.py" ∧
    ¬ Sheltered [⟨.backend, "/ws/app"⟩] "file:///ws/app/../c.py" := by
  refine ⟨rfl, by decide, by decide, ?_, ?_⟩
  · intro sheltered
    obtain ⟨root, member, below, path, _, kept⟩ := sheltered.parts (u := Sample.inner) (by decide)
    obtain rfl := List.mem_singleton.mp member
    have names : Path.parts Sample.inner.filePath =
      Path.parts "/ws/app" ++ [Text.ofString "node_modules", Text.ofString "b.py"] := by decide
    obtain rfl := List.append_cancel_left (names.symm.trans path)
    exact kept "node_modules" (by decide) (by decide)
  · intro sheltered
    obtain ⟨root, member, below, path, proper, _⟩ := sheltered.parts (u := Sample.outer) (by decide)
    obtain rfl := List.mem_singleton.mp member
    have names : Path.parts Sample.outer.filePath =
      Path.parts "/ws/app" ++ [Path.parent, Text.ofString "c.py"] := by decide
    obtain rfl := List.append_cancel_left (names.symm.trans path)
    exact (proper Path.parent List.mem_cons_self).notParent rfl

end Hypertag
