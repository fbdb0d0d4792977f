import Hypertag.Proofs.Alike

/-!
# A scan that fails

A scan ends at the first directory that does not become a root, because it is missing or because
its canonical path cannot be formed. What it leaves behind is what a scan of the directories before
that one leaves behind, and no later answer tells the two apart. The log is left out. Where links
make a canonical path endless, the scan does not come back.
-/

namespace Hypertag

/-- The settings with only the first directories in scan order. -/
def Config.cut (config : Config) (count : Nat) : Config :=
  { config with
    templates := config.templates.take count
    jsTags := config.jsTags.take (count - config.templates.length)
    backendTags :=
      config.backendTags.take (count - (config.templates.length + config.jsTags.length)) }

theorem Config.cut_sameKinds (config : Config) (count : Nat) :
    SameKinds (config.cut count) config :=
  ⟨rfl, rfl⟩

namespace Workspace

theorem scanOrder_cut (config : Config) (count : Nat) :
    scanOrder (config.cut count) = (scanOrder config).take count := by
  simp [scanOrder, Config.directoryGroups, Domain.groups, Config.cut, List.take_append,
    List.map_take, Nat.sub_sub]

structure SameAnswers (g : Grammars) (a b : Workspace) : Prop where
  edit : ∀ uri text, (b.edit g uri text).2 = (a.edit g uri text).2
  save : ∀ uri, (b.save uri).2 = (a.save uri).2
  hover : ∀ uri p, b.hover g uri p = a.hover g uri p
  completion : ∀ uri p, b.completion g uri p = a.completion g uri p
  gotoDefinition : ∀ uri p, (b.gotoDefinition g uri p).2 = (a.gotoDefinition g uri p).2

theorem Alike.sameAnswers {a b : Workspace} (h : Alike a b) (g : Grammars) : SameAnswers g a b where
  edit uri text := (h.edit g uri text).answer
  save uri := (h.save uri).answer
  hover := h.hover g
  completion := h.completion g
  gotoDefinition uri p := (h.gotoDefinition g uri p).answer

/-- The settings cut to some directories can be scanned, and the scan of all leaves the same behind,
for all that is asked and done afterwards. -/
structure EndsAfter (g : Grammars) (disk : Disk) (ws : Workspace) (config : Config) (root : Text)
    (count : Nat) : Prop where
  succeeds : ∃ refused, (ws.scan g disk (config.cut count) root).2 = .ok refused
  state : Alike (ws.scan g disk (config.cut count) root).1 (ws.scan g disk config root).1
  answers : ∀ ops, SameAnswers g ((ws.scan g disk (config.cut count) root).1.run g ops)
    ((ws.scan g disk config root).1.run g ops)

theorem scannable_congr {disk : Disk} {c d : Config} (kinds : Config.SameKinds c d) {base : Path}
    {item : Domain × Text} : Scannable disk d base item ↔ Scannable disk c base item := by
  simp only [Scannable, FilesEnd, kinds.classify]

section Fault

variable (g : Grammars) {disk : Disk} {ws : Workspace} {config : Config} {root : Text}
  {done rest : List (Domain × Text)} {item : Domain × Text} (ready : ws.ready = true)
  (order : scanOrder config = done ++ item :: rest)
  (clean : ∀ x ∈ done, Scannable disk config (Path.ofText root) x)
include ready order clean

/-- The directories before the first fault are read as if there were no others. -/
theorem scan_of_fault {e : ScanError}
    (fault : projectRoot disk (Path.ofText root) item = .error e) :
    (ws.scan g disk config root).2 = .error e ∧ EndsAfter g disk ws config root done.length := by
  have kinds := config.cut_sameKinds done.length
  have cut : scanOrder (config.cut done.length) = done := by
    rw [scanOrder_cut, order, List.take_left]
  obtain ⟨after, totals, loop⟩ := (scanDirectories_ok_iff g disk (config.cut done.length)
    (Path.ofText root) (ws.restarted (config.cut done.length)) ⟨0, []⟩ done).mpr
      fun x hx => (scannable_congr kinds).mp (clean x hx)
  have started := restarted_alike ready ready rfl rfl kinds
  have same := started.scanDirectories g disk (config.cut done.length) (Path.ofText root) ⟨0, []⟩
    done
  rw [← scanDirectories_congr g disk kinds (Path.ofText root) (ws.restarted config), loop] at same
  cases whole : scanDirectories g disk config (Path.ofText root) (ws.restarted config) ⟨0, []⟩
    done with
  | mk after' result =>
    rw [whole] at same
    obtain ⟨alike, answer⟩ := same
    obtain rfl : result = .ok totals := answer
    have loop' : scanDirectories g disk config (Path.ofText root) (ws.restarted config) ⟨0, []⟩
        (scanOrder config) = (after', .error e) := by
      rw [order, scanDirectories_append g disk config (Path.ofText root) whole,
        scanDirectories_of_fault g config after' totals fault]
    obtain ⟨log, scanned⟩ := scan_of_ok g ready (by rw [cut]; exact loop)
    have failed := scan_of_error g ready loop'
    have state : Alike (ws.scan g disk (config.cut done.length) root).1
        (ws.scan g disk config root).1 := by
      rw [scanned, failed]
      exact alike.relog log after'.log
    refine ⟨by rw [failed], ⟨_, by rw [scanned]⟩, state, ?_⟩
    intro ops
    exact (state.run g ops).sameAnswers g

theorem scan_of_endless {made : ProjectRoot}
    (becomes : projectRoot disk (Path.ofText root) item = .ok made)
    (endless : ¬ FilesEnd disk config (Path.ofText root) item) :
    (ws.scan g disk config root).2 = .error .endless := by
  obtain ⟨between, totals, loop⟩ := (scanDirectories_ok_iff g disk config (Path.ofText root)
    (ws.restarted config) ⟨0, []⟩ done).mpr clean
  obtain ⟨after, stuck⟩ : ∃ after,
      addDirectory g disk config (Path.ofText root) between totals item made =
        (after, .error .endless) := by
    rcases addDirectory_result g config between totals made with ⟨end_, _⟩ | ⟨_, stuck⟩
    · exact absurd end_ endless
    · exact stuck
  have failed : scanDirectories g disk config (Path.ofText root) (ws.restarted config) ⟨0, []⟩
      (scanOrder config) = (after, .error .endless) := by
    rw [order, scanDirectories_append g disk config (Path.ofText root) loop,
      scanDirectories_of_root g config between totals becomes, stuck, andThen]
  rw [scan_of_error g ready failed]

end Fault

section Root

variable {disk : Disk} {base : Path} {item : Domain × Text}

theorem projectRoot_of_missing (missing : disk.isDirectory (directoryPath base item.2) = false) :
    projectRoot disk base item = .error (.noDirectory (directoryPath base item.2)) := by
  simp [projectRoot, missing]

theorem projectRoot_of_resolved {real : Path}
    (directory : disk.isDirectory (directoryPath base item.2) = true)
    (resolved : disk.canonical (directoryPath base item.2) = .ok real) :
    projectRoot disk base item = .ok ⟨item.1, Path.render real⟩ := by
  simp only [projectRoot, directory, if_true, resolved]

theorem projectRoot_of_unresolved {e : CanonicalError}
    (directory : disk.isDirectory (directoryPath base item.2) = true)
    (unresolved : disk.canonical (directoryPath base item.2) = .error e) :
    projectRoot disk base item = .error e.scanError := by
  simp only [projectRoot, directory, if_true, unresolved]

end Root

/-- Whether a directory has a canonical path, and the canonical path of every file that is claimed
in it comes to an end. -/
def Resolves (disk : Disk) (config : Config) (base : Path) (item : Domain × Text) : Prop :=
  (∃ real, disk.canonical (directoryPath base item.2) = .ok real) ∧ FilesEnd disk config base item

theorem Resolves.scannable {disk : Disk} {config : Config} {base : Path} {item : Domain × Text}
    (h : Resolves disk config base item)
    (directory : disk.isDirectory (directoryPath base item.2) = true) :
    Scannable disk config base item := by
  obtain ⟨⟨real, formed⟩, end_⟩ := h
  exact ⟨⟨_, projectRoot_of_resolved directory formed⟩, end_⟩

/-- Either all directories can be resolved, or there is a first one that cannot. -/
theorem resolves_or_first_not (disk : Disk) (config : Config) (base : Path)
    (items : List (Domain × Text)) :
    (∀ x ∈ items, Resolves disk config base x) ∨ ∃ done x more, items = done ++ x :: more ∧
      (∀ y ∈ done, Resolves disk config base y) ∧ ¬ Resolves disk config base x := by
  classical
  cases first : items.find? (fun x => decide (¬ Resolves disk config base x)) with
  | none => exact Or.inl (by simpa using first)
  | some x =>
    obtain ⟨fails, done, more, split, clean⟩ := List.find?_eq_some_iff_append.mp first
    exact Or.inr ⟨done, x, more, split, by simpa using clean, by simpa using fails⟩

/-- A scan with a missing directory fails and leaves the state of the scan of the directories before
the one that it fails at. That one is the first missing directory, unless a directory before it has
no canonical path; then it is the first such directory. It does not come to an end if it first meets
a directory, or a file in it, with an endless canonical path. -/
theorem failed_scan_is_truncated (g : Grammars) {disk : Disk} {ws : Workspace} {config : Config}
    {root : Text} {before rest : List (Domain × Text)} {item : Domain × Text}
    (ready : ws.ready = true) (order : scanOrder config = before ++ item :: rest)
    (directories : ∀ x ∈ before,
      disk.isDirectory (directoryPath (Path.ofText root) x.2) = true)
    (missing : disk.isDirectory (directoryPath (Path.ofText root) item.2) = false) :
    ((∀ x ∈ before, Resolves disk config (Path.ofText root) x) ∧
      (ws.scan g disk config root).2 =
        .error (.noDirectory (directoryPath (Path.ofText root) item.2)) ∧
      EndsAfter g disk ws config root before.length) ∨
    ∃ done x more, before = done ++ x :: more ∧
      (∀ y ∈ done, Resolves disk config (Path.ofText root) y) ∧
      ((∃ e, disk.canonical (directoryPath (Path.ofText root) x.2) = .error (.disk e) ∧
        (ws.scan g disk config root).2 = .error (.disk e) ∧
        EndsAfter g disk ws config root done.length) ∨
      (disk.canonical (directoryPath (Path.ofText root) x.2) = .error .endless ∨
          ¬ FilesEnd disk config (Path.ofText root) x) ∧
        (ws.scan g disk config root).2 = .error .endless) := by
  rcases resolves_or_first_not disk config (Path.ofText root) before with
    resolved | ⟨done, x, more, rfl, resolved, unresolved⟩
  · refine Or.inl ⟨resolved, scan_of_fault g ready order ?_ (projectRoot_of_missing missing)⟩
    intro x hx
    exact (resolved x hx).scannable (directories x hx)
  · have directory := directories x (List.mem_append_right done List.mem_cons_self)
    have order : scanOrder config = done ++ x :: (more ++ item :: rest) := by
      rw [order, List.append_assoc, List.cons_append]
    have clean : ∀ y ∈ done, Scannable disk config (Path.ofText root) y := fun y hy =>
      (resolved y hy).scannable (directories y (List.mem_append_left _ hy))
    refine Or.inr ⟨done, x, more, rfl, resolved, ?_⟩
    cases formed : disk.canonical (directoryPath (Path.ofText root) x.2) with
    | error e =>
      have failed := scan_of_fault g ready order clean (projectRoot_of_unresolved directory formed)
      cases e with
      | disk e => exact Or.inl ⟨e, rfl, failed⟩
      | endless => exact Or.inr ⟨Or.inl rfl, failed.1⟩
    | ok real =>
      have endless : ¬ FilesEnd disk config (Path.ofText root) x := fun end_ =>
        unresolved ⟨⟨real, formed⟩, end_⟩
      have becomes := projectRoot_of_resolved directory formed
      exact Or.inr ⟨Or.inr endless, scan_of_endless g ready order clean becomes endless⟩

end Workspace

namespace Sample

def missingConfig : Config :=
  { config .python with backendTags := ["app", "missing", "app"] }

/-- A directory behind a link whose target goes up from another link. -/
def upwards : Disk :=
  { entries := [.directory "ws" [.directory "x" [.directory "t" [], .directory "y" []],
    .link "s" "x/y", .link "d" "s/../t"]] }

end Sample

open Workspace in
/-- The files before the missing directory are numbered anew and stay. -/
theorem truncated_at_missing :
    (Sample.scanned.scan Sample.grammars Sample.disk Sample.missingConfig "/ws").2 =
      .error (.noDirectory "/ws/missing") ∧
    (Sample.scanned.scan Sample.grammars Sample.disk Sample.missingConfig "/ws").1.index.entries =
      [(Text.ofString "file:///ws/app/x.py", 2), (Text.ofString "file:///ws/app/y.py", 3)] ∧
    EndsAfter Sample.grammars Sample.disk Sample.scanned Sample.missingConfig "/ws" 1 := by
  have order : scanOrder Sample.missingConfig = [(.backend, Text.ofString "app")] ++
    (.backend, Text.ofString "missing") :: [(.backend, Text.ofString "app")] := rfl
  have resolves : Resolves Sample.disk Sample.missingConfig (Path.ofText "/ws")
      (.backend, Text.ofString "app") := by
    refine ⟨⟨[Text.ofString "ws", Text.ofString "app"], rfl⟩, ?_⟩
    unfold FilesEnd
    decide
  have ready : Sample.scanned.ready = true := by decide
  have missing : Sample.disk.isDirectory (directoryPath (Path.ofText "/ws") "missing") = false := by
    decide
  rcases failed_scan_is_truncated Sample.grammars ready order (by decide) missing with
    ⟨_, failed, ends⟩ | ⟨done, x, more, split, _, unresolved⟩
  · exact ⟨failed, by decide, ends⟩
  · have member : x ∈ [(Domain.backend, Text.ofString "app")] := by simp [split]
    obtain rfl := List.mem_singleton.mp member
    obtain ⟨⟨real, formed⟩, end_⟩ := resolves
    rcases unresolved with ⟨e, failed, _⟩ | ⟨failed | endless, _⟩
    · cases formed.symm.trans failed
    · cases formed.symm.trans failed
    · exact absurd end_ endless

open Workspace in
/-- The scan fails at a directory, before it comes to the missing one. -/
theorem scan_fails_before_missing :
    (run Sample.grammars (new Sample.log) [.load]).ready = true ∧
    Sample.upwards.isDirectory "/ws/d" = true ∧
    Sample.upwards.isDirectory "/ws/missing" = false ∧
    ((run Sample.grammars (new Sample.log) [.load]).scan Sample.grammars Sample.upwards
      { Sample.config .python with templates := ["d", "missing"] } "/ws").2 =
        .error (.disk ⟨.noEntry, .lstat, "/ws/t"⟩) :=
  ⟨by decide, by decide, by decide, rfl⟩

end Hypertag
