import Hypertag.Proofs.WalkedFiles

/-!
# The order of a walk

A walk goes through the names of a directory in order, so the files come in the order of the names
that lead to them, compared name by name. That is not the order of the written paths: `a/z` comes
before `a.b`, as `a` comes before `a.b`. A path that goes up is the exception to what is listed: its
normal form may lead elsewhere, and it is the normal form that the names are written behind.
-/

namespace Hypertag

theorem DiskEntry.names_nodup {entries : List DiskEntry} (well : allWellFormed entries = true) :
    (entries.map name).Nodup := by
  induction entries with
  | nil => exact List.nodup_nil
  | cons entry rest ih =>
    simp only [allWellFormed, Bool.and_eq_true, List.all_eq_true, decide_eq_true_eq] at well
    rw [List.map_cons, List.nodup_cons]
    refine ⟨?_, ih well.2⟩
    intro again
    obtain ⟨other, member, same⟩ := List.mem_map.mp again
    exact well.1.2 other member same

namespace Disk

variable {disk : Disk} {directory root : Text} {folders : List Folder}

/-! ### Order -/

section Order

variable (well : disk.WellFormed) {entries : List DiskEntry} {depth : Nat}
include well

theorem isName_of_list (listed : disk.list directory = .ok entries) {entry : DiskEntry}
    (member : entry ∈ entries) : Path.IsName entry.name := by
  obtain ⟨p, there⟩ := entriesAt?_of_list listed
  have whole := DiskEntry.allWellFormed_of_entriesAt? well there
  exact DiskEntry.isName_of_wellFormed (DiskEntry.wellFormed_of_mem whole member)

/-- Walked files have the parts of the directory before their own. -/
theorem parts_of_walkFrom (hne : directory ≠ []) {path : Text}
    (walked : path ∈ (disk.walkFrom depth directory).files) :
    ∃ rest, Path.parts path = Path.trunk directory ++ rest := by
  induction depth generalizing directory with
  | zero => cases walked
  | succ depth ih =>
    cases listed : disk.list directory with
    | error e =>
      rw [files_of_error listed] at walked
      cases walked
    | ok entries =>
      obtain ⟨entry, member, inside⟩ := (mem_files_of_ok listed).mp walked
      have isName := isName_of_list well listed member
      rcases DiskEntry.mem_walkWith_files.mp inside with ⟨name, text, rfl, rfl⟩ |
        ⟨name, inner, rfl, _, deeper⟩
      · exact ⟨[name], Path.parts_join hne isName⟩
      · obtain ⟨rest, parts⟩ := ih (Path.join_ne_nil hne isName) deeper
        refine ⟨name :: rest, ?_⟩
        rw [parts, Path.trunk_join hne isName, List.append_assoc]
        rfl

/-- The files of an entry have its name behind the parts of the directory. -/
theorem parts_of_walkWith (hne : directory ≠ []) {entry : DiskEntry}
    (isName : Path.IsName entry.name) {path : Text}
    (inside : path ∈ (entry.walkWith (disk.walkFrom depth) directory).files) :
    ∃ rest, Path.parts path = Path.trunk directory ++ entry.name :: rest := by
  rcases DiskEntry.mem_walkWith_files.mp inside with ⟨name, text, rfl, rfl⟩ |
    ⟨name, inner, rfl, _, deeper⟩
  · exact ⟨[], Path.parts_join hne isName⟩
  · obtain ⟨rest, parts⟩ := parts_of_walkFrom well (Path.join_ne_nil hne isName) deeper
    refine ⟨rest, ?_⟩
    rw [parts, Path.trunk_join hne isName, List.append_assoc]
    rfl

/-- The parts of walked files come in their order, wherever the path of the directory leads. -/
theorem walkFrom_sorted (hne : directory ≠ []) (depth : Nat) :
    ((disk.walkFrom depth directory).files.map Path.parts).Pairwise (· < ·) := by
  induction depth generalizing directory with
  | zero => exact List.Pairwise.nil
  | succ depth ih =>
    cases listed : disk.list directory with
    | error e =>
      rw [files_of_error listed]
      exact List.Pairwise.nil
    | ok entries =>
      obtain ⟨p, there⟩ := entriesAt?_of_list listed
      have distinct := DiskEntry.names_nodup (DiskEntry.allWellFormed_of_entriesAt? well there)
      have names : ∀ entry ∈ Text.sortBy DiskEntry.name entries, Path.IsName entry.name :=
        fun entry member => isName_of_list well listed
          ((Text.sortBy_perm DiskEntry.name entries).mem_iff.mp member)
      have sorted := List.pairwise_map.mp (Text.sortBy_strict distinct)
      rw [walkFrom_of_ok listed, Walk.concat, List.flatMap_map, List.map_flatMap,
        List.pairwise_flatMap]
      constructor
      · intro entry member
        have isName := names entry member
        cases entry with
        | file name text => exact List.pairwise_singleton _ _
        | link name target => exact List.Pairwise.nil
        | directory name inner =>
          rw [DiskEntry.walkWith]
          split
          · exact List.Pairwise.nil
          · exact ih (Path.join_ne_nil hne isName)
      · refine sorted.imp_of_mem ?_
        intro entry later member member' less a first b second
        obtain ⟨path, inside, rfl⟩ := List.mem_map.mp first
        obtain ⟨path', inside', rfl⟩ := List.mem_map.mp second
        obtain ⟨rest, parts⟩ := parts_of_walkWith well hne (names entry member) inside
        obtain ⟨rest', parts'⟩ := parts_of_walkWith well hne (names later member') inside'
        rw [parts, parts']
        exact List.append_left_lt (List.cons_lt_cons_iff.mpr (Or.inl less))

end Order

/-! ### Normal forms -/

/-- Steps with some empty ones and some `.` left out. -/
inductive Trims : List Text → List Text → Prop
  | nil : Trims [] []
  | keep {rest kept : List Text} (step : Text) :
      Trims rest kept → Trims (step :: rest) (step :: kept)
  | drop {rest kept : List Text} {step : Text} :
      step = [] ∨ step = Path.here → Trims rest kept → Trims (step :: rest) kept

theorem Trims.append {steps kept : List Text} (h : Trims steps kept) (before : List Text) :
    Trims (before ++ steps) (before ++ kept) := by
  induction before with
  | nil => exact h
  | cons step rest ih => exact .keep step ih

theorem trims_filter (steps : List Text) :
    Trims steps (steps.filter fun step => !step.isEmpty && step ≠ Path.here) := by
  induction steps with
  | nil => exact .nil
  | cons step rest ih =>
    rw [List.filter_cons]
    split
    · exact .keep step ih
    · next left =>
      refine .drop ?_ ih
      by_contra other
      rw [not_or] at other
      simp [other.1, other.2] at left

section Trim

variable {reached : List Folder}

/-- A directory is also found without steps that stay where they are. -/
theorem lookupWith_trims {onLink : List Folder → List Text → Except Fault Found}
    (links : ∀ from_ steps kept, Trims steps kept → onLink from_ steps = .ok (.folder reached) →
      onLink from_ kept = .ok (.folder reached)) {steps kept : List Text} (trims : Trims steps kept)
    (h : disk.lookupWith onLink folders steps = .ok (.folder reached)) :
    disk.lookupWith onLink folders kept = .ok (.folder reached) := by
  induction trims generalizing folders with
  | nil => exact h
  | drop stays _ ih =>
    rcases lookupWith_cons_ok.mp h with ⟨_, later⟩ | ⟨some, _, ⟨_, later⟩ | ⟨up, _⟩ | ⟨name, _⟩⟩
    · exact ih later
    · exact ih later
    · subst up
      exact absurd stays (by decide)
    · exact absurd stays (not_or_intro some name)
  | keep step trims ih =>
    rw [lookupWith_cons_ok] at h ⊢
    rcases h with ⟨empty, later⟩ | ⟨some, enters, go⟩
    · exact Or.inl ⟨empty, ih later⟩
    · refine Or.inr ⟨some, enters, ?_⟩
      rcases go with ⟨stays, later⟩ | ⟨up, later⟩ | ⟨name, name', down⟩
      · exact Or.inl ⟨stays, ih later⟩
      · exact Or.inr (Or.inl ⟨up, ih later⟩)
      · refine Or.inr (Or.inr ⟨name, name', ?_⟩)
        rcases down with ⟨listed, inner, entered, later⟩ | ⟨_, _, _, _, last⟩ |
          ⟨listed, target, linked, again⟩ | ⟨_, _, last⟩
        · exact Or.inl ⟨listed, inner, entered, ih later⟩
        · cases last
        · exact Or.inr (Or.inr (Or.inl ⟨listed, target, linked,
            links _ _ _ (trims.append _) again⟩))
        · cases last

theorem lookup_trims {links : Nat} {steps kept : List Text} (trims : Trims steps kept)
    (h : disk.lookup links folders steps = .ok (.folder reached)) :
    disk.lookup links folders kept = .ok (.folder reached) := by
  induction links generalizing folders steps kept with
  | zero =>
    refine lookupWith_trims ?_ trims h
    intro _ _ _ _ again
    cases again
  | succ links ih =>
    refine lookupWith_trims ?_ trims h
    intro _ _ _ more again
    exact ih more again

end Trim

/-- A path that does not go up leads to the same directory as its normal form. -/
theorem reach_trunk (flat : Path.parent ∉ Path.parts root)
    (reached : disk.resolve root = .ok (.folder folders)) :
    disk.reach (Path.trunk root) = .ok (.folder folders) := by
  have hne := ne_nil_of_resolve reached
  have found := ((resolve_eq_ok hne).mp reached).1
  have proper : Path.Proper (Path.parts root) := by
    intro part member
    refine (Path.name_of_mem_parts member).resolve_right ?_
    rintro rfl
    exact flat member
  have trunk : Path.trunk root = Path.parts root := by
    rw [Path.trunk, Path.reduce, Path.follow_names proper, List.append_nil, List.reverse_reverse]
  rw [trunk, ← Path.filter_steps]
  exact lookup_trims (trims_filter _) found

/-! ### The walk of a directory -/

/-- A walk of a directory lists every file below it that is reached through no link and through no
directory that is left out or cannot be listed, and nothing else. It reports every directory on
these ways that cannot be listed. Each file is listed once, under the names that lead to it, in the
order of these names. If the path of the directory goes up, its normal form has to lead to the same
directory. -/
theorem walk_lists_files_in_order (well : disk.WellFormed)
    (reached : disk.resolve root = .ok (.folder folders))
    (direct : Path.parent ∈ Path.parts root →
      disk.reach (Path.trunk root) = .ok (.folder folders)) :
    (∀ path, path ∈ (disk.walk root).files ↔
      ∃ below, (∃ text, textAt? (disk.current folders) below = some text) ∧
        (∀ name ∈ below.dropLast, name ∉ skippedDirectories) ∧ disk.ListsDown root below ∧
        path = below.foldl Path.join root) ∧
    (∀ e, e ∈ (disk.walk root).skipped ↔
      ∃ below, (∃ inner, entriesAt? (disk.current folders) below = some inner) ∧
        (∀ name ∈ below, name ∉ skippedDirectories) ∧ disk.ListsDown root below ∧
        disk.list (below.foldl Path.join root) = .error e) ∧
    (∀ below text, textAt? (disk.current folders) below = some text →
      Path.parts (below.foldl Path.join root) = Path.trunk root ++ below) ∧
    ((disk.walk root).files.map Path.parts).Pairwise (· < ·) ∧
    (disk.walk root).files.Nodup := by
  have hne := ne_nil_of_resolve reached
  have current := DiskEntry.allWellFormed_of_entriesAt? well (stands_of_resolve reached).entriesAt?
  have same : disk.reach (Path.trunk root) = .ok (.folder folders) := by
    by_cases up : Path.parent ∈ Path.parts root
    · exact direct up
    · exact reach_trunk up reached
  have sorted : ((disk.walk root).files.map Path.parts).Pairwise (· < ·) :=
    walkFrom_sorted well hne _
  refine ⟨fun _ => mem_walk_files well reached same, fun _ => mem_walk_skipped well reached same,
    ?_, sorted, ?_⟩
  · intro below text file
    refine Path.parts_foldl_join hne (DiskEntry.proper_of_textAt? current file) ?_
    rintro rfl
    cases file
  · have apart : ((disk.walk root).files.map Path.parts).Nodup := by
      refine sorted.imp ?_
      rintro path _ less rfl
      exact List.lt_irrefl path less
    exact apart.of_map

end Disk

namespace Sample

def dotted : Disk := { entries := [.directory "ws" [.file "a.b" "", .link "l" "a",
  .file "target" "", .directory "target.d" [], .directory "node_modules" [.file "c" ""],
  .directory "a" [.file "z" "", .directory ".git" [.file "d" ""]]]] }

def twins : Disk := { entries := [.directory "ws" [.directory "x" [.directory "y" [],
  .directory "t" [.file "b.py" ""]], .directory "t" [.file "c.py" ""], .link "s" "x/y"]] }

end Sample

open Disk in
/-- The walk of a path that goes up to the directory it came from. -/
theorem walk_of_dotted :
    (Sample.dotted.walk "/ws/a/..").files =
      ["/ws/a/z", "/ws/a.b", "/ws/target"].map Text.ofString ∧
    ((Sample.dotted.walk "/ws/a/..").files.map Path.parts).Pairwise (· < ·) := by
  have order := @walk_lists_files_in_order Sample.dotted "/ws/a/.." _ (by decide) rfl fun _ => rfl
  exact ⟨by decide, order.2.2.2.1⟩

open Disk in
/-- Behind a link the textual normal form of a path that goes up leads to another directory, and the
walk lists the files of that one. -/
theorem walk_behind_link : Sample.twins.WellFormed ∧ ∃ folders,
    Sample.twins.resolve "/ws/s/.." = .ok (.folder folders) ∧
    textAt? (Sample.twins.current folders) ["t", "b.py"] = some [] ∧
    textAt? (Sample.twins.current folders) ["t", "c.py"] = none ∧
    (Sample.twins.walk "/ws/s/..").files = [Text.ofString "/ws/t/c.py"] := by
  have link : Sample.twins.reach (["ws", "s"].map Text.ofString) = _ := rfl
  have back : Sample.twins.reach (["ws", "s"].map Text.ofString ++ [Path.parent]) = _ :=
    lookup_append (fun _ => rfl) link
  have steps : Path.steps "/ws/s/.." = ["ws", "s"].map Text.ofString ++ [Path.parent] := by
    decide
  refine ⟨by decide, _, (resolve_eq_ok (by decide)).mpr ⟨steps ▸ back, by simp⟩, ?_, ?_, ?_⟩
  · decide
  · decide
  · decide +kernel

end Hypertag
