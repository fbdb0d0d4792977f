import Hypertag.Disk.Walk
import Hypertag.Proofs.Encoding
import Hypertag.Proofs.LinkFree
import Hypertag.Proofs.Listing

/-!
# What a walk lists

A walk lists the files below a directory that are reached without links and without going through
a directory that is left out or cannot be listed, each by the names that lead to it. It reports the
directories that cannot be listed. The order of the list is left out.
-/

namespace Hypertag

namespace DiskEntry

/-! ### Well-formed entries -/

/-- Whether a text can name an entry: it can stand in a path, and its characters are whole. -/
def isEntryName (name : Text) : Bool := Path.IsName name ∧ name.mended = name

mutual

/-- Whether all names in an entry can name one, and no directory in it has a name twice. -/
def wellFormed : DiskEntry → Bool
  | .file name _ => isEntryName name
  | .link name _ => isEntryName name
  | .directory name entries => isEntryName name && allWellFormed entries

def allWellFormed : List DiskEntry → Bool
  | [] => true
  | entry :: rest =>
    entry.wellFormed && rest.all (·.name ≠ entry.name) && allWellFormed rest

end

theorem isEntryName_of_wellFormed {entry : DiskEntry} (h : entry.wellFormed = true) :
    isEntryName entry.name = true := by
  cases entry with
  | file name text => exact h
  | link name target => exact h
  | directory name entries => exact (Bool.and_eq_true_iff.mp h).1

theorem isName_of_wellFormed {entry : DiskEntry} (h : entry.wellFormed = true) :
    Path.IsName entry.name :=
  (of_decide_eq_true (isEntryName_of_wellFormed h)).1

section Entries

variable {entries : List DiskEntry} (h : allWellFormed entries = true)
include h

theorem wellFormed_of_mem {entry : DiskEntry} (member : entry ∈ entries) :
    entry.wellFormed = true := by
  induction entries with
  | nil => cases member
  | cons first rest ih =>
    simp only [allWellFormed, Bool.and_eq_true] at h
    rcases List.mem_cons.mp member with rfl | later
    · exact h.1.1
    · exact ih h.2 later

/-- An entry is found by its name. -/
theorem find?_of_mem {entry : DiskEntry} (member : entry ∈ entries) :
    Disk.find? entries entry.name = some entry := by
  induction entries with
  | nil => cases member
  | cons first rest ih =>
    simp only [allWellFormed, Bool.and_eq_true, List.all_eq_true, decide_eq_true_eq] at h
    rcases List.mem_cons.mp member with rfl | later
    · exact List.find?_cons_of_pos (by simp)
    · have other := h.1.2 entry later
      rw [Disk.find?, List.find?_cons_of_neg (by simpa using Ne.symm other)]
      exact ih h.2 later

theorem wellFormed_of_find? {name : Text} {entry : DiskEntry}
    (found : Disk.find? entries name = some entry) : entry.wellFormed = true :=
  wellFormed_of_mem h (List.mem_of_find?_eq_some found)

theorem isEntryName_of_find? {name : Text} {entry : DiskEntry}
    (found : Disk.find? entries name = some entry) : isEntryName name = true := by
  have named := isEntryName_of_wellFormed (wellFormed_of_find? h found)
  rw [Disk.find?_name found] at named
  exact named

theorem allWellFormed_of_find? {name listed : Text} {inner : List DiskEntry}
    (found : Disk.find? entries name = some (.directory listed inner)) :
    allWellFormed inner = true :=
  (Bool.and_eq_true_iff.mp (wellFormed_of_find? h found)).2

theorem allWellFormed_of_entriesAt? {path : Path} {inner : List DiskEntry}
    (found : Disk.entriesAt? entries path = some inner) : allWellFormed inner = true := by
  induction path generalizing entries with
  | nil =>
    cases found
    exact h
  | cons name rest ih =>
    obtain ⟨between, entered, deeper⟩ := Disk.entriesAt?_cons.mp found
    exact ih (allWellFormed_of_find? h entered) deeper

/-- The names on the way to a file are names of entries. -/
theorem names_of_textAt? {path : Path} {text : Text}
    (found : Disk.textAt? entries path = some text) : ∀ name ∈ path, isEntryName name = true := by
  induction path generalizing entries with
  | nil => cases found
  | cons first rest ih =>
    rcases Disk.textAt?_cons.mp found with ⟨rfl, there⟩ | ⟨inner, entered, deeper⟩
    · exact List.forall_mem_singleton.mpr (isEntryName_of_find? h there)
    · exact List.forall_mem_cons.mpr ⟨isEntryName_of_find? h entered,
        ih (allWellFormed_of_find? h entered) deeper⟩

theorem proper_of_textAt? {path : Path} {text : Text}
    (found : Disk.textAt? entries path = some text) : Path.Proper path := fun name member =>
  (of_decide_eq_true (names_of_textAt? h found name member)).1

end Entries

theorem maxHeight_of_find? {entries inner : List DiskEntry} {name listed : Text}
    (found : Disk.find? entries name = some (.directory listed inner)) :
    maxHeight inner < maxHeight entries := by
  have member := List.mem_of_find?_eq_some found
  clear found
  induction entries with
  | nil => cases member
  | cons first rest ih =>
    rw [maxHeight]
    rcases List.mem_cons.mp member with rfl | later
    · exact Nat.lt_of_lt_of_le (Nat.lt_succ_self _) (Nat.le_max_left _ _)
    · exact Nat.lt_of_lt_of_le (ih later) (Nat.le_max_right _ _)

theorem maxHeight_lt_of_find? {entries inner : List DiskEntry} {name listed : Text} {depth : Nat}
    (found : Disk.find? entries name = some (.directory listed inner))
    (deep : maxHeight entries < depth + 1) : maxHeight inner < depth :=
  Nat.lt_of_lt_of_le (maxHeight_of_find? found) (Nat.le_of_lt_succ deep)

theorem maxHeight_of_entriesAt? {entries inner : List DiskEntry} {path : Path}
    (found : Disk.entriesAt? entries path = some inner) : maxHeight inner ≤ maxHeight entries := by
  induction path generalizing entries with
  | nil =>
    cases found
    exact Nat.le_refl _
  | cons name rest ih =>
    obtain ⟨between, entered, deeper⟩ := Disk.entriesAt?_cons.mp found
    exact (ih deeper).trans (maxHeight_of_find? entered).le

/-! ### One entry -/

section Entry

variable {descend : Text → Walk} {directory path : Text} {entry : DiskEntry} {e : DiskError}

theorem mem_walkWith_files : path ∈ (entry.walkWith descend directory).files ↔
    (∃ name text, entry = .file name text ∧ path = Path.join directory name) ∨
      ∃ name inner, entry = .directory name inner ∧ name ∉ skippedDirectories ∧
        path ∈ (descend (Path.join directory name)).files := by
  cases entry with
  | file name text => simp [walkWith, @eq_comm _ name, @eq_comm _ text]
  | link name target => simp [walkWith, Walk.empty]
  | directory name inner =>
    by_cases left : name ∈ skippedDirectories <;> simp [walkWith, Walk.empty, left]

theorem mem_walkWith_skipped : e ∈ (entry.walkWith descend directory).skipped ↔
    ∃ name inner, entry = .directory name inner ∧ name ∉ skippedDirectories ∧
      e ∈ (descend (Path.join directory name)).skipped := by
  cases entry with
  | file name text => simp [walkWith]
  | link name target => simp [walkWith, Walk.empty]
  | directory name inner =>
    by_cases left : name ∈ skippedDirectories <;> simp [walkWith, Walk.empty, left]

end Entry

end DiskEntry

namespace Disk

/-- A disk as there can be one. -/
def WellFormed (disk : Disk) : Prop := DiskEntry.allWellFormed disk.entries = true

instance (disk : Disk) : Decidable disk.WellFormed := inferInstanceAs (Decidable (_ = true))

/-- Whether all directories on the way down from a written directory can be listed. -/
def ListsDown (disk : Disk) : Text → Path → Prop
  | _, [] => True
  | directory, name :: rest =>
    (∃ entries, disk.list directory = .ok entries) ∧
      disk.ListsDown (Path.join directory name) rest

variable {disk : Disk} {directory path : Text} {folders : List Folder} {entries : List DiskEntry}
  {depth : Nat} {e : DiskError}

theorem listsDown_iff {below : Path} : disk.ListsDown directory below ↔
    ∀ q name rest, below = q ++ name :: rest →
      ∃ entries, disk.list (q.foldl Path.join directory) = .ok entries := by
  induction below generalizing directory with
  | nil => simp [ListsDown]
  | cons name below ih =>
    rw [ListsDown, ih]
    constructor
    · rintro ⟨first, later⟩ (_ | ⟨next, q⟩) last rest split
      · exact first
      · obtain ⟨rfl, behind⟩ := List.cons.inj split
        exact later q last rest behind
    · intro all
      refine ⟨all [] name below rfl, ?_⟩
      rintro q last rest rfl
      exact all (name :: q) last rest rfl

theorem entriesAt?_above {entries : List DiskEntry} {q rest : Path} {name text : Text}
    (file : textAt? entries (q ++ name :: rest) = some text) :
    ∃ inner, entriesAt? entries q = some inner := by
  induction q generalizing entries with
  | nil => exact ⟨entries, rfl⟩
  | cons first q ih =>
    rcases textAt?_cons.mp file with ⟨last, _⟩ | ⟨inner, found, deeper⟩
    · simp at last
    · obtain ⟨below, there⟩ := ih deeper
      exact ⟨below, entriesAt?_cons.mpr ⟨inner, found, there⟩⟩

/-- The directories above a file are listed through any path to the directory at the top. -/
theorem listsDown_congr {p p' below : Path} {text : Text} (proper : Path.Proper p)
    (proper' : Path.Proper p') (reached : disk.reach p = .ok (.folder folders))
    (reached' : disk.reach p' = .ok (.folder folders)) (inner : Path.Proper below)
    (file : textAt? (disk.current folders) below = some text) :
    disk.ListsDown (Path.render p) below ↔ disk.ListsDown (Path.render p') below := by
  rw [listsDown_iff, listsDown_iff]
  refine forall_congr' fun q => forall_congr' fun name => forall_congr' fun rest =>
    forall_congr' fun split => ?_
  subst split
  obtain ⟨entries, inside⟩ := entriesAt?_above file
  rw [Path.foldl_join_render proper inner.left, Path.foldl_join_render proper' inner.left,
    list_below proper reached inner.left inside, list_below proper' reached' inner.left inside]
  split <;> simp

theorem list_of_reach (hne : path ≠ [])
    (reached : disk.reach (Path.steps path) = .ok (.folder folders)) :
    disk.list path = if disk.allows .list (pathOf folders) then .ok (disk.current folders)
      else .error ⟨.denied, .scandir, path⟩ := by
  rw [list, resolve_of_reach hne reached (by simp)]

theorem list_eq_ok : disk.list path = .ok entries ↔ ∃ folders,
    disk.resolve path = .ok (.folder folders) ∧ disk.allows .list (pathOf folders) = true ∧
      disk.current folders = entries := by
  unfold list
  cases disk.resolve path with
  | error fault => simp
  | ok found =>
    cases found with
    | file above name text => simp
    | nothing above name => simp
    | folder folders => cases allowed : disk.allows .list (pathOf folders) <;> simp [allowed]

theorem ne_nil_of_resolve {found : Found} (resolved : disk.resolve path = .ok found) :
    path ≠ [] := by
  rintro rfl
  cases resolved

theorem stands_of_resolve (resolved : disk.resolve path = .ok (.folder folders)) :
    disk.Stands folders :=
  reach_stands ((resolve_eq_ok (ne_nil_of_resolve resolved)).mp resolved).1

/-- Whatever is listed is the contents of a directory of the disk. -/
theorem entriesAt?_of_list (listed : disk.list path = .ok entries) :
    ∃ p, entriesAt? disk.entries p = some entries := by
  obtain ⟨folders, resolved, _, rfl⟩ := list_eq_ok.mp listed
  exact ⟨_, (stands_of_resolve resolved).entriesAt?⟩

/-! ### One directory -/

theorem walkFrom_of_error (failed : disk.list directory = .error e) (deep : 0 < depth) :
    disk.walkFrom depth directory = ⟨[], [e]⟩ := by
  obtain ⟨less, rfl⟩ := Nat.exists_eq_add_one_of_ne_zero deep.ne'
  rw [walkFrom, failed]

theorem walkFrom_of_ok (listed : disk.list directory = .ok entries) :
    disk.walkFrom (depth + 1) directory = .concat ((Text.sortBy DiskEntry.name entries).map
      (DiskEntry.walkWith (disk.walkFrom depth) directory)) := by
  rw [walkFrom, listed]

theorem mem_files_of_ok (listed : disk.list directory = .ok entries) :
    path ∈ (disk.walkFrom (depth + 1) directory).files ↔
      ∃ entry ∈ entries, path ∈ (entry.walkWith (disk.walkFrom depth) directory).files := by
  rw [walkFrom_of_ok listed, Walk.concat]
  simp only [List.mem_flatMap, List.mem_map, (Text.sortBy_perm DiskEntry.name entries).mem_iff,
    exists_exists_and_eq_and]

theorem files_of_error (failed : disk.list directory = .error e) :
    (disk.walkFrom depth directory).files = [] := by
  cases depth with
  | zero => rfl
  | succ depth => rw [walkFrom_of_error failed depth.succ_pos]

/-- A written directory that can be listed, and whose normal form leads to the same folders. -/
structure Walks (disk : Disk) (directory : Text) (folders : List Folder) : Prop where
  nonempty : directory ≠ []
  direct : disk.reach (Path.trunk directory) = .ok (.folder folders)
  wellFormed : DiskEntry.allWellFormed (disk.current folders) = true
  listed : disk.list directory = .ok (disk.current folders)

namespace Walks

variable (h : disk.Walks directory folders)
include h

theorem isName {name : Text} {entry : DiskEntry}
    (found : find? (disk.current folders) name = some entry) : Path.IsName name :=
  (of_decide_eq_true (DiskEntry.isEntryName_of_find? h.wellFormed found)).1

/-- A directory in a walked one can be walked by the joined path, unless it cannot be listed. -/
theorem inside {name : Text} {inner : List DiskEntry}
    (entered : find? (disk.current folders) name = some (.directory name inner)) :
    (∃ e, disk.list (Path.join directory name) = .error e) ∨
      disk.Walks (Path.join directory name) (⟨name, inner⟩ :: folders) := by
  have isName := h.isName entered
  have onward : ∀ onLink, disk.lookupWith onLink folders [name] =
      if disk.allows .enter (pathOf folders) then .ok (.folder (⟨name, inner⟩ :: folders))
      else .error .denied := by
    intro onLink
    rw [lookupWith_name isName, entered]
    rfl
  have reached : disk.reach (Path.steps (Path.join directory name)) =
      if disk.allows .enter (pathOf folders) then .ok (.folder (⟨name, inner⟩ :: folders))
      else .error .denied := by
    rw [Path.steps_join h.nonempty isName]
    exact lookup_append onward h.direct
  have written := Path.join_ne_nil h.nonempty isName
  cases enters : disk.allows .enter (pathOf folders) with
  | false =>
    rw [enters] at reached
    rw [list, resolve_of_reach written reached (by simp)]
    exact Or.inl ⟨_, rfl⟩
  | true =>
    rw [enters, if_pos rfl] at reached
    have listed := list_of_reach written reached
    cases lists : disk.allows .list (pathOf (⟨name, inner⟩ :: folders)) with
    | false =>
      rw [lists] at listed
      exact Or.inl ⟨_, listed⟩
    | true =>
      rw [lists] at listed
      rw [Path.steps_join h.nonempty isName, ← Path.trunk_join h.nonempty isName] at reached
      exact Or.inr ⟨written, reached, DiskEntry.allWellFormed_of_find? h.wellFormed entered, listed⟩

theorem mem_files_succ : path ∈ (disk.walkFrom (depth + 1) directory).files ↔
    (∃ name text, find? (disk.current folders) name = some (.file name text) ∧
      path = Path.join directory name) ∨
    ∃ name inner, find? (disk.current folders) name = some (.directory name inner) ∧
      name ∉ skippedDirectories ∧
      path ∈ (disk.walkFrom depth (Path.join directory name)).files := by
  simp only [mem_files_of_ok h.listed, DiskEntry.mem_walkWith_files]
  constructor
  · rintro ⟨entry, member, ⟨name, text, rfl, rfl⟩ | ⟨name, inner, rfl, kept, deeper⟩⟩
    · exact Or.inl ⟨name, text, DiskEntry.find?_of_mem h.wellFormed member, rfl⟩
    · exact Or.inr ⟨name, inner, DiskEntry.find?_of_mem h.wellFormed member, kept, deeper⟩
  · rintro (⟨name, text, found, rfl⟩ | ⟨name, inner, found, kept, deeper⟩)
    · exact ⟨_, List.mem_of_find?_eq_some found, Or.inl ⟨name, text, rfl, rfl⟩⟩
    · exact ⟨_, List.mem_of_find?_eq_some found, Or.inr ⟨name, inner, rfl, kept, deeper⟩⟩

theorem mem_skipped_succ : e ∈ (disk.walkFrom (depth + 1) directory).skipped ↔
    ∃ name inner, find? (disk.current folders) name = some (.directory name inner) ∧
      name ∉ skippedDirectories ∧
      e ∈ (disk.walkFrom depth (Path.join directory name)).skipped := by
  rw [walkFrom_of_ok h.listed, Walk.concat]
  simp only [List.mem_flatMap, List.mem_map, (Text.sortBy_perm DiskEntry.name _).mem_iff,
    exists_exists_and_eq_and, DiskEntry.mem_walkWith_skipped]
  constructor
  · rintro ⟨entry, member, name, inner, rfl, kept, deeper⟩
    exact ⟨name, inner, DiskEntry.find?_of_mem h.wellFormed member, kept, deeper⟩
  · rintro ⟨name, inner, found, kept, deeper⟩
    exact ⟨_, List.mem_of_find?_eq_some found, name, inner, rfl, kept, deeper⟩

variable (deep : DiskEntry.maxHeight (disk.current folders) < depth)
include deep

/-- A walk lists a file by its names below the directory. -/
theorem mem_files : path ∈ (disk.walkFrom depth directory).files ↔
    ∃ below, (∃ text, textAt? (disk.current folders) below = some text) ∧
      (∀ name ∈ below.dropLast, name ∉ skippedDirectories) ∧ disk.ListsDown directory below ∧
      path = below.foldl Path.join directory := by
  induction depth generalizing directory folders with
  | zero => cases deep
  | succ depth ih =>
    rw [h.mem_files_succ]
    constructor
    · rintro (⟨name, text, found, rfl⟩ | ⟨name, inner, found, kept, deeper⟩)
      · exact ⟨[name], ⟨text, textAt?_cons.mpr (Or.inl ⟨rfl, found⟩)⟩, by simp,
          ⟨⟨_, h.listed⟩, trivial⟩, rfl⟩
      · have lower := DiskEntry.maxHeight_lt_of_find? found deep
        rcases h.inside found with ⟨e, failed⟩ | walks
        · rw [files_of_error failed] at deeper
          cases deeper
        · obtain ⟨below, ⟨text, file⟩, others, lists, rfl⟩ := (ih walks lower).mp deeper
          refine ⟨name :: below, ⟨text, textAt?_cons.mpr (Or.inr ⟨inner, found, file⟩)⟩, ?_,
            ⟨⟨_, h.listed⟩, lists⟩, rfl⟩
          rw [List.dropLast_cons_of_ne_nil (by rintro rfl; cases file)]
          exact List.forall_mem_cons.mpr ⟨kept, others⟩
    · rintro ⟨_ | ⟨name, rest⟩, ⟨text, file⟩, kept, lists, rfl⟩
      · cases file
      · rcases textAt?_cons.mp file with ⟨rfl, found⟩ | ⟨inner, found, deeper⟩
        · exact Or.inl ⟨name, text, found, rfl⟩
        · have lower := DiskEntry.maxHeight_lt_of_find? found deep
          have below : rest ≠ [] := by
            rintro rfl
            cases deeper
          rw [List.dropLast_cons_of_ne_nil below] at kept
          obtain ⟨first, others⟩ := List.forall_mem_cons.mp kept
          refine Or.inr ⟨name, inner, found, first, ?_⟩
          rcases h.inside found with ⟨e, failed⟩ | walks
          · obtain ⟨next, more, rfl⟩ := List.exists_cons_of_ne_nil below
            obtain ⟨_, opened⟩ := lists.2.1
            cases failed.symm.trans opened
          · exact (ih walks lower).mpr ⟨rest, ⟨text, deeper⟩, others, lists.2, rfl⟩

/-- A walk reports a directory below it that it comes to and cannot list. -/
theorem mem_skipped : e ∈ (disk.walkFrom depth directory).skipped ↔
    ∃ below, (∃ inner, entriesAt? (disk.current folders) below = some inner) ∧
      (∀ name ∈ below, name ∉ skippedDirectories) ∧ disk.ListsDown directory below ∧
      disk.list (below.foldl Path.join directory) = .error e := by
  induction depth generalizing directory folders with
  | zero => cases deep
  | succ depth ih =>
    rw [h.mem_skipped_succ]
    constructor
    · rintro ⟨name, inner, found, kept, deeper⟩
      have lower := DiskEntry.maxHeight_lt_of_find? found deep
      rcases h.inside found with ⟨e', failed⟩ | walks
      · rw [walkFrom_of_error failed (Nat.zero_lt_of_lt lower)] at deeper
        obtain rfl := List.mem_singleton.mp deeper
        exact ⟨[name], ⟨inner, entriesAt?_cons.mpr ⟨inner, found, rfl⟩⟩, by simpa using kept,
          ⟨⟨_, h.listed⟩, trivial⟩, failed⟩
      · obtain ⟨below, ⟨last, there⟩, others, lists, failed⟩ := (ih walks lower).mp deeper
        exact ⟨name :: below, ⟨last, entriesAt?_cons.mpr ⟨inner, found, there⟩⟩,
          List.forall_mem_cons.mpr ⟨kept, others⟩, ⟨⟨_, h.listed⟩, lists⟩, failed⟩
    · rintro ⟨_ | ⟨name, rest⟩, ⟨last, there⟩, kept, lists, failed⟩
      · cases h.listed.symm.trans failed
      · obtain ⟨inner, found, deeper⟩ := entriesAt?_cons.mp there
        obtain ⟨first, others⟩ := List.forall_mem_cons.mp kept
        have lower := DiskEntry.maxHeight_lt_of_find? found deep
        refine ⟨name, inner, found, first, ?_⟩
        rcases h.inside found with ⟨e', closed⟩ | walks
        · rw [walkFrom_of_error closed (Nat.zero_lt_of_lt lower)]
          cases rest with
          | nil =>
            cases closed.symm.trans failed
            exact List.mem_singleton_self _
          | cons next more =>
            obtain ⟨_, opened⟩ := lists.2.1
            cases closed.symm.trans opened
        · exact (ih walks lower).mpr ⟨rest, ⟨last, deeper⟩, others, lists.2, failed⟩

omit h deep in
/-- Any depth above the height of a directory gives the same walk. -/
theorem walkFrom_le {more : Nat} (h : disk.Walks directory folders)
    (deep : DiskEntry.maxHeight (disk.current folders) < depth) (le : depth ≤ more) :
    disk.walkFrom more directory = disk.walkFrom depth directory := by
  induction depth generalizing directory folders more with
  | zero => cases deep
  | succ depth ih =>
    obtain ⟨more, rfl⟩ : ∃ less, more = less + 1 := Nat.exists_eq_succ_of_ne_zero (by omega)
    rw [walkFrom_of_ok h.listed, walkFrom_of_ok h.listed]
    congr 1
    refine List.map_congr_left ?_
    intro entry member
    have inside := (Text.sortBy_perm DiskEntry.name _).mem_iff.mp member
    have found := DiskEntry.find?_of_mem h.wellFormed inside
    cases entry with
    | file name text => rfl
    | link name target => rfl
    | directory name inner =>
      have found : find? (disk.current folders) name = some (.directory name inner) := found
      have lower := DiskEntry.maxHeight_lt_of_find? found deep
      have same : disk.walkFrom more (Path.join directory name) =
          disk.walkFrom depth (Path.join directory name) := by
        rcases h.inside found with ⟨e, failed⟩ | walks
        · rw [walkFrom_of_error failed (by omega), walkFrom_of_error failed (by omega)]
        · exact ih walks lower (by omega)
      rw [DiskEntry.walkWith, DiskEntry.walkWith, same]

end Walks

/-- Behind a joined name a directory is walked where it is listed. -/
theorem walks_join {name : Text} (well : disk.WellFormed) (hne : directory ≠ [])
    (isName : Path.IsName name) (listed : disk.list (Path.join directory name) = .ok entries) :
    ∃ folders, disk.Walks (Path.join directory name) folders := by
  obtain ⟨folders, resolved, _, rfl⟩ := list_eq_ok.mp listed
  have written := Path.join_ne_nil hne isName
  have reached := ((resolve_eq_ok written).mp resolved).1
  rw [Path.steps_join hne isName, ← Path.trunk_join hne isName] at reached
  exact ⟨folders, written, reached,
    DiskEntry.allWellFormed_of_entriesAt? well (stands_of_resolve resolved).entriesAt?, listed⟩

/-- A walk lists a directory and walks the directories in it, whatever the path of the directory
leads through. -/
theorem walk_eq (well : disk.WellFormed) (root : Text) :
    disk.walk root = match disk.list root with
      | .error e => ⟨[], [e]⟩
      | .ok entries => .concat ((Text.sortBy DiskEntry.name entries).map
          (DiskEntry.walkWith disk.walk root)) := by
  cases listed : disk.list root with
  | error e => exact walkFrom_of_error listed (Nat.succ_pos _)
  | ok entries =>
    rw [walk, walkFrom_of_ok listed]
    dsimp only
    congr 1
    refine List.map_congr_left ?_
    intro entry member
    obtain ⟨p, there⟩ := entriesAt?_of_list listed
    have inside := (Text.sortBy_perm DiskEntry.name _).mem_iff.mp member
    have isName := DiskEntry.isName_of_wellFormed (DiskEntry.wellFormed_of_mem
      (DiskEntry.allWellFormed_of_entriesAt? well there) inside)
    have hne : root ≠ [] := by
      rintro rfl
      cases listed
    cases entry with
    | file name text => rfl
    | link name target => rfl
    | directory name inner =>
      have same : disk.walk (Path.join root name) =
          disk.walkFrom (DiskEntry.maxHeight disk.entries + 1) (Path.join root name) := by
        cases deeper : disk.list (Path.join root name) with
        | error e =>
          rw [walk, walkFrom_of_error deeper (Nat.succ_pos _),
            walkFrom_of_error deeper (Nat.succ_pos _)]
        | ok below =>
          obtain ⟨folders, walks⟩ := walks_join well hne isName deeper
          have low := DiskEntry.maxHeight_of_entriesAt? (reach_stands walks.direct).entriesAt?
          exact walks.walkFrom_le (Nat.lt_succ_of_le low) (Nat.le_succ _)
      rw [DiskEntry.walkWith, DiskEntry.walkWith, same]

section Root

variable {root : Text} (well : disk.WellFormed)
  (reached : disk.resolve root = .ok (.folder folders))
  (same : disk.reach (Path.trunk root) = .ok (.folder folders))
include well reached same

/-- The directory is walked, unless it cannot be listed. -/
theorem walks_root : (∃ e, disk.list root = .error e) ∨ disk.Walks root folders := by
  have hne := ne_nil_of_resolve reached
  have current := DiskEntry.allWellFormed_of_entriesAt? well (stands_of_resolve reached).entriesAt?
  have listing := list_of_reach hne ((resolve_eq_ok hne).mp reached).1
  cases lists : disk.allows .list (pathOf folders) with
  | true =>
    rw [lists, if_pos rfl] at listing
    exact Or.inr ⟨hne, same, current, listing⟩
  | false =>
    rw [lists] at listing
    exact Or.inl ⟨_, listing⟩

omit well same in
theorem maxHeight_lt_depth :
    DiskEntry.maxHeight (disk.current folders) < DiskEntry.maxHeight disk.entries + 2 :=
  Nat.lt_succ_of_le ((DiskEntry.maxHeight_of_entriesAt?
    (stands_of_resolve reached).entriesAt?).trans (Nat.le_succ _))

/-- A walk lists a file by its names below the directory. -/
theorem mem_walk_files : path ∈ (disk.walk root).files ↔
    ∃ below, (∃ text, textAt? (disk.current folders) below = some text) ∧
      (∀ name ∈ below.dropLast, name ∉ skippedDirectories) ∧ disk.ListsDown root below ∧
      path = below.foldl Path.join root := by
  rcases walks_root well reached same with ⟨e, failed⟩ | walks
  · rw [walk, files_of_error failed]
    constructor
    · intro walked
      cases walked
    · rintro ⟨_ | ⟨name, rest⟩, ⟨text, file⟩, _, opened, _⟩
      · cases file
      · obtain ⟨_, ok⟩ := opened.1
        cases failed.symm.trans ok
  · exact walks.mem_files (maxHeight_lt_depth reached)

/-- A walk reports the directories that it comes to and cannot list. -/
theorem mem_walk_skipped : e ∈ (disk.walk root).skipped ↔
    ∃ below, (∃ inner, entriesAt? (disk.current folders) below = some inner) ∧
      (∀ name ∈ below, name ∉ skippedDirectories) ∧ disk.ListsDown root below ∧
      disk.list (below.foldl Path.join root) = .error e := by
  rcases walks_root well reached same with ⟨e', failed⟩ | walks
  · rw [walk, walkFrom_of_error failed (Nat.succ_pos _), List.mem_singleton]
    constructor
    · rintro rfl
      exact ⟨[], ⟨_, rfl⟩, by simp, trivial, failed⟩
    · rintro ⟨_ | ⟨name, rest⟩, _, _, opened, closed⟩
      · exact Except.error.inj (closed.symm.trans failed)
      · obtain ⟨_, ok⟩ := opened.1
        cases failed.symm.trans ok
  · exact walks.mem_skipped (maxHeight_lt_depth reached)

end Root

end Disk

end Hypertag
