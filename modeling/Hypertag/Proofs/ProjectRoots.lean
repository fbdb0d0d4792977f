import Hypertag.Proofs.CanonicalUri
import Hypertag.Proofs.ScanClaims
import Hypertag.Proofs.WalkedFiles

/-!
# Files below project roots

A configured directory has two paths: it is walked under the one that it is written as, and
recorded under its canonical one. Where both lead to the same directory, the claims of a scan are
the files below the recorded path. Links may be anywhere above the directory and below it.
-/

namespace Hypertag

namespace Path

theorem mended_render {p : Path} (whole : ∀ name ∈ p, name.mended = name) :
    (render p).mended = render p := by
  have single : Text.isSurrogate slash = false := by decide
  have joined : (Text.joinWith [slash] p).mended = Text.joinWith [slash] p := by
    induction p with
    | nil => rfl
    | cons name rest ih =>
      have first := whole name List.mem_cons_self
      have later := ih fun other member => whole other (List.mem_cons_of_mem name member)
      cases rest with
      | nil => exact first
      | cons next rest =>
        rw [Text.joinWith, List.append_assoc, List.singleton_append, Text.mended_append single,
          first, later]
        simp
  rw [render, Text.mended_cons single, joined]

/-- Whether the uri of a path is read as that path. -/
def ReadsBack (p : Path) : Prop :=
  ∃ u, Uri.parse (Uri.ofPath (render p)) = .ok u ∧ u.filePath = render p

/-- Whether a name would be taken for a drive at the start of a path. -/
def startsWithDrive : Text → Bool
  | letter :: second :: _ => Percent.isLetter letter && second = Uri.colon
  | _ => false

theorem letter_of_render {name : Text} (isName : IsName name) (bare : startsWithDrive name = false)
    {rest : Path} {drive : UInt16} {behind : Text}
    (written : render (name :: rest) = Uri.slash :: drive :: Uri.colon :: behind) :
    Percent.isLetter drive = false := by
  obtain ⟨after, start, ends⟩ := render_cons name rest
  rw [start] at written
  obtain ⟨u, units, rfl⟩ := List.exists_cons_of_ne_nil isName.nonempty
  simp only [List.cons_append, List.cons.injEq] at written
  obtain ⟨_, rfl, tail⟩ := written
  cases units with
  | nil =>
    rw [List.nil_append] at tail
    rw [tail] at ends
    rcases ends with none | some
    · cases none
    · exact absurd some (by simp [Uri.colon, slash])
  | cons second units =>
    obtain ⟨rfl, _⟩ := List.cons.inj tail
    simpa [startsWithDrive] using bare

/-- The extension is that of the last name. -/
theorem extension?_append {below : Path} (hne : below ≠ []) (proper : Proper below) (a b : Path) :
    extension? (render (a ++ below)) = extension? (render (b ++ below)) := by
  obtain ⟨before, name, rfl⟩ := (List.eq_nil_or_concat' below).resolve_left hne
  have isName := proper.right name List.mem_cons_self
  rw [extension?, extension?, ← List.append_assoc, ← List.append_assoc, lastPart_render _ isName,
    lastPart_render _ isName]

end Path

/-- On a disk without anything like a drive at the top, the uris of files are read back. -/
theorem Disk.Holds.readsBack {disk : Disk} (well : disk.WellFormed)
    (bare : ∀ entry ∈ disk.entries, Path.startsWithDrive entry.name = false) {p : Path}
    (file : disk.Holds p) : p.ReadsBack := by
  obtain ⟨text, found⟩ := file
  have proper := DiskEntry.proper_of_textAt? well found
  have whole : ∀ name ∈ p, name.mended = name := fun name member =>
    (of_decide_eq_true (DiskEntry.names_of_textAt? well found name member)).2
  refine Uri.filePath_of_ofPath rfl (Path.render_ne_doubleSlash proper)
    (Path.mended_render whole) ?_
  intro drive behind written
  cases p with
  | nil => cases found
  | cons name rest =>
    obtain ⟨entry, there⟩ : ∃ entry, find? disk.entries name = some entry := by
      rw [← Option.isSome_iff_exists, Option.isSome_iff_ne_none]
      intro none
      simp [textAt?, none] at found
    have top := bare entry (List.mem_of_find?_eq_some there)
    rw [find?_name there] at top
    exact Path.letter_of_render (proper name List.mem_cons_self) top written

theorem Config.classify_append (config : Config) {below : Path} (hne : below ≠ [])
    (proper : Path.Proper below) (a b : Path) :
    config.classify (Path.render (a ++ below)) = config.classify (Path.render (b ++ below)) := by
  rw [classify, Domain.classify, Path.extension?_append hne proper a b]
  rfl

/-- Whether a path leads to a directory that is where its canonical path says. -/
def Disk.Faithful (disk : Disk) (path : Text) : Prop :=
  ∀ folders real, disk.resolve path = .ok (.folder folders) → disk.canonical path = .ok real →
    Disk.pathOf folders = real

theorem Disk.faithful_of_resolved {disk : Disk} {path : Text} {folders : List Folder}
    (resolved : disk.resolve path = .ok (.folder folders))
    (canonical : disk.canonical path = .ok (pathOf folders)) : disk.Faithful path := by
  intro folders' real' resolved' canonical'
  cases resolved.symm.trans resolved'
  cases canonical.symm.trans canonical'
  rfl

namespace Workspace

/-- Written paths compare as lists of names, below anything but the top. -/
theorem inDirectory_iff {directory p : Path} (properD : Path.Proper directory)
    (properP : Path.Proper p) (hne : directory ≠ []) :
    inDirectory (Path.render directory) (Path.render p) = true ↔
      ∃ below, below ≠ [] ∧ p = directory ++ below := by
  rw [inDirectory, List.isPrefixOf_iff_prefix]
  constructor
  · rintro ⟨rest, written⟩
    rw [List.append_assoc, List.singleton_append] at written
    have names : p = directory ++ Path.parts rest := by
      rw [← Path.parts_render properP, ← written, Path.parts_append, Path.parts_render properD]
    refine ⟨Path.parts rest, ?_, names⟩
    intro none
    rw [none, List.append_nil] at names
    have length := congrArg List.length written
    rw [names] at length
    simp at length
  · rintro ⟨below, behind, rfl⟩
    rw [Path.render_append hne behind]
    exact ⟨Text.joinWith [Path.slash] below, by rw [List.append_assoc]; rfl⟩

/-- A configured directory, the folders that it leads to and its canonical path. -/
structure Rooted (disk : Disk) (base : Path) (directory : Text) (folders : List Folder)
    (real : Path) : Prop where
  proper : Path.Proper base
  reached : disk.reach (Path.resolve base directory) = .ok (.folder folders)
  canonical : disk.canonical (directoryPath base directory) = .ok real
  same : Disk.pathOf folders = real

theorem projectRoot_eq_ok {disk : Disk} {base : Path} {item : Domain × Text} {root : ProjectRoot} :
    projectRoot disk base item = .ok root ↔ ∃ folders real,
      disk.resolve (directoryPath base item.2) = .ok (.folder folders) ∧
      disk.canonical (directoryPath base item.2) = .ok real ∧
      root = ⟨item.1, Path.render real⟩ := by
  unfold projectRoot Disk.isDirectory
  cases disk.resolve (directoryPath base item.2) with
  | error fault => simp
  | ok found =>
    cases found with
    | file above name text => simp
    | nothing above name => simp
    | folder folders =>
      cases disk.canonical (directoryPath base item.2) with
      | error e => simp
      | ok real => simp [@eq_comm _ root]

theorem rooted_of_projectRoot {disk : Disk} {base : Path} {item : Domain × Text}
    {root : ProjectRoot} (proper : Path.Proper base)
    (faithful : disk.Faithful (directoryPath base item.2))
    (becomes : projectRoot disk base item = .ok root) :
    ∃ folders real, Rooted disk base item.2 folders real ∧ root = ⟨item.1, Path.render real⟩ := by
  obtain ⟨folders, real, resolved, canonical, rfl⟩ := projectRoot_eq_ok.mp becomes
  have reached := (Disk.resolve_render_folder (Path.resolve_proper proper item.2)).mp resolved
  exact ⟨folders, real, ⟨proper, reached, canonical, faithful folders real resolved canonical⟩, rfl⟩

section Rooted

variable {disk : Disk} {base : Path} {directory : Text} {folders : List Folder} {real : Path}

theorem Rooted.written (h : Rooted disk base directory folders real) :
    Path.Proper (Path.resolve base directory) :=
  Path.resolve_proper h.proper directory

theorem Rooted.stands (h : Rooted disk base directory folders real) : disk.Stands folders :=
  Disk.reach_stands h.reached

theorem Rooted.inside (h : Rooted disk base directory folders real) :
    Disk.entriesAt? disk.entries real = some (disk.current folders) :=
  h.same ▸ h.stands.entriesAt?

theorem Rooted.real_proper (h : Rooted disk base directory folders real) : Path.Proper real :=
  Disk.canonical_proper h.canonical

/-- The canonical path leads to the same folders as the written one. -/
theorem Rooted.reach_real (h : Rooted disk base directory folders real) :
    disk.reach real = .ok (.folder folders) := by
  obtain ⟨found, from_, place⟩ := Disk.canonical_eq_ok.mp h.canonical
  have enters := Disk.entersDown_of_canonicalFrom from_
  rw [place] at enters
  obtain ⟨reached, place', _, lookup⟩ :=
    @Disk.lookupWith_of_entries disk [] _ _ h.real_proper h.inside
  have again : disk.reach real = .ok (.folder reached) := by
    refine (lookup _).trans ?_
    rw [show Disk.pathOf [] = [] from rfl, enters, if_pos rfl]
  have same : Disk.pathOf reached = Disk.pathOf folders := place'.trans h.same.symm
  rwa [(Disk.reach_stands again).eq_of_pathOf h.stands same] at again

variable {below : Path} {text : Text}

/-- The canonical path of a walked file lies below that of the directory, if the directories between
may be entered. -/
theorem Rooted.canonicalUri_below (h : Rooted disk base directory folders real)
    (proper : Path.Proper below)
    (file : Disk.textAt? (disk.current folders) below = some text) :
    (disk.entersDown real below = true →
      disk.canonicalUri (Path.render (Path.resolve base directory ++ below)) =
        .ok (Uri.ofPath (Path.render (real ++ below)))) ∧
    (disk.entersDown real below = false →
      ∃ e, disk.canonicalUri (Path.render (Path.resolve base directory ++ below)) =
        .error (.disk e)) := by
  obtain ⟨opened, closed⟩ := Disk.canonical_append h.written proper h.inside file h.canonical
  constructor
  · intro enters
    rw [Disk.canonicalUri, opened enters]
    rfl
  · intro shut
    obtain ⟨e, failed⟩ := closed shut
    exact ⟨e, by rw [Disk.canonicalUri, failed]; rfl⟩

/-- A walked file is read as its directory says. -/
theorem Rooted.read_below (h : Rooted disk base directory folders real)
    (proper : Path.Proper below)
    (file : Disk.textAt? (disk.current folders) below = some text) :
    disk.read (Path.render (Path.resolve base directory ++ below)) =
      if disk.entersDown real below && disk.allows .read (real ++ below) then .ok text
      else .error ⟨.denied, .openFile, Path.render (Path.resolve base directory ++ below)⟩ := by
  rw [Disk.read_below h.written h.reached proper file, h.same]

/-- The files that the walk of a directory lists. -/
theorem Rooted.mem_walk (h : Rooted disk base directory folders real) (well : disk.WellFormed)
    {path : Text} : path ∈ (disk.walk (directoryPath base directory)).files ↔ ∃ below,
      (∃ text, Disk.textAt? (disk.current folders) below = some text) ∧
      (∀ name ∈ below.dropLast, name ∉ skippedDirectories) ∧
      disk.ListsDown (Path.render real) below ∧
      path = Path.render (Path.resolve base directory ++ below) := by
  have current := DiskEntry.allWellFormed_of_entriesAt? well h.inside
  have resolved := (Disk.resolve_render_folder h.written).mpr h.reached
  have direct : disk.reach (Path.trunk (Path.render (Path.resolve base directory))) =
      .ok (.folder folders) := by
    rw [Path.trunk_render h.written, h.reached]
  rw [directoryPath, Disk.mem_walk_files well resolved direct]
  refine exists_congr fun below => and_congr_right ?_
  rintro ⟨text, file⟩
  have names := DiskEntry.proper_of_textAt? current file
  rw [Disk.listsDown_congr h.written h.real_proper h.reached h.reach_real names file,
    Path.foldl_join_render h.written names]

/-- The directories on the way down to a file are listed where that is allowed. -/
theorem Rooted.listsDown (h : Rooted disk base directory folders real) (proper : Path.Proper below)
    (file : Disk.textAt? (disk.current folders) below = some text)
    (enters : disk.entersDown real below = true)
    (allowed : ∀ q, real <+: q → q <+: real ++ below → q ≠ real ++ below →
      disk.allows .list q = true) : disk.ListsDown (Path.render real) below := by
  rw [Disk.listsDown_iff]
  rintro q name rest rfl
  obtain ⟨entries, inside⟩ := Disk.entriesAt?_above file
  rw [Disk.entersDown_append, Bool.and_eq_true] at enters
  have lists := allowed (real ++ q) (List.prefix_append real q)
    ⟨name :: rest, List.append_assoc ..⟩ (by simp)
  refine ⟨entries, ?_⟩
  rw [Path.foldl_join_render h.real_proper proper.left,
    Disk.list_below h.real_proper h.reach_real proper.left inside, h.same, enters.1, lists]
  rfl

/-- The claims of a directory are the files below it, as far as they belong to its domain and no
directory between is left out or closed. -/
theorem Rooted.mem_claimsIn {domain : Domain} (h : Rooted disk base directory folders real)
    (well : disk.WellFormed) {config : Config} {c : ScanClaim} :
    c ∈ claimsIn disk config base (domain, directory) ↔ ∃ below,
      (∃ text, Disk.textAt? (disk.current folders) below = some text) ∧
      (∀ name ∈ below.dropLast, name ∉ skippedDirectories) ∧
      disk.ListsDown (Path.render real) below ∧ disk.entersDown real below = true ∧
      domain ∈ config.classify (Path.render (real ++ below)) ∧
      c = ⟨domain, Path.render (Path.resolve base directory ++ below),
        Uri.ofPath (Path.render (real ++ below))⟩ := by
  have current := DiskEntry.allWellFormed_of_entriesAt? well h.inside
  rw [claimsIn, mem_claimsAmong, h.mem_walk well]
  have kinds : ∀ {below text}, Disk.textAt? (disk.current folders) below = some text →
      config.classify (Path.render (Path.resolve base directory ++ below)) =
        config.classify (Path.render (real ++ below)) := by
    intro below text file
    refine config.classify_append ?_ (DiskEntry.proper_of_textAt? current file) _ _
    rintro rfl
    cases file
  constructor
  · obtain ⟨claimed, path, uri⟩ := c
    rintro ⟨rfl, ⟨below, ⟨text, file⟩, kept, lists, rfl⟩, fits, named⟩
    obtain ⟨opened, closed⟩ := h.canonicalUri_below (DiskEntry.proper_of_textAt? current file) file
    rw [kinds file] at fits
    cases enters : disk.entersDown real below with
    | false =>
      obtain ⟨e, failed⟩ := closed enters
      cases failed.symm.trans named
    | true =>
      cases (opened enters).symm.trans named
      exact ⟨below, ⟨text, file⟩, kept, lists, enters, fits, rfl⟩
  · rintro ⟨below, ⟨text, file⟩, kept, lists, enters, fits, rfl⟩
    have proper := DiskEntry.proper_of_textAt? current file
    rw [← kinds file] at fits
    exact ⟨rfl, ⟨below, ⟨text, file⟩, kept, lists, rfl⟩, fits,
      (h.canonicalUri_below proper file).1 enters⟩

/-- There is an end to the canonical paths of walked files. -/
theorem Rooted.filesEnd {domain : Domain} (h : Rooted disk base directory folders real)
    (well : disk.WellFormed) (config : Config) : FilesEnd disk config base (domain, directory) := by
  intro path listed _
  obtain ⟨below, ⟨text, file⟩, _, _, rfl⟩ := (h.mem_walk well).mp listed
  have current := DiskEntry.allWellFormed_of_entriesAt? well h.inside
  obtain ⟨opened, closed⟩ := h.canonicalUri_below (DiskEntry.proper_of_textAt? current file) file
  cases enters : disk.entersDown real below with
  | false =>
    obtain ⟨e, failed⟩ := closed enters
    rw [failed]
    rintro ⟨⟩
  | true =>
    rw [opened enters]
    rintro ⟨⟩

end Rooted

end Workspace

end Hypertag
