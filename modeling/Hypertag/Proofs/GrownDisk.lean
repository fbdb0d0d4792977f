import Hypertag.Proofs.CanonicalEnd
import Hypertag.Proofs.ProjectRoots
import Mathlib.Data.List.Forall2

/-!
# Disks that have grown

When nothing is taken from a disk, no directory is closed and no link is changed, every path that
led somewhere leads to the same place, with the same canonical path. New entries may be anywhere,
and files may have new texts.
-/

namespace Hypertag

namespace DiskEntry

mutual

/-- Whether an entry is still there: as a file, as a link to the same target, or as a directory in
which all its entries are still there. -/
def keptIn (later : List DiskEntry) : DiskEntry → Bool
  | .file name _ =>
    match Disk.find? later name with
    | some (.file _ _) => true
    | _ => false
  | .link name target =>
    match Disk.find? later name with
    | some (.link _ other) => other = target
    | _ => false
  | .directory name entries =>
    match Disk.find? later name with
    | some (.directory _ inner) => allKeptIn inner entries
    | _ => false

def allKeptIn (later : List DiskEntry) : List DiskEntry → Bool
  | [] => true
  | entry :: rest => entry.keptIn later && allKeptIn later rest

end

section Kept

variable {later entries : List DiskEntry} (kept : allKeptIn later entries = true) {name : Text}
include kept

theorem keptIn_of_find? {entry : DiskEntry} (found : Disk.find? entries name = some entry) :
    entry.keptIn later = true := by
  have member := List.mem_of_find?_eq_some found
  clear found
  induction entries with
  | nil => cases member
  | cons first rest ih =>
    rw [allKeptIn, Bool.and_eq_true] at kept
    rcases List.mem_cons.mp member with rfl | behind
    · exact kept.1
    · exact ih kept.2 behind

theorem find?_file {listed text : Text}
    (found : Disk.find? entries name = some (.file listed text)) :
    ∃ text', Disk.find? later name = some (.file listed text') := by
  have still := keptIn_of_find? kept found
  obtain rfl : listed = name := Disk.find?_name found
  rw [keptIn] at still
  split at still
  · next other content there =>
    obtain rfl : other = listed := Disk.find?_name there
    exact ⟨content, there⟩
  · cases still

theorem find?_link {listed target : Text}
    (found : Disk.find? entries name = some (.link listed target)) :
    Disk.find? later name = some (.link listed target) := by
  have still := keptIn_of_find? kept found
  obtain rfl : listed = name := Disk.find?_name found
  rw [keptIn] at still
  split at still
  · next other aim there =>
    obtain rfl : other = listed := Disk.find?_name there
    rw [there, of_decide_eq_true still]
  · cases still

theorem find?_directory {listed : Text} {inner : List DiskEntry}
    (found : Disk.find? entries name = some (.directory listed inner)) :
    ∃ inner', Disk.find? later name = some (.directory listed inner') ∧
      allKeptIn inner' inner = true := by
  have still := keptIn_of_find? kept found
  obtain rfl : listed = name := Disk.find?_name found
  rw [keptIn] at still
  split at still
  · next other grown there =>
    obtain rfl : other = listed := Disk.find?_name there
    exact ⟨grown, there, still⟩
  · cases still

end Kept

end DiskEntry

structure Folder.Kept (f f' : Folder) : Prop where
  name : f'.name = f.name
  entries : DiskEntry.allKeptIn f'.entries f.entries = true

/-- What is found on a disk and on a disk that has grown. Where nothing was, there may be
something. -/
inductive Found.Kept : Found → Found → Prop
  | folder {folders folders' : List Folder} :
      List.Forall₂ Folder.Kept folders folders' → Kept (.folder folders) (.folder folders')
  | file {above above' : List Folder} {name text text' : Text} :
      List.Forall₂ Folder.Kept above above' →
      Kept (.file above name text) (.file above' name text')

namespace Disk

/-- Whether all entries of a disk are still there, and all its open directories still open. -/
structure KeptIn (later disk : Disk) : Prop where
  entries : DiskEntry.allKeptIn later.entries disk.entries = true
  enters : ∀ folder, disk.allows .enter folder = true → later.allows .enter folder = true

variable {disk later : Disk} (kept : later.KeptIn disk)

theorem pathOf_kept {folders folders' : List Folder}
    (along : List.Forall₂ Folder.Kept folders folders') : pathOf folders' = pathOf folders := by
  have names : folders'.map Folder.name = folders.map Folder.name := by
    induction along with
    | nil => rfl
    | cons first _ ih => rw [List.map_cons, List.map_cons, first.name, ih]
  rw [pathOf, pathOf, names]

section Simulation

include kept

theorem enters_kept {folders folders' : List Folder}
    (along : List.Forall₂ Folder.Kept folders folders') (opened : disk.enters folders = true) :
    later.enters folders' = true := by
  rw [enters, pathOf_kept along]
  exact kept.enters _ opened

theorem current_kept {folders folders' : List Folder}
    (along : List.Forall₂ Folder.Kept folders folders') :
    DiskEntry.allKeptIn (later.current folders') (disk.current folders) = true := by
  cases along with
  | nil => exact kept.entries
  | cons first _ => exact first.entries

/-- Whatever was found is found again, going through the same folders. -/
theorem lookupWith_kept {onLink onLink' : List Folder → List Text → Except Fault Found}
    {found : Found} (something : ∀ above name, found ≠ .nothing above name)
    (links : ∀ from_ from' steps, List.Forall₂ Folder.Kept from_ from' →
      onLink from_ steps = .ok found → ∃ found', onLink' from' steps = .ok found' ∧
        found.Kept found') {folders folders' : List Folder}
    (along : List.Forall₂ Folder.Kept folders folders') {steps : List Text}
    (h : disk.lookupWith onLink folders steps = .ok found) :
    ∃ found', later.lookupWith onLink' folders' steps = .ok found' ∧ found.Kept found' := by
  induction steps generalizing folders folders' with
  | nil =>
    cases h
    exact ⟨.folder folders', rfl, .folder along⟩
  | cons step rest ih =>
    have current := current_kept kept along
    simp only [lookupWith_cons_ok] at h ⊢
    rcases h with ⟨empty, more⟩ | ⟨some, opened, go⟩
    · obtain ⟨found', again, same⟩ := ih along more
      exact ⟨found', Or.inl ⟨empty, again⟩, same⟩
    · have opened' := enters_kept kept along opened
      rcases go with ⟨stays, more⟩ | ⟨up, more⟩ | ⟨name, name', down⟩
      · obtain ⟨found', again, same⟩ := ih along more
        exact ⟨found', Or.inr ⟨some, opened', Or.inl ⟨stays, again⟩⟩, same⟩
      · obtain ⟨found', again, same⟩ := ih (List.forall₂_drop 1 along) more
        exact ⟨found', Or.inr ⟨some, opened', Or.inr (Or.inl ⟨up, again⟩)⟩, same⟩
      · rcases down with ⟨listed, inner, entered, more⟩ | ⟨listed, text, there, rfl, rfl⟩ |
          ⟨listed, target, linked, again⟩ | ⟨_, _, rfl⟩
        · obtain ⟨inner', entered', deeper⟩ := DiskEntry.find?_directory current entered
          have along' : List.Forall₂ Folder.Kept (⟨listed, inner⟩ :: folders)
            (⟨listed, inner'⟩ :: folders') := .cons ⟨rfl, deeper⟩ along
          obtain ⟨found', again, same⟩ := ih along' more
          exact ⟨found', Or.inr ⟨some, opened', Or.inr (Or.inr ⟨name, name',
            Or.inl ⟨listed, inner', entered', again⟩⟩)⟩, same⟩
        · obtain ⟨text', there'⟩ := DiskEntry.find?_file current there
          exact ⟨_, Or.inr ⟨some, opened', Or.inr (Or.inr ⟨name, name',
            Or.inr (Or.inl ⟨listed, text', there', rfl, rfl⟩)⟩)⟩, .file along⟩
        · have linked' := DiskEntry.find?_link current linked
          have start : List.Forall₂ Folder.Kept (if Path.isAbsolute target then [] else folders)
              (if Path.isAbsolute target then [] else folders') := by
            split
            · exact .nil
            · exact along
          obtain ⟨found', again', same⟩ := links _ _ _ start again
          exact ⟨found', Or.inr ⟨some, opened', Or.inr (Or.inr ⟨name, name',
            Or.inr (Or.inr (Or.inl ⟨listed, target, linked', again'⟩))⟩)⟩, same⟩
        · exact absurd rfl (something _ _)

theorem lookup_kept {links : Nat} {found : Found}
    (something : ∀ above name, found ≠ .nothing above name) {folders folders' : List Folder}
    (along : List.Forall₂ Folder.Kept folders folders') {steps : List Text}
    (h : disk.lookup links folders steps = .ok found) :
    ∃ found', later.lookup links folders' steps = .ok found' ∧ found.Kept found' := by
  induction links generalizing folders folders' steps with
  | zero =>
    refine lookupWith_kept kept something ?_ along h
    intro _ _ _ _ again
    cases again
  | succ links ih =>
    refine lookupWith_kept kept something ?_ along h
    intro _ _ _ start again
    exact ih start again

theorem resolve_kept {path : Text} {there : Found} (h : disk.resolve path = .ok there) :
    ∃ there', later.resolve path = .ok there' ∧ there.Kept there' := by
  have hne : path ≠ [] := by
    rintro rfl
    cases h
  obtain ⟨reached, something⟩ := (resolve_eq_ok hne).mp h
  obtain ⟨there', again, same⟩ := lookup_kept kept something .nil reached
  refine ⟨there', (resolve_eq_ok hne).mpr ⟨again, ?_⟩, same⟩
  rintro above name rfl
  cases same

section Canonical

variable {onLink onLink' : Path → Except CanonicalError Found}
  (links : ∀ p there, onLink p = .ok there → ∃ there', onLink' p = .ok there' ∧
    there.Kept there') {found found' next : Found}
include links

theorem canonicalStep_kept (same : found.Kept found') {part : Text}
    (h : disk.canonicalStep onLink found part = .ok next) :
    ∃ next', later.canonicalStep onLink' found' part = .ok next' ∧ next.Kept next' := by
  obtain ⟨folders, rfl, opened, down⟩ := canonicalStep_ok.mp h
  obtain ⟨folders', along, rfl⟩ : ∃ folders', List.Forall₂ Folder.Kept folders folders' ∧
      found' = .folder folders' := by
    cases same with
    | folder along => exact ⟨_, along, rfl⟩
  have current := current_kept kept along
  have opened' := enters_kept kept along opened
  rcases down with ⟨listed, inner, entered, rfl⟩ | ⟨listed, text, there, rfl⟩ |
    ⟨listed, target, there, linked, resolved, again⟩
  · obtain ⟨inner', entered', deeper⟩ := DiskEntry.find?_directory current entered
    exact ⟨_, canonicalStep_ok.mpr ⟨folders', rfl, opened',
      Or.inl ⟨listed, inner', entered', rfl⟩⟩, .folder (.cons ⟨rfl, deeper⟩ along)⟩
  · obtain ⟨text', there'⟩ := DiskEntry.find?_file current there
    exact ⟨_, canonicalStep_ok.mpr ⟨folders', rfl, opened',
      Or.inr (Or.inl ⟨listed, text', there', rfl⟩)⟩, .file along⟩
  · obtain ⟨there', resolved', _⟩ := resolve_kept kept resolved
    obtain ⟨next', again', same⟩ := links _ _ again
    rw [← pathOf_kept along] at resolved' again'
    exact ⟨next', canonicalStep_ok.mpr ⟨folders', rfl, opened', Or.inr (Or.inr ⟨listed, target,
      there', DiskEntry.find?_link current linked, resolved', again'⟩)⟩, same⟩

theorem canonicalWith_kept (same : found.Kept found') {path : Path}
    (h : disk.canonicalWith onLink found path = .ok next) :
    ∃ next', later.canonicalWith onLink' found' path = .ok next' ∧ next.Kept next' := by
  induction path generalizing found found' with
  | nil =>
    cases h
    exact ⟨found', rfl, same⟩
  | cons part rest ih =>
    obtain ⟨between, first, more⟩ := canonicalWith_cons_ok.mp h
    obtain ⟨between', first', same'⟩ := canonicalStep_kept kept links same first
    obtain ⟨next', more', last⟩ := ih same' more
    exact ⟨next', canonicalWith_cons_ok.mpr ⟨between', first', more'⟩, last⟩

end Canonical

theorem canonicalFrom_kept {depth : Nat} {path : Path} {found : Found}
    (h : disk.canonicalFrom depth path = .ok found) :
    ∃ found', later.canonicalFrom depth path = .ok found' ∧ found.Kept found' := by
  induction depth generalizing path found with
  | zero => cases h
  | succ depth ih => exact canonicalWith_kept kept (fun _ _ => ih) (.folder .nil) h

/-- A canonical path stays canonical. -/
theorem canonical_kept {path : Text} {real : Path} (h : disk.canonical path = .ok real) :
    later.canonical path = .ok real := by
  obtain ⟨found, from_, rfl⟩ := canonical_eq_ok.mp h
  obtain ⟨found', again, same⟩ := canonicalFrom_kept kept from_
  have ends : later.canonicalFrom disk.linkDepth (Path.ofText path) ≠ .error .endless := by
    rw [again]
    rintro ⟨⟩
  refine canonical_eq_ok.mpr ⟨found', (canonicalFrom_linkDepth ends).trans again, ?_⟩
  cases same with
  | folder along => exact pathOf_kept along
  | file along => rw [Found.path, Found.path, pathOf_kept along]

end Simulation

end Disk

namespace Workspace

variable {disk later : Disk} {base : Path} {item : Domain × Text} {root : ProjectRoot}

/-- A directory becomes the same root. -/
theorem projectRoot_kept (kept : later.KeptIn disk) (h : projectRoot disk base item = .ok root) :
    projectRoot later base item = .ok root := by
  obtain ⟨folders, real, resolved, canonical, rfl⟩ := projectRoot_eq_ok.mp h
  obtain ⟨there, again, same⟩ := Disk.resolve_kept kept resolved
  cases same
  exact projectRoot_eq_ok.mpr ⟨_, real, again, Disk.canonical_kept kept canonical, rfl⟩

theorem faithful_kept (kept : later.KeptIn disk) (h : projectRoot disk base item = .ok root)
    (faithful : disk.Faithful (directoryPath base item.2)) :
    later.Faithful (directoryPath base item.2) := by
  obtain ⟨folders, real, resolved, canonical, rfl⟩ := projectRoot_eq_ok.mp h
  obtain ⟨there, again, same⟩ := Disk.resolve_kept kept resolved
  cases same with
  | folder along =>
    intro folders' real' resolved' canonical'
    cases again.symm.trans resolved'
    cases (Disk.canonical_kept kept canonical).symm.trans canonical'
    rw [Disk.pathOf_kept along, faithful folders real resolved canonical]

theorem canonical_ne_top_kept (kept : later.KeptIn disk)
    (h : projectRoot disk base item = .ok root)
    (deep : disk.canonical (directoryPath base item.2) ≠ .ok []) :
    later.canonical (directoryPath base item.2) ≠ .ok [] := by
  obtain ⟨_, real, _, canonical, _⟩ := projectRoot_eq_ok.mp h
  rw [Disk.canonical_kept kept canonical]
  rintro ⟨⟩
  exact deep canonical

end Workspace

end Hypertag
