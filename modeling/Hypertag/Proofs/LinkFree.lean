import Hypertag.Disk.Canonical
import Hypertag.Proofs.PathNames

/-!
# Paths without links

A canonical path leads down from the top through directories alone. Whatever is reached through
links is below the same directory as without them, so names can be appended to either path, as far
as the directories on the way may be entered. Going up is left to the two ways of reading a path,
which disagree about links.
-/

namespace Hypertag

def Found.folders : Found → List Folder
  | .folder folders => folders
  | .file folders _ _ => folders
  | .nothing folders _ => folders

namespace Disk

theorem find?_name {entries : List DiskEntry} {name : Text} {entry : DiskEntry}
    (h : find? entries name = some entry) : entry.name = name := by
  simpa using List.find?_some h

/-- The entries of the directory at a path without links. -/
def entriesAt? : List DiskEntry → Path → Option (List DiskEntry)
  | entries, [] => some entries
  | entries, name :: rest =>
    match find? entries name with
    | some (.directory _ inner) => entriesAt? inner rest
    | _ => none

def textAt? : List DiskEntry → Path → Option Text
  | _, [] => none
  | entries, name :: rest =>
    match find? entries name with
    | some (.directory _ inner) => textAt? inner rest
    | some (.file _ text) => if rest.isEmpty then some text else none
    | _ => none

theorem entriesAt?_cons {entries inner : List DiskEntry} {name : Text} {rest : Path} :
    entriesAt? entries (name :: rest) = some inner ↔ ∃ between,
      find? entries name = some (.directory name between) ∧
        entriesAt? between rest = some inner := by
  rw [entriesAt?]
  cases found : find? entries name with
  | none => simp
  | some entry =>
    have named := find?_name found
    cases entry with
    | file listed text => simp
    | link listed target => simp
    | directory listed between =>
      obtain rfl : listed = name := named
      simp

theorem textAt?_cons {entries : List DiskEntry} {name text : Text} {rest : Path} :
    textAt? entries (name :: rest) = some text ↔
      (rest = [] ∧ find? entries name = some (.file name text)) ∨ ∃ inner,
        find? entries name = some (.directory name inner) ∧ textAt? inner rest = some text := by
  rw [textAt?]
  cases found : find? entries name with
  | none => simp
  | some entry =>
    have named := find?_name found
    cases entry with
    | link listed target => simp
    | file listed content =>
      obtain rfl : listed = name := named
      cases rest <;> simp
    | directory listed inner =>
      obtain rfl : listed = name := named
      simp

theorem entriesAt?_append (entries : List DiskEntry) (p q : Path) :
    entriesAt? entries (p ++ q) = (entriesAt? entries p).bind (entriesAt? · q) := by
  induction p generalizing entries with
  | nil => rfl
  | cons name rest ih =>
    rw [List.cons_append, entriesAt?, entriesAt?]
    split
    · exact ih _
    · rfl

theorem textAt?_append {entries inner : List DiskEntry} {p : Path}
    (h : entriesAt? entries p = some inner) (q : Path) :
    textAt? entries (p ++ q) = textAt? inner q := by
  induction p generalizing entries with
  | nil =>
    cases h
    rfl
  | cons name rest ih =>
    obtain ⟨between, found, deeper⟩ := entriesAt?_cons.mp h
    rw [List.cons_append, textAt?, found]
    exact ih deeper

/-! ### Folders -/

/-- Whether each folder is listed in the one above it. -/
def Stands (disk : Disk) : List Folder → Prop
  | [] => True
  | f :: above =>
    find? (disk.current above) f.name = some (.directory f.name f.entries) ∧ disk.Stands above

/-- Whether all directories on the way down from a directory may be entered. -/
def entersDown (disk : Disk) : Path → Path → Bool
  | _, [] => true
  | above, name :: rest => disk.allows .enter above && disk.entersDown (above ++ [name]) rest

theorem entersDown_append (disk : Disk) (above p q : Path) :
    disk.entersDown above (p ++ q) =
      (disk.entersDown above p && disk.entersDown (above ++ p) q) := by
  induction p generalizing above with
  | nil => simp [entersDown]
  | cons name rest ih =>
    rw [List.cons_append, entersDown, entersDown, ih, Bool.and_assoc, List.append_assoc,
      List.singleton_append]

theorem pathOf_cons (f : Folder) (above : List Folder) :
    pathOf (f :: above) = pathOf above ++ [f.name] := by
  simp [pathOf]

section Stands

variable {disk : Disk} {folders : List Folder} {name : Text} {inner : List DiskEntry}

theorem Stands.enter (h : disk.Stands folders) {listed : Text}
    (found : find? (disk.current folders) name = some (.directory listed inner)) :
    disk.Stands (⟨listed, inner⟩ :: folders) := by
  obtain rfl : listed = name := find?_name found
  exact ⟨found, h⟩

theorem Stands.up (h : disk.Stands folders) : disk.Stands (folders.drop 1) := by
  cases folders with
  | nil => trivial
  | cons f above => exact h.2

/-- The path of a folder leads to it. -/
theorem Stands.entriesAt? (h : disk.Stands folders) :
    Disk.entriesAt? disk.entries (pathOf folders) = some (disk.current folders) := by
  induction folders with
  | nil => rfl
  | cons f above ih =>
    rw [pathOf_cons, entriesAt?_append, ih h.2, Option.bind_some, Disk.entriesAt?, h.1]
    rfl

end Stands

/-- Folders are known by their path. -/
theorem Stands.eq_of_pathOf {disk : Disk} {folders others : List Folder}
    (h : disk.Stands folders) (h' : disk.Stands others) (same : pathOf folders = pathOf others) :
    folders = others := by
  induction folders generalizing others with
  | nil =>
    cases others with
    | nil => rfl
    | cons f above => simp [pathOf] at same
  | cons f above ih =>
    cases others with
    | nil => simp [pathOf] at same
    | cons f' above' =>
      rw [pathOf_cons, pathOf_cons] at same
      obtain ⟨place, last⟩ := List.append_inj' same rfl
      obtain rfl := ih h.2 h'.2 place
      obtain ⟨name, entries⟩ := f
      obtain ⟨name', entries'⟩ := f'
      obtain rfl : name = name' := List.singleton_inj.mp last
      cases h.1.symm.trans h'.1
      rfl

/-! ### Canonical paths -/

/-- Whether something is on the disk, with no link on the way to it. -/
def Has (disk : Disk) : Found → Prop
  | .folder folders => disk.Stands folders
  | .file folders name text =>
    disk.Stands folders ∧ find? (disk.current folders) name = some (.file name text)
  | .nothing _ _ => False

section Canonical

variable {disk : Disk} {onLink : Path → Except CanonicalError Found} {found next : Found}
  {folders : List Folder} {path : Path}

/-- How a step to a canonical path succeeds. -/
theorem canonicalStep_ok {part : Text} :
    disk.canonicalStep onLink found part = .ok next ↔ ∃ folders, found = .folder folders ∧
      disk.enters folders = true ∧
      ((∃ listed inner, find? (disk.current folders) part = some (.directory listed inner) ∧
        next = .folder (⟨listed, inner⟩ :: folders)) ∨
      (∃ listed text, find? (disk.current folders) part = some (.file listed text) ∧
        next = .file folders listed text) ∨
      ∃ listed target there, find? (disk.current folders) part = some (.link listed target) ∧
        disk.resolve (Path.render (pathOf folders ++ [part])) = .ok there ∧
        onLink (Path.resolve (pathOf folders) target) = .ok next) := by
  cases found with
  | file above name text => simp [canonicalStep]
  | nothing above name => simp [canonicalStep]
  | folder folders =>
    simp only [canonicalStep, Found.folder.injEq, exists_eq_left']
    cases opened : disk.enters folders with
    | false => simp
    | true =>
      cases listing : find? (disk.current folders) part with
      | none => simp
      | some entry =>
        cases entry with
        | directory listed inner => simp [@eq_comm _ next]
        | file listed text => simp [@eq_comm _ next]
        | link listed target =>
          cases disk.resolve (Path.render (pathOf folders ++ [part])) with
          | error fault => simp
          | ok there => simp

theorem canonicalWith_cons_ok {part : Text} :
    disk.canonicalWith onLink found (part :: path) = .ok next ↔ ∃ between,
      disk.canonicalStep onLink found part = .ok between ∧
        disk.canonicalWith onLink between path = .ok next := by
  rw [canonicalWith, List.foldlM_cons]
  cases disk.canonicalStep onLink found part with
  | error e => simp [bind, Except.bind]
  | ok between =>
    simp only [Except.ok.injEq, exists_eq_left']
    rfl

theorem canonicalWith_append (p q : Path) :
    disk.canonicalWith onLink found (p ++ q) =
      (disk.canonicalWith onLink found p).bind (disk.canonicalWith onLink · q) := by
  rw [canonicalWith, List.foldlM_append]
  rfl

/-- What holds at the top and is kept by each step holds of whatever a path leads to. -/
theorem canonicalFrom_keeps {P : Found → Prop} {Q : Text → Prop} (top : P (.folder []))
    (step : ∀ {onLink found part next}, (∀ p, (∀ q ∈ p, Q q) → ∀ there, onLink p = .ok there →
      P there) → P found → Q part → disk.canonicalStep onLink found part = .ok next → P next)
    {depth : Nat} (parts : ∀ part ∈ path, Q part)
    (h : disk.canonicalFrom depth path = .ok found) : P found := by
  induction depth generalizing path found with
  | zero => cases h
  | succ depth ih =>
    have run : ∀ start, P start → disk.canonicalWith (disk.canonicalFrom depth) start path =
        .ok found → P found := by
      clear h
      induction path with
      | nil =>
        rintro _ holds ⟨⟩
        exact holds
      | cons part rest more =>
        intro start holds made
        obtain ⟨isPart, later⟩ := List.forall_mem_cons.mp parts
        obtain ⟨between, first, others⟩ := canonicalWith_cons_ok.mp made
        exact more later between (step (fun p good there => ih good) holds isPart first) others
    exact run _ top h

theorem Has.step (links : ∀ p there, onLink p = .ok there → disk.Has there)
    (h : disk.Has found) {part : Text}
    (made : disk.canonicalStep onLink found part = .ok next) : disk.Has next := by
  obtain ⟨folders, rfl, _, down⟩ := canonicalStep_ok.mp made
  rcases down with ⟨listed, inner, entered, rfl⟩ | ⟨listed, text, there, rfl⟩ |
    ⟨listed, target, _, _, _, again⟩
  · exact Stands.enter h entered
  · obtain rfl : listed = part := find?_name there
    exact ⟨h, there⟩
  · exact links _ _ again

/-- What a path leads to without its links is on the disk. -/
theorem has_of_canonicalFrom {depth : Nat} (h : disk.canonicalFrom depth path = .ok found) :
    disk.Has found :=
  canonicalFrom_keeps (Q := fun _ => True) trivial
    (fun links has _ => has.step fun p => links p fun _ _ => trivial) (fun _ _ => trivial) h

theorem proper_of_canonicalFrom {depth : Nat} (proper : Path.Proper path)
    (h : disk.canonicalFrom depth path = .ok found) : Path.Proper found.path := by
  refine canonicalFrom_keeps (P := fun found => Path.Proper found.path) (Q := Path.IsName)
    (fun _ member => (List.not_mem_nil member).elim) ?_ proper h
  intro onLink found part next links proper isName made
  obtain ⟨folders, rfl, _, down⟩ := canonicalStep_ok.mp made
  have deeper : Path.Proper (pathOf folders ++ [part]) :=
    proper.append fun name member => List.mem_singleton.mp member ▸ isName
  rcases down with ⟨listed, inner, entered, rfl⟩ | ⟨listed, text, there, rfl⟩ |
    ⟨listed, target, _, _, _, again⟩
  · obtain rfl : listed = part := find?_name entered
    rwa [Found.path, pathOf_cons]
  · obtain rfl : listed = part := find?_name there
    exact deeper
  · exact links _ (Path.resolve_proper proper target) _ again

/-- All directories above a canonical path may be entered. -/
theorem entersDown_of_canonicalFrom {depth : Nat}
    (h : disk.canonicalFrom depth path = .ok found) : disk.entersDown [] found.path = true := by
  refine canonicalFrom_keeps (P := fun found => disk.entersDown [] found.path = true)
    (Q := fun _ => True) rfl ?_ (fun _ _ => trivial) h
  intro onLink found part next links above _ made
  obtain ⟨folders, rfl, opened, down⟩ := canonicalStep_ok.mp made
  have inside : ∀ name, disk.entersDown [] (pathOf folders ++ [name]) = true := by
    intro name
    rw [entersDown_append, Bool.and_eq_true]
    exact ⟨above, Bool.and_eq_true_iff.mpr ⟨opened, rfl⟩⟩
  rcases down with ⟨listed, inner, _, rfl⟩ | ⟨listed, text, _, rfl⟩ | ⟨_, _, _, _, _, again⟩
  · rw [Found.path, pathOf_cons]
    exact inside listed
  · exact inside listed
  · exact links _ (fun _ _ => trivial) _ again

theorem canonical_eq_ok {written : Text} {real : Path} :
    disk.canonical written = .ok real ↔ ∃ found,
      disk.canonicalFrom disk.linkDepth (Path.ofText written) = .ok found ∧ found.path = real := by
  rw [canonical]
  cases disk.canonicalFrom disk.linkDepth (Path.ofText written) with
  | error e => simp [Except.map]
  | ok found => simp [Except.map]

theorem has_of_canonical {written : Text} {real : Path} (h : disk.canonical written = .ok real) :
    ∃ found, disk.Has found ∧ found.path = real := by
  obtain ⟨found, from_, path⟩ := canonical_eq_ok.mp h
  exact ⟨found, has_of_canonicalFrom from_, path⟩

theorem canonical_proper {written : Text} {real : Path} (h : disk.canonical written = .ok real) :
    Path.Proper real := by
  obtain ⟨found, from_, rfl⟩ := canonical_eq_ok.mp h
  exact proper_of_canonicalFrom (Path.ofText_proper written) from_

theorem Has.textAt? {name text : Text} (h : disk.Has (.file folders name text)) :
    Disk.textAt? disk.entries (pathOf folders ++ [name]) = some text := by
  obtain ⟨stands, there⟩ := h
  rw [textAt?_append stands.entriesAt?, Disk.textAt?, there]
  rfl

/-- Where there is a directory, no file is found. -/
theorem Has.folder_of_entries {inner : List DiskEntry} (h : disk.Has found)
    (inside : Disk.entriesAt? disk.entries found.path = some inner) :
    ∃ folders, found = .folder folders ∧ disk.Stands folders ∧ disk.current folders = inner := by
  cases found with
  | folder folders =>
    have current := Stands.entriesAt? h
    exact ⟨folders, rfl, h, Option.some.inj (current.symm.trans inside)⟩
  | file folders name text =>
    obtain ⟨stands, there⟩ := h
    rw [Found.path, entriesAt?_append, stands.entriesAt?, Option.bind_some, Disk.entriesAt?,
      there] at inside
    cases inside
  | nothing folders name => exact h.elim

/-- Without links a path to a file is canonical already, if the directories on the way may be
entered. -/
theorem canonicalWith_of_text {text : Text} (h : textAt? (disk.current folders) path = some text) :
    (disk.entersDown (pathOf folders) path = true → ∃ there,
      disk.canonicalWith onLink (.folder folders) path = .ok there ∧
        there.path = pathOf folders ++ path) ∧
    (disk.entersDown (pathOf folders) path = false →
      ∃ e, disk.canonicalWith onLink (.folder folders) path = .error (.disk e)) := by
  induction path generalizing folders with
  | nil => cases h
  | cons name rest ih =>
    rw [canonicalWith, List.foldlM_cons, canonicalStep, entersDown]
    cases opened : disk.enters folders with
    | false =>
      have closed : disk.allows .enter (pathOf folders) = false := opened
      simp [closed, bind, Except.bind]
    | true =>
      have opened : disk.allows .enter (pathOf folders) = true := opened
      rw [opened, Bool.true_and]
      rcases textAt?_cons.mp h with ⟨rfl, found⟩ | ⟨inner, found, deeper⟩
      · simp only [found]
        exact ⟨fun _ => ⟨_, rfl, rfl⟩, fun closed => by simp [entersDown] at closed⟩
      · have later := @ih (⟨name, inner⟩ :: folders) deeper
        rw [pathOf_cons, List.append_assoc, List.singleton_append] at later
        simp only [found]
        exact later

/-- Names below a directory are appended to its canonical path as they are to any other path to
it. -/
theorem canonical_append {p real below : Path} {inner : List DiskEntry} {text : Text}
    (proper : Path.Proper p) (properBelow : Path.Proper below)
    (inside : entriesAt? disk.entries real = some inner) (file : textAt? inner below = some text)
    (h : disk.canonical (Path.render p) = .ok real) :
    (disk.entersDown real below = true →
      disk.canonical (Path.render (p ++ below)) = .ok (real ++ below)) ∧
    (disk.entersDown real below = false →
      ∃ e, disk.canonical (Path.render (p ++ below)) = .error (.disk e)) := by
  obtain ⟨found, from_, rfl⟩ := canonical_eq_ok.mp h
  rw [Path.ofText_render proper] at from_
  obtain ⟨folders, rfl, stands, rfl⟩ :=
    (has_of_canonicalFrom from_).folder_of_entries inside
  have appended : disk.canonicalFrom disk.linkDepth (p ++ below) =
      disk.canonicalWith (disk.canonicalFrom disk.linkTargets.length)
        (.folder folders) below := by
    rw [linkDepth, canonicalFrom] at from_ ⊢
    rw [canonicalWith_append, from_]
    rfl
  rw [canonical, Path.ofText_render (proper.append properBelow), appended]
  obtain ⟨opened, closed⟩ := canonicalWith_of_text file
  constructor
  · intro enters
    obtain ⟨there, reached, path⟩ := opened enters
    rw [reached]
    exact congrArg Except.ok path
  · intro shut
    obtain ⟨e, failed⟩ := closed shut
    exact ⟨e, by rw [failed]; rfl⟩

end Canonical

/-! ### Lookups -/

section Lookup

variable {disk : Disk} {onLink : List Folder → List Text → Except Fault Found}
  {folders : List Folder} {found : Found}

/-- What a first step can do. -/
theorem lookupWith_cons_ok {step : Text} {rest : List Text} :
    disk.lookupWith onLink folders (step :: rest) = .ok found ↔
      (step = [] ∧ disk.lookupWith onLink folders rest = .ok found) ∨
      (step ≠ [] ∧ disk.enters folders = true ∧
        ((step = Path.here ∧ disk.lookupWith onLink folders rest = .ok found) ∨
        (step = Path.parent ∧ disk.lookupWith onLink (folders.drop 1) rest = .ok found) ∨
        (step ≠ Path.here ∧ step ≠ Path.parent ∧
          ((∃ listed inner, find? (disk.current folders) step = some (.directory listed inner) ∧
            disk.lookupWith onLink (⟨listed, inner⟩ :: folders) rest = .ok found) ∨
          (∃ listed text, find? (disk.current folders) step = some (.file listed text) ∧
            rest = [] ∧ found = .file folders listed text) ∨
          (∃ listed target, find? (disk.current folders) step = some (.link listed target) ∧
            onLink (if Path.isAbsolute target then [] else folders)
              (Path.steps target ++ rest) = .ok found) ∨
          (find? (disk.current folders) step = none ∧ rest = [] ∧
            found = .nothing folders step))))) := by
  have apart : Path.parent ≠ Path.here := by decide
  rw [lookupWith]
  by_cases empty : step = []
  · simp [empty]
  · rw [if_neg (by simpa using empty)]
    cases opened : disk.enters folders with
    | false => simp [empty]
    | true =>
      rw [if_neg (by simp)]
      by_cases stays : step = Path.here
      · subst stays
        simp [empty, apart.symm]
      · by_cases up : step = Path.parent
        · subst up
          simp [empty, apart]
        · rw [if_neg stays, if_neg up]
          cases listing : find? (disk.current folders) step with
          | none => cases rest <;> simp [empty, stays, up, @eq_comm _ found]
          | some entry =>
            cases entry with
            | directory listed inner => simp [empty, stays, up]
            | file listed text => cases rest <;> simp [empty, stays, up, @eq_comm _ found]
            | link listed target => simp [empty, stays, up]

/-- A lookup ends in folders that stand. -/
theorem lookupWith_stands
    (links : ∀ from_ steps, disk.Stands from_ → onLink from_ steps = .ok found →
      disk.Stands found.folders) {steps : List Text} (stands : disk.Stands folders)
    (h : disk.lookupWith onLink folders steps = .ok found) : disk.Stands found.folders := by
  induction steps generalizing folders with
  | nil =>
    cases h
    exact stands
  | cons step rest ih =>
    rcases lookupWith_cons_ok.mp h with ⟨_, later⟩ | ⟨_, _, ⟨_, later⟩ | ⟨_, later⟩ | ⟨_, _, down⟩⟩
    · exact ih stands later
    · exact ih stands later
    · exact ih stands.up later
    · rcases down with ⟨listed, inner, entered, later⟩ | ⟨_, _, _, _, rfl⟩ | ⟨_, target, _, again⟩ |
        ⟨_, _, rfl⟩
      · exact ih (stands.enter entered) later
      · exact stands
      · refine links _ _ ?_ again
        split
        · trivial
        · exact stands
      · exact stands

theorem lookup_stands {links : Nat} {steps : List Text} (stands : disk.Stands folders)
    (h : disk.lookup links folders steps = .ok found) : disk.Stands found.folders := by
  induction links generalizing folders steps with
  | zero =>
    refine lookupWith_stands ?_ stands h
    intro _ _ _ again
    cases again
  | succ links ih => exact lookupWith_stands (fun _ _ => ih) stands h

theorem reach_stands {steps : List Text} (h : disk.reach steps = .ok (.folder folders)) :
    disk.Stands folders :=
  @lookup_stands disk [] _ maxLinks _ trivial h

theorem lookupWith_name {name : Text} {rest : List Text} (isName : Path.IsName name) :
    disk.lookupWith onLink folders (name :: rest) =
      if disk.allows .enter (pathOf folders) then
        match find? (disk.current folders) name with
        | none => if rest.isEmpty then .ok (.nothing folders name) else .error .noEntry
        | some (.directory listed inner) =>
          disk.lookupWith onLink (⟨listed, inner⟩ :: folders) rest
        | some (.file listed text) =>
          if rest.isEmpty then .ok (.file folders listed text) else .error .notDirectory
        | some (.link _ target) =>
          onLink (if Path.isAbsolute target then [] else folders) (Path.steps target ++ rest)
      else .error .denied := by
  rw [lookupWith, if_neg (by simpa using isName.nonempty), if_neg isName.notHere,
    if_neg isName.notParent, enters]
  cases disk.allows .enter (pathOf folders) <;> rfl

/-- A directory without links on the way is found, whatever is done about links. -/
theorem lookupWith_of_entries {inner : List DiskEntry} {path : Path} (proper : Path.Proper path)
    (h : entriesAt? (disk.current folders) path = some inner) :
    ∃ reached, pathOf reached = pathOf folders ++ path ∧ disk.current reached = inner ∧
      ∀ onLink, disk.lookupWith onLink folders path =
        if disk.entersDown (pathOf folders) path then .ok (.folder reached)
        else .error .denied := by
  induction path generalizing folders with
  | nil =>
    cases h
    exact ⟨folders, by simp, rfl, fun _ => rfl⟩
  | cons name rest ih =>
    obtain ⟨isName, later⟩ := List.forall_mem_cons.mp proper
    obtain ⟨entries, entered, deeper⟩ := entriesAt?_cons.mp h
    obtain ⟨reached, place, current, found⟩ := @ih (⟨name, entries⟩ :: folders) later deeper
    rw [pathOf_cons] at place found
    refine ⟨reached, by rw [place, List.append_assoc, List.singleton_append], current, ?_⟩
    intro onLink
    rw [lookupWith_name isName, entersDown, entered]
    cases disk.allows .enter (pathOf folders) with
    | false => rfl
    | true => exact found onLink

/-- A file without links on the way is found, whatever is done about links. -/
theorem lookupWith_of_text {path : Path} {text : Text} (proper : Path.Proper path)
    (h : textAt? (disk.current folders) path = some text) :
    ∃ above name, pathOf above ++ [name] = pathOf folders ++ path ∧
      ∀ onLink, disk.lookupWith onLink folders path =
        if disk.entersDown (pathOf folders) path then .ok (.file above name text)
        else .error .denied := by
  induction path generalizing folders with
  | nil => cases h
  | cons name rest ih =>
    obtain ⟨isName, later⟩ := List.forall_mem_cons.mp proper
    rcases textAt?_cons.mp h with ⟨rfl, there⟩ | ⟨entries, entered, deeper⟩
    · refine ⟨folders, name, rfl, fun onLink => ?_⟩
      rw [lookupWith_name isName, entersDown, there]
      cases disk.allows .enter (pathOf folders) <;> rfl
    · obtain ⟨above, last, place, found⟩ := @ih (⟨name, entries⟩ :: folders) later deeper
      rw [pathOf_cons] at place found
      refine ⟨above, last, by rw [place, List.append_assoc, List.singleton_append], ?_⟩
      intro onLink
      rw [lookupWith_name isName, entersDown, entered]
      cases disk.allows .enter (pathOf folders) with
      | false => rfl
      | true => exact found onLink

/-- What is found from a directory is found behind every path to it. -/
theorem lookupWith_append {reached : List Folder} {steps below : List Text}
    {result : Except Fault Found} (onward : disk.lookupWith onLink reached below = result)
    (links : ∀ from_ more, onLink from_ more = .ok (.folder reached) →
      onLink from_ (more ++ below) = result)
    (h : disk.lookupWith onLink folders steps = .ok (.folder reached)) :
    disk.lookupWith onLink folders (steps ++ below) = result := by
  induction steps generalizing folders with
  | nil =>
    cases h
    exact onward
  | cons step rest ih =>
    rw [List.cons_append, lookupWith]
    rcases lookupWith_cons_ok.mp h with ⟨rfl, later⟩ | ⟨some, opened, go⟩
    · exact ih later
    · rw [if_neg (by simpa using some), if_neg (by simp [opened])]
      rcases go with ⟨rfl, later⟩ | ⟨rfl, later⟩ | ⟨notHere, notParent, down⟩
      · exact ih later
      · exact ih later
      · rw [if_neg notHere, if_neg notParent]
        rcases down with ⟨listed, inner, entered, later⟩ | ⟨_, _, _, _, last⟩ |
          ⟨listed, target, linked, again⟩ | ⟨_, _, last⟩
        · rw [entered]
          exact ih later
        · cases last
        · rw [linked]
          dsimp only
          rw [← List.append_assoc]
          exact links _ _ again
        · cases last

theorem lookup_append {links : Nat} {reached : List Folder} {steps below : List Text}
    {result : Except Fault Found}
    (onward : ∀ onLink, disk.lookupWith onLink reached below = result)
    (h : disk.lookup links folders steps = .ok (.folder reached)) :
    disk.lookup links folders (steps ++ below) = result := by
  induction links generalizing folders steps with
  | zero =>
    refine lookupWith_append (onward _) ?_ h
    intro _ _ again
    cases again
  | succ links ih => exact lookupWith_append (onward _) (fun _ _ => ih) h

end Lookup

/-! ### Written paths -/

section Written

variable {disk : Disk} {p : Path} {folders : List Folder}

theorem reach_render (proper : Path.Proper p) :
    disk.reach (Path.steps (Path.render p)) = disk.reach p := by
  by_cases top : p = []
  · subst top
    rfl
  · rw [Path.steps_render proper top]

theorem resolve_of_reach {path : Text} (hne : path ≠ []) {result : Except Fault Found}
    (reached : disk.reach (Path.steps path) = result)
    (something : ∀ above name, result ≠ .ok (.nothing above name)) :
    disk.resolve path = result := by
  obtain ⟨u, rest, rfl⟩ := List.exists_cons_of_ne_nil hne
  unfold resolve
  rw [reached]
  split
  · next empty => cases empty
  · next above name _ => exact absurd rfl (something above name)
  · rfl

/-- A path that is there leads to a directory or a file. -/
theorem resolve_eq_ok {there : Found} {path : Text} (hne : path ≠ []) :
    disk.resolve path = .ok there ↔ disk.reach (Path.steps path) = .ok there ∧
      ∀ above name, there ≠ .nothing above name := by
  constructor
  · obtain ⟨u, rest, rfl⟩ := List.exists_cons_of_ne_nil hne
    intro h
    unfold resolve at h
    split at h
    · cases h
    · cases h
    · next other =>
      refine ⟨h, ?_⟩
      rintro above name rfl
      exact other above name h
  · rintro ⟨reached, something⟩
    refine resolve_of_reach hne reached ?_
    intro above name same
    exact something above name (Except.ok.inj same)

theorem resolve_render {there : Found} (proper : Path.Proper p) :
    disk.resolve (Path.render p) = .ok there ↔
      disk.reach p = .ok there ∧ ∀ above name, there ≠ .nothing above name := by
  rw [← reach_render proper]
  exact resolve_eq_ok (List.cons_ne_nil _ _)

theorem resolve_render_folder (proper : Path.Proper p) :
    disk.resolve (Path.render p) = .ok (.folder folders) ↔
      disk.reach p = .ok (.folder folders) := by
  simp [resolve_render proper]

section Below

variable {below : Path} (proper : Path.Proper p)
  (reached : disk.reach p = .ok (.folder folders)) (inner : Path.Proper below)
include proper reached inner

theorem resolve_below {result : Except Fault Found}
    (onward : ∀ onLink, disk.lookupWith onLink folders below = result)
    (something : ∀ above name, result ≠ .ok (.nothing above name)) :
    disk.resolve (Path.render (p ++ below)) = result := by
  have written : Path.render (p ++ below) ≠ [] := List.cons_ne_nil _ _
  refine resolve_of_reach written ?_ something
  rw [reach_render (proper.append inner)]
  exact lookup_append onward reached

/-- What is a directory inside a directory is listed through any path to the outer one. -/
theorem list_below {entries : List DiskEntry}
    (inside : entriesAt? (disk.current folders) below = some entries) :
    disk.list (Path.render (p ++ below)) =
      if disk.entersDown (pathOf folders) below && disk.allows .list (pathOf folders ++ below) then
        .ok entries
      else .error ⟨.denied, .scandir, Path.render (p ++ below)⟩ := by
  obtain ⟨deeper, place, current, found⟩ := lookupWith_of_entries inner inside
  have result : disk.resolve (Path.render (p ++ below)) =
      if disk.entersDown (pathOf folders) below then .ok (.folder deeper) else .error .denied := by
    refine resolve_below proper reached inner found ?_
    intro above name
    split <;> simp
  rw [list, result]
  cases disk.entersDown (pathOf folders) below with
  | false => rfl
  | true => simp only [if_true, place, current, Bool.true_and]

/-- What is a file inside a directory is read through any path to the directory. -/
theorem read_below {text : Text} (file : textAt? (disk.current folders) below = some text) :
    disk.read (Path.render (p ++ below)) =
      if disk.entersDown (pathOf folders) below && disk.allows .read (pathOf folders ++ below) then
        .ok text
      else .error ⟨.denied, .openFile, Path.render (p ++ below)⟩ := by
  obtain ⟨above, name, place, found⟩ := lookupWith_of_text inner file
  have result : disk.resolve (Path.render (p ++ below)) =
      if disk.entersDown (pathOf folders) below then .ok (.file above name text)
      else .error .denied := by
    refine resolve_below proper reached inner found ?_
    intro above name
    split <;> simp
  rw [read, result]
  cases disk.entersDown (pathOf folders) below with
  | false => rfl
  | true => simp only [if_true, place, Bool.true_and]

end Below

theorem read?_eq_some {path text : Text} :
    disk.read? path = some text ↔ disk.read path = .ok text := by
  rw [read?]
  cases disk.read path <;> simp [Except.toOption]

/-- Whether there is a file at a path, with no link on the way, be it readable or not. -/
def Holds (disk : Disk) (p : Path) : Prop := ∃ text, textAt? disk.entries p = some text

/-- Whether there is a file that can be read and whose canonical path is this one. -/
def IsFile (disk : Disk) (p : Path) : Prop :=
  disk.canonical (Path.render p) = .ok p ∧ ∃ text, disk.read? (Path.render p) = some text

/-- The files are those that are found without links. -/
theorem isFile_iff :
    disk.IsFile p ↔ Path.Proper p ∧ disk.Holds p ∧ disk.entersDown [] p = true ∧
      disk.allows .read p = true := by
  have top : Path.Proper [] := fun _ member => (List.not_mem_nil member).elim
  have start : disk.reach [] = .ok (.folder []) := rfl
  constructor
  · rintro ⟨canonical, text, read⟩
    have proper := canonical_proper canonical
    obtain ⟨found, has, rfl⟩ := has_of_canonical canonical
    rw [read?_eq_some] at read
    cases found with
    | folder folders =>
      obtain ⟨reached, _, _, found⟩ :=
        @lookupWith_of_entries disk [] _ _ proper (Stands.entriesAt? has)
      have result := resolve_below top start proper found (by intro _ _; split <;> simp)
      rw [List.nil_append] at result
      rw [Disk.read, result] at read
      cases enters : disk.entersDown (pathOf []) (Found.folder folders).path with
      | false =>
        rw [enters] at read
        cases read
      | true =>
        rw [enters, if_pos rfl] at read
        dsimp only at read
        split at read <;> cases read
    | file above name content =>
      have reads := read_below top start proper has.textAt?
      rw [List.nil_append] at reads
      rw [reads] at read
      split at read
      · next allowed => exact ⟨proper, ⟨content, has.textAt?⟩, Bool.and_eq_true_iff.mp allowed⟩
      · cases read
    | nothing above name => exact has.elim
  · rintro ⟨proper, ⟨text, file⟩, enters, reads⟩
    have above := @canonical_append disk [] [] p _ _ top proper rfl file rfl
    have content := read_below top start proper file
    refine ⟨above.1 enters, text, ?_⟩
    rw [List.nil_append] at content
    rw [read?_eq_some, content]
    simp [enters, reads, pathOf]

end Written

end Disk

end Hypertag
