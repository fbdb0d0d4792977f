import Hypertag.Proofs.Enrollment
import Hypertag.Proofs.GrownDisk
import Hypertag.Proofs.Listing

/-!
# Scans and edits classify alike

A scan finds the domain of a file by walking the configured directories, an edit by comparing its
path with the recorded roots. Both give a file to the first directory in scan order that it lies
below and whose domain its extension fits. They part where a walk leaves out a directory, where the
canonical path of a directory leads elsewhere, and below a root at the top.
-/

namespace Hypertag

namespace Workspace

/-- Whether every directory on a path can be listed, from configured directories down. -/
def Listable (disk : Disk) (base : Path) (items : List (Domain × Text)) (p : Path) : Prop :=
  ∀ item ∈ items, ∀ real, disk.canonical (directoryPath base item.2) = .ok real →
    ∀ q, real <+: q → q <+: p → q ≠ p → disk.allows .list q = true

/-! ### One directory -/

section Directory

variable {disk : Disk} {base : Path} {directory : Text} {folders : List Folder} {real p : Path}
  {domain : Domain} {config : Config}

/-- Two files with one uri are the same, if the uri is read back. -/
theorem eq_of_uri (well : disk.WellFormed) {q : Path} (held : disk.Holds q) (proper : Path.Proper p)
    (back : p.ReadsBack) (named : Uri.ofPath (Path.render q) = Uri.ofPath (Path.render p)) :
    q = p := by
  obtain ⟨text, found⟩ := held
  have whole : ∀ name ∈ q, name.mended = name := fun name member =>
    (of_decide_eq_true (DiskEntry.names_of_textAt? well found name member)).2
  obtain ⟨u, parsed, path⟩ := back
  have written := Uri.eq_of_ofPath rfl rfl (Path.mended_render whole) parsed path named
  exact Path.render_injective (DiskEntry.proper_of_textAt? well found) proper written

/-- A uri is claimed in a directory when its path is that of a walked file. -/
theorem Rooted.claimed_iff (h : Rooted disk base directory folders real) (well : disk.WellFormed)
    (proper : Path.Proper p) (back : p.ReadsBack) :
    (∃ c ∈ claimsIn disk config base (domain, directory), c.uri = Uri.ofPath (Path.render p)) ↔
      ∃ below, p = real ++ below ∧
        (∃ text, Disk.textAt? (disk.current folders) below = some text) ∧
        (∀ name ∈ below.dropLast, name ∉ skippedDirectories) ∧
        disk.ListsDown (Path.render real) below ∧ disk.entersDown real below = true ∧
        domain ∈ config.classify (Path.render p) := by
  constructor
  · rintro ⟨c, claimed, named⟩
    obtain ⟨below, ⟨text, file⟩, kept, lists, enters, fits, rfl⟩ :=
      (h.mem_claimsIn well).mp claimed
    have found := (Disk.textAt?_append h.inside below).trans file
    obtain rfl := eq_of_uri well ⟨text, found⟩ proper back named
    exact ⟨below, rfl, ⟨text, file⟩, kept, lists, enters, fits⟩
  · rintro ⟨below, rfl, file, kept, lists, enters, fits⟩
    exact ⟨_, (h.mem_claimsIn well).mpr ⟨below, file, kept, lists, enters, fits, rfl⟩, rfl⟩

/-- Only files are claimed. -/
theorem Rooted.holds_of_claimed (h : Rooted disk base directory folders real)
    (well : disk.WellFormed) (proper : Path.Proper p) (back : p.ReadsBack)
    (claimed : ∃ c ∈ claimsIn disk config base (domain, directory),
      c.uri = Uri.ofPath (Path.render p)) : disk.Holds p := by
  obtain ⟨below, rfl, ⟨text, file⟩, _⟩ := (h.claimed_iff well proper back).mp claimed
  exact ⟨text, (Disk.textAt?_append h.inside below).trans file⟩

section File

variable (h : Rooted disk base directory folders real) (well : disk.WellFormed)
  (file : disk.IsFile p)
  (allowed : ∀ q, real <+: q → q <+: p → q ≠ p → disk.allows .list q = true)
  (kept : ∀ name ∈ p.dropLast, name ∉ skippedDirectories) (back : p.ReadsBack) (deep : real ≠ [])
include h well file allowed kept back deep

/-- For a file that no walk leaves out, to be claimed in a directory is to lie in it. -/
theorem Rooted.claimed_iff_inDirectory :
    (∃ c ∈ claimsIn disk config base (domain, directory), c.uri = Uri.ofPath (Path.render p)) ↔
      domain ∈ config.classify (Path.render p) ∧
        inDirectory (Path.render real) (Path.render p) = true := by
  obtain ⟨proper, ⟨text, found⟩, enters, _⟩ := Disk.isFile_iff.mp file
  rw [h.claimed_iff well proper back, inDirectory_iff h.real_proper proper deep]
  constructor
  · rintro ⟨below, split, ⟨text, inside⟩, _, _, _, fits⟩
    refine ⟨fits, below, ?_, split⟩
    rintro rfl
    cases inside
  · rintro ⟨fits, below, behind, rfl⟩
    rw [List.dropLast_append_of_ne_nil behind] at kept
    rw [Disk.entersDown_append, Bool.and_eq_true] at enters
    have inside := (Disk.textAt?_append h.inside below).symm.trans found
    exact ⟨below, rfl, ⟨text, inside⟩,
      fun name member => kept name (List.mem_append_right real member),
      h.listsDown proper.right inside enters.2 allowed, enters.2, fits⟩

/-- The first claim of a directory to a file, if the directory's root takes the path. -/
theorem Rooted.find?_claimsIn :
    ((claimsIn disk config base (domain, directory)).find?
      (·.uri = Uri.ofPath (Path.render p))).map ScanClaim.domain =
      if domain ∈ config.classify (Path.render p) ∧
        inDirectory (Path.render real) (Path.render p) = true then some domain else none := by
  have takes : (∃ c ∈ claimsIn disk config base (domain, directory),
      c.uri = Uri.ofPath (Path.render p)) ↔ _ :=
    h.claimed_iff_inDirectory well file allowed kept back deep
  cases first : (claimsIn disk config base (domain, directory)).find?
      (·.uri = Uri.ofPath (Path.render p)) with
  | none =>
    rw [List.find?_eq_none] at first
    rw [if_neg, Option.map_none]
    intro fits
    obtain ⟨c, listed, named⟩ := takes.mpr fits
    exact first c listed (decide_eq_true named)
  | some c =>
    have listed := List.mem_of_find?_eq_some first
    have named : c.uri = Uri.ofPath (Path.render p) := by simpa using List.find?_some first
    rw [if_pos (takes.mp ⟨c, listed, named⟩), Option.map_some, (mem_claimsAmong.mp listed).1]

end File

end Directory

/-! ### All directories -/

section Directories

variable {disk : Disk} {base : Path} {config : Config} {items : List (Domain × Text)}
  {roots : List ProjectRoot} {p : Path}

/-- The first root that takes the path of a file belongs to the first directory that claims it. -/
theorem domainOfPath?_eq_claim (well : disk.WellFormed) (proper : Path.Proper base)
    (made : List.Forall₂ (fun item root => projectRoot disk base item = .ok root) items roots)
    (faithful : ∀ item ∈ items, disk.Faithful (directoryPath base item.2))
    (deep : ∀ item ∈ items, disk.canonical (directoryPath base item.2) ≠ .ok [])
    (file : disk.IsFile p) (lists : Listable disk base items p)
    (kept : ∀ name ∈ p.dropLast, name ∉ skippedDirectories) (back : p.ReadsBack) :
    domainOfPath? config roots (Path.render p) =
      (items.findSome? fun item => (claimsIn disk config base item).find?
        (·.uri = Uri.ofPath (Path.render p))).map ScanClaim.domain := by
  induction made with
  | nil => rfl
  | @cons item root items roots becomes _ ih =>
    have rest := ih (fun x hx => faithful x (List.mem_cons_of_mem item hx))
      (fun x hx => deep x (List.mem_cons_of_mem item hx))
      (fun x hx => lists x (List.mem_cons_of_mem item hx))
    obtain ⟨folders, real, rooted, rfl⟩ :=
      rooted_of_projectRoot proper (faithful item List.mem_cons_self) becomes
    have below : real ≠ [] := by
      rintro rfl
      exact deep item List.mem_cons_self rooted.canonical
    have first : ((claimsIn disk config base item).find?
        (·.uri = Uri.ofPath (Path.render p))).map ScanClaim.domain = _ :=
      rooted.find?_claimsIn well file (lists item List.mem_cons_self real rooted.canonical) kept
        back below
    rw [domainOfPath?] at rest ⊢
    rw [List.findSome?_cons]
    by_cases fits : item.1 ∈ config.classify (Path.render p) ∧
        inDirectory (Path.render real) (Path.render p) = true
    · rw [if_pos fits] at first
      obtain ⟨c, found, domain⟩ := Option.map_eq_some_iff.mp first
      rw [List.find?_cons_of_pos (by simpa using fits), found]
      simp [domain]
    · rw [if_neg fits, Option.map_eq_none_iff] at first
      rw [List.find?_cons_of_neg (by simpa using fits), first]
      exact rest

end Directories

/-! ### After a scan -/

section Scan

variable {g : Grammars} {disk : Disk} {ws : Workspace} {config : Config} {root : Text}
  {refused : List Tag} (scanned : (ws.scan g disk config root).2 = .ok refused)

include scanned

theorem scan_roots :
    List.Forall₂ (fun item made => projectRoot disk (Path.ofText root) item = .ok made)
      (scanOrder config) (ws.scan g disk config root).1.roots := by
  obtain ⟨_, after, totals, log, loop, state, _⟩ := scan_eq_ok scanned
  obtain ⟨roots, made, all⟩ := scanDirectories_roots loop
  have all : after.roots = roots := all
  rw [state, all]
  exact mapM_ok_iff.mp made

theorem scan_progress : Progress g disk config.lang ws (claims disk config (Path.ofText root))
    (ws.scan g disk config root).1 := by
  obtain ⟨ready, after, totals, log, loop, state, _⟩ := scan_eq_ok scanned
  rw [state]
  exact (scanDirectories_progress ready loop).relog log

variable (well : disk.WellFormed)
  (faithful : ∀ item ∈ scanOrder config, disk.Faithful (directoryPath (Path.ofText root) item.2))
include faithful

theorem rooted_of_scan {item : Domain × Text} (configured : item ∈ scanOrder config) :
    ∃ folders real, Rooted disk (Path.ofText root) item.2 folders real ∧
      ⟨item.1, Path.render real⟩ ∈ (ws.scan g disk config root).1.roots := by
  obtain ⟨made, member, becomes⟩ := exists_of_forall₂ (scan_roots scanned) configured
  obtain ⟨folders, real, rooted, rfl⟩ :=
    rooted_of_projectRoot (Path.ofText_proper root) (faithful item configured) becomes
  exact ⟨folders, real, rooted, member⟩

include well

/-- Each claim is that of a file below a root. -/
theorem claim_of_scan {c : ScanClaim} (claimed : c ∈ claims disk config (Path.ofText root)) :
    ∃ made ∈ (ws.scan g disk config root).1.roots, ∃ real below,
      made.directory = Path.render real ∧ disk.Holds (real ++ below) ∧ below ≠ [] ∧
      (∀ name ∈ below.dropLast, name ∉ skippedDirectories) ∧
      c.uri = Uri.ofPath (Path.render (real ++ below)) := by
  obtain ⟨item, configured, listed⟩ := List.mem_flatMap.mp claimed
  obtain ⟨folders, real, rooted, member⟩ := rooted_of_scan scanned faithful configured
  obtain ⟨below, ⟨text, file⟩, kept, _, _, _, rfl⟩ := (rooted.mem_claimsIn well).mp listed
  have behind : below ≠ [] := by
    rintro rfl
    cases file
  exact ⟨_, member, real, below, rfl, ⟨text, (Disk.textAt?_append rooted.inside below).trans file⟩,
    behind, kept, rfl⟩

variable {p : Path} (file : disk.IsFile p) (back : p.ReadsBack)
include file back

/-- What is claimed under the uri of a file can be read. -/
theorem read_of_claim {c : ScanClaim} (claimed : c ∈ claims disk config (Path.ofText root))
    (named : c.uri = Uri.ofPath (Path.render p)) : ∃ text, disk.read? c.path = some text := by
  obtain ⟨proper, _, _, readable⟩ := Disk.isFile_iff.mp file
  obtain ⟨item, configured, listed⟩ := List.mem_flatMap.mp claimed
  obtain ⟨folders, real, rooted, _⟩ := rooted_of_scan scanned faithful configured
  obtain ⟨below, ⟨text, inside⟩, _, _, enters, _, rfl⟩ := (rooted.mem_claimsIn well).mp listed
  have held : disk.Holds (real ++ below) :=
    ⟨text, (Disk.textAt?_append rooted.inside below).trans inside⟩
  obtain rfl := eq_of_uri well held proper back named
  refine ⟨text, Disk.read?_eq_some.mpr ?_⟩
  rw [rooted.read_below proper.right inside, enters, readable]
  rfl

/-- The domain of an indexed file is that of its first claim. -/
theorem domain_of_scan :
    ((ws.scan g disk config root).1.treeOf? (Uri.ofPath (Path.render p))).map CachedTree.domain =
      (firstClaim? disk config (Path.ofText root) (Uri.ofPath (Path.render p))).map
        ScanClaim.domain := by
  rw [(scan_progress scanned).trees, firstClaim?_eq]
  cases first : (claims disk config (Path.ofText root)).find?
      (·.uri = Uri.ofPath (Path.render p)) with
  | none => rfl
  | some c =>
    have named : c.uri = Uri.ofPath (Path.render p) := by simpa using List.find?_some first
    obtain ⟨text, read⟩ := read_of_claim scanned well faithful file back
      (List.mem_of_find?_eq_some first) named
    rw [Option.bind_some, claimTree?, read]
    cases ws.documents.get? c.uri with
    | none => rfl
    | some content => rfl

omit well faithful file back in
theorem unknown_of_scan (uri : Text) :
    (ws.scan g disk config root).1.index.idOf? uri = none ↔
      firstClaim? disk config (Path.ofText root) uri = none := by
  have known : (∃ file, (ws.scan g disk config root).1.index.idOf? uri = some file) ↔ _ :=
    (scan_progress scanned).known_iff
  rw [firstClaim?_eq, List.find?_eq_none]
  constructor
  · intro unknown c claimed named
    obtain ⟨file, indexed⟩ := known.mpr (List.mem_map.mpr ⟨c, claimed, of_decide_eq_true named⟩)
    cases unknown.symm.trans indexed
  · intro unclaimed
    rw [Option.eq_none_iff_forall_ne_some]
    intro file indexed
    obtain ⟨c, claimed, named⟩ := List.mem_map.mp (known.mp ⟨file, indexed⟩)
    exact unclaimed c claimed (decide_eq_true named)

end Scan

/-- A uri that is read as a path has the domain of the path. -/
theorem classifyUri_of_readsBack {ws : Workspace} {config : Config}
    (configured : ws.config = some config) {p : Path} (back : p.ReadsBack) :
    ws.classifyUri (Uri.ofPath (Path.render p)) =
      .ok (domainOfPath? config ws.roots (Path.render p)) := by
  obtain ⟨u, parsed, path⟩ := back
  have scheme : u.scheme = Uri.fileScheme := by rw [Uri.parse_ofPath rfl parsed]
  simp only [classifyUri, configured, parsed, Except.map, scheme, if_true, path]

section Alike

variable {g : Grammars} {disk : Disk} {ws : Workspace} {config : Config} {root : Text}
  {refused : List Tag} (scanned : (ws.scan g disk config root).2 = .ok refused)
  (well : disk.WellFormed)
  (faithful : ∀ item ∈ scanOrder config, disk.Faithful (directoryPath (Path.ofText root) item.2))
  {p : Path} (back : p.ReadsBack)
include scanned well faithful back

/-- The uri of a file has the domain that the scan has given to the file. -/
theorem classifyUri_of_scan
    (deep : ∀ item ∈ scanOrder config,
      disk.canonical (directoryPath (Path.ofText root) item.2) ≠ .ok [])
    (file : disk.IsFile p) (lists : Listable disk (Path.ofText root) (scanOrder config) p)
    (kept : ∀ name ∈ p.dropLast, name ∉ skippedDirectories) :
    (ws.scan g disk config root).1.classifyUri (Uri.ofPath (Path.render p)) =
      .ok (((ws.scan g disk config root).1.treeOf? (Uri.ofPath (Path.render p))).map
        CachedTree.domain) := by
  have ready := (scan_eq_ok scanned).1
  rw [classifyUri_of_readsBack (scan_config g disk ready config root) back,
    domainOfPath?_eq_claim well (Path.ofText_proper root) (scan_roots scanned) faithful deep file
      lists kept back, domain_of_scan scanned well faithful file back]
  rfl

/-- Nothing is indexed under the uri of a path where there is no file. -/
theorem unknown_of_no_file (proper : Path.Proper p) (missing : ¬ disk.Holds p) :
    (ws.scan g disk config root).1.index.idOf? (Uri.ofPath (Path.render p)) = none := by
  rw [unknown_of_scan scanned, firstClaim?_eq, List.find?_eq_none]
  intro c claimed named
  obtain ⟨item, configured, listed⟩ := List.mem_flatMap.mp claimed
  obtain ⟨folders, real, rooted, _⟩ := rooted_of_scan scanned faithful configured
  exact missing (rooted.holds_of_claimed well proper back ⟨c, listed, of_decide_eq_true named⟩)

section Later

variable {later : Disk} (deep : ∀ item ∈ scanOrder config,
    disk.canonical (directoryPath (Path.ofText root) item.2) ≠ .ok [])
  (grown : later.KeptIn disk)
include deep grown

omit well back in
/-- The scanned directories lead where they led before. -/
theorem directory_kept {item : Domain × Text} (configured : item ∈ scanOrder config) :
    (∃ made, projectRoot later (Path.ofText root) item = .ok made) ∧
      later.Faithful (directoryPath (Path.ofText root) item.2) ∧
      later.canonical (directoryPath (Path.ofText root) item.2) ≠ .ok [] := by
  obtain ⟨made, _, becomes⟩ := exists_of_forall₂ (scan_roots scanned) configured
  exact ⟨⟨made, projectRoot_kept grown becomes⟩,
    faithful_kept grown becomes (faithful item configured),
    canonical_ne_top_kept grown becomes (deep item configured)⟩

/-- The edit of a file made later gives it the domain that the next scan gives to it. -/
theorem edit_as_next_scan (well' : later.WellFormed) (file : later.IsFile p)
    (lists : Listable later (Path.ofText root) (scanOrder config) p) (missing : ¬ disk.Holds p)
    (kept : ∀ name ∈ p.dropLast, name ∉ skippedDirectories) (text : Text) : ∃ next refused',
      ((ws.scan g disk config root).1.edit g (Uri.ofPath (Path.render p)) text).1.scan g later
        config root = (next, .ok refused') ∧
      (((ws.scan g disk config root).1.edit g (Uri.ofPath (Path.render p)) text).1.treeOf?
        (Uri.ofPath (Path.render p))).map CachedTree.domain =
          (next.treeOf? (Uri.ofPath (Path.render p))).map CachedTree.domain := by
  have progress := scan_progress scanned
  have ready : (ws.scan g disk config root).1.ready = true := ready_iff.mpr ⟨_, progress.loaded⟩
  have proper := (Disk.isFile_iff.mp file).1
  have directories := fun item (h : item ∈ scanOrder config) =>
    directory_kept scanned faithful deep grown h
  have unknown := unknown_of_no_file scanned well faithful back proper missing
  have classified := classifyUri_of_readsBack
    (scan_config g disk (scan_eq_ok scanned).1 config root) back
  have edited := domain_of_edit (g := g) progress.tracked ready unknown classified text
  have roots := (scan_roots scanned).imp fun _ _ made => projectRoot_kept grown made
  have still : ((ws.scan g disk config root).1.edit g (Uri.ofPath (Path.render p)) text).1.ready =
    true := perform_ready ready (.edit (Uri.ofPath (Path.render p)) text)
  have through : ∀ item ∈ scanOrder config, Scannable later config (Path.ofText root) item := by
    intro item configured
    obtain ⟨⟨made, becomes⟩, faithful', _⟩ := directories item configured
    obtain ⟨folders, real, rooted, rfl⟩ :=
      rooted_of_projectRoot (Path.ofText_proper root) faithful' becomes
    exact ⟨⟨_, becomes⟩, rooted.filesEnd well' config⟩
  obtain ⟨refused', answer⟩ := scan_succeeds g still through
  refine ⟨_, refused', Prod.ext rfl answer, ?_⟩
  rw [edited, domain_of_scan answer well' (fun item h => (directories item h).2.1) file back,
    firstClaim?, domainOfPath?_eq_claim well' (Path.ofText_proper root) roots
      (fun item h => (directories item h).2.1) (fun item h => (directories item h).2.2) file lists
      kept back]

end Later

end Alike

/-- After a scan of directories that are where their canonical paths say, the uri of every file that
can be read and that no walk leaves out, because of a name on the way or because a directory cannot
be listed, has the domain that the scan has given to the file, and none if the scan has left it out.
Such a file that is made later and opened gets the domain that the next scan gives to it. -/
theorem scan_and_edit_classify_alike {g : Grammars} {disk : Disk} {ws after : Workspace}
    {config : Config} {root : Text} {refused : List Tag}
    (scanned : ws.scan g disk config root = (after, .ok refused)) (well : disk.WellFormed)
    (faithful : ∀ item ∈ scanOrder config, disk.Faithful (directoryPath (Path.ofText root) item.2))
    (deep : ∀ item ∈ scanOrder config,
      disk.canonical (directoryPath (Path.ofText root) item.2) ≠ .ok [])
    {p : Path} (kept : ∀ name ∈ p.dropLast, name ∉ skippedDirectories) (back : p.ReadsBack)
    {uri : Text} (named : uri = Uri.ofPath (Path.render p)) :
    (disk.IsFile p → Listable disk (Path.ofText root) (scanOrder config) p →
      (∀ domain, after.classifyUri uri = .ok (some domain) ↔
        ∃ entry, after.treeOf? uri = some entry ∧ entry.domain = domain) ∧
      (after.classifyUri uri = .ok none ↔ after.index.idOf? uri = none)) ∧
    ∀ later : Disk, later.WellFormed → later.KeptIn disk → later.IsFile p →
      Listable later (Path.ofText root) (scanOrder config) p → ¬ disk.Holds p →
      ∀ text, ∃ next refused',
        (after.edit g uri text).1.scan g later config root = (next, .ok refused') ∧
        ((after.edit g uri text).1.treeOf? uri).map CachedTree.domain =
          (next.treeOf? uri).map CachedTree.domain := by
  have answer : (ws.scan g disk config root).2 = .ok refused := by rw [scanned]
  obtain rfl : (ws.scan g disk config root).1 = after := by rw [scanned]
  subst named
  constructor
  · intro file lists
    have classified := classifyUri_of_scan answer well faithful back deep file lists kept
    have domain := domain_of_scan answer well faithful file back
    constructor
    · intro domain
      rw [classified, Except.ok.injEq, Option.map_eq_some_iff]
    · rw [classified, domain, unknown_of_scan answer, Except.ok.injEq, Option.map_eq_none_iff]
  · intro later well' grown file lists missing text
    exact edit_as_next_scan answer well faithful back deep grown well' file lists missing kept text

end Workspace

namespace Sample

def grown : Disk :=
  { entries := [.directory "ws" [.directory "app" [.file "x.py" "# hx@b", .directory "lib"
    [.file "y.py" "# hx@c", .file "z.py" "# hx@d"]], .link "alias" "app"]] }

/-- A link that leads to one directory and has the canonical path of another. -/
def astray : Disk :=
  { entries := [.directory "ws" [.directory "x" [.directory "t" [], .directory "y" []],
    .directory "t" [.file "b.py" "# hx@b"], .link "s" "x/y", .link "d" "s/../t"]] }

def astrayConfig : Config := { config .python with backendTags := ["d"] }

def misled : Workspace × Except ScanError (List Tag) :=
  scanned.scan grammars astray astrayConfig "/ws"

end Sample

open Workspace in
/-- The inner file is a template to the scan and to an edit, and so is the one made beside it. -/
theorem classified_alike_nested :
    Sample.rescanned.1.classifyUri "file:///ws/app/lib/y.py" = .ok (some .template) ∧
    (∃ entry, Sample.rescanned.1.treeOf? "file:///ws/app/lib/y.py" = some entry ∧
      entry.domain = .template) ∧
    ((Sample.rescanned.1.edit Sample.grammars "file:///ws/app/lib/z.py" "").1.treeOf?
      "file:///ws/app/lib/z.py").map CachedTree.domain = some .template ∧
    ∃ next refused, (Sample.rescanned.1.edit Sample.grammars "file:///ws/app/lib/z.py" "").1.scan
        Sample.grammars Sample.grown Sample.overlappingConfig "/ws" = (next, .ok refused) ∧
      (next.treeOf? "file:///ws/app/lib/z.py").map CachedTree.domain = some .template := by
  have well : Sample.overlapping.WellFormed := by decide
  have scanned : Sample.scanned.scan Sample.grammars Sample.overlapping Sample.overlappingConfig
    "/ws" = (Sample.rescanned.1, .ok []) := rfl
  have order : scanOrder Sample.overlappingConfig = [(.template, Text.ofString "app/lib"),
    (.backend, Text.ofString "alias"), (.backend, Text.ofString "app"),
    (.backend, Text.ofString "app/lib")] := rfl
  have faithful : ∀ item ∈ scanOrder Sample.overlappingConfig,
      Sample.overlapping.Faithful (directoryPath (Path.ofText "/ws") item.2) := by
    rw [order]
    simp only [List.forall_mem_cons]
    exact ⟨Disk.faithful_of_resolved rfl rfl, Disk.faithful_of_resolved rfl rfl,
      Disk.faithful_of_resolved rfl rfl, Disk.faithful_of_resolved rfl rfl, by simp⟩
  have deep : ∀ item ∈ scanOrder Sample.overlappingConfig,
    Sample.overlapping.canonical (directoryPath (Path.ofText "/ws") item.2) ≠ .ok [] := by decide
  have inner : (Path.ofText "/ws/app/lib/y.py").ReadsBack :=
    ⟨⟨Uri.fileScheme, [], "/ws/app/lib/y.py"⟩, by decide, by decide⟩
  have beside : (Path.ofText "/ws/app/lib/z.py").ReadsBack :=
    ⟨⟨Uri.fileScheme, [], "/ws/app/lib/z.py"⟩, by decide, by decide⟩
  have classified : Sample.rescanned.1.classifyUri "file:///ws/app/lib/y.py" =
    .ok (some .template) := by decide
  have edited : ((Sample.rescanned.1.edit Sample.grammars "file:///ws/app/lib/z.py" "").1.treeOf?
    "file:///ws/app/lib/z.py").map CachedTree.domain = some .template := by decide
  have missing : ¬ Sample.overlapping.Holds (Path.ofText "/ws/app/lib/z.py") := by
    rintro ⟨text, found⟩
    cases found
  have innerUri : Text.ofString "file:///ws/app/lib/y.py" =
    Uri.ofPath (Path.render (Path.ofText "/ws/app/lib/y.py")) := by decide
  have besideUri : Text.ofString "file:///ws/app/lib/z.py" =
    Uri.ofPath (Path.render (Path.ofText "/ws/app/lib/z.py")) := by decide
  obtain ⟨domains, _⟩ := (scan_and_edit_classify_alike scanned well faithful deep (by decide) inner
    innerUri).1 ⟨rfl, _, rfl⟩ (fun _ _ _ _ _ _ _ _ => rfl)
  obtain ⟨next, refused, again, alike⟩ := (scan_and_edit_classify_alike scanned well faithful deep
    (by decide) beside besideUri).2 Sample.grown (by decide) ⟨by decide, fun _ opened => opened⟩
      ⟨rfl, _, rfl⟩ (fun _ _ _ _ _ _ _ _ => rfl) missing ""
  exact ⟨classified, (domains .template).mp classified, edited, next, refused, again,
    alike.symm.trans edited⟩

open Workspace in
/-- Where the canonical path of a configured directory leads elsewhere, an edit takes up a file that
the scan does not list. -/
theorem scan_misses_classified_file :
    Sample.astray.WellFormed ∧ Sample.misled.2 = .ok [] ∧
    (∀ item ∈ scanOrder Sample.astrayConfig,
      Sample.astray.canonical (directoryPath (Path.ofText "/ws") item.2) ≠ .ok []) ∧
    Sample.astray.IsFile (Path.ofText "/ws/t/b.py") ∧
    (∀ name ∈ (Path.ofText "/ws/t/b.py").dropLast, name ∉ skippedDirectories) ∧
    (Path.ofText "/ws/t/b.py").ReadsBack ∧
    Sample.astray.canonicalUri "/ws/t/b.py" = .ok "file:///ws/t/b.py" ∧
    Sample.misled.1.index.idOf? "file:///ws/t/b.py" = none ∧
    Sample.misled.1.classifyUri "file:///ws/t/b.py" = .ok (some .backend) := by
  refine ⟨by decide, rfl, by decide, ⟨rfl, _, rfl⟩, by decide, ?_, rfl, by decide, by decide⟩
  exact ⟨⟨Uri.fileScheme, [], "/ws/t/b.py"⟩, by decide, by decide⟩

end Hypertag
