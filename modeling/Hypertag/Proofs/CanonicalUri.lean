import Hypertag.Path
import Hypertag.Proofs.Encoding
import Hypertag.Uri.Basic

/-!
# Canonical uris

A path has one uri that it is written as, but many uris are read as that path. Of the uris that are
read as one path on disk, at most one is canonical.
-/

namespace Hypertag

namespace Uri

/-- The uri that an absolute path is written as. -/
def Canonical (uri : Text) : Prop :=
  ∃ path, Path.isAbsolute path = true ∧ uri = ofPath path

theorem ofPath_ne_nil (path : Text) : ofPath path ≠ [] := by
  intro h
  have length := congrArg List.length h
  simp [ofPath, Text.ofString, Text.ofChars, Text.ofChar] at length

/-- Whether two uris are read as the same path on disk. -/
def SameFile (u v : Text) : Prop :=
  ∃ a b, parse u = .ok a ∧ parse v = .ok b ∧ a.filePath = b.filePath

/-! ### Drives -/

/-- Only the letter of a drive in upper case is changed. -/
theorem lowerDrive_cases (path : Text) : lowerDrive path = path ∨
    ∃ drive rest, Percent.isUpper drive = true ∧ path = slash :: drive :: colon :: rest ∧
      lowerDrive path = slash :: lowerUnit drive :: colon :: rest := by
  unfold lowerDrive
  split
  · next first drive second rest =>
    split
    · next fits =>
      simp only [Bool.and_eq_true, decide_eq_true_eq] at fits
      obtain ⟨rfl, rfl⟩ := fits
      cases upper : Percent.isUpper drive with
      | false =>
        left
        rw [lowerUnit, upper, if_neg Bool.false_ne_true]
      | true => exact Or.inr ⟨drive, rest, upper, rfl, rfl⟩
    · exact Or.inl rfl
  · exact Or.inl rfl

theorem lowerDrive_head (path : Text) : (lowerDrive path).head? = path.head? := by
  rcases lowerDrive_cases path with same | ⟨drive, rest, _, written, lowered⟩
  · rw [same]
  · rw [lowered, written]
    rfl

theorem lowerDrive_absolute {path : Text} (absolute : Path.isAbsolute path = true) :
    (lowerDrive path).head? = some slash := by
  rw [lowerDrive_head]
  exact of_decide_eq_true absolute

def SmallDrive (path : Text) : Prop :=
  ∀ drive rest, path = slash :: drive :: colon :: rest → lowerUnit drive = drive

theorem isUpper_iff (u : UInt16) :
    Percent.isUpper u = true ↔ 0x41 ≤ u.toNat ∧ u.toNat ≤ 0x5A := by
  simp [Percent.isUpper, UInt16.le_iff_toNat_le]

theorem toNat_lowerUnit {u : UInt16} (upper : Percent.isUpper u = true) :
    (lowerUnit u).toNat = u.toNat + 0x20 := by
  have bounds := (isUpper_iff u).mp upper
  rw [lowerUnit, if_pos upper, UInt16.toNat_add]
  change (u.toNat + 0x20) % 2 ^ 16 = u.toNat + 0x20
  omega

theorem lowerUnit_lowerUnit (u : UInt16) : lowerUnit (lowerUnit u) = lowerUnit u := by
  cases upper : Percent.isUpper u with
  | false => simp [lowerUnit, upper]
  | true =>
    have lower : Percent.isUpper (lowerUnit u) = false := by
      rw [← Bool.not_eq_true, isUpper_iff, toNat_lowerUnit upper]
      rw [isUpper_iff] at upper
      omega
    rw [lowerUnit, lower, if_neg Bool.false_ne_true]

theorem isLetter_lowerUnit {u : UInt16} (upper : Percent.isUpper u = true) :
    Percent.isLetter (lowerUnit u) = true := by
  obtain ⟨low, high⟩ := (isUpper_iff u).mp upper
  simp only [Percent.isLetter, Percent.isLower, Bool.or_eq_true, Bool.and_eq_true,
    decide_eq_true_eq, UInt16.le_iff_toNat_le, toNat_lowerUnit upper]
  right
  exact ⟨Nat.add_le_add_right low 0x20, Nat.add_le_add_right high 0x20⟩

theorem isSurrogate_lowerUnit {u : UInt16} (upper : Percent.isUpper u = true) :
    Text.isSurrogate (lowerUnit u) = false := by
  have bounds := (isUpper_iff u).mp upper
  rw [← Bool.not_eq_true, Text.isSurrogate_iff, toNat_lowerUnit upper]
  omega

theorem eq_slash_of_lowerUnit {u : UInt16} (h : lowerUnit u = slash) : u = slash := by
  cases upper : Percent.isUpper u with
  | false => simpa [lowerUnit, upper] using h
  | true =>
    have shifted := toNat_lowerUnit upper
    rw [h] at shifted
    rw [isUpper_iff] at upper
    change 0x2F = u.toNat + 0x20 at shifted
    omega

theorem lowerDrive_small (path : Text) : SmallDrive (lowerDrive path) := by
  intro drive rest h
  unfold lowerDrive at h
  split at h
  · split at h
    · cases h
      exact lowerUnit_lowerUnit _
    · next fits =>
      cases h
      exact absurd rfl fits
  · next short => exact absurd h (short _ _ _ _)

theorem SmallDrive.mended {path : Text} (h : SmallDrive path) : SmallDrive path.mended := by
  intro drive rest written
  cases upper : Percent.isUpper drive with
  | false => simp [lowerUnit, upper]
  | true =>
    have small : drive.toNat < 0xD800 := by
      rw [isUpper_iff] at upper
      omega
    obtain ⟨fromDrive, hpath, fromDrive_eq⟩ := Text.mended_eq_cons (by decide) written
    obtain ⟨fromColon, hdrive, fromColon_eq⟩ := Text.mended_eq_cons small fromDrive_eq
    obtain ⟨behind, hcolon, _⟩ := Text.mended_eq_cons (by decide) fromColon_eq
    exact h drive behind (by rw [hpath, hdrive, hcolon])

/-- No drive is called slash. -/
theorem lowerDrive_doubleSlash {path rest : Text} (h : lowerDrive path = slash :: slash :: rest) :
    ∃ start, path = slash :: slash :: start := by
  rcases lowerDrive_cases path with same | ⟨drive, behind, _, written, lowered⟩
  · exact ⟨rest, same.symm.trans h⟩
  · rw [lowered, List.cons.injEq, List.cons.injEq] at h
    rw [written, eq_slash_of_lowerUnit h.2.1]
    exact ⟨colon :: behind, rfl⟩

/-- The path on disk of a local file keeps all of a path but the slash before a drive. -/
theorem path_of_filePath {u : Uri} (near : u.authority = []) (small : SmallDrive u.path) :
    u.path = u.filePath ∨ u.path = slash :: u.filePath ∧ u.filePath.head? ≠ some slash := by
  unfold filePath
  rw [near, if_neg (by simp)]
  split
  · next first drive second rest path =>
    split
    · next fits =>
      simp only [Bool.and_eq_true, decide_eq_true_eq] at fits
      obtain ⟨⟨rfl, letter⟩, rfl⟩ := fits
      rw [small drive rest path, path]
      refine Or.inr ⟨rfl, ?_⟩
      rintro ⟨⟩
      exact absurd letter (by decide)
    · exact Or.inl rfl
  · exact Or.inl rfl

/-- Where nothing of a path is lost, it does not start with a drive. -/
theorem letter_of_filePath {u : Uri} (near : u.authority = []) (kept : u.filePath = u.path)
    {drive : UInt16} {rest : Text} (path : u.path = slash :: drive :: colon :: rest) :
    Percent.isLetter drive = false := by
  rw [← Bool.not_eq_true]
  intro letter
  rw [filePath, near, if_neg (by simp), path] at kept
  simp only [letter, decide_true, Bool.and_self, if_true, List.cons.injEq] at kept
  rw [eq_slash_of_lowerUnit kept.1] at letter
  exact absurd letter (by decide)

/-- Nothing is lost of a path that does not start with a drive. -/
theorem filePath_of_bare {u : Uri} (near : u.authority = [])
    (bare : ∀ drive rest, u.path = slash :: drive :: colon :: rest →
      Percent.isLetter drive = false) : u.filePath = u.path := by
  unfold filePath
  rw [near, if_neg (by simp)]
  split
  · next first drive second rest written =>
    split
    · next fits =>
      simp only [Bool.and_eq_true, decide_eq_true_eq] at fits
      obtain ⟨⟨rfl, letter⟩, rfl⟩ := fits
      cases (bare drive rest written).symm.trans letter
    · rfl
  · rfl

/-! ### Reading a canonical uri -/

/-- Behind an empty authority everything up to a query or fragment is the path. -/
theorem parse_file (rest : Text) : parse (Text.ofString "file://" ++ slash :: rest) =
    let path := rooted fileScheme
      (Percent.decode ((slash :: rest).takeWhile fun u => u ≠ question && u ≠ hash))
    if [slash, slash].isPrefixOf path then .error .doubleSlash
    else .ok ⟨fileScheme, [], path⟩ := by
  have scheme : splitScheme (Text.ofString "file://" ++ slash :: rest) =
      (fileScheme, slash :: slash :: slash :: rest) := rfl
  have authority : splitAuthority (slash :: slash :: slash :: rest) = ([], slash :: rest) := rfl
  have written : fileScheme.isEmpty = false := rfl
  have valid : isScheme fileScheme = true := by decide
  unfold parse
  rw [scheme]
  dsimp only
  rw [authority]
  dsimp only
  rw [written, if_neg Bool.false_ne_true, valid, Bool.not_true, if_neg Bool.false_ne_true]
  rfl

/-- An absolute path is encoded from its first slash on. -/
theorem encodePath_absolute {path : Text} (absolute : path.head? = some slash) :
    ∃ rest, Percent.encodePath path = slash :: rest ∧ path.mended.head? = some slash := by
  cases path with
  | nil => cases absolute
  | cons u t =>
    cases absolute
    have char : Text.isSurrogate slash = false := by decide
    rw [Percent.encodePath, Text.chars_cons char, List.flatMap_cons, Text.mended_cons char]
    exact ⟨_, rfl, rfl⟩

theorem takeWhile_encodePath (path : Text) :
    (Percent.encodePath path).takeWhile (fun u => u ≠ question && u ≠ hash) =
      Percent.encodePath path := by
  rw [List.takeWhile_eq_self_iff]
  intro u hu
  have written := Percent.isWritten_of_mem_encodePath hu
  have noQuestion : u ≠ question := by
    rintro rfl
    exact absurd written (by decide)
  have noHash : u ≠ hash := by
    rintro rfl
    exact absurd written (by decide)
  simp [noQuestion, noHash]

/-- What is read back from the uri of an absolute path, unless it starts with two slashes. -/
theorem parse_ofPath_eq {path : Text} (absolute : Path.isAbsolute path = true) :
    parse (ofPath path) =
      if [slash, slash].isPrefixOf (lowerDrive path).mended then .error .doubleSlash
      else .ok ⟨fileScheme, [], (lowerDrive path).mended⟩ := by
  have head := lowerDrive_absolute absolute
  unfold ofPath
  generalize lowerDrive path = path at head ⊢
  obtain ⟨rest, encoded, mended⟩ := encodePath_absolute head
  have rooted : rooted fileScheme path.mended = path.mended := by
    simp [rooted, mended]
  rw [encoded, parse_file, ← encoded, takeWhile_encodePath, Percent.decode_encodePath]
  simp only [rooted]

theorem parse_ofPath {path : Text} (absolute : Path.isAbsolute path = true) {u : Uri}
    (parsed : parse (ofPath path) = .ok u) :
    u = ⟨fileScheme, [], (lowerDrive path).mended⟩ := by
  rw [parse_ofPath_eq absolute] at parsed
  split at parsed
  · cases parsed
  · cases parsed
    rfl

/-- The uri of an absolute path with a single slash at its start is accepted. -/
theorem parse_ofPath_of_single {path : Text} (absolute : Path.isAbsolute path = true)
    (single : ∀ rest, path ≠ slash :: slash :: rest) :
    parse (ofPath path) = .ok ⟨fileScheme, [], (lowerDrive path).mended⟩ := by
  rw [parse_ofPath_eq absolute, if_neg]
  intro double
  obtain ⟨rest, mended⟩ := List.isPrefixOf_iff_prefix.mp double
  obtain ⟨behind, lowered, second⟩ := Text.mended_eq_cons (by decide) mended.symm
  obtain ⟨last, rfl, _⟩ := Text.mended_eq_cons (by decide) second
  obtain ⟨start, twice⟩ := lowerDrive_doubleSlash lowered
  exact single start twice

/-- What the uri of an absolute path is read as, and that the uri is known from it. -/
theorem Canonical.eq_of_parse {uri : Text} (h : Canonical uri) {u : Uri}
    (parsed : parse uri = .ok u) : u.authority = [] ∧ u.path.head? = some slash ∧
      SmallDrive u.path ∧ uri = Text.ofString "file://" ++ Percent.encodePath u.path := by
  obtain ⟨path, absolute, rfl⟩ := h
  obtain ⟨_, _, mended⟩ := encodePath_absolute (lowerDrive_absolute absolute)
  rw [parse_ofPath absolute parsed]
  refine ⟨rfl, mended, (lowerDrive_small path).mended, ?_⟩
  rw [ofPath, Percent.encodePath, Percent.encodePath, Text.mended, Text.chars_ofChars]

/-- A file has at most one canonical uri. -/
theorem Canonical.eq_of_sameFile {u v : Text} (hu : Canonical u) (hv : Canonical v)
    (same : SameFile u v) : u = v := by
  obtain ⟨a, b, ha, hb, file⟩ := same
  obtain ⟨nearA, headA, smallA, rfl⟩ := hu.eq_of_parse ha
  obtain ⟨nearB, headB, smallB, rfl⟩ := hv.eq_of_parse hb
  have path : a.path = b.path := by
    rcases path_of_filePath nearA smallA with pathA | ⟨pathA, driveA⟩
    · rcases path_of_filePath nearB smallB with pathB | ⟨_, driveB⟩
      · rw [pathA, pathB, file]
      · rw [pathA, file] at headA
        exact absurd headA driveB
    · rcases path_of_filePath nearB smallB with pathB | ⟨pathB, _⟩
      · rw [pathB, ← file] at headB
        exact absurd headB driveA
      · rw [pathA, pathB, file]
  rw [path]

/-- A path whose uri leads back to it is known by that uri among the paths of whole characters. -/
theorem eq_of_ofPath {a b : Text} (absoluteA : Path.isAbsolute a = true)
    (absoluteB : Path.isAbsolute b = true) (whole : a.mended = a) {u : Uri}
    (parsed : parse (ofPath b) = .ok u) (back : u.filePath = b) (same : ofPath a = ofPath b) :
    a = b := by
  have readA := parse_ofPath absoluteA (same ▸ parsed)
  have readB := parse_ofPath absoluteB parsed
  have near : u.authority = [] := by rw [readB]
  have small : SmallDrive u.path := by
    rw [readB]
    exact (lowerDrive_small b).mended
  have path : u.path = b := by
    rcases path_of_filePath near small with same | ⟨_, bare⟩
    · exact same.trans back
    · rw [back] at bare
      exact absurd (of_decide_eq_true absoluteB) bare
  have lowered : (lowerDrive a).mended = b := by rw [← path, readA]
  rcases lowerDrive_cases a with same | ⟨drive, rest, upper, _, small⟩
  · rw [same, whole] at lowered
    exact lowered
  · -- the slash before a drive is not read back
    rw [small, Text.mended_cons (by decide), Text.mended_cons (isSurrogate_lowerUnit upper),
      Text.mended_cons (by decide), ← path] at lowered
    have other := letter_of_filePath near (back.trans path.symm) lowered.symm
    cases other.symm.trans (isLetter_lowerUnit upper)

/-- An absolute path of whole characters that does not start with a drive is read back. -/
theorem filePath_of_ofPath {path : Text} (absolute : Path.isAbsolute path = true)
    (single : ∀ rest, path ≠ slash :: slash :: rest) (whole : path.mended = path)
    (bare : ∀ drive rest, path = slash :: drive :: colon :: rest →
      Percent.isLetter drive = false) :
    ∃ u, parse (ofPath path) = .ok u ∧ u.filePath = path := by
  have lowered : lowerDrive path = path := by
    rcases lowerDrive_cases path with same | ⟨drive, rest, upper, written, _⟩
    · exact same
    · have other := (Bool.or_eq_false_iff.mp (bare drive rest written)).1
      cases other.symm.trans upper
  refine ⟨_, parse_ofPath_of_single absolute single, ?_⟩
  rw [lowered, whole]
  exact filePath_of_bare rfl bare

end Uri

end Hypertag
