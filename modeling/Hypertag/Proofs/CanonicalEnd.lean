import Hypertag.Proofs.LinkFree
import Mathlib.Order.Monotone.Basic

/-!
# Where canonical paths end

The links of a path are replaced inside one another down to a depth. More depth keeps an answer that
is there, and beyond the number of links on the disk there is nothing to gain: each level at which
no further link has come to an end is like the one before. So a path without an answer at that depth
has none at any.
-/

namespace Hypertag

namespace DiskEntry

theorem linkTargets_subset {entries : List DiskEntry} {entry : DiskEntry} (member : entry ∈ entries)
    (above : Path) : entry.linkTargets above ⊆ allLinkTargets above entries := by
  induction entries with
  | nil => cases member
  | cons first rest ih =>
    rw [allLinkTargets]
    rcases List.mem_cons.mp member with rfl | later
    · exact List.subset_append_left _ _
    · exact fun _ listed => List.mem_append_right _ (ih later listed)

theorem mem_allLinkTargets {entries inner : List DiskEntry} {above path : Path}
    {name listed target : Text} (inside : Disk.entriesAt? entries path = some inner)
    (link : Disk.find? inner name = some (.link listed target)) :
    Path.resolve (above ++ path) target ∈ allLinkTargets above entries := by
  induction path generalizing entries above with
  | nil =>
    cases inside
    refine linkTargets_subset (List.mem_of_find?_eq_some link) above ?_
    rw [List.append_nil, linkTargets]
    exact List.mem_singleton_self _
  | cons first rest ih =>
    obtain ⟨between, found, deeper⟩ := Disk.entriesAt?_cons.mp inside
    refine linkTargets_subset (List.mem_of_find?_eq_some found) above ?_
    have listed := @ih _ (above ++ [first]) deeper
    rw [List.append_assoc, List.singleton_append] at listed
    exact listed

end DiskEntry

namespace Disk

variable {disk : Disk} {f g : Path → Except CanonicalError Found} {found : Found} {path : Path}

/-- An answer stays when no answer about a link is changed. -/
theorem canonicalWith_keep (keep : ∀ p, f p ≠ .error .endless → g p = f p)
    (ends : disk.canonicalWith f found path ≠ .error .endless) :
    disk.canonicalWith g found path = disk.canonicalWith f found path := by
  induction path generalizing found with
  | nil => rfl
  | cons part rest ih =>
    rw [canonicalWith, List.foldlM_cons] at ends
    have step : disk.canonicalStep g found part = disk.canonicalStep f found part := by
      cases found with
      | file above name text => rfl
      | nothing above name => rfl
      | folder folders =>
        rw [canonicalStep] at ends
        rw [canonicalStep, canonicalStep]
        split
        · rfl
        · next opened =>
          rw [if_neg opened] at ends
          cases listing : find? (disk.current folders) part with
          | none => rfl
          | some entry =>
            cases entry with
            | directory listed inner => rfl
            | file listed text => rfl
            | link listed target =>
              dsimp only
              rw [listing] at ends
              cases resolved : disk.resolve (Path.render (pathOf folders ++ [part])) with
              | error fault => rfl
              | ok there =>
                refine keep _ ?_
                intro endless
                simp [resolved, endless, bind, Except.bind] at ends
    rw [canonicalWith, canonicalWith, List.foldlM_cons, List.foldlM_cons, step]
    cases first : disk.canonicalStep f found part with
    | error e => rfl
    | ok next =>
      rw [first] at ends
      exact ih ends

/-- More depth keeps an answer. -/
theorem canonicalFrom_succ {depth : Nat} (ends : disk.canonicalFrom depth path ≠ .error .endless) :
    disk.canonicalFrom (depth + 1) path = disk.canonicalFrom depth path := by
  induction depth generalizing path with
  | zero => exact absurd rfl ends
  | succ depth ih => exact canonicalWith_keep (fun _ => ih) ends

theorem canonicalFrom_le {depth more : Nat} (le : depth ≤ more)
    (ends : disk.canonicalFrom depth path ≠ .error .endless) :
    disk.canonicalFrom more path = disk.canonicalFrom depth path := by
  induction more, le using Nat.le_induction with
  | base => rfl
  | succ more _ ih =>
    rw [canonicalFrom_succ, ih]
    rw [ih]
    exact ends

/-- Only what the links of the disk stand for is asked for on the way. -/
theorem canonicalWith_congr (same : ∀ p ∈ disk.linkTargets, f p = g p)
    (has : ∀ p there, f p = .ok there → disk.Has there) (start : disk.Has found) (path : Path) :
    disk.canonicalWith f found path = disk.canonicalWith g found path := by
  induction path generalizing found with
  | nil => rfl
  | cons part rest ih =>
    have step : disk.canonicalStep f found part = disk.canonicalStep g found part := by
      cases found with
      | file above name text => rfl
      | nothing above name => rfl
      | folder folders =>
        rw [canonicalStep, canonicalStep]
        cases listing : find? (disk.current folders) part with
        | none => rfl
        | some entry =>
          cases entry with
          | directory listed inner => rfl
          | file listed text => rfl
          | link listed target =>
            have listed :=
              @DiskEntry.mem_allLinkTargets _ _ [] _ _ _ _ (Stands.entriesAt? start) listing
            rw [List.nil_append] at listed
            dsimp only
            rw [same _ listed]
    rw [canonicalWith, canonicalWith, List.foldlM_cons, List.foldlM_cons, step]
    cases first : disk.canonicalStep g found part with
    | error e => rfl
    | ok next =>
      rw [← step] at first
      exact ih (start.step has first)

def ended : Except CanonicalError Found → Bool
  | .error .endless => false
  | _ => true

theorem ended_iff {answer : Except CanonicalError Found} :
    ended answer = true ↔ answer ≠ .error .endless := by
  cases answer with
  | ok found => simp [ended]
  | error e => cases e <;> simp [ended]

def finished (disk : Disk) (depth : Nat) : List Path :=
  disk.linkTargets.filter fun p => ended (disk.canonicalFrom depth p)

theorem mem_finished {depth : Nat} (linked : path ∈ disk.linkTargets) :
    path ∈ disk.finished depth ↔ disk.canonicalFrom depth path ≠ .error .endless := by
  rw [finished, List.mem_filter, ended_iff, and_iff_right linked]

theorem finished_sublist (disk : Disk) (depth : Nat) :
    (disk.finished depth).Sublist (disk.finished (depth + 1)) := by
  refine List.monotone_filter_right _ ?_
  intro p
  rw [ended_iff, ended_iff]
  intro ends
  rw [canonicalFrom_succ ends]
  exact ends

/-- Where no further link comes to an end, the next depth gives the same answers. -/
theorem canonicalFrom_stable {depth : Nat}
    (same : (disk.finished depth).length = (disk.finished (depth + 1)).length) (path : Path) :
    disk.canonicalFrom (depth + 2) path = disk.canonicalFrom (depth + 1) path := by
  have whole := (finished_sublist disk depth).eq_of_length same
  have answers : ∀ p ∈ disk.linkTargets,
      disk.canonicalFrom (depth + 1) p = disk.canonicalFrom depth p := by
    intro p linked
    by_cases ends : disk.canonicalFrom depth p = .error .endless
    · have open_ : ¬ p ∈ disk.finished (depth + 1) := by
        rw [← whole, mem_finished linked]
        exact not_not_intro ends
      rw [mem_finished linked, not_not] at open_
      rw [open_, ends]
    · exact canonicalFrom_succ ends
  have top : disk.Has (.folder []) := trivial
  exact canonicalWith_congr answers (fun _ _ => has_of_canonicalFrom) top path

/-- Beyond as many levels as there are links, no further link comes to an end. -/
theorem finished_length {depth : Nat} (enough : disk.linkTargets.length ≤ depth) :
    (disk.finished depth).length = (disk.finished disk.linkTargets.length).length := by
  refine Nat.stabilises_of_monotone (f := fun depth => (disk.finished depth).length) ?_ ?_ ?_ enough
  · exact monotone_nat_of_le_succ fun depth => (finished_sublist disk depth).length_le
  · exact fun depth => List.length_filter_le _ _
  · intro depth same
    have answers : ∀ p ∈ disk.linkTargets,
        ended (disk.canonicalFrom (depth + 1) p) = ended (disk.canonicalFrom (depth + 2) p) := by
      intro p _
      rw [canonicalFrom_stable same p]
    exact congrArg List.length (List.filter_congr answers)

/-- The depth of a disk is enough: whatever has an answer at some depth has it there. -/
theorem canonicalFrom_linkDepth {depth : Nat}
    (ends : disk.canonicalFrom depth path ≠ .error .endless) :
    disk.canonicalFrom disk.linkDepth path = disk.canonicalFrom depth path := by
  rcases Nat.le_total depth disk.linkDepth with below | beyond
  · exact canonicalFrom_le below ends
  · symm
    clear ends
    induction depth, beyond using Nat.le_induction with
    | base => rfl
    | succ depth le ih =>
      obtain ⟨before, rfl⟩ : ∃ before, depth = before + 1 := Nat.exists_eq_succ_of_ne_zero (by
        rintro rfl
        cases le)
      rw [← ih]
      refine canonicalFrom_stable ?_ path
      have enough : disk.linkTargets.length ≤ before := Nat.le_of_succ_le_succ le
      rw [finished_length enough, finished_length (enough.trans (Nat.le_succ before))]

/-- A path is endless when there is no depth at which it has an answer. -/
theorem canonical_endless_iff {written : Text} :
    disk.canonical written = .error .endless ↔
      ∀ depth, disk.canonicalFrom depth (Path.ofText written) = .error .endless := by
  constructor
  · intro endless depth
    by_contra ends
    rw [canonical, canonicalFrom_linkDepth ends] at endless
    cases answer : disk.canonicalFrom depth (Path.ofText written) with
    | ok found => simp [answer, Except.map] at endless
    | error e =>
      simp only [answer, Except.map, Except.error.injEq] at endless
      exact ends (by rw [answer, endless])
  · intro endless
    rw [canonical, endless]
    rfl

end Disk

end Hypertag
