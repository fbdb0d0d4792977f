import Hypertag.Proofs.Registry

/-!
# Replacing the tags of a file

What a file declared before must not stand in the way of what it declares now, and what other files
own must. Names are followed through the release and the claims after it, and the refused tags are
told by their places in the list that was claimed.
-/

namespace Hypertag

namespace Tag

/-- Whether no tag before an index has the name of the tag there. -/
def leads (tags : List Tag) (p : Tag × Nat) : Bool := (tags.take p.2).all (·.name ≠ p.1.name)

/-- The tags that are left out are told by their places. -/
theorem withoutFirsts_eq_filter (taken : Text → Bool) (tags : List Tag) :
    withoutFirsts taken tags =
      (tags.zipIdx.filter fun p => !taken p.1.name || !leads tags p).map Prod.fst := by
  induction tags generalizing taken with
  | nil => rfl
  | cons t tags ih =>
    have head : leads (t :: tags) (t, 0) = true := rfl
    have tail (p : Tag × Nat) : leads (t :: tags) (p.1, p.2 + 1) =
        (decide (p.1.name ≠ t.name) && leads tags p) := by
      simp [leads, eq_comm]
    have shifted : (t :: tags).zipIdx = (t, 0) :: tags.zipIdx.map fun p => (p.1, p.2 + 1) := by
      rw [List.zipIdx_cons, List.zipIdx_succ]
    rw [shifted, List.filter_cons, List.filter_map]
    cases ht : taken t.name with
    | true =>
      rw [withoutFirsts_cons_taken ht, ih]
      simp only [head, Bool.not_true, Bool.or_self, Bool.false_eq_true, if_false, List.map_map]
      congr 2
      funext p
      simp only [Function.comp_apply, tail, Bool.not_and, Bool.or_assoc]
    | false =>
      rw [withoutFirsts_cons_free ht, ih]
      simp only [Bool.not_false, Bool.true_or, if_true, List.map_cons, List.map_map]
      congr 3
      funext p
      simp only [Function.comp_apply, tail]
      by_cases same : p.1.name = t.name
      · simp [same, ht]
      · simp [same]

theorem withoutFirsts_assign (taken : Text → Bool) (file : FileId) (tags : List Tag) :
    withoutFirsts taken (tags.map (assign file)) =
      (withoutFirsts taken tags).map (assign file) := by
  induction tags generalizing taken with
  | nil => rfl
  | cons t tags ih =>
    cases ht : taken t.name with
    | true =>
      have assigned : taken (t.assign file).name = true := ht
      rw [List.map_cons, withoutFirsts_cons_taken assigned, withoutFirsts_cons_taken ht, ih,
        assign_name]
    | false =>
      have assigned : taken (t.assign file).name = false := ht
      rw [List.map_cons, withoutFirsts_cons_free assigned, withoutFirsts_cons_free ht, ih,
        List.map_cons]

theorem first?_assign (file : FileId) (n : Text) (tags : List Tag) :
    first? n (tags.map (assign file)) = (first? n tags).map (assign file) := by
  rw [first?, List.find?_map]
  rfl

end Tag

namespace Registry

def heldElsewhere (r : Registry) (file : FileId) (n : Text) : Bool :=
  (r.lookup n).any (·.file ≠ file)

theorem eq_of_tags {r s : Registry} (h : r.tags = s.tags) : r = s := by
  cases r
  cases s
  cases h
  rfl

theorem tags_of_insert? {r r' : Registry} {t : Tag} (h : r.insert? t = some r') :
    r'.tags = r.tags ++ [t] := by
  unfold insert? at h
  split at h
  · cases h
  · cases h
    rfl

theorem release_release (r : Registry) (file : FileId) :
    (r.release file).release file = r.release file :=
  eq_of_tags (by simp [release])

theorem owned_release (r : Registry) (file : FileId) : (r.release file).owned file = 0 := by
  simp [release, owned, List.countP_eq_zero]

/-- A claim adds tags of its own file only. -/
theorem release_claim (file : FileId) (r : Registry) (tags : List Tag) :
    (claim file r tags).1.release file = r.release file := by
  induction tags generalizing r with
  | nil => rfl
  | cons t tags ih =>
    rw [claim]
    split
    · next r' taken =>
      rw [ih]
      exact eq_of_tags (by simp [release, tags_of_insert? taken])
    · exact ih r

/-- Each claimed tag is either entered or refused. -/
theorem owned_claim (file : FileId) (r : Registry) (tags : List Tag) :
    (claim file r tags).1.owned file + (claim file r tags).2.length =
      r.owned file + tags.length := by
  induction tags generalizing r with
  | nil => rfl
  | cons t tags ih =>
    rw [claim]
    split
    · next r' taken =>
      have entered : r'.owned file = r.owned file + 1 := by
        simp [owned, tags_of_insert? taken]
      rw [ih, entered, List.length_cons]
      omega
    · have rest := ih r
      simp only [List.length_cons]
      omega

/-- What a file does not give up is held by another. -/
theorem heldElsewhere_eq (r : Registry) (file : FileId) (n : Text) :
    r.heldElsewhere file n = ((r.lookup n).filter (·.file ≠ file)).isSome := by
  rw [heldElsewhere]
  cases r.lookup n with
  | none => rfl
  | some owner => by_cases own : owner.file = file <;> simp [own, Option.filter_some]

theorem lookup_reconcile_eq (r : Registry) (file : FileId) (tags : List Tag) (n : Text) :
    (r.reconcile file tags).1.lookup n =
      if r.heldElsewhere file n then r.lookup n else (Tag.first? n tags).map (Tag.assign file) := by
  rw [lookup_reconcile, Tag.first?_assign, heldElsewhere_eq]
  cases kept : (r.lookup n).filter (·.file ≠ file) with
  | none => rfl
  | some owner => exact (Option.filter_eq_some_iff.mp kept).1.symm

theorem owns_reconcile_iff (r : Registry) (file : FileId) (tags : List Tag) (n : Text) :
    (r.reconcile file tags).1.owns file n = true ↔
      r.heldElsewhere file n = false ∧ ∃ t ∈ tags, t.name = n := by
  rw [owns_iff, lookup_reconcile_eq]
  cases held : r.heldElsewhere file n with
  | true =>
    obtain ⟨owner, found, foreign⟩ := (Option.any_eq_true _ _).mp held
    constructor
    · rintro ⟨t, same, own⟩
      rw [if_pos rfl, found] at same
      cases same
      simp [own] at foreign
    · rintro ⟨free, _⟩
      cases free
  | false =>
    rw [if_neg Bool.false_ne_true]
    constructor
    · rintro ⟨_, entered, _⟩
      obtain ⟨t, first, rfl⟩ := Option.map_eq_some_iff.mp entered
      exact ⟨rfl, t, Tag.mem_of_first? first⟩
    · rintro ⟨_, t, member, rfl⟩
      obtain ⟨first, found⟩ := Tag.exists_first? member
      exact ⟨first.assign file, by rw [found, Option.map_some], rfl⟩

/-- Replacing the tags of a file leaves each name of another file with its entry, gives every other
name in the list to its first tag there, and the file owns no name besides. Refused are the tags
whose name is another file's or stands earlier in the list, in their order, so that each tag is
either owned or refused. A second time, nothing changes. -/
theorem reconcile_contract (r : Registry) (file : FileId) (tags : List Tag) :
    (∀ n, (r.reconcile file tags).1.lookup n =
      if r.heldElsewhere file n then r.lookup n else (Tag.first? n tags).map (Tag.assign file)) ∧
    (∀ n, (r.reconcile file tags).1.owns file n = true ↔
      r.heldElsewhere file n = false ∧ ∃ t ∈ tags, t.name = n) ∧
    (r.reconcile file tags).2 =
      (tags.zipIdx.filter fun p => r.heldElsewhere file p.1.name || !Tag.leads tags p).map
        (fun p => p.1.assign file) ∧
    (r.reconcile file tags).1.owned file + (r.reconcile file tags).2.length = tags.length ∧
    (r.reconcile file tags).1.reconcile file tags = r.reconcile file tags := by
  refine ⟨lookup_reconcile_eq r file tags, owns_reconcile_iff r file tags, ?_, ?_, ?_⟩
  · rw [reconcile_refused, Tag.withoutFirsts_assign, Tag.withoutFirsts_eq_filter, List.map_map]
    simp only [Option.not_isNone, ← heldElsewhere_eq]
    rfl
  · rw [reconcile, owned_claim, owned_release, Nat.zero_add]
  · rw [reconcile, reconcile, release_claim, release_release]

end Registry

end Hypertag
