import Hypertag.Tag.Registry

/-!
# What a claim leaves behind

A claim is described from the outside: whom each name belongs to afterwards, and which of the
claimed tags were refused. Refused is every tag but the first of each name that was free. Nothing
is said here about the order in which the registry keeps its tags.
-/

namespace Hypertag

namespace Tag

def assign (file : FileId) (t : Tag) : Tag := { t with file }

@[simp] theorem assign_name (file : FileId) (t : Tag) : (t.assign file).name = t.name := rfl

@[simp] theorem assign_file (file : FileId) (t : Tag) : (t.assign file).file = file := rfl

def first? (n : Text) (tags : List Tag) : Option Tag := tags.find? (·.name = n)

@[simp] theorem first?_nil (n : Text) : first? n [] = none := rfl

theorem first?_cons_self (t : Tag) (tags : List Tag) : first? t.name (t :: tags) = some t := by
  simp [first?]

theorem first?_cons_of_ne {n : Text} {t : Tag} (h : t.name ≠ n) (tags : List Tag) :
    first? n (t :: tags) = first? n tags := by
  simp [first?, h]

theorem mem_of_first? {n : Text} {tags : List Tag} {t : Tag} (h : first? n tags = some t) :
    t ∈ tags ∧ t.name = n :=
  ⟨List.mem_of_find?_eq_some h, by simpa using List.find?_some h⟩

theorem exists_first? {tags : List Tag} {t : Tag} (h : t ∈ tags) :
    ∃ owner, first? t.name tags = some owner := by
  have found : (first? t.name tags).isSome := List.find?_isSome.mpr ⟨t, h, by simp⟩
  exact Option.isSome_iff_exists.mp found

theorem first?_eq_none_iff {n : Text} {tags : List Tag} :
    first? n tags = none ↔ ∀ t ∈ tags, t.name ≠ n := by
  simp [first?]

/-- The tags without the first one of each name in `taken`. -/
def withoutFirsts (taken : Text → Bool) : List Tag → List Tag
  | [] => []
  | t :: tags =>
    if taken t.name then withoutFirsts (fun n => taken n && n ≠ t.name) tags
    else t :: withoutFirsts taken tags

theorem withoutFirsts_cons_taken {taken : Text → Bool} {t : Tag} (h : taken t.name = true)
    (tags : List Tag) : withoutFirsts taken (t :: tags) =
      withoutFirsts (fun n => taken n && n ≠ t.name) tags := by
  simp [withoutFirsts, h]

theorem withoutFirsts_cons_free {taken : Text → Bool} {t : Tag} (h : taken t.name = false)
    (tags : List Tag) : withoutFirsts taken (t :: tags) = t :: withoutFirsts taken tags := by
  simp [withoutFirsts, h]

/-- Only the names of the tags themselves are looked at. -/
theorem withoutFirsts_congr {p q : Text → Bool} {tags : List Tag}
    (same : ∀ t ∈ tags, p t.name = q t.name) : withoutFirsts p tags = withoutFirsts q tags := by
  induction tags generalizing p q with
  | nil => rfl
  | cons t tags ih =>
    have head := same t List.mem_cons_self
    have tail : ∀ u ∈ tags, p u.name = q u.name :=
      fun u hu => same u (List.mem_cons_of_mem t hu)
    cases h : q t.name with
    | true =>
      rw [withoutFirsts_cons_taken (head.trans h), withoutFirsts_cons_taken h]
      exact ih fun u hu => by rw [tail u hu]
    | false =>
      rw [withoutFirsts_cons_free (head.trans h), withoutFirsts_cons_free h, ih tail]

theorem mem_of_mem_withoutFirsts {taken : Text → Bool} {tags : List Tag} {t : Tag}
    (h : t ∈ withoutFirsts taken tags) : t ∈ tags := by
  induction tags generalizing taken with
  | nil => exact h
  | cons u tags ih =>
    cases hu : taken u.name with
    | true =>
      rw [withoutFirsts_cons_taken hu] at h
      exact List.mem_cons_of_mem u (ih h)
    | false =>
      rw [withoutFirsts_cons_free hu] at h
      rcases List.mem_cons.mp h with rfl | h
      · exact List.mem_cons_self
      · exact List.mem_cons_of_mem u (ih h)

/-- A name that is not taken keeps all its tags. -/
theorem mem_withoutFirsts_of_free {taken : Text → Bool} {tags : List Tag} {t : Tag}
    (h : t ∈ tags) (free : taken t.name = false) : t ∈ withoutFirsts taken tags := by
  induction tags generalizing taken with
  | nil => cases h
  | cons u tags ih =>
    cases hu : taken u.name with
    | true =>
      rw [withoutFirsts_cons_taken hu]
      rcases List.mem_cons.mp h with rfl | h
      · rw [free] at hu
        cases hu
      · exact ih h (by simp [free])
    | false =>
      rw [withoutFirsts_cons_free hu]
      rcases List.mem_cons.mp h with rfl | h
      · exact List.mem_cons_self
      · exact List.mem_cons_of_mem u (ih h free)

/-- A name that is not taken keeps its first tag. -/
theorem first?_withoutFirsts_of_free {taken : Text → Bool} {n : Text} (free : taken n = false)
    (tags : List Tag) : first? n (withoutFirsts taken tags) = first? n tags := by
  induction tags generalizing taken with
  | nil => rfl
  | cons t tags ih =>
    cases ht : taken t.name with
    | true =>
      have hne : t.name ≠ n := by
        rintro rfl
        rw [free] at ht
        cases ht
      rw [withoutFirsts_cons_taken ht, first?_cons_of_ne hne, ih (by simp [free])]
    | false =>
      rw [withoutFirsts_cons_free ht]
      by_cases hn : t.name = n
      · subst hn
        rw [first?_cons_self, first?_cons_self]
      · rw [first?_cons_of_ne hn, first?_cons_of_ne hn, ih free]

/-- Of a name that is not taken, every tag is counted as before. -/
theorem countP_withoutFirsts_of_free {p : Tag → Bool} {n : Text} (named : ∀ t, p t → t.name = n)
    {taken : Text → Bool} (free : taken n = false) (tags : List Tag) :
    (withoutFirsts taken tags).countP p = tags.countP p := by
  induction tags generalizing taken with
  | nil => rfl
  | cons t tags ih =>
    cases ht : taken t.name with
    | true =>
      have other : ¬ p t := by
        intro h
        rw [named t h, free] at ht
        cases ht
      rw [withoutFirsts_cons_taken ht, ih (by simp [free]), List.countP_cons_of_neg other]
    | false =>
      rw [withoutFirsts_cons_free ht, List.countP_cons, List.countP_cons, ih free]

/-- Of a name that is taken and occurs, exactly the first tag is left out. -/
theorem countP_withoutFirsts_of_taken {p : Tag → Bool} {n : Text} (named : ∀ t, p t → t.name = n)
    {taken : Text → Bool} (h : taken n = true) {tags : List Tag} {t : Tag}
    (occurs : first? n tags = some t) :
    (withoutFirsts taken tags).countP p + (if p t then 1 else 0) = tags.countP p := by
  induction tags generalizing taken with
  | nil => cases occurs
  | cons u tags ih =>
    by_cases hu : u.name = n
    · subst hu
      obtain rfl : u = t := Option.some.inj ((first?_cons_self u tags).symm.trans occurs)
      rw [withoutFirsts_cons_taken h, countP_withoutFirsts_of_free named (by simp),
        List.countP_cons]
    · have other : ¬ p u := fun hp => hu (named u hp)
      rw [first?_cons_of_ne hu] at occurs
      rw [List.countP_cons_of_neg other]
      cases ht : taken u.name with
      | true =>
        have still : (taken n && decide (n ≠ u.name)) = true := by simp [h, Ne.symm hu]
        rw [withoutFirsts_cons_taken ht, ih still occurs]
      | false => rw [withoutFirsts_cons_free ht, List.countP_cons_of_neg other, ih h occurs]

def tally (n : Text) (tags : List Tag) : Nat := tags.countP (·.name = n)

theorem tally_eq_zero_iff {n : Text} {tags : List Tag} :
    tally n tags = 0 ↔ first? n tags = none := by
  rw [first?_eq_none_iff, tally, List.countP_eq_zero]
  simp

/-- Taking more names later leaves out their first tags from what was left before. -/
theorem withoutFirsts_withoutFirsts {p q : Text → Bool} (apart : ∀ n, p n → q n = false)
    (tags : List Tag) :
    withoutFirsts q (withoutFirsts p tags) = withoutFirsts (fun n => p n || q n) tags := by
  induction tags generalizing p q with
  | nil => rfl
  | cons t tags ih =>
    cases hp : p t.name with
    | true =>
      have hq : q t.name = false := apart t.name hp
      rw [withoutFirsts_cons_taken hp, withoutFirsts_cons_taken (by simp [hp]),
        ih fun n hn => apart n (Bool.and_eq_true_iff.mp hn).1]
      congr 1
      funext n
      by_cases h : n = t.name
      · simp [h, hq]
      · simp [h]
    | false =>
      rw [withoutFirsts_cons_free hp]
      cases hq : q t.name with
      | true =>
        rw [withoutFirsts_cons_taken hq, withoutFirsts_cons_taken (by simp [hq]),
          ih fun n hn => by simp [apart n hn]]
        congr 1
        funext n
        by_cases h : n = t.name
        · simp [h, hp]
        · simp [h]
      | false =>
        rw [withoutFirsts_cons_free hq, withoutFirsts_cons_free (by simp [hp, hq]), ih apart]

end Tag

namespace Registry

def owns (r : Registry) (file : FileId) (n : Text) : Bool := (r.lookup n).any (·.file = file)

theorem owns_iff {r : Registry} {file : FileId} {n : Text} :
    r.owns file n ↔ ∃ t, r.lookup n = some t ∧ t.file = file := by
  simp [owns, Option.any_eq_true]

theorem lookup_eq_none_iff {r : Registry} {n : Text} :
    r.lookup n = none ↔ n ∉ r.tags.map Tag.name := by
  simp [lookup]

theorem insert?_of_owned {r : Registry} {t owner : Tag} (h : r.lookup t.name = some owner) :
    r.insert? t = none :=
  (r.insert?_eq_none_iff t).mpr ⟨owner, h⟩

theorem insert?_of_free {r : Registry} {t : Tag} (h : r.lookup t.name = none) :
    ∃ r', r.insert? t = some r' ∧
      ∀ n, r'.lookup n = (r.lookup n).or (if n = t.name then some t else none) := by
  have absent := lookup_eq_none_iff.mp h
  refine ⟨_, by rw [insert?, dif_neg absent], ?_⟩
  intro n
  simp only [lookup, List.find?_append]
  by_cases hn : t.name = n
  · simp [hn]
  · simp [hn, Ne.symm hn]

theorem lookup_release (r : Registry) (file : FileId) (n : Text) :
    (r.release file).lookup n = (r.lookup n).filter (·.file ≠ file) := by
  apply Option.ext
  intro t
  rw [lookup_eq_some_iff, Option.filter_eq_some_iff, lookup_eq_some_iff, release]
  simp only [List.mem_filter]
  constructor
  · rintro ⟨⟨hm, hf⟩, hn⟩
    exact ⟨⟨hm, hn⟩, hf⟩
  · rintro ⟨⟨hm, hn⟩, hf⟩
    exact ⟨⟨hm, hf⟩, hn⟩

/-- After a claim, an owned name has its owner still and a free one belongs to its first tag. -/
theorem lookup_claim (file : FileId) (r : Registry) (tags : List Tag) (n : Text) :
    (claim file r tags).1.lookup n =
      (r.lookup n).or (Tag.first? n (tags.map (Tag.assign file))) := by
  induction tags generalizing r with
  | nil => simp [claim]
  | cons t tags ih =>
    cases owner : r.lookup t.name with
    | some o =>
      have refused : r.insert? { t with file } = none := insert?_of_owned (t := t.assign file) owner
      simp only [claim, refused, List.map_cons]
      rw [ih]
      by_cases hn : t.name = n
      · rw [← hn, owner]
        rfl
      · rw [Tag.first?_cons_of_ne (by exact hn)]
    | none =>
      obtain ⟨r', taken, after⟩ := insert?_of_free (t := t.assign file) owner
      have taken : r.insert? { t with file } = some r' := taken
      simp only [claim, taken, List.map_cons]
      rw [ih, after]
      by_cases hn : t.name = n
      · rw [← hn, owner, ← Tag.assign_name file t, Tag.first?_cons_self]
        simp
      · rw [Tag.first?_cons_of_ne (by exact hn)]
        simp [Ne.symm hn]

/-- Refused is all but the first tag of each name that was free. -/
theorem claim_refused (file : FileId) (r : Registry) (tags : List Tag) :
    (claim file r tags).2 =
      Tag.withoutFirsts (fun n => (r.lookup n).isNone) (tags.map (Tag.assign file)) := by
  induction tags generalizing r with
  | nil => rfl
  | cons t tags ih =>
    cases owner : r.lookup t.name with
    | some o =>
      have refused : r.insert? { t with file } = none := insert?_of_owned (t := t.assign file) owner
      simp only [claim, refused, List.map_cons, Tag.withoutFirsts, Tag.assign_name, owner]
      rw [ih]
      rfl
    | none =>
      obtain ⟨r', taken, after⟩ := insert?_of_free (t := t.assign file) owner
      have taken : r.insert? { t with file } = some r' := taken
      have free : (fun n => (r'.lookup n).isNone) =
          fun n => (r.lookup n).isNone && decide (n ≠ t.name) := by
        funext n
        rw [after]
        by_cases hn : n = t.name
        · simp [hn]
        · simp [hn]
      simp only [claim, taken, List.map_cons, Tag.withoutFirsts, Tag.assign_name, owner]
      rw [ih, free]
      rfl

theorem lookup_reconcile (r : Registry) (file : FileId) (tags : List Tag) (n : Text) :
    (r.reconcile file tags).1.lookup n =
      ((r.lookup n).filter (·.file ≠ file)).or (Tag.first? n (tags.map (Tag.assign file))) := by
  rw [reconcile, lookup_claim, lookup_release]

theorem reconcile_refused (r : Registry) (file : FileId) (tags : List Tag) :
    (r.reconcile file tags).2 =
      Tag.withoutFirsts (fun n => ((r.lookup n).filter (·.file ≠ file)).isNone)
        (tags.map (Tag.assign file)) := by
  rw [reconcile, claim_refused]
  simp only [lookup_release]

/-- A claim by one file neither gives to nor takes from another. -/
theorem owns_reconcile_of_ne {file other : FileId} (h : other ≠ file) (r : Registry)
    (tags : List Tag) (n : Text) :
    (r.reconcile file tags).1.owns other n = r.owns other n := by
  rw [Bool.eq_iff_iff, owns_iff, owns_iff]
  constructor
  · rintro ⟨t, ht, hf⟩
    rw [lookup_reconcile, Option.or_eq_some_iff] at ht
    rcases ht with old | ⟨_, new⟩
    · exact ⟨t, (Option.filter_eq_some_iff.mp old).1, hf⟩
    · obtain ⟨u, _, rfl⟩ := List.mem_map.mp (Tag.mem_of_first? new).1
      exact absurd hf.symm h
  · rintro ⟨t, ht, hf⟩
    refine ⟨t, ?_, hf⟩
    have foreign : decide (t.file ≠ file) = true := by simpa [hf] using h
    rw [lookup_reconcile, ht, Option.filter_some, if_pos foreign]
    rfl

/-- A file ends up with each of its names that no other file owns. -/
theorem owns_reconcile_self {file : FileId} {r : Registry} {tags : List Tag} {t : Tag}
    (h : t ∈ tags.map (Tag.assign file)) : (r.reconcile file tags).1.owns file t.name =
      ((r.lookup t.name).filter (·.file ≠ file)).isNone := by
  rw [owns, lookup_reconcile]
  cases foreign : (r.lookup t.name).filter (·.file ≠ file) with
  | some o =>
    have ho := (Option.filter_eq_some_iff.mp foreign).2
    simpa using ho
  | none =>
    obtain ⟨first, hfirst⟩ := Tag.exists_first? h
    obtain ⟨u, _, rfl⟩ := List.mem_map.mp (Tag.mem_of_first? hfirst).1
    rw [Option.none_or, hfirst]
    simp

/-- In terms of the owners after the claim, a file is refused all but the first tag of each name
that it owns. -/
theorem reconcile_refused_of_owns (r : Registry) (file : FileId) (tags : List Tag) :
    (r.reconcile file tags).2 =
      Tag.withoutFirsts ((r.reconcile file tags).1.owns file) (tags.map (Tag.assign file)) := by
  rw [reconcile_refused]
  exact Tag.withoutFirsts_congr fun t ht => (owns_reconcile_self ht).symm

end Registry

end Hypertag
