import Hypertag.Tag.Basic

/-!
# The tag registry

The tags of the project, one owner per name, in the order in which they were inserted. A second
declaration of a name is refused.
-/

namespace Hypertag

structure Registry where
  tags : List Tag
  names_nodup : (tags.map Tag.name).Nodup

namespace Registry

def empty : Registry := ⟨[], List.nodup_nil⟩

def size (r : Registry) : Nat := r.tags.length

def lookup (r : Registry) (name : Text) : Option Tag := r.tags.find? (·.name = name)

/-- Adds a tag at the end, or refuses a name that has an owner. -/
def insert? (r : Registry) (t : Tag) : Option Registry :=
  if h : t.name ∈ r.tags.map Tag.name then none
  else some ⟨r.tags ++ [t], by
    rw [List.map_append]
    refine List.nodup_append.mpr ⟨r.names_nodup, by simp, ?_⟩
    intro a ha b hb hab
    simp only [List.map_cons, List.map_nil, List.mem_singleton] at hb
    exact h (hb ▸ hab ▸ ha)⟩

theorem lookup_eq_some_iff (r : Registry) {name : Text} {t : Tag} :
    r.lookup name = some t ↔ t ∈ r.tags ∧ t.name = name := by
  obtain ⟨tags, nodup⟩ := r
  unfold lookup
  induction tags with
  | nil => simp
  | cons a as ih =>
    rw [List.map_cons, List.nodup_cons] at nodup
    by_cases h : a.name = name
    · rw [List.find?_cons_of_pos (by simpa using h), List.mem_cons]
      constructor
      · intro he
        exact ⟨Or.inl (Option.some.inj he).symm, Option.some.inj he ▸ h⟩
      · rintro ⟨rfl | hm, hn⟩
        · rfl
        · exact absurd (h.trans hn.symm ▸ List.mem_map_of_mem (f := Tag.name) hm) nodup.1
    · rw [List.find?_cons_of_neg (by simpa using h), ih nodup.2, List.mem_cons]
      constructor
      · rintro ⟨hm, hn⟩
        exact ⟨Or.inr hm, hn⟩
      · rintro ⟨rfl | hm, hn⟩
        · exact absurd hn h
        · exact ⟨hm, hn⟩

theorem insert?_eq_none_iff (r : Registry) (t : Tag) :
    r.insert? t = none ↔ ∃ owner, r.lookup t.name = some owner := by
  constructor
  · intro h
    have hm : t.name ∈ r.tags.map Tag.name := by
      by_cases hm : t.name ∈ r.tags.map Tag.name
      · exact hm
      · simp [insert?, hm] at h
    obtain ⟨owner, ho, hn⟩ := List.mem_map.mp hm
    exact ⟨owner, r.lookup_eq_some_iff.mpr ⟨ho, hn⟩⟩
  · rintro ⟨owner, ho⟩
    have ⟨hm, hn⟩ := r.lookup_eq_some_iff.mp ho
    have : t.name ∈ r.tags.map Tag.name := List.mem_map.mpr ⟨owner, hm, hn⟩
    simp [insert?, this]
/-- How many names a file owns. -/
def owned (r : Registry) (file : FileId) : Nat := r.tags.countP (·.file = file)

/-- Gives up every name that a file owns. -/
def release (r : Registry) (file : FileId) : Registry :=
  ⟨r.tags.filter (·.file ≠ file), r.names_nodup.sublist (List.filter_sublist.map Tag.name)⟩

/-- Inserts tags one by one for a file and collects the refused ones. -/
def claim (file : FileId) : Registry → List Tag → Registry × List Tag
  | r, [] => (r, [])
  | r, t :: ts =>
    match r.insert? { t with file } with
    | some r => claim file r ts
    | none =>
      let (r, refused) := claim file r ts
      (r, { t with file } :: refused)

/-- Replaces the tags of a file. The second component is what was refused. -/
def reconcile (r : Registry) (file : FileId) (tags : List Tag) : Registry × List Tag :=
  claim file (r.release file) tags

end Registry

end Hypertag
