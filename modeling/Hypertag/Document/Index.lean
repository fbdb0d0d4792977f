import Hypertag.Table
import Hypertag.Tag.Basic

/-!
# The document index

Numbers the known documents. Numbers come from a counter that only moves forward and survives a
reset, so that no number is handed out twice.
-/

namespace Hypertag

structure DocumentIndex where
  next : FileId
  entries : List (Text × FileId)
  uris_nodup : (entries.map Prod.fst).Nodup
  ids_increasing : (entries.map Prod.snd).Pairwise (· < ·)
  ids_lt_next : ∀ id ∈ entries.map Prod.snd, id < next

namespace DocumentIndex

def empty : DocumentIndex := ⟨0, [], List.nodup_nil, List.Pairwise.nil, by simp⟩

def size (x : DocumentIndex) : Nat := x.entries.length

def idOf? (x : DocumentIndex) (uri : Text) : Option FileId :=
  (x.entries.find? (·.1 = uri)).map Prod.snd

def uriOf? (x : DocumentIndex) (id : FileId) : Option Text :=
  (x.entries.find? (·.2 = id)).map Prod.fst

theorem idOf?_eq_some_iff (x : DocumentIndex) {uri : Text} {id : FileId} :
    x.idOf? uri = some id ↔ (uri, id) ∈ x.entries :=
  Table.get?_eq_some_iff ⟨x.entries, x.uris_nodup⟩

theorem find?_snd_eq_some_iff {entries : List (Text × FileId)}
    (increasing : (entries.map Prod.snd).Pairwise (· < ·)) {uri : Text} {id : FileId} :
    entries.find? (·.2 = id) = some (uri, id) ↔ (uri, id) ∈ entries := by
  induction entries with
  | nil => simp
  | cons e es ih =>
    rw [List.map_cons, List.pairwise_cons] at increasing
    by_cases h : e.2 = id
    · rw [List.find?_cons_of_pos (by simpa using h), List.mem_cons]
      constructor
      · intro he
        exact Or.inl (Option.some.inj he).symm
      · rintro (rfl | hm)
        · rfl
        · have later := increasing.1 id (List.mem_map_of_mem (f := Prod.snd) hm)
          exact absurd (h ▸ later) (Int.lt_irrefl id)
    · rw [List.find?_cons_of_neg (by simpa using h), ih increasing.2, List.mem_cons]
      constructor
      · exact Or.inr
      · rintro (rfl | hm)
        · exact absurd rfl h
        · exact hm

theorem uriOf?_eq_some_iff (x : DocumentIndex) {uri : Text} {id : FileId} :
    x.uriOf? id = some uri ↔ (uri, id) ∈ x.entries := by
  rw [← find?_snd_eq_some_iff x.ids_increasing, uriOf?, Option.map_eq_some_iff]
  constructor
  · rintro ⟨e, he, rfl⟩
    have hid : e.2 = id := by simpa using List.find?_some he
    rw [he, ← hid]
  · intro he
    exact ⟨_, he, rfl⟩

/-- The uri to show for a file; an empty one shows nothing. -/
def shownUri? (x : DocumentIndex) (id : FileId) : Option Text :=
  (x.uriOf? id).filter (!·.isEmpty)

/-- Adds an unknown uri under the next number. -/
def add (x : DocumentIndex) (uri : Text) (h : uri ∉ x.entries.map Prod.fst) : DocumentIndex where
  next := x.next + 1
  entries := x.entries ++ [(uri, x.next)]
  uris_nodup := by
    rw [List.map_append]
    refine List.nodup_append.mpr ⟨x.uris_nodup, by simp, ?_⟩
    intro a ha b hb hab
    simp only [List.map_cons, List.map_nil, List.mem_singleton] at hb
    exact h (hb ▸ hab ▸ ha)
  ids_increasing := by
    rw [List.map_append]
    refine List.pairwise_append.mpr ⟨x.ids_increasing, by simp, ?_⟩
    intro a ha b hb
    simp only [List.map_cons, List.map_nil, List.mem_singleton] at hb
    exact hb ▸ x.ids_lt_next a ha
  ids_lt_next := by
    intro id hid
    rw [List.map_append] at hid
    rcases List.mem_append.mp hid with old | new
    · exact Int.lt_trans (x.ids_lt_next id old) (Int.lt_succ x.next)
    · simp only [List.map_cons, List.map_nil, List.mem_singleton] at new
      exact new ▸ Int.lt_succ x.next

/-- Registers a uri. A known one is refused and changes nothing. -/
def register? (x : DocumentIndex) (uri : Text) : Option (FileId × DocumentIndex) :=
  if h : uri ∈ x.entries.map Prod.fst then none else some (x.next, x.add uri h)

def reset (x : DocumentIndex) : DocumentIndex :=
  { x with
    entries := []
    uris_nodup := List.nodup_nil
    ids_increasing := List.Pairwise.nil
    ids_lt_next := by simp }

end DocumentIndex

end Hypertag
