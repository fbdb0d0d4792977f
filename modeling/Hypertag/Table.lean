/-!
# Tables

A finite map that remembers the order in which its keys were first set. Setting a present key
keeps its place; erasing and setting it again moves it to the end.
-/

namespace Hypertag

structure Table (κ α : Type) where
  entries : List (κ × α)
  keys_nodup : (entries.map Prod.fst).Nodup

namespace Table

variable {κ α : Type} [DecidableEq κ]

def empty : Table κ α := ⟨[], List.nodup_nil⟩

def size (t : Table κ α) : Nat := t.entries.length

def keys (t : Table κ α) : List κ := t.entries.map Prod.fst

def values (t : Table κ α) : List α := t.entries.map Prod.snd

def get? (t : Table κ α) (k : κ) : Option α := (t.entries.find? (·.1 = k)).map Prod.snd

def contains (t : Table κ α) (k : κ) : Bool := (t.get? k).isSome

/-- Gives `k` the value `v` in its place. -/
def replaced (k : κ) (v : α) (entry : κ × α) : κ × α := if entry.1 = k then (k, v) else entry

theorem replaced_fst (k : κ) (v : α) (entry : κ × α) : (replaced k v entry).1 = entry.1 := by
  unfold replaced
  split
  · next h => exact h.symm
  · rfl

theorem map_replaced_keys (k : κ) (v : α) (entries : List (κ × α)) :
    (entries.map (replaced k v)).map Prod.fst = entries.map Prod.fst := by
  rw [List.map_map]
  exact List.map_congr_left fun entry _ => replaced_fst k v entry

def set (t : Table κ α) (k : κ) (v : α) : Table κ α :=
  if h : k ∈ t.entries.map Prod.fst then
    ⟨t.entries.map (replaced k v), (map_replaced_keys k v t.entries).symm ▸ t.keys_nodup⟩
  else
    ⟨t.entries ++ [(k, v)], by
      rw [List.map_append]
      refine List.nodup_append.mpr ⟨t.keys_nodup, by simp, ?_⟩
      intro a ha b hb hab
      simp only [List.map_cons, List.map_nil, List.mem_singleton] at hb
      exact h (hb ▸ hab ▸ ha)⟩

def erase (t : Table κ α) (k : κ) : Table κ α :=
  ⟨t.entries.filter (·.1 ≠ k), t.keys_nodup.sublist (List.filter_sublist.map Prod.fst)⟩

theorem find?_fst_eq_some_iff {entries : List (κ × α)} (nodup : (entries.map Prod.fst).Nodup)
    {k : κ} {v : α} : entries.find? (·.1 = k) = some (k, v) ↔ (k, v) ∈ entries := by
  induction entries with
  | nil => simp
  | cons e es ih =>
    rw [List.map_cons, List.nodup_cons] at nodup
    by_cases h : e.1 = k
    · rw [List.find?_cons_of_pos (by simpa using h), List.mem_cons]
      constructor
      · intro he
        exact Or.inl (Option.some.inj he).symm
      · rintro (rfl | hm)
        · rfl
        · exact absurd (h ▸ List.mem_map_of_mem (f := Prod.fst) hm) nodup.1
    · rw [List.find?_cons_of_neg (by simpa using h), ih nodup.2, List.mem_cons]
      constructor
      · exact Or.inr
      · rintro (rfl | hm)
        · exact absurd rfl h
        · exact hm

theorem get?_eq_some_iff (t : Table κ α) {k : κ} {v : α} :
    t.get? k = some v ↔ (k, v) ∈ t.entries := by
  rw [← find?_fst_eq_some_iff t.keys_nodup, get?, Option.map_eq_some_iff]
  constructor
  · rintro ⟨e, he, rfl⟩
    have hk : e.1 = k := by simpa using List.find?_some he
    rw [he, ← hk]
  · intro he
    exact ⟨_, he, rfl⟩

@[simp] theorem get?_empty (k : κ) : (empty : Table κ α).get? k = none := rfl

theorem mem_set (t : Table κ α) (k : κ) (v : α) (e : κ × α) :
    e ∈ (t.set k v).entries ↔ e = (k, v) ∨ (e ∈ t.entries ∧ e.1 ≠ k) := by
  unfold set
  split
  · next h =>
    obtain ⟨old, hold, rfl⟩ := List.mem_map.mp h
    constructor
    · intro he
      obtain ⟨x, hx, rfl⟩ := List.mem_map.mp he
      by_cases hk : x.1 = old.1
      · exact Or.inl (by simp [replaced, hk])
      · exact Or.inr (by simp [replaced, hk, hx])
    · rintro (rfl | ⟨he, hk⟩)
      · exact List.mem_map.mpr ⟨old, hold, by simp [replaced]⟩
      · exact List.mem_map.mpr ⟨e, he, by simp [replaced, hk]⟩
  · next h =>
    rw [List.mem_append, List.mem_singleton]
    constructor
    · rintro (he | rfl)
      · exact Or.inr ⟨he, fun hk => h (hk ▸ List.mem_map_of_mem he)⟩
      · exact Or.inl rfl
    · rintro (rfl | ⟨he, _⟩)
      · exact Or.inr rfl
      · exact Or.inl he

@[simp] theorem get?_set_self (t : Table κ α) (k : κ) (v : α) : (t.set k v).get? k = some v := by
  rw [get?_eq_some_iff, mem_set]
  exact Or.inl rfl

theorem get?_set_of_ne (t : Table κ α) {k j : κ} (v : α) (h : j ≠ k) :
    (t.set k v).get? j = t.get? j := by
  apply Option.ext
  intro w
  rw [get?_eq_some_iff, get?_eq_some_iff, mem_set]
  simp [h]

theorem mem_erase (t : Table κ α) (k : κ) (e : κ × α) :
    e ∈ (t.erase k).entries ↔ e ∈ t.entries ∧ e.1 ≠ k := by
  simp [erase]

@[simp] theorem get?_erase_self (t : Table κ α) (k : κ) : (t.erase k).get? k = none := by
  apply Option.eq_none_iff_forall_ne_some.mpr
  intro v hv
  rw [get?_eq_some_iff, mem_erase] at hv
  exact hv.2 rfl

theorem get?_erase_of_ne (t : Table κ α) {k j : κ} (h : j ≠ k) :
    (t.erase k).get? j = t.get? j := by
  apply Option.ext
  intro w
  rw [get?_eq_some_iff, get?_eq_some_iff, mem_erase]
  simp [h]

end Table

end Hypertag
