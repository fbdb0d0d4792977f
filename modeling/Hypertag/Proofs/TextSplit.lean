import Hypertag.Text.Basic
import Mathlib.Data.List.Basic

/-!
# Pieces of a text

Rows are what newlines leave of a text, and the parts of a path are what slashes leave of it. The
separators and the pieces together are the whole text.
-/

namespace Hypertag.Text

theorem split_ne_nil (separator : UInt16) (t : Text) : t.split separator ≠ [] := by
  cases t with
  | nil => simp [split]
  | cons u rest =>
    rw [split]
    split
    · simp
    · split <;> simp

variable {separator : UInt16}

/-- The first piece of a text ends at the first separator, if there is one; the other pieces are
those of what follows it. -/
theorem split_eq_cons {text piece : Text} {pieces : List Text}
    (h : text.split separator = piece :: pieces) : separator ∉ piece ∧
      (pieces = [] ∧ text = piece ∨ ∃ tail : Text, text = piece ++ separator :: tail ∧
        tail.split separator = pieces) := by
  induction text generalizing piece pieces with
  | nil =>
    cases h
    exact ⟨List.not_mem_nil, Or.inl ⟨rfl, rfl⟩⟩
  | cons u text ih =>
    rw [split] at h
    split at h
    · next ends =>
      cases h
      exact ⟨List.not_mem_nil, Or.inr ⟨text, by rw [ends]; rfl, rfl⟩⟩
    · next goes =>
      split at h
      · next empty => exact absurd empty (split_ne_nil separator text)
      · next first others cut =>
        cases h
        obtain ⟨clean, shape⟩ := ih cut
        refine ⟨List.not_mem_cons_of_ne_of_not_mem (Ne.symm goes) clean, ?_⟩
        rcases shape with ⟨none, rfl⟩ | ⟨tail, rfl, later⟩
        · exact Or.inl ⟨none, rfl⟩
        · exact Or.inr ⟨tail, rfl, later⟩

theorem not_mem_of_mem_split {text piece : Text} (h : piece ∈ text.split separator) :
    separator ∉ piece := by
  generalize cut : text.split separator = pieces at h
  induction pieces generalizing text with
  | nil => cases h
  | cons first others ih =>
    obtain ⟨clean, shape⟩ := split_eq_cons cut
    rcases List.mem_cons.mp h with rfl | later
    · exact clean
    · rcases shape with ⟨rfl, _⟩ | ⟨tail, _, tail_cut⟩
      · cases later
      · exact ih tail_cut later

/-- A separator cuts a text in two, and both parts are cut by themselves. -/
theorem split_append (a b : Text) :
    (a ++ separator :: b).split separator = a.split separator ++ b.split separator := by
  induction a with
  | nil => simp [split]
  | cons u a ih =>
    by_cases here : u = separator
    · simp [split, here, ih]
    · obtain ⟨piece, pieces, cut⟩ := List.exists_cons_of_ne_nil (split_ne_nil separator a)
      simp [split, here, ih, cut]

theorem split_of_not_mem {t : Text} (clean : separator ∉ t) : t.split separator = [t] := by
  induction t with
  | nil => rfl
  | cons u rest ih =>
    have here : u ≠ separator := fun same => clean (same ▸ List.mem_cons_self)
    have later : separator ∉ rest := fun h => clean (List.mem_cons_of_mem u h)
    simp [split, here, ih later]

/-- What is left of a text in a piece, behind one separator for each piece before it. -/
theorem length_of_split {text piece : Text} {n : Nat}
    (found : (text.split separator)[n]? = some piece) : n + piece.length ≤ text.length := by
  induction n generalizing text with
  | zero =>
    obtain ⟨first, others, cut⟩ := List.exists_cons_of_ne_nil (split_ne_nil separator text)
    rw [cut] at found
    obtain rfl := Option.some.inj found
    rcases (split_eq_cons cut).2 with ⟨_, rfl⟩ | ⟨tail, rfl, _⟩
    · omega
    · rw [List.length_append]
      omega
  | succ n ih =>
    obtain ⟨first, others, cut⟩ := List.exists_cons_of_ne_nil (split_ne_nil separator text)
    rw [cut, List.getElem?_cons_succ] at found
    rcases (split_eq_cons cut).2 with ⟨rfl, _⟩ | ⟨tail, rfl, rfl⟩
    · cases found
    · have later := ih found
      rw [List.length_append, List.length_cons]
      omega

end Hypertag.Text
