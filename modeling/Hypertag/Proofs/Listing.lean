import Hypertag.Text.Order
import Mathlib.Data.List.Sort

/-!
# Lists that are sorted or mapped

Sorting by text keeps the items and puts their keys in order. A list is mapped by calls that may
fail: all results are there when every call succeeds, one for each item and in their order.
-/

namespace Hypertag

namespace Text

variable {α : Type} (key : α → Text)

/-- Sorting by text is an insertion sort. -/
theorem sortBy_eq (items : List α) :
    sortBy key items = items.insertionSort fun x y => key x ≤ key y := by
  have insert : ∀ (a : α) (sorted : List α), insertBy key a sorted =
      sorted.orderedInsert (fun x y => key x ≤ key y) a := by
    intro a sorted
    induction sorted with
    | nil => rfl
    | cons b rest ih =>
      rw [insertBy, List.orderedInsert_cons, ih]
      by_cases before : key b < key a
      · rw [if_pos before, if_neg (List.not_le.mpr before)]
      · rw [if_neg before, if_pos (List.not_lt.mp before)]
  induction items with
  | nil => rfl
  | cons a rest ih => rw [sortBy, ih, insert, List.insertionSort_cons]

theorem sortBy_perm (items : List α) : (sortBy key items).Perm items := by
  rw [sortBy_eq]
  exact List.perm_insertionSort _ items

variable {key}

theorem sortBy_sorted (items : List α) :
    (sortBy key items).Pairwise fun x y => key x ≤ key y := by
  have total : Std.Total fun x y : α => key x ≤ key y := ⟨fun x y => List.le_total _ _⟩
  have trans : IsTrans α fun x y => key x ≤ key y := ⟨fun _ _ _ => List.le_trans⟩
  rw [sortBy_eq]
  exact List.pairwise_insertionSort _ items

/-- Distinct keys come out strictly increasing. -/
theorem sortBy_strict {items : List α} (distinct : (items.map key).Nodup) :
    ((sortBy key items).map key).Pairwise (· < ·) := by
  have apart : ((sortBy key items).map key).Nodup :=
    ((sortBy_perm key items).map key).nodup_iff.mpr distinct
  rw [List.pairwise_map]
  apply (sortBy_sorted items).imp₂ _ (List.pairwise_map.mp apart)
  intro x y ordered different
  exact (List.le_iff_lt_or_eq.mp ordered).resolve_right different

end Text

/-! ### Calls that may fail -/

/-- What can be made of each can be made of all, one after the other. -/
theorem mapM_ok {ε α β : Type} {f : α → Except ε β} {items : List α}
    (h : ∀ a ∈ items, ∃ b, f a = .ok b) : ∃ made, items.mapM f = .ok made := by
  induction items with
  | nil => exact ⟨[], rfl⟩
  | cons a items ih =>
    obtain ⟨b, first⟩ := h a List.mem_cons_self
    obtain ⟨made, rest⟩ := ih fun x hx => h x (List.mem_cons_of_mem a hx)
    exact ⟨b :: made, by rw [List.mapM_cons, first, rest]; rfl⟩

/-- All results of a list of calls that succeed, one for each. -/
theorem mapM_ok_iff {ε α β : Type} {f : α → Except ε β} {items : List α} {made : List β} :
    items.mapM f = .ok made ↔ List.Forall₂ (fun a b => f a = .ok b) items made := by
  induction items generalizing made with
  | nil =>
    rw [List.forall₂_nil_left_iff]
    exact ⟨fun h => (Except.ok.inj h).symm, fun h => h ▸ rfl⟩
  | cons a items ih =>
    rw [List.mapM_cons, List.forall₂_cons_left_iff]
    cases first : f a with
    | error e =>
      constructor
      · intro h
        cases h
      · rintro ⟨b, rest, h, _⟩
        cases h
    | ok b =>
      cases others : items.mapM f with
      | error e =>
        constructor
        · intro h
          cases h
        · rintro ⟨_, rest, _, tail, rfl⟩
          cases others.symm.trans (ih.mpr tail)
      | ok rest =>
        constructor
        · intro h
          cases h
          exact ⟨b, rest, rfl, ih.mp others, rfl⟩
        · rintro ⟨_, _, h, tail, rfl⟩
          cases h
          cases others.symm.trans (ih.mpr tail)
          rfl

theorem exists_of_forall₂ {α β : Type} {R : α → β → Prop} {xs : List α} {ys : List β}
    (h : List.Forall₂ R xs ys) {x : α} (member : x ∈ xs) : ∃ y ∈ ys, R x y := by
  induction h with
  | nil => cases member
  | @cons a b _ _ first _ ih =>
    rcases List.mem_cons.mp member with rfl | later
    · exact ⟨b, List.mem_cons_self, first⟩
    · obtain ⟨y, hy, related⟩ := ih later
      exact ⟨y, List.mem_cons_of_mem b hy, related⟩

end Hypertag
