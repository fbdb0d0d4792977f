import Hypertag.Proofs.MarkupSpans

/-!
# The text of a node

A node of an outline has the points and the text of one range of offsets, and points compare as
offsets do. So what is known of spans is known of lengths: a node inside another one is shorter by
what is left out. An outline may go beyond the end of its text, where no offset has a point of its
own; then it counts as ending with the text.
-/

namespace Hypertag

/-- Reading stops at the end of a text. -/
theorem Point.advance_min (p : Point) (text : Text) (n : Nat) :
    advance p text (min n text.length) = advance p text n := by
  rcases Nat.le_total n text.length with inside | beyond
  · rw [Nat.min_eq_left inside]
  · obtain ⟨k, rfl⟩ := Nat.exists_eq_add_of_le beyond
    rw [Nat.min_eq_right beyond, advance_add, List.drop_length, advance_nil]

namespace Text

theorem slice_min (text : Text) (m n : Nat) :
    text.slice (min m text.length) (min n text.length) = text.slice m n := by
  rw [slice, slice, ← List.take_eq_take_min]
  rcases Nat.le_total m text.length with inside | beyond
  · rw [Nat.min_eq_left inside]
  · have short : (text.take n).length ≤ text.length := List.length_take_le' n text
    rw [Nat.min_eq_right beyond, List.drop_of_length_le short,
      List.drop_of_length_le (Nat.le_trans short beyond)]

theorem length_slice {text : Text} {m n : Nat} (h : n ≤ text.length) :
    (text.slice m n).length = n - m := by
  rw [slice, List.length_drop, List.length_take, Nat.min_eq_left h]

theorem pointAt_lt_iff {text : Text} {m n : Nat} (hn : n ≤ text.length) :
    text.pointAt m < text.pointAt n ↔ m < n := by
  constructor
  · intro lt
    by_contra le
    exact Point.not_le.mpr lt (text.pointAt_mono (Nat.not_lt.mp le))
  · intro lt
    apply pointAt_lt_of_slice
    apply List.ne_nil_of_length_pos
    rw [length_slice hn]
    omega

theorem pointAt_le_iff {text : Text} {m n : Nat} (hm : m ≤ text.length) :
    text.pointAt m ≤ text.pointAt n ↔ m ≤ n := by
  rw [← not_iff_not, Point.not_le, Nat.not_le, pointAt_lt_iff hm]

end Text

namespace Markup

structure Node.Spans (text : Text) (n : Node) (first last : Nat) : Prop where
  ordered : first ≤ last
  inside : last ≤ text.length
  start : n.start = text.pointAt first
  stop : n.stop = text.pointAt last
  content : n.text = text.slice first last

theorem Node.Spans.length {text : Text} {n : Node} {first last : Nat}
    (h : n.Spans text first last) : n.text.length = last - first := by
  rw [h.content, Text.length_slice h.inside]

mutual

theorem Outline.start_le_stop (o : Outline) (h : o.isNested = true) : o.start ≤ o.stop := by
  match o with
  | .mk kind start stop children =>
    rw [isNested] at h
    exact lower_le_upper start stop children h

theorem Outline.lower_le_upper (lower upper : Nat) (children : List Outline)
    (h : areNested lower upper children = true) : lower ≤ upper := by
  match children with
  | [] => simpa [areNested] using h
  | o :: rest =>
    simp only [areNested, Bool.and_eq_true, decide_eq_true_eq] at h
    obtain ⟨⟨begins, first⟩, later⟩ := h
    exact Nat.le_trans begins
      (Nat.le_trans (start_le_stop o first) (lower_le_upper o.stop upper rest later))

end

mutual

/-- Every node of a located outline spans a range of the text. -/
theorem spans_of_mem_locate (text : Text) (o : Outline) (h : o.isNested = true) {n : Node}
    (inside : n ∈ (o.locate text).nodes) : ∃ first last, n.Spans text first last := by
  match o with
  | .mk kind start stop children =>
    rw [Outline.isNested] at h
    have ordered := Outline.lower_le_upper start stop children h
    rw [Outline.locate, Node.nodes] at inside
    rcases List.mem_cons.mp inside with rfl | below
    · exact ⟨min start text.length, min stop text.length, by omega, by omega,
        (Point.advance_min _ _ _).symm, (Point.advance_min _ _ _).symm,
        (Text.slice_min _ _ _).symm⟩
    · exact spans_of_mem_locateAll text start stop children h below

theorem spans_of_mem_locateAll (text : Text) (lower upper : Nat) (children : List Outline)
    (h : Outline.areNested lower upper children = true) {n : Node}
    (inside : n ∈ Node.nodesIn (Outline.locateAll text children)) :
    ∃ first last, n.Spans text first last := by
  match children with
  | [] => cases inside
  | o :: rest =>
    simp only [Outline.areNested, Bool.and_eq_true] at h
    rw [Outline.locateAll, Node.nodesIn] at inside
    rcases List.mem_append.mp inside with first | later
    · exact spans_of_mem_locate text o h.1.2 first
    · exact spans_of_mem_locateAll text o.stop upper rest h.2 later

end

end Markup

end Hypertag
