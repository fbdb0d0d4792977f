import Hypertag.Proofs.Tokens

/-!
# Rows inside comments

A comment may start in mid-row and go on over many rows. Its rows are those of the text, as far as
they lie in it, and each declares the first tag of its part. Rows are told by the offsets at which
they start, without cutting the comment out first. Nothing is assumed about the comments: they may
overlap, be empty or reach beyond the text.
-/

namespace Hypertag

def Span.countedFrom (c : Span) (n : Nat) : Span := ⟨c.start - n, c.stop - n⟩

namespace Text

/-- The offset of the first unit of a row: the rows before it and their line ends are left of it. -/
def rowStart (text : Text) (n : Nat) : Nat :=
  ((text.rows.take n).flatMap fun row => row ++ [newline]).length

def rowPart (text : Text) (c : Span) (n : Nat) : Text :=
  (text.rows[n]?.getD []).slice (c.start - text.rowStart n) (c.stop - text.rowStart n)

/-- The first tag of what lies in a range of a row, at its columns in the row. -/
def firstIn? (text : Text) (c : Span) (n : Nat) : Option Token :=
  (Token.first? (text.rowPart c n)).map (·.shift (c.start - text.rowStart n : Nat))

/-! ### One row and those behind it -/

theorem rows_of_clean {row : Text} (clean : newline ∉ row) : row.rows = [row] :=
  split_of_not_mem clean

theorem rows_append {row : Text} (clean : newline ∉ row) (tail : Text) :
    (row ++ newline :: tail).rows = row :: tail.rows := by
  rw [rows, split_append, split_of_not_mem clean]
  rfl

@[simp] theorem rowStart_zero (text : Text) : text.rowStart 0 = 0 := rfl

variable {row tail : Text}

theorem rowStart_succ (clean : newline ∉ row) (n : Nat) :
    (row ++ newline :: tail).rowStart (n + 1) = row.length + 1 + tail.rowStart n := by
  rw [rowStart, rows_append clean, List.take_succ_cons, List.flatMap_cons, List.length_append,
    List.length_append, List.length_singleton, rowStart]

theorem firstIn?_succ (clean : newline ∉ row) (c : Span) (n : Nat) :
    (row ++ newline :: tail).firstIn? c (n + 1) =
      tail.firstIn? (c.countedFrom (row.length + 1)) n := by
  simp only [firstIn?, rowPart, rowStart_succ clean, rows_append clean, List.getElem?_cons_succ,
    Span.countedFrom, Nat.sub_sub]

/-- The first row starts at offset 0. -/
theorem firstIn?_zero {text : Text} {rest : List Text} (first : text.rows = row :: rest)
    (c : Span) : text.firstIn? c 0 =
      (Token.first? (row.slice c.start c.stop)).map (·.shift c.start) := by
  simp [firstIn?, rowPart, first]

/-- A row starts at its column 0. -/
theorem advance_rowStart {text : Text} {n : Nat} (line : Int) (inside : n < text.rows.length) :
    Point.advance ⟨line, 0⟩ text (text.rowStart n) = ⟨line + n, 0⟩ := by
  induction n generalizing line text with
  | zero => simp
  | succ n ih =>
    obtain ⟨row, rest, rows_eq⟩ := List.exists_cons_of_ne_nil (split_ne_nil newline text)
    obtain ⟨clean, shape⟩ := split_eq_cons rows_eq
    rcases shape with ⟨rfl, rfl⟩ | ⟨tail, rfl, rfl⟩
    · rw [rows_of_clean clean, List.length_singleton] at inside
      omega
    · rw [rows_append clean, List.length_cons] at inside
      rw [rowStart_succ clean, Nat.add_assoc, Nat.add_comm 1, Point.advance_next_row _ clean,
        ih (line + 1) (by omega)]
      simp only [Point.mk.injEq, and_true]
      omega

/-! ### Cutting a comment out -/

theorem slice_eq_nil {text : Text} {a b : Nat} (beyond : text.length ≤ a ∨ b ≤ a) :
    text.slice a b = [] := by
  rw [slice, List.drop_eq_nil_iff, List.length_take]
  omega

theorem slice_append_left {a b : Nat} (inside : b ≤ row.length) :
    (row ++ newline :: tail).slice a b = row.slice a b := by
  rw [slice, slice, List.take_append_of_le_length inside]

theorem slice_append_right {a b : Nat} (beyond : row.length < a) :
    (row ++ newline :: tail).slice a b =
      tail.slice (a - (row.length + 1)) (b - (row.length + 1)) := by
  by_cases across : row.length < b
  · have length : (row ++ [newline]).length = row.length + 1 := by simp
    have whole : (row ++ [newline]).take b = row ++ [newline] :=
      List.take_of_length_le (by omega)
    rw [List.append_cons, slice, List.take_append, whole, List.drop_append, length,
      List.drop_of_length_le (by omega), List.nil_append, slice]
  · rw [slice_eq_nil (by omega), slice_eq_nil (by omega)]

theorem slice_append_across {a b : Nat} (inside : a ≤ row.length) (beyond : row.length < b) :
    (row ++ newline :: tail).slice a b =
      row.slice a b ++ newline :: tail.slice 0 (b - (row.length + 1)) := by
  obtain ⟨m, rfl⟩ : ∃ m, b = row.length + (m + 1) := ⟨b - row.length - 1, by omega⟩
  rw [slice, slice, slice, List.take_append, List.take_of_length_le (Nat.le_add_right _ _),
    List.drop_append_of_le_length inside]
  simp [Nat.add_sub_add_left]

end Text

/-- What is made of the numbers up to a bound is made of the first one and of its successors. -/
theorem filterMap_range_succ {α : Type} (f : Nat → Option α) (n : Nat) :
    (List.range (n + 1)).filterMap f =
      (f 0).toList ++ (List.range n).filterMap fun k => f (k + 1) := by
  rw [List.range_succ_eq_map, List.filterMap_cons, List.filterMap_map]
  cases f 0 with
  | none => rfl
  | some a => rfl

namespace Tag

/-- The rows of what is cut out of a text are the parts of its rows. -/
theorem ofRows_slice (text : Text) (c : Span) (line : Int) :
    ofRows (Point.advance ⟨line, 0⟩ text c.start).column
        (Point.advance ⟨line, 0⟩ text c.start).row (text.slice c.start c.stop).rows =
      (List.range text.rows.length).filterMap fun n =>
        (text.firstIn? c n).map (·.toTag 0 (line + n)) := by
  generalize rows_eq : text.rows = rows
  induction rows generalizing text c line with
  | nil => exact absurd rows_eq (Text.split_ne_nil _ text)
  | cons row rest ih =>
    obtain ⟨clean, shape⟩ := Text.split_eq_cons rows_eq
    have cleanPart : Text.newline ∉ row.slice c.start c.stop := fun inside =>
      clean (List.mem_of_mem_take (List.mem_of_mem_drop inside))
    rw [List.length_cons, filterMap_range_succ, Text.firstIn?_zero rows_eq, Option.map_map]
    simp only [Function.comp_def]
    rcases shape with ⟨rfl, rfl⟩ | ⟨tail, rfl, tail_rows⟩
    · rw [Text.rows_of_clean cleanPart]
      by_cases inside : c.start ≤ text.length
      · rw [Point.advance_row _ clean inside]
        simp [ofRows]
      · rw [Text.slice_eq_nil (by omega)]
        rfl
    · -- behind the first row the range is counted from the start of the second
      have later := ih tail (c.countedFrom (row.length + 1)) (line + 1) tail_rows
      have shifted (n : Nat) : line + ((n + 1 : Nat) : Int) = line + 1 + n := by
        push_cast
        omega
      simp only [Text.firstIn?_succ clean, shifted]
      rw [← later, Span.countedFrom]
      by_cases inside : c.start ≤ row.length
      · have starts : c.start - (row.length + 1) = 0 := by omega
        rw [Point.advance_append _ _ inside, Point.advance_row _ clean inside]
        simp only [starts, Point.advance_zero]
        by_cases across : row.length < c.stop
        · rw [Text.slice_append_across inside across, Text.rows_append cleanPart, ofRows]
          simp
        · have stops : c.stop - (row.length + 1) = 0 := by omega
          have nothing : ofRows 0 (line + 1) (tail.slice 0 0).rows = [] := rfl
          rw [Text.slice_append_left (by omega), Text.rows_of_clean cleanPart, stops, nothing]
          simp [ofRows]
      · obtain ⟨m, starts⟩ : ∃ m, c.start = row.length + (m + 1) :=
          ⟨c.start - row.length - 1, by omega⟩
        have rest_start : c.start - (row.length + 1) = m := by omega
        have past : row.slice c.start c.stop = [] := Text.slice_eq_nil (by omega)
        rw [Text.slice_append_right (by omega), past]
        simp only [rest_start]
        rw [starts, Point.advance_next_row _ clean]
        rfl

/-- Comment by comment, each row of the text whose part in the comment has a tag declares the first
one of it, and no other row does. The rows are counted as the points of the text are. Each declared
name is cut out of its row by its columns; it starts with the mark, goes on behind it and has no
blank in it. -/
theorem extracted_tags_spell_their_rows (text : Text) (comments : List Span) :
    extract text comments = comments.flatMap (fun c =>
      (List.range text.rows.length).filterMap fun n =>
        (text.firstIn? c n).map (·.toTag 0 n)) ∧
    (∀ c n, (text.firstIn? c n).isSome ↔ (text.rowPart c n).HasTag) ∧
    (∀ n < text.rows.length, text.pointAt (text.rowStart n) = ⟨n, 0⟩) ∧
    ∀ t ∈ extract text comments, ∃ (row : Text) (start stop : Nat),
      text.row? t.line = some row ∧ t.start = start ∧ t.stop = stop ∧
      row.slice start stop = t.name ∧ tagMark <+: t.name ∧ tagMark.length < t.name.length ∧
      t.name.Solid := by
  refine ⟨?_, ?_, ?_, ?_⟩
  · refine congrArg (comments.flatMap ·) (funext fun c => ?_)
    have rows := ofRows_slice text c 0
    simp only [Int.zero_add] at rows
    exact rows
  · intro c n
    rw [Text.firstIn?, Option.isSome_map, Token.first?_isSome_iff]
  · intro n inside
    rw [Text.pointAt, Text.advance_rowStart 0 inside, Int.zero_add]
  · intro t declared
    obtain ⟨row, i, found, start, stop, cut⟩ := row_of_mem_extract declared
    obtain ⟨solid, marked, long⟩ := name_of_mem_extract declared
    exact ⟨row, i, _, found, start, stop, cut, marked, long, solid⟩

end Tag

/-- A comment that starts in mid-row, behind a character of two units, and goes on over an empty
row. -/
def Sample.commented : Text := "x 😀 /* hx@a\r\n\n  hx@b hx@c */"

/-- The columns of the last row are counted from its own start. -/
theorem rows_of_comment : ∃ row, Sample.commented.row? 2 = some row ∧
    (⟨"hx@b", 2, 6, 0, 2⟩ : Tag) ∈ Tag.extract Sample.commented [⟨5, 29⟩] ∧
    row.slice 2 6 = Text.ofString "hx@b" := by
  obtain ⟨_, _, _, spelled⟩ := Tag.extracted_tags_spell_their_rows Sample.commented [⟨5, 29⟩]
  have declared : (⟨"hx@b", 2, 6, 0, 2⟩ : Tag) ∈ Tag.extract Sample.commented [⟨5, 29⟩] := by decide
  obtain ⟨row, start, stop, found, first, last, cut, _⟩ := spelled _ declared
  obtain rfl : start = 2 := Int.ofNat.inj first.symm
  obtain rfl : stop = 6 := Int.ofNat.inj last.symm
  exact ⟨row, found, declared, cut⟩

end Hypertag
