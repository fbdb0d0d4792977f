import Hypertag.Proofs.TextSplit
import Hypertag.Tag.Extract
import Mathlib.Data.List.Infix
import Mathlib.Data.List.Nodup

/-!
# Where declared tags are written

A declared tag is tied to the units of the text that spell its name: its line and columns are those
of an offset inside the comment that declares it. A comment declares no tag twice, and two comments
that declare the same tag overlap. Which texts have overlapping comments is up to the grammar, and
nothing is assumed about it.
-/

namespace Hypertag

namespace Text

/-- A word is written where it starts. -/
theorem mem_wordsFrom {i : Nat} {text : Text} {w : Word} (h : w ∈ text.wordsFrom i) :
    ∃ k, w.start = i + k ∧ w.text <+: text.drop k := by
  induction text generalizing i w with
  | nil => cases h
  | cons u rest ih =>
    have later : ∀ w ∈ wordsFrom (i + 1) rest,
        ∃ k, w.start = i + k ∧ w.text <+: (u :: rest).drop k := by
      intro w hw
      obtain ⟨k, start, written⟩ := ih hw
      exact ⟨k + 1, by omega, written⟩
    rw [wordsFrom] at h
    split at h
    · exact later w h
    · split at h
      · rw [List.mem_singleton.mp h]
        exact ⟨0, rfl, List.prefix_append [u] rest⟩
      · next v vs words =>
        have hv : v ∈ wordsFrom (i + 1) rest := words ▸ List.mem_cons_self
        split at h
        · next adjacent =>
          rcases List.mem_cons.mp h with rfl | hw
          · obtain ⟨k, start, written⟩ := ih hv
            obtain rfl : k = 0 := by omega
            exact ⟨0, rfl, (List.prefix_cons_inj u).mpr written⟩
          · exact later w (words ▸ List.mem_cons_of_mem v hw)
        · rcases List.mem_cons.mp h with rfl | hw
          · exact ⟨0, rfl, List.prefix_append [u] rest⟩
          · exact later w (words ▸ hw)

/-- A marked token spells its name at its columns, and something follows the mark. -/
theorem mem_tokens_marked {text : Text} {t : Token} (h : t ∈ text.tokens .marked) :
    ∃ k : Nat, t.start = k ∧ t.stop = t.start + t.name.length ∧ t.name <+: text.drop k ∧
      tagMark.length < t.name.length := by
  obtain ⟨w, hw, found⟩ := List.mem_filterMap.mp h
  obtain ⟨token, read, rfl⟩ := Option.map_eq_some_iff.mp found
  obtain ⟨i, start, written⟩ := mem_wordsFrom hw
  rw [Word.token?] at read
  split at read
  · next k mark =>
    split at read
    · next long =>
      obtain rfl := Option.some.inj read
      have name := List.IsPrefix.drop written k
      rw [List.drop_drop] at name
      have length : (w.text.drop k).length = w.text.length - k := List.length_drop
      refine ⟨i + k, ?_, ?_, name, ?_⟩
      · simp only [Token.shift]
        omega
      · simp only [Token.shift]
        omega
      · simp only [Token.shift]
        omega
    · cases read
  · cases read

end Text

namespace Point

@[simp] theorem advance_zero (p : Point) (text : Text) : advance p text 0 = p := by
  cases text <;> rfl

@[simp] theorem advance_nil (p : Point) (n : Nat) : advance p [] n = p := by
  cases n <;> rfl

/-- Reading on from where one stopped. -/
theorem advance_add (p : Point) (text : Text) (m n : Nat) :
    advance p text (m + n) = advance (advance p text m) (text.drop m) n := by
  induction m generalizing p text with
  | zero => simp
  | succ m ih =>
    cases text with
    | nil => simp
    | cons u rest =>
      rw [Nat.add_right_comm]
      simp only [advance, List.drop_succ_cons]
      split
      · exact ih _ rest
      · exact ih _ rest

/-- What lies beyond the units read does not count. -/
theorem advance_append (p : Point) {text : Text} (rest : Text) {n : Nat} (h : n ≤ text.length) :
    advance p (text ++ rest) n = advance p text n := by
  induction text generalizing p n with
  | nil =>
    obtain rfl : n = 0 := Nat.le_zero.mp h
    simp
  | cons u text ih =>
    cases n with
    | zero => simp
    | succ n =>
      have h : n ≤ text.length := Nat.le_of_succ_le_succ h
      simp only [List.cons_append, advance]
      split
      · exact ih _ h
      · exact ih _ h

/-- Within a row only the column moves. -/
theorem advance_row (p : Point) {row : Text} (clean : Text.newline ∉ row) {n : Nat}
    (h : n ≤ row.length) : advance p row n = ⟨p.row, p.column + n⟩ := by
  induction row generalizing p n with
  | nil =>
    obtain rfl : n = 0 := Nat.le_zero.mp h
    simp
  | cons u row ih =>
    have goes := List.ne_of_not_mem_cons clean
    have clean := List.not_mem_of_not_mem_cons clean
    cases n with
    | zero => simp
    | succ n =>
      have h : n ≤ row.length := Nat.le_of_succ_le_succ h
      simp only [advance, Ne.symm goes, if_false]
      rw [ih _ clean h]
      simp only [mk.injEq, true_and]
      omega

/-- Reading at least one unit leads further on. -/
theorem lt_advance (p : Point) {text : Text} {n : Nat} (pos : 0 < n) (h : n ≤ text.length) :
    p < advance p text n := by
  induction text generalizing p n with
  | nil => exact absurd pos (Nat.not_lt.mpr h)
  | cons u text ih =>
    cases n with
    | zero => exact absurd pos (Nat.lt_irrefl 0)
    | succ n =>
      have h : n ≤ text.length := Nat.le_of_succ_le_succ h
      have onward : ∀ q : Point, p < q → p < advance q text n := by
        intro q hq
        rcases Nat.eq_zero_or_pos n with rfl | pos
        · simpa using hq
        · have further := ih q pos h
          rw [lt_def] at *
          omega
      simp only [advance]
      split
      · exact onward _ (Or.inl (Int.lt_succ p.row))
      · exact onward _ (Or.inr ⟨rfl, Int.lt_succ p.column⟩)

end Point

/-- Different offsets of a text are different points. -/
theorem Text.pointAt_injective {text : Text} {m n : Nat} (hm : m ≤ text.length)
    (hn : n ≤ text.length) (h : text.pointAt m = text.pointAt n) : m = n := by
  -- of two offsets the later one is reached by reading on from the earlier one
  have apart : ∀ m n, m < n → n ≤ text.length → text.pointAt m ≠ text.pointAt n := by
    intro m n lt hn same
    have left : n - m ≤ (text.drop m).length := by
      rw [List.length_drop]
      omega
    have further := Point.lt_advance (text.pointAt m) (Nat.sub_pos_of_lt lt) left
    rw [pointAt, ← Point.advance_add, Nat.add_sub_cancel' (Nat.le_of_lt lt)] at further
    rw [pointAt, pointAt] at same
    rw [← same, Point.lt_def] at further
    omega
  rcases Nat.lt_trichotomy m n with lt | eq | gt
  · exact absurd h (apart m n lt hn)
  · exact eq
  · exact absurd h.symm (apart n m gt hm)

/-- Behind a newline the reading goes on in column 0 of the next row. -/
theorem Point.advance_next_row (p : Point) {row : Text} (clean : Text.newline ∉ row) (tail : Text)
    (n : Nat) : advance p (row ++ Text.newline :: tail) (row.length + (n + 1)) =
      advance ⟨p.row + 1, 0⟩ tail n := by
  rw [advance_add, advance_append p _ (Nat.le_refl _), advance_row p clean (Nat.le_refl _),
    List.drop_left]
  simp [advance]

namespace Tag

/-- Whether the text spells a tag's name at an offset, and the tag says so. -/
structure WrittenAt (text : Text) (t : Tag) (offset : Nat) : Prop where
  name : t.name <+: text.drop offset
  point : text.pointAt offset = ⟨t.line, t.start⟩
  stop : t.stop = t.start + t.name.length
  marked : tagMark.length < t.name.length

theorem WrittenAt.le_length {text : Text} {t : Tag} {offset : Nat} (h : WrittenAt text t offset) :
    offset ≤ text.length := by
  have length := h.name.length_le
  have marked := h.marked
  rw [List.length_drop] at length
  omega

/-- A tag is written at one offset only. -/
theorem WrittenAt.unique {text : Text} {t : Tag} {m n : Nat} (hm : WrittenAt text t m)
    (hn : WrittenAt text t n) : m = n :=
  Text.pointAt_injective hm.le_length hn.le_length (hm.point.trans hn.point.symm)

/-- The tags of a text that starts at a given point stand where reading from there leads. -/
theorem mem_ofRows {line column : Int} {text : Text} {t : Tag}
    (h : t ∈ ofRows column line text.rows) :
    ∃ k, t.name <+: text.drop k ∧ Point.advance ⟨line, column⟩ text k = ⟨t.line, t.start⟩ ∧
      t.stop = t.start + t.name.length ∧ tagMark.length < t.name.length := by
  generalize rows_eq : text.rows = rows at h
  induction rows generalizing line column text with
  | nil => cases h
  | cons row rest ih =>
    obtain ⟨clean, shape⟩ := Text.split_eq_cons rows_eq
    rw [ofRows] at h
    rcases List.mem_append.mp h with first | later
    · obtain ⟨token, found, rfl⟩ := Option.map_eq_some_iff.mp (Option.mem_toList.mp first)
      obtain ⟨k, start, stop, written, marked⟩ :=
        Text.mem_tokens_marked (List.mem_of_head? found)
      have inside : k ≤ row.length := by
        have length := written.length_le
        rw [List.length_drop] at length
        omega
      obtain ⟨tail, rfl⟩ : ∃ tail, text = row ++ tail := by
        rcases shape with ⟨_, rfl⟩ | ⟨tail, rfl, _⟩
        · exact ⟨[], (List.append_nil text).symm⟩
        · exact ⟨_, rfl⟩
      refine ⟨k, ?_, ?_, ?_, marked⟩
      · rw [List.drop_append_of_le_length inside]
        exact written.trans (List.prefix_append _ tail)
      · rw [Point.advance_append _ tail inside, Point.advance_row _ clean inside]
        simp only [Token.toTag, Token.shift, start, Int.add_comm]
      · simp only [Token.toTag, Token.shift, stop]
        omega
    · rcases shape with ⟨rfl, _⟩ | ⟨tail, rfl, tail_rows⟩
      · cases later
      · obtain ⟨k, written, point, stop, marked⟩ := ih tail_rows later
        refine ⟨row.length + (k + 1), ?_, ?_, stop, marked⟩
        · rw [← List.drop_drop, List.drop_left]
          exact written
        · rw [Point.advance_next_row _ clean]
          exact point

/-- A tag that a comment declares is written inside the comment. -/
theorem mem_ofComment {text : Text} {c : Span} {t : Tag} (h : t ∈ ofComment text c) :
    ∃ offset, WrittenAt text t offset ∧ c.start ≤ offset ∧
      offset + t.name.length ≤ c.stop := by
  obtain ⟨k, written, point, stop, marked⟩ := mem_ofRows h
  have length := written.length_le
  rw [Text.slice, List.length_drop, List.length_drop, List.length_take] at length
  obtain ⟨rest, whole⟩ : text.slice c.start c.stop <+: text.drop c.start :=
    List.IsPrefix.drop (List.take_prefix c.stop text) c.start
  have inside : k ≤ (text.slice c.start c.stop).length := by
    rw [Text.slice, List.length_drop, List.length_take]
    omega
  refine ⟨c.start + k, ⟨?_, ?_, stop, marked⟩, Nat.le_add_right _ _, by omega⟩
  · rw [← List.drop_drop, ← whole, List.drop_append_of_le_length inside]
    exact written.trans (List.prefix_append _ rest)
  · rw [Text.pointAt, Point.advance_add, ← whole, Point.advance_append _ rest inside]
    exact point

end Tag

/-! ### The row of a tag -/

namespace Text

/-- A name without a newline does not go beyond the row that it starts in. -/
theorem prefix_of_prefix_row {name row tail : Text} (clean : newline ∉ name)
    (h : name <+: row ++ newline :: tail) : name <+: row := by
  rcases List.prefix_or_prefix_of_prefix h (List.prefix_append row _) with inside | ⟨beyond, rfl⟩
  · exact inside
  · rw [List.prefix_append_right_inj] at h
    cases beyond with
    | nil => simp
    | cons u beyond =>
      obtain ⟨rfl, _⟩ := List.cons_prefix_cons.mp h
      exact absurd (List.mem_append_right row List.mem_cons_self) clean

/-- What is written behind `k` units stands in one row, at the point that reading leads to. -/
theorem row_of_advance (p : Point) {text name : Text} {k : Nat} (clean : newline ∉ name)
    (nonempty : name ≠ []) (written : name <+: text.drop k) :
    ∃ (n i : Nat) (row : Text), text.rows[n]? = some row ∧ name <+: row.drop i ∧
      Point.advance p text k = ⟨p.row + n, (if n = 0 then p.column else 0) + i⟩ := by
  induction k using Nat.strongRecOn generalizing p text with
  | ind k ih =>
    obtain ⟨row, rest, rows_eq⟩ := List.exists_cons_of_ne_nil (split_ne_nil newline text)
    obtain ⟨rowClean, shape⟩ := split_eq_cons rows_eq
    by_cases inside : k ≤ row.length
    · refine ⟨0, k, row, by rw [rows, rows_eq]; rfl, ?_, ?_⟩
      · rcases shape with ⟨_, rfl⟩ | ⟨tail, rfl, _⟩
        · exact written
        · rw [List.drop_append_of_le_length inside] at written
          exact prefix_of_prefix_row clean written
      · have read : Point.advance p text k = Point.advance p row k := by
          rcases shape with ⟨_, rfl⟩ | ⟨tail, rfl, _⟩
          · rfl
          · exact Point.advance_append p _ inside
        rw [read, Point.advance_row p rowClean inside]
        simp
    · rcases shape with ⟨_, rfl⟩ | ⟨tail, rfl, tail_rows⟩
      · -- behind the last row nothing is written
        rw [List.drop_of_length_le (by omega)] at written
        exact absurd (List.prefix_nil.mp written) nonempty
      · obtain ⟨m, rfl⟩ : ∃ m, k = row.length + (m + 1) := ⟨k - row.length - 1, by omega⟩
        rw [← List.drop_drop, List.drop_left] at written
        obtain ⟨n, i, found, hfound, named, point⟩ :=
          ih m (by omega) ⟨p.row + 1, 0⟩ written
        refine ⟨n + 1, i, found, ?_, named, ?_⟩
        · rw [rows, rows_eq, List.getElem?_cons_succ, ← tail_rows]
          exact hfound
        · rw [Point.advance_next_row p rowClean, point]
          simp only [Point.mk.injEq]
          constructor
          · push_cast
            omega
          · simp

end Text

namespace Tag

/-- A declared name is that of the first token in a row of its comment. -/
theorem token_of_mem_ofRows {column line : Int} {rows : List Text} {t : Tag}
    (h : t ∈ ofRows column line rows) :
    ∃ row ∈ rows, ∃ token ∈ row.tokens .marked, token.name = t.name := by
  induction rows generalizing column line with
  | nil => cases h
  | cons row rows ih =>
    rw [ofRows] at h
    rcases List.mem_append.mp h with first | later
    · obtain ⟨token, found, rfl⟩ := Option.map_eq_some_iff.mp (Option.mem_toList.mp first)
      exact ⟨row, List.mem_cons_self, token, List.mem_of_head? found, rfl⟩
    · obtain ⟨other, member, read⟩ := ih later
      exact ⟨other, List.mem_cons_of_mem row member, read⟩

/-- A declared name has no newline in it. -/
theorem newline_not_mem_of_ofRows {column line : Int} {rows : List Text} {t : Tag}
    (clean : ∀ row ∈ rows, Text.newline ∉ row) (h : t ∈ ofRows column line rows) :
    Text.newline ∉ t.name := by
  obtain ⟨row, member, token, read, named⟩ := token_of_mem_ofRows h
  obtain ⟨k, _, _, written, _⟩ := Text.mem_tokens_marked read
  rw [← named]
  exact fun inside => clean row member (List.mem_of_mem_drop (written.subset inside))

/-- The row of a tag's line spells its name between its columns. -/
theorem row_of_mem_extract {text : Text} {comments : List Span} {t : Tag}
    (h : t ∈ extract text comments) : ∃ (row : Text) (i : Nat), text.row? t.line = some row ∧
      t.start = i ∧ t.stop = (i + t.name.length : Nat) ∧
      row.slice i (i + t.name.length) = t.name := by
  obtain ⟨c, _, declared⟩ := List.mem_flatMap.mp h
  obtain ⟨offset, written, _, _⟩ := mem_ofComment declared
  have clean := newline_not_mem_of_ofRows (fun _ => Text.not_mem_of_mem_split) declared
  have nonempty : t.name ≠ [] := by
    intro empty
    have marked := written.marked
    rw [empty, List.length_nil] at marked
    omega
  obtain ⟨n, i, row, found, named, point⟩ :=
    Text.row_of_advance ⟨0, 0⟩ clean nonempty written.name
  have same := written.point.symm.trans point
  simp only [Point.mk.injEq, Int.zero_add, ite_self] at same
  obtain ⟨line, start⟩ := same
  refine ⟨row, i, ?_, start, ?_, ?_⟩
  · rw [line]
    exact found
  · rw [written.stop, start]
    push_cast
    rfl
  · rw [Text.slice, List.drop_take, Nat.add_sub_cancel_left]
    exact (List.prefix_iff_eq_take.mp named).symm

end Tag

end Hypertag
