import Hypertag.Proofs.Words
import Mathlib.Data.List.Pairwise
import Mathlib.Data.Set.List

/-!
# The tags of a text

Words are the maximal runs of solid units. A tag is told from the text alone: it goes from a mark to
the next blank, something follows the mark, and no other mark stands before it in its run. The
marked reading finds exactly these, in their order. An offset is added to their columns, and the sum
is exact as long as every column of the text is a number that can be kept.
-/

namespace Hypertag

namespace Text

/-! ### Runs -/

/-- Every solid unit stands in a word. -/
theorem exists_word_at {i k : Nat} {text : Text} {u : UInt16} (stands : text[k]? = some u)
    (solid : isBlank u = false) :
    ∃ w ∈ text.wordsFrom i, w.start ≤ i + k ∧ i + k < w.start + w.text.length := by
  induction text generalizing i k with
  | nil => simp at stands
  | cons v rest ih =>
    rw [wordsFrom]
    cases k with
    | zero =>
      obtain rfl : v = u := by simpa using stands
      rw [if_neg (by simp [solid])]
      split
      · exact ⟨_, List.mem_cons_self, by simp, by simp⟩
      · split
        · exact ⟨_, List.mem_cons_self, by simp, by simp⟩
        · exact ⟨_, List.mem_cons_self, by simp, by simp⟩
    | succ k =>
      obtain ⟨w, member, begun, goesOn⟩ := ih (i := i + 1) (by simpa using stands)
      split
      · exact ⟨w, member, by omega, by omega⟩
      · split
        · next none =>
          rw [none] at member
          cases member
        · next first others words =>
          rw [words] at member
          split
          · next adjacent =>
            rcases List.mem_cons.mp member with rfl | later
            · exact ⟨_, List.mem_cons_self, by simp only; omega,
                by simp only [List.length_cons]; omega⟩
            · exact ⟨w, List.mem_cons_of_mem _ later, by omega, by omega⟩
          · exact ⟨w, List.mem_cons_of_mem _ member, by omega, by omega⟩

/-- Two words are the same, or one ends before the other starts. -/
theorem word_cases {text : Text} {v w : Word} (hv : v ∈ text.words) (hw : w ∈ text.words) :
    v = w ∨ v.start + v.text.length < w.start ∨ w.start + w.text.length < v.start := by
  have apart := wordsFrom_separated 0 text
  refine List.Pairwise.forall_of_forall_of_flip (R := fun v w => v = w ∨
    v.start + v.text.length < w.start ∨ w.start + w.text.length < v.start) (fun _ _ => Or.inl rfl)
    (apart.imp fun before => Or.inr (Or.inl before)) (apart.imp fun before => ?_) hv hw
  exact Or.inr (Or.inr before)

def SolidOn (text : Text) (a b : Nat) : Prop :=
  ∀ k, a ≤ k → k < b → ∃ u, text[k]? = some u ∧ isBlank u = false

def BlankIn (text : Text) (a b : Nat) : Prop :=
  ∃ k u, a ≤ k ∧ k < b ∧ text[k]? = some u ∧ isBlank u = true

theorem getElem?_of_written {text run : Text} {i j : Nat} (written : run <+: text.drop i)
    (inside : j < run.length) : text[i + j]? = run[j]? := by
  obtain ⟨rest, whole⟩ := written
  rw [← List.getElem?_drop, ← whole, List.getElem?_append_left inside]

theorem Solid.solidOn {text run : Text} {i : Nat} (solid : run.Solid)
    (written : run <+: text.drop i) : text.SolidOn i (i + run.length) := by
  intro k begun goesOn
  obtain ⟨j, rfl⟩ := Nat.exists_eq_add_of_le begun
  have inside : j < run.length := by omega
  exact ⟨run[j], (getElem?_of_written written inside).trans (List.getElem?_eq_getElem inside),
    solid _ (List.getElem_mem inside)⟩

theorem solidOn_or_blankIn {text : Text} {a b : Nat} (inside : b ≤ text.length) :
    text.SolidOn a b ∨ text.BlankIn a b := by
  by_cases blank : text.BlankIn a b
  · exact Or.inr blank
  · refine Or.inl fun k begun goesOn => ?_
    have there := List.getElem?_eq_getElem (show k < text.length by omega)
    refine ⟨_, there, ?_⟩
    rw [← Bool.not_eq_true]
    exact fun isBlank => blank ⟨k, _, begun, goesOn, there, isBlank⟩

/-- Whether a run of solid units stands at an index and goes on at neither end. -/
structure RunAt (text : Text) (i : Nat) (run : Text) : Prop where
  written : run <+: text.drop i
  nonempty : run ≠ []
  solid : run.Solid
  begins : ∀ k u, k + 1 = i → text[k]? = some u → isBlank u = true
  ends : ∀ u, text[i + run.length]? = some u → isBlank u = true

namespace RunAt

variable {text run : Text} {i : Nat}

theorem solidOn (h : text.RunAt i run) : text.SolidOn i (i + run.length) :=
  h.solid.solidOn h.written

theorem length_pos (h : text.RunAt i run) : 0 < run.length :=
  List.length_pos_iff.mpr h.nonempty

/-- A solid range that reaches a run from the left starts in it. -/
theorem start_le (h : text.RunAt i run) {a b : Nat} (solid : text.SolidOn a b) (reaches : i ≤ b) :
    i ≤ a := by
  by_contra before
  obtain ⟨u, stands, solid⟩ := solid (i - 1) (by omega) (by omega)
  rw [h.begins (i - 1) u (by omega) stands] at solid
  cases solid

/-- A solid range that leaves a run to the right ends in it. -/
theorem le_stop (h : text.RunAt i run) {a b : Nat} (solid : text.SolidOn a b)
    (begun : a ≤ i + run.length) : b ≤ i + run.length := by
  by_contra beyond
  obtain ⟨u, stands, solid⟩ := solid (i + run.length) begun (by omega)
  rw [h.ends u stands] at solid
  cases solid

/-- Two runs with an index in common are the same. -/
theorem unique (h : text.RunAt i run) {j : Nat} {other : Text} (h' : text.RunAt j other) {k : Nat}
    (begun : i ≤ k) (goesOn : k < i + run.length) (begun' : j ≤ k)
    (goesOn' : k < j + other.length) : i = j ∧ run = other := by
  have starts : i = j :=
    Nat.le_antisymm (h.start_le h'.solidOn (by omega)) (h'.start_le h.solidOn (by omega))
  subst starts
  have stops : i + run.length = i + other.length :=
    Nat.le_antisymm (h'.le_stop h.solidOn (by omega)) (h.le_stop h'.solidOn (by omega))
  refine ⟨rfl, ?_⟩
  rw [List.prefix_iff_eq_take.mp h.written, List.prefix_iff_eq_take.mp h'.written,
    Nat.add_left_cancel stops]

/-- What a run holds from one of its units on is what the text holds up to the end of the run. -/
theorem drop_eq_slice (h : text.RunAt i run) (k : Nat) :
    run.drop k = text.slice (i + k) (i + run.length) := by
  rw [slice, ← List.drop_drop, List.drop_take, Nat.add_sub_cancel_left,
    ← List.prefix_iff_eq_take.mp h.written]

theorem prefix_drop (h : text.RunAt i run) {piece : Text} {j : Nat}
    (written : piece <+: text.drop j) (begun : i ≤ j)
    (goesOn : j + piece.length ≤ i + run.length) : piece <+: run.drop (j - i) := by
  rw [h.drop_eq_slice, Nat.add_sub_cancel' begun, slice, List.drop_take, List.prefix_take_iff]
  exact ⟨written, by omega⟩

theorem stop_le (h : text.RunAt i run) : i + run.length ≤ text.length := by
  have length := h.written.length_le
  have pos := h.length_pos
  rw [List.length_drop] at length
  omega

end RunAt

theorem runAt_of_mem_words {text : Text} {w : Word} (h : w ∈ text.words) :
    text.RunAt w.start w.text := by
  obtain ⟨nonempty, solid⟩ := solid_of_mem_wordsFrom h
  have long := List.length_pos_iff.mpr nonempty
  obtain ⟨k, start, written⟩ := mem_wordsFrom h
  obtain rfl : k = w.start := by omega
  -- a solid unit next to the word would stand in another word that touches it
  have blank (j : Nat) (u : UInt16) (stands : text[j]? = some u)
      (next : j + 1 = w.start ∨ j = w.start + w.text.length) : isBlank u = true := by
    rw [← Bool.not_eq_false]
    intro solidToo
    obtain ⟨v, member, begun, goesOn⟩ := exists_word_at (i := 0) stands solidToo
    rcases word_cases h member with rfl | before | behind <;> omega
  exact ⟨written, nonempty, solid, fun j u next stands => blank j u stands (Or.inl next),
    fun u stands => blank _ u stands (Or.inr rfl)⟩

/-- The words of a text are its runs. -/
theorem mem_words_iff {text : Text} {w : Word} : w ∈ text.words ↔ text.RunAt w.start w.text := by
  refine ⟨runAt_of_mem_words, fun h => ?_⟩
  have long := h.length_pos
  obtain ⟨u, stands, solid⟩ := h.solidOn w.start (Nat.le_refl _) (by omega)
  obtain ⟨v, member, begun, goesOn⟩ := exists_word_at (i := 0) stands solid
  obtain ⟨start, same⟩ := h.unique (runAt_of_mem_words member) (Nat.le_refl _) (by omega)
    (by omega) (by omega)
  obtain rfl : v = w := by
    cases v
    cases w
    simp_all
  exact member

/-! ### Tags -/

theorem exists_indexOf?_le {needle t : Text} (nonempty : needle ≠ []) {j : Nat}
    (written : needle <+: t.drop j) : ∃ k ≤ j, indexOf? needle t = some k := by
  have occurs : needle <:+: t := written.isInfix.trans (List.drop_suffix j t).isInfix
  obtain ⟨k, found⟩ := Option.isSome_iff_exists.mp (indexOf?_isSome_iff.mpr occurs)
  refine ⟨k, ?_, found⟩
  by_contra later
  exact ((indexOf?_eq_some_iff nonempty).mp found).2 j (by omega) written

theorem tagMark_ne_nil : tagMark ≠ [] := by decide

theorem tagMark_solid : tagMark.Solid := by
  have solid : tagMark.all (fun u => !isBlank u) = true := by decide
  intro u inside
  simpa using List.all_eq_true.mp solid u inside

/-- Whether a range of a text is a tag: it starts with the mark, goes on to the next blank or the
end, and no mark stands before it in its run. -/
structure TagAt (text : Text) (s : Span) : Prop where
  inside : s.stop ≤ text.length
  marked : tagMark <+: text.slice s.start s.stop
  long : tagMark.length < (text.slice s.start s.stop).length
  solid : (text.slice s.start s.stop).Solid
  ends : ∀ u, text[s.stop]? = some u → isBlank u = true
  first : ∀ k < s.start, tagMark <+: text.drop k → text.BlankIn k s.start

/-- The first mark of a run starts a tag, if something follows it. -/
theorem RunAt.tagAt {text run : Text} {i k : Nat} (h : text.RunAt i run)
    (mark : indexOf? tagMark run = some k) (long : k + tagMark.length < run.length) :
    text.TagAt ⟨i + k, i + run.length⟩ where
  inside := h.stop_le
  marked := h.drop_eq_slice k ▸ ((indexOf?_eq_some_iff tagMark_ne_nil).mp mark).1
  long := by
    rw [← h.drop_eq_slice, List.length_drop]
    omega
  solid := by
    rw [← h.drop_eq_slice]
    exact fun u member => h.solid u (List.mem_of_mem_drop member)
  ends := h.ends
  first := by
    intro j before earlier
    simp only at before
    have inside := h.stop_le
    rcases solidOn_or_blankIn (a := j) (show i + k ≤ text.length by omega) with solid | blank
    · have begun := h.start_le solid (by omega)
      have inRun := h.prefix_drop earlier begun (by omega)
      exact absurd inRun (((indexOf?_eq_some_iff tagMark_ne_nil).mp mark).2 (j - i) (by omega))
    · exact blank

/-- Every tag is the one that its run carries. -/
theorem TagAt.exists_run {text : Text} {s : Span} (h : text.TagAt s) :
    ∃ i run k, text.RunAt i run ∧ indexOf? tagMark run = some k ∧
      k + tagMark.length < run.length ∧ s = ⟨i + k, i + run.length⟩ := by
  obtain ⟨start, stop⟩ := s
  obtain ⟨inside, marked, long, solid, ends, first⟩ := h
  simp only at inside marked long solid ends first
  have length : (text.slice start stop).length = stop - start := by
    rw [slice, List.length_drop, List.length_take, Nat.min_eq_left inside]
  have written : text.slice start stop <+: text.drop start := by
    rw [slice, List.drop_take]
    exact List.take_prefix _ _
  have solidOn := solid.solidOn written
  obtain ⟨u, stands, solidHere⟩ := solidOn start (Nat.le_refl _) (by omega)
  obtain ⟨w, member, begun, goesOn⟩ := exists_word_at (i := 0) stands solidHere
  have run := runAt_of_mem_words member
  have reaches := run.le_stop solidOn (by omega)
  obtain rfl : stop = w.start + w.text.length := by
    by_contra differs
    obtain ⟨v, stands, solidThere⟩ := run.solidOn stop (by omega) (by omega)
    rw [ends v stands] at solidThere
    cases solidThere
  have here : tagMark <+: w.text.drop (start - w.start) :=
    run.prefix_drop (marked.trans written) (by omega) (by omega)
  refine ⟨w.start, w.text, start - w.start, run, ?_, by omega, ?_⟩
  · refine (indexOf?_eq_some_iff tagMark_ne_nil).mpr ⟨here, fun j before earlier => ?_⟩
    have inText : tagMark <+: text.drop (w.start + j) := by
      rw [← List.drop_drop]
      exact earlier.trans (run.written.drop j)
    obtain ⟨m, v, after, below, there, blank⟩ := first _ (by omega) inText
    obtain ⟨v', there', solid⟩ := run.solidOn m (by omega) (by omega)
    rw [Option.some.inj (there.symm.trans there'), solid] at blank
    cases blank
  · simp only [Span.mk.injEq, and_true]
    omega

/-- A mark with something solid behind it lies in a tag. -/
theorem exists_tag_around {text : Text} {k : Nat} {u : UInt16}
    (written : tagMark ++ [u] <+: text.drop k) (solid : isBlank u = false) :
    ∃ s, text.TagAt s ∧ s.start ≤ k ∧ k + tagMark.length < s.stop := by
  have pieceSolid : (tagMark ++ [u]).Solid :=
    List.forall_mem_append.mpr ⟨tagMark_solid, by simpa using solid⟩
  have solidOn := pieceSolid.solidOn written
  have length : (tagMark ++ [u]).length = tagMark.length + 1 := by simp
  obtain ⟨v, stands, solidHere⟩ := solidOn k (Nat.le_refl _) (by omega)
  obtain ⟨w, member, begun, goesOn⟩ := exists_word_at (i := 0) stands solidHere
  have run := runAt_of_mem_words member
  have reaches := run.le_stop solidOn (by omega)
  have inRun := run.prefix_drop written (by omega) reaches
  obtain ⟨m, least, mark⟩ := exists_indexOf?_le tagMark_ne_nil
    ((List.prefix_append tagMark [u]).trans inRun)
  exact ⟨_, run.tagAt mark (by omega), by simp only; omega, by simp only; omega⟩

/-- Whether a mark of a text has something solid behind it. -/
def HasTag (text : Text) : Prop := ∃ u, isBlank u = false ∧ tagMark ++ [u] <:+: text

theorem HasTag.exists_drop {text : Text} (h : text.HasTag) :
    ∃ k u, isBlank u = false ∧ tagMark ++ [u] <+: text.drop k := by
  obtain ⟨u, solid, inside⟩ := h
  obtain ⟨rest, written, ending⟩ := List.infix_iff_prefix_suffix.mp inside
  rw [List.suffix_iff_eq_drop.mp ending] at written
  exact ⟨_, u, solid, written⟩

/-- A text has a tag where a mark of it has something solid behind it. -/
theorem hasTag_iff {text : Text} : text.HasTag ↔ ∃ s, text.TagAt s := by
  constructor
  · intro h
    obtain ⟨k, u, solid, written⟩ := h.exists_drop
    obtain ⟨s, tag, _⟩ := exists_tag_around written solid
    exact ⟨s, tag⟩
  · rintro ⟨s, tag⟩
    have long := tag.long
    obtain ⟨rest, whole⟩ := tag.marked
    have inText : text.slice s.start s.stop <:+: text :=
      (List.drop_suffix _ _).isInfix.trans (List.take_prefix _ _).isInfix
    cases rest with
    | nil =>
      rw [← whole, List.append_nil] at long
      exact absurd long (Nat.lt_irrefl _)
    | cons u rest =>
      refine ⟨u, tag.solid u (whole ▸ by simp), List.IsInfix.trans ⟨[], rest, ?_⟩ inText⟩
      rw [← whole]
      simp

end Text

namespace Token

def ofSpan (text : Text) (s : Span) : Token := ⟨text.slice s.start s.stop, s.start, s.stop⟩

theorem ofSpan_injective (text : Text) : Function.Injective (ofSpan text) := by
  rintro ⟨a, b⟩ ⟨c, d⟩ same
  simp only [ofSpan, mk.injEq, Int.natCast_inj] at same
  simp [same.2]

end Token

theorem Word.token?_marked_eq_some_iff {w : Word} {t : Token} :
    w.token? .marked = some t ↔ ∃ k, Text.indexOf? tagMark w.text = some k ∧
      k + tagMark.length < w.text.length ∧ t = ⟨w.text.drop k, k, w.text.length⟩ := by
  unfold token?
  cases Text.indexOf? tagMark w.text with
  | none => simp
  | some k => simp [eq_comm]

/-- The marked tokens of a text are those of its tags. -/
theorem Text.mem_tokens_marked_iff {text : Text} {t : Token} :
    t ∈ text.tokens .marked ↔ ∃ s, text.TagAt s ∧ t = Token.ofSpan text s := by
  have placed {i k : Nat} {run : Text} (h : text.RunAt i run) :
      (⟨run.drop k, k, run.length⟩ : Token).shift i =
        Token.ofSpan text ⟨i + k, i + run.length⟩ := by
    simp only [Token.shift, Token.ofSpan, h.drop_eq_slice, Token.mk.injEq, true_and]
    push_cast
    omega
  simp only [tokens, List.mem_filterMap, Option.map_eq_some_iff, Word.token?_marked_eq_some_iff]
  constructor
  · rintro ⟨w, member, _, ⟨k, mark, long, rfl⟩, rfl⟩
    have run := runAt_of_mem_words member
    exact ⟨_, run.tagAt mark long, placed run⟩
  · rintro ⟨s, tag, rfl⟩
    obtain ⟨i, run, k, isRun, mark, long, rfl⟩ := tag.exists_run
    exact ⟨⟨i, run⟩, mem_words_iff.mpr isRun, _, ⟨k, mark, long, rfl⟩, placed isRun⟩

/-- A row has a first tag exactly if it has any. -/
theorem Token.first?_isSome_iff {row : Text} : (first? row).isSome ↔ row.HasTag := by
  rw [first?, List.isSome_head?, Text.hasTag_iff]
  constructor
  · intro nonempty
    obtain ⟨t, member⟩ := List.exists_mem_of_ne_nil _ nonempty
    obtain ⟨s, tag, _⟩ := Text.mem_tokens_marked_iff.mp member
    exact ⟨s, tag⟩
  · rintro ⟨s, tag⟩
    exact List.ne_nil_of_mem (Text.mem_tokens_marked_iff.mpr ⟨s, tag, rfl⟩)

/-- The columns of a tag in a word. -/
theorem Word.token?_columns {reading : Reading} {w : Word} {t : Token}
    (h : w.token? reading = some t) :
    0 ≤ t.start ∧ t.start ≤ w.text.length ∧ t.stop = w.text.length := by
  unfold token? at h
  split at h
  · split at h
    · next fits =>
      cases h
      exact ⟨by simp, by simp only; omega, rfl⟩
    · cases h
  · cases reading with
    | marked => cases h
    | bare =>
      cases h
      exact ⟨Int.le_refl 0, by simp, rfl⟩

/-- In either reading a tag ends at a blank when another one follows. -/
theorem Text.tokens_apart (reading : Reading) (text : Text) :
    (text.tokens reading).Pairwise fun t u =>
      ∃ k : Nat, t.stop = (k : Int) ∧ (k : Int) < u.start ∧
        ∃ v, text[k]? = some v ∧ isBlank v = true := by
  have words := List.Pairwise.and_mem.mp (wordsFrom_separated 0 text)
  refine List.Pairwise.filterMap _ ?_ words
  rintro v w ⟨inV, inW, apart⟩ t placedT u placedU
  obtain ⟨tokenV, readV, rfl⟩ := Option.map_eq_some_iff.mp placedT
  obtain ⟨tokenW, readW, rfl⟩ := Option.map_eq_some_iff.mp placedU
  obtain ⟨_, _, stop⟩ := Word.token?_columns readV
  obtain ⟨begins, _, _⟩ := Word.token?_columns readW
  have inside := (runAt_of_mem_words inW).stop_le
  have there := List.getElem?_eq_getElem (show v.start + v.text.length < text.length by omega)
  refine ⟨v.start + v.text.length, ?_, ?_, _, there, (runAt_of_mem_words inV).ends _ there⟩
  · simp only [Token.shift, stop]
    omega
  · simp only [Token.shift]
    omega

/-! ### Offsets -/

/-- Whether each column of a text that starts at an offset is a number that can be kept. -/
def Text.FitsAt (text : Text) (offset : Int) : Prop :=
  ∀ k : Nat, k ≤ text.length → Binary.round (offset + k) = offset + k

theorem Text.fitsAt_of_le {text : Text} {offset : Int} (low : -(Binary.exactLimit : Int) ≤ offset)
    (high : offset + text.length ≤ Binary.exactLimit) : text.FitsAt offset :=
  fun k inside => Binary.round_eq_self (by omega)

namespace Token

/-- Where the columns fit, the offset is added to each of them. -/
theorem scan_eq_of_fitsAt (reading : Reading) {offset : Int} {text : Text}
    (fits : text.FitsAt offset) :
    scan reading offset text = (text.tokens reading).map (·.shift offset) := by
  rw [scan, Text.tokens, List.map_filterMap]
  refine List.filterMap_congr fun w member => ?_
  rw [Option.map_map]
  cases read : w.token? reading with
  | none => rfl
  | some t =>
    obtain ⟨positive, inside, stop⟩ := Word.token?_columns read
    have fitsText := (Text.runAt_of_mem_words member).stop_le
    obtain ⟨k, start⟩ := Int.eq_ofNat_of_zero_le positive
    have first := fits w.start (by omega)
    have left := fits (w.start + k) (by omega)
    have right := fits (w.start + w.text.length) (by omega)
    push_cast at left right
    simp only [Option.map_some, Function.comp_apply, place, shift, first, start, stop,
      Int.add_assoc, left, right, Option.some.injEq, mk.injEq, true_and]
    omega

/-- What is read does not depend on the offset. -/
theorem scan_names (reading : Reading) (offset : Int) (text : Text) :
    (scan reading offset text).map name = (text.tokens reading).map name := by
  simp only [scan, Text.tokens, List.map_filterMap, Option.map_map]
  rfl

end Token

/-- Every text has a list of ranges that are exactly its tags, with a blank between any two, and
such that each mark with something solid behind it lies in one. At every offset the marked reading
gives their names in this order, and where the columns fit, their columns shifted by the offset. -/
theorem Token.scan_finds_exactly_the_tags (text : Text) : ∃ spans : List Span,
    (∀ s, s ∈ spans ↔ text.TagAt s) ∧
    spans.Pairwise (fun s s' => s.start < s.stop ∧ text.BlankIn s.stop s'.start) ∧
    (∀ k u, tagMark ++ [u] <+: text.drop k → Text.isBlank u = false →
      ∃ s ∈ spans, s.start ≤ k ∧ k + tagMark.length < s.stop) ∧
    ∀ offset : Int,
      (scan .marked offset text).map name = spans.map (fun s => text.slice s.start s.stop) ∧
      (text.FitsAt offset → scan .marked offset text =
        spans.map fun s => ⟨text.slice s.start s.stop, s.start + offset, s.stop + offset⟩) := by
  obtain ⟨spans, tokens⟩ : text.tokens .marked ∈ Set.range (List.map (ofSpan text)) := by
    rw [Set.range_list_map]
    intro t member
    obtain ⟨s, _, rfl⟩ := Text.mem_tokens_marked_iff.mp member
    exact ⟨s, rfl⟩
  have listed (s : Span) : s ∈ spans ↔ text.TagAt s := by
    rw [← List.mem_map_of_injective (ofSpan_injective text), tokens, Text.mem_tokens_marked_iff]
    constructor
    · rintro ⟨s', tag, same⟩
      exact ofSpan_injective text same ▸ tag
    · intro tag
      exact ⟨s, tag, rfl⟩
  refine ⟨spans, listed, ?_, ?_, ?_⟩
  · have apart := Text.tokens_apart .marked text
    rw [← tokens, List.pairwise_map] at apart
    refine (List.Pairwise.and_mem.mp apart).imp ?_
    rintro s s' ⟨member, _, k, stop, before, v, stands, blank⟩
    have long := ((listed s).mp member).long
    rw [Text.slice, List.length_drop, List.length_take] at long
    simp only [ofSpan, Int.natCast_inj, Int.ofNat_lt] at stop before
    subst stop
    exact ⟨by omega, _, v, Nat.le_refl _, before, stands, blank⟩
  · intro k u written solid
    obtain ⟨s, tag, begun, goesOn⟩ := Text.exists_tag_around written solid
    exact ⟨s, (listed s).mpr tag, begun, goesOn⟩
  · intro offset
    constructor
    · rw [scan_names, ← tokens, List.map_map]
      rfl
    · intro fits
      rw [scan_eq_of_fitsAt .marked fits, ← tokens, List.map_map]
      rfl

namespace Sample

def marks : Text := "a,hx@b hx@ hx@chx@d"

end Sample

/-- The mark in the middle of the last tag lies in a token, also left of the first column. -/
theorem scan_of_marks : Sample.marks.FitsAt (-3) ∧
    ∃ t ∈ Token.scan .marked (-3) Sample.marks, t.start ≤ 12 ∧ 15 < t.stop := by
  have fits : Sample.marks.FitsAt (-3) := Text.fitsAt_of_le (by decide) (by decide)
  obtain ⟨spans, _, _, around, read⟩ := Token.scan_finds_exactly_the_tags Sample.marks
  obtain ⟨s, member, begun, goesOn⟩ := around 15 0x64 (by decide) (by decide)
  have length : tagMark.length = 3 := rfl
  rw [(read (-3)).2 fits]
  exact ⟨fits, _, List.mem_map_of_mem member, by simp only; omega, by simp only; omega⟩

/-- Beyond 53 binary digits first the word and then the tag in it is rounded, and the columns are no
longer those of the name. -/
theorem scan_rounds_columns :
    Token.scan .marked 9007199254740992 (Text.ofString " xhx@a") =
      [⟨"hx@a", 9007199254740992, 9007199254740996⟩] ∧
    ¬ ∀ t ∈ Token.scan .marked 9007199254740992 (Text.ofString " xhx@a"),
      t.name = Text.slice (Text.ofString " xhx@a") (t.start - 9007199254740992).toNat
        (t.stop - 9007199254740992).toNat := by
  decide +kernel

end Hypertag
