import Hypertag.Proofs.Spelling

/-!
# The tag in reach of a cursor

The end of a tag counts as inside it, so two tags of a value would compete for a column if one
started where the other ends. Where columns are exact this cannot be: a tag ends at a blank or with
the value, and the next one starts behind the blank. A cursor then has at most one tag in reach, and
the search finds it. Columns that are rounded may run into each other, and the search finds the
first.
-/

namespace Hypertag

/-! ### Links of a value -/

namespace Text

/-- Whether a range of a value links a name. A written tag links its own name, and a run without a
mark the name that it has with one. -/
inductive LinkAt (value : Text) : Span → Text → Prop
  | marked {s : Span} (tag : value.TagAt s) : LinkAt value s (value.slice s.start s.stop)
  | bare {i : Nat} {run : Text} (whole : value.RunAt i run) (fresh : ¬ tagMark <:+: run) :
      LinkAt value ⟨i, i + run.length⟩ (tagMark ++ run)

theorem LinkAt.start_lt_stop {value name : Text} {s : Span} (h : value.LinkAt s name) :
    s.start < s.stop := by
  cases h with
  | marked tag =>
    obtain ⟨i, run, k, _, _, long, rfl⟩ := tag.exists_run
    simp only
    omega
  | bare whole _ =>
    have pos := whole.length_pos
    simp only
    omega

/-- The tokens of the bare reading are the links. -/
theorem mem_tokens_bare_iff {value : Text} {t : Token} :
    t ∈ value.tokens .bare ↔ ∃ s name, value.LinkAt s name ∧ t = ⟨name, s.start, s.stop⟩ := by
  constructor
  · intro member
    obtain ⟨w, isWord, placed⟩ := List.mem_filterMap.mp member
    by_cases mark : tagMark <:+: w.text
    · rw [Word.token?_bare_of_mark mark] at placed
      obtain ⟨s, tag, rfl⟩ :=
        mem_tokens_marked_iff.mp (List.mem_filterMap.mpr ⟨w, isWord, placed⟩)
      exact ⟨s, _, .marked tag, rfl⟩
    · rw [Word.token?_bare_of_fresh mark, Option.map_some] at placed
      obtain rfl := Option.some.inj placed
      refine ⟨_, _, .bare (runAt_of_mem_words isWord) mark, ?_⟩
      simp only [Token.shift, Token.mk.injEq, true_and]
      omega
  · rintro ⟨s, name, link, rfl⟩
    cases link with
    | marked tag =>
      obtain ⟨w, isWord, placed⟩ :=
        List.mem_filterMap.mp (mem_tokens_marked_iff.mpr ⟨s, tag, rfl⟩)
      obtain ⟨token, read, _⟩ := Option.map_eq_some_iff.mp placed
      obtain ⟨k, found, _⟩ := Word.token?_marked_eq_some_iff.mp read
      have mark : tagMark <:+: w.text :=
        indexOf?_isSome_iff.mp (Option.isSome_iff_exists.mpr ⟨k, found⟩)
      rw [← Word.token?_bare_of_mark mark] at placed
      exact List.mem_filterMap.mpr ⟨w, isWord, placed⟩
    | @bare i run whole fresh =>
      refine List.mem_filterMap.mpr ⟨⟨i, run⟩, mem_words_iff.mpr whole, ?_⟩
      rw [Word.token?_bare_of_fresh fresh, Option.map_some]
      simp only [Token.shift, Option.some.injEq, Token.mk.injEq, true_and]
      omega

end Text

/-! ### Reach -/

namespace Tag

variable {value : Text} {start line column : Int} {tags : List Tag}

theorem touches_iff {t : Tag} : t.touches column = true ↔ t.start ≤ column ∧ column ≤ t.stop := by
  rw [touches, Token.touches, Bool.and_eq_true, decide_eq_true_eq, decide_eq_true_eq]
  rfl

theorem not_touches_iff {t : Tag} :
    ¬ t.touches column = true ↔ column < t.start ∨ t.stop < column := by
  rw [touches_iff]
  omega

theorem atValue?_eq_find? (accepted : ofValue? value start line = some tags) :
    atValue? value start line column = tags.find? (·.touches column) := by
  rw [atValue?, accepted, Option.bind_some]

/-- Whatever the start, the first tag in reach is found. -/
theorem atValue?_eq_some_iff_first (accepted : ofValue? value start line = some tags) {t : Tag} :
    atValue? value start line column = some t ↔ (t.start ≤ column ∧ column ≤ t.stop) ∧
      ∃ before after, tags = before ++ t :: after ∧
        ∀ u ∈ before, column < u.start ∨ u.stop < column := by
  rw [atValue?_eq_find? accepted, List.find?_eq_some_iff_append, touches_iff]
  simp only [← not_touches_iff, Bool.not_eq_true, Bool.not_eq_eq_eq_not, Bool.not_true]

theorem atValue?_eq_none_iff (accepted : ofValue? value start line = some tags) :
    atValue? value start line column = none ↔
      ∀ t ∈ tags, column < t.start ∨ t.stop < column := by
  rw [atValue?_eq_find? accepted, List.find?_eq_none]
  simp only [not_touches_iff]

/-! ### Exact columns -/

/-- Where the columns fit, the tags of a value are its links, shifted by the start. -/
theorem ofValue?_of_fitsAt (fits : value.FitsAt start)
    (accepted : ofValue? value start line = some tags) :
    tags = (value.tokens .bare).map fun t => (t.shift start).toTag 0 line := by
  rw [ofValue?, Token.scan_eq_of_fitsAt .bare fits, List.map_map] at accepted
  split at accepted
  · exact (Option.some.inj accepted).symm
  · cases accepted

theorem mem_iff_linkAt (fits : value.FitsAt start)
    (accepted : ofValue? value start line = some tags) {t : Tag} :
    t ∈ tags ↔ ∃ s name, value.LinkAt s name ∧
      t = ⟨name, start + s.start, start + s.stop, 0, line⟩ := by
  rw [ofValue?_of_fitsAt fits accepted, List.mem_map]
  constructor
  · rintro ⟨token, member, rfl⟩
    obtain ⟨s, name, link, rfl⟩ := Text.mem_tokens_bare_iff.mp member
    refine ⟨s, name, link, ?_⟩
    simp only [Token.shift, Token.toTag, Int.add_comm]
  · rintro ⟨s, name, link, rfl⟩
    refine ⟨_, Text.mem_tokens_bare_iff.mpr ⟨s, name, link, rfl⟩, ?_⟩
    simp only [Token.shift, Token.toTag, Int.add_comm]

theorem start_lt_stop (fits : value.FitsAt start)
    (accepted : ofValue? value start line = some tags) {t : Tag} (member : t ∈ tags) :
    t.start < t.stop := by
  obtain ⟨s, name, link, rfl⟩ := (mem_iff_linkAt fits accepted).mp member
  have forward := link.start_lt_stop
  simp only
  omega

/-- A blank stands at the column where a tag ends and another one follows. -/
theorem tags_apart (fits : value.FitsAt start)
    (accepted : ofValue? value start line = some tags) :
    tags.Pairwise fun t u => t.stop < u.start ∧
      ∃ (k : Nat) (v : UInt16), t.stop = start + k ∧ value[k]? = some v ∧
        Text.isBlank v = true := by
  rw [ofValue?_of_fitsAt fits accepted, List.pairwise_map]
  refine (Text.tokens_apart .bare value).imp ?_
  rintro t u ⟨k, stop, before, v, stands, blank⟩
  simp only [Token.shift, Token.toTag]
  exact ⟨by omega, k, v, by omega, stands, blank⟩

theorem countP_reach_le_one (fits : value.FitsAt start)
    (accepted : ofValue? value start line = some tags) (column : Int) :
    tags.countP (fun t => t.start ≤ column ∧ column ≤ t.stop) ≤ 1 := by
  have apart := (tags_apart fits accepted).imp fun h => h.1
  clear accepted
  induction tags with
  | nil => simp
  | cons t rest ih =>
    obtain ⟨ahead, later⟩ := List.pairwise_cons.mp apart
    rw [List.countP_cons]
    split
    · next reached =>
      have missed : rest.countP (fun u => u.start ≤ column ∧ column ≤ u.stop) = 0 := by
        rw [List.countP_eq_zero]
        intro u member
        have behind := ahead u member
        simp only [decide_eq_true_eq] at reached ⊢
        omega
      omega
    · exact ih later

/-- The tag in reach is found. -/
theorem atValue?_eq_some_iff (fits : value.FitsAt start)
    (accepted : ofValue? value start line = some tags) {t : Tag} :
    atValue? value start line column = some t ↔
      t ∈ tags ∧ t.start ≤ column ∧ column ≤ t.stop := by
  constructor
  · intro found
    rw [atValue?_eq_find? accepted] at found
    have touched : t.touches column = true := by simpa using List.find?_some found
    exact ⟨List.mem_of_find?_eq_some found, touches_iff.mp touched⟩
  · rintro ⟨member, reached⟩
    exact atValue?_of_touches fits accepted member (touches_iff.mpr reached)

/-- From the end of a tag to the start of its neighbour, only these two columns find anything. -/
theorem atValue?_between (fits : value.FitsAt start) {before after : List Tag} {t u : Tag}
    (accepted : ofValue? value start line = some (before ++ t :: u :: after))
    (behind : t.stop ≤ column) (ahead : column ≤ u.start) :
    atValue? value start line column =
      if column = t.stop then some t else if column = u.start then some u else none := by
  have ordered := start_lt_stop fits accepted (t := t) (by simp)
  have orderedNext := start_lt_stop fits accepted (t := u) (by simp)
  split
  · next atEnd => exact (atValue?_eq_some_iff fits accepted).mpr ⟨by simp, by omega, by omega⟩
  · next past =>
    split
    · next atStart =>
      exact (atValue?_eq_some_iff fits accepted).mpr ⟨by simp, by omega, by omega⟩
    · next short =>
      have apart := tags_apart fits accepted
      rw [List.pairwise_append, List.pairwise_cons, List.pairwise_cons] at apart
      obtain ⟨_, ⟨_, later, _⟩, earlier⟩ := apart
      refine (atValue?_eq_none_iff accepted).mpr fun v member => ?_
      rcases List.mem_append.mp member with inBefore | inRest
      · have stopped := (earlier v inBefore t List.mem_cons_self).1
        omega
      · rcases List.mem_cons.mp inRest with rfl | inRest
        · omega
        · rcases List.mem_cons.mp inRest with rfl | inAfter
          · omega
          · have begins := (later v inAfter).1
            omega

/-- At every start the first tag of a value that is in reach of the column is found, its end
included, and none only if none is in reach. Where the columns of the value fit, its tags are its
links, at most one is in reach, and that one is found. A blank stands where a tag ends before its
neighbour. The tag has this column for itself, the neighbour has its own start, and nothing is found
between the two. -/
theorem hits_never_compete (value : Text) (start line column : Int) (tags : List Tag)
    (accepted : ofValue? value start line = some tags) :
    (∀ t, atValue? value start line column = some t ↔ (t.start ≤ column ∧ column ≤ t.stop) ∧
      ∃ before after, tags = before ++ t :: after ∧
        ∀ u ∈ before, column < u.start ∨ u.stop < column) ∧
    (atValue? value start line column = none ↔
      ∀ t ∈ tags, column < t.start ∨ t.stop < column) ∧
    (value.FitsAt start →
      (∀ t, t ∈ tags ↔ ∃ s name, value.LinkAt s name ∧
        t = ⟨name, start + s.start, start + s.stop, 0, line⟩) ∧
      tags.countP (fun t => t.start ≤ column ∧ column ≤ t.stop) ≤ 1 ∧
      (∀ t, atValue? value start line column = some t ↔
        t ∈ tags ∧ t.start ≤ column ∧ column ≤ t.stop) ∧
      ∀ before t u after, tags = before ++ t :: u :: after →
        (∃ (k : Nat) (v : UInt16), t.stop = start + k ∧ k < u.start - start ∧
          value[k]? = some v ∧ Text.isBlank v = true) ∧
        (t.stop ≤ column → column ≤ u.start → atValue? value start line column =
          if column = t.stop then some t else if column = u.start then some u else none)) := by
  refine ⟨fun t => atValue?_eq_some_iff_first accepted, atValue?_eq_none_iff accepted, ?_⟩
  intro fits
  refine ⟨fun t => mem_iff_linkAt fits accepted, countP_reach_le_one fits accepted column,
    fun t => atValue?_eq_some_iff fits accepted, ?_⟩
  rintro before t u after rfl
  refine ⟨?_, atValue?_between fits accepted⟩
  have apart := tags_apart fits accepted
  rw [List.pairwise_append, List.pairwise_cons] at apart
  obtain ⟨_, ⟨next, _⟩, _⟩ := apart
  obtain ⟨behind, k, v, stop, stands, blank⟩ := next u List.mem_cons_self
  exact ⟨k, v, stop, by omega, stands, blank⟩

end Tag

namespace Sample

def mixedLinks : Text := "a\u00a0x,hx@b hx@"

end Sample

/-- Between the two tags stand a no-break space and the part of a word before its mark. Neither of
them finds a tag. -/
theorem hits_of_mixed_links : Sample.mixedLinks.FitsAt 7 ∧
    ∀ column, 8 ≤ column → column ≤ 11 → Tag.atValue? Sample.mixedLinks 7 0 column =
      if column = 8 then some ⟨"hx@a", 7, 8, 0, 0⟩
      else if column = 11 then some ⟨"hx@b", 11, 15, 0, 0⟩ else none := by
  have fits : Sample.mixedLinks.FitsAt 7 := Text.fitsAt_of_le (by decide) (by decide)
  refine ⟨fits, fun column behind ahead => ?_⟩
  obtain ⟨_, _, kept⟩ := Tag.hits_never_compete Sample.mixedLinks 7 0 column
    [⟨"hx@a", 7, 8, 0, 0⟩, ⟨"hx@b", 11, 15, 0, 0⟩] (by decide)
  obtain ⟨_, _, _, neighbours⟩ := kept fits
  exact (neighbours [] _ _ [] rfl).2 behind ahead

/-- Beyond 53 binary digits the end of a tag may be rounded to the start of its neighbour, and the
column of the neighbour's start finds the tag before it. -/
theorem rounded_tags_compete :
    Tag.ofValue? (Text.ofString "a bb") 9007199254740994 0 =
      some [⟨"hx@a", 9007199254740994, 9007199254740996, 0, 0⟩,
        ⟨"hx@bb", 9007199254740996, 9007199254740998, 0, 0⟩] ∧
    Tag.atValue? (Text.ofString "a bb") 9007199254740994 0 9007199254740996 =
      some ⟨"hx@a", 9007199254740994, 9007199254740996, 0, 0⟩ ∧
    ¬ ∀ (value : Text) (start line column : Int) (tags : List Tag),
      Tag.ofValue? value start line = some tags →
        tags.countP (fun t => t.start ≤ column ∧ column ≤ t.stop) ≤ 1 := by
  have read : Tag.ofValue? (Text.ofString "a bb") 9007199254740994 0 =
      some [⟨"hx@a", 9007199254740994, 9007199254740996, 0, 0⟩,
        ⟨"hx@bb", 9007199254740996, 9007199254740998, 0, 0⟩] := by
    decide +kernel
  refine ⟨read, by decide +kernel, fun unique => ?_⟩
  exact absurd (unique _ _ _ 9007199254740996 _ read) (by decide)

end Hypertag
