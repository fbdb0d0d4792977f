import Hypertag.Proofs.LinkedTag

/-!
# Marked and bare spelling

The two readings go over the same words. Where a word has a mark they take the same of it, at the
same columns whatever the offset. The bare reading also takes the words without a mark, under the
name that they would have with one. So it does not matter to a link whether the mark is written.
-/

namespace Hypertag

/-! ### Readings of one word -/

namespace Word

def placed? (reading : Reading) (offset : Int) (w : Word) : Option Token :=
  (w.token? reading).map (·.place (Binary.round (offset + w.start)))

theorem token?_bare_of_mark {w : Word} (marked : tagMark <:+: w.text) :
    w.token? .bare = w.token? .marked := by
  obtain ⟨k, found⟩ := Option.isSome_iff_exists.mp (Text.indexOf?_isSome_iff.mpr marked)
  simp only [token?, found]

theorem token?_bare_of_fresh {w : Word} (fresh : ¬ tagMark <:+: w.text) :
    w.token? .bare = some ⟨tagMark ++ w.text, 0, w.text.length⟩ := by
  rw [← Text.indexOf?_isSome_iff, Option.not_isSome_iff_eq_none] at fresh
  simp only [token?, fresh]

/-- A word with the mark before it is a name as a whole, in either reading. -/
theorem token?_of_written_mark {w : Text} (i : Nat) (nonempty : w ≠ []) (reading : Reading) :
    Word.token? reading ⟨i, tagMark ++ w⟩ = some ⟨tagMark ++ w, 0, (tagMark ++ w).length⟩ := by
  have long : tagMark.length < (tagMark ++ w).length := by
    have := List.length_pos_iff.mpr nonempty
    rw [List.length_append]
    omega
  have read : Word.token? .marked ⟨i, [] ++ (tagMark ++ w)⟩ = _ :=
    token?_of_mark i (List.prefix_append tagMark w) long (by decide)
  cases reading with
  | marked => exact read
  | bare =>
    rw [token?_bare_of_mark (List.prefix_append tagMark w).isInfix]
    exact read

/-- A word with a readable tag carries it in either reading. -/
theorem token?_of_hasTag {w : Word} (h : w.text.HasTag) :
    ∃ t, w.token? .marked = some t ∧ w.token? .bare = some t := by
  obtain ⟨j, u, _, written⟩ := h.exists_drop
  have room := written.length_le
  rw [List.length_append, List.length_singleton, List.length_drop] at room
  have mark : tagMark <+: w.text.drop j := (List.prefix_append _ _).trans written
  obtain ⟨k, least, found⟩ := Text.exists_indexOf?_le Text.tagMark_ne_nil mark
  have read := token?_marked_eq_some_iff.mpr ⟨k, found, by omega, rfl⟩
  have marked : tagMark <:+: w.text := mark.isInfix.trans (List.drop_suffix _ _).isInfix
  exact ⟨_, read, (token?_bare_of_mark marked).trans read⟩

end Word

namespace Token

/-- Each word that the bare reading takes, with what it makes of it. -/
def scanWords (offset : Int) (text : Text) : List (Word × Token) :=
  text.words.filterMap fun w => (w.placed? .bare offset).map (w, ·)

theorem scan_bare_eq (offset : Int) (text : Text) :
    scan .bare offset text = (scanWords offset text).map Prod.snd := by
  rw [scanWords, List.map_filterMap]
  simp only [Option.map_map, Function.comp_def, Option.map_id']
  rfl

/-- The marked reading is the bare one of the words that have a mark. -/
theorem scan_marked_eq (offset : Int) (text : Text) :
    scan .marked offset text =
      ((scanWords offset text).filter fun p => p.1.text.hasInfix tagMark).map Prod.snd := by
  rw [scanWords, List.filter_filterMap, List.map_filterMap]
  refine List.filterMap_congr fun w _ => ?_
  simp only [Word.placed?]
  by_cases marked : tagMark <:+: w.text
  · rw [Word.token?_bare_of_mark marked]
    cases w.token? .marked with
    | none => rfl
    | some t => simp [Option.filter_some, Text.hasInfix_iff.mpr marked]
  · have plain : w.text.hasInfix tagMark = false := by
      rwa [← Bool.not_eq_true, Text.hasInfix_iff]
    rw [Word.token?_bare_of_fresh marked, Word.token?_of_fresh marked]
    simp [Option.filter_some, plain]

theorem mem_scanWords_iff {offset : Int} {text : Text} {w : Word} {t : Token} :
    (w, t) ∈ scanWords offset text ↔ w ∈ text.words ∧ w.placed? .bare offset = some t := by
  simp only [scanWords, List.mem_filterMap, Option.map_eq_some_iff, Prod.mk.injEq]
  constructor
  · rintro ⟨v, member, u, placed, rfl, rfl⟩
    exact ⟨member, placed⟩
  · rintro ⟨member, placed⟩
    exact ⟨w, member, t, placed, rfl, rfl⟩

end Token

/-! ### Values that differ in a mark -/

namespace Text

/-- Whether the second value is the first one with the mark written before one of its bare words. -/
def Respelled (value marked : Text) : Prop :=
  ∃ before w after, value = before ++ (w ++ after) ∧ marked = before ++ (tagMark ++ w ++ after) ∧
    value.RunAt before.length w ∧ ¬ tagMark <:+: w

/-- What follows a blank is cut into words by itself. -/
theorem wordsFrom_append {before : Text} (ends : ∀ u ∈ before.getLast?, isBlank u = true)
    (rest : Text) (i : Nat) : (before ++ rest).wordsFrom i =
      before.wordsFrom i ++ rest.wordsFrom (i + before.length) := by
  induction before generalizing i with
  | nil => rfl
  | cons u before ih =>
    by_cases last : before = []
    · subst last
      have blank : isBlank u = true := ends u rfl
      simp [wordsFrom, blank]
    · have later := ih (fun v member => ends v (by
        rw [List.getLast?_cons_of_ne_nil last]
        exact member)) (i + 1)
      rw [List.cons_append, wordsFrom, wordsFrom, later, List.length_cons, Nat.add_assoc,
        Nat.add_comm 1]
      by_cases blank : isBlank u = true
      · rw [if_pos blank, if_pos blank]
      · rw [if_neg blank, if_neg blank]
        cases words : wordsFrom (i + 1) before with
        | nil =>
          rw [List.nil_append]
          split
          · next none =>
            rw [none]
            rfl
          · next w ws behind =>
            have start := le_of_mem_wordsFrom (behind ▸ List.mem_cons_self : w ∈ rest.wordsFrom _)
            have long := List.length_pos_iff.mpr last
            rw [if_neg (by omega), behind]
            rfl
        | cons v vs =>
          simp only [List.cons_append]
          split <;> rfl

/-- Words that are counted from further on start further on. -/
theorem wordsFrom_add (text : Text) (i k : Nat) : text.wordsFrom (i + k) =
    (text.wordsFrom i).map fun w => ⟨w.start + k, w.text⟩ := by
  induction text generalizing i with
  | nil => rfl
  | cons u rest ih =>
    have later := ih (i + 1)
    rw [Nat.add_right_comm] at later
    rw [wordsFrom, wordsFrom, later]
    split
    · rfl
    · cases wordsFrom (i + 1) rest with
      | nil => rfl
      | cons w ws =>
        by_cases adjacent : w.start = i + 1
        · simp [adjacent, Nat.add_right_comm]
        · simp [adjacent, Nat.add_right_comm i k 1]

theorem wordsFrom_texts (text : Text) (i : Nat) :
    (text.wordsFrom i).map Word.text = text.words.map Word.text := by
  rw [words, ← Nat.zero_add i, wordsFrom_add, List.map_map]
  rfl

/-- The names that a reading gives depend on what the words are. -/
theorem tokens_names (reading : Reading) (text : Text) :
    (text.tokens reading).map Token.name = (text.words.map Word.text).filterMap fun w =>
      (Word.token? reading ⟨0, w⟩).map Token.name := by
  rw [tokens, List.map_filterMap, List.filterMap_map]
  simp only [Option.map_map]
  rfl

/-- A unit is doubled in two texts after each other only if it is in one of them, or stands on both
sides of the border. -/
theorem doubled_append {xs ys : Text} {u : UInt16}
    (apart : xs.getLast? = some u → ys.head? ≠ some u) :
    [u, u] <:+: xs ++ ys ↔ [u, u] <:+: xs ∨ [u, u] <:+: ys := by
  rw [List.infix_append_iff, ← or_assoc, or_iff_left_iff_imp]
  rintro ⟨left, right, parts, ends, begins⟩
  rcases left with _ | ⟨v, _ | ⟨w, left⟩⟩
  · rw [List.nil_append] at parts
    exact Or.inr (parts ▸ begins.isInfix)
  · obtain ⟨rfl, rfl⟩ : u = v ∧ [u] = right := by simpa using parts
    obtain ⟨before, rfl⟩ := ends
    obtain ⟨after, rfl⟩ := begins
    exact absurd rfl (apart (by simp))
  · obtain ⟨rfl, rfl, rfl, rfl⟩ : u = v ∧ u = w ∧ left = [] ∧ right = [] := by
      simpa [eq_comm] using parts
    exact Or.inl ends.isInfix

theorem Solid.space_not_mem {run : Text} (solid : run.Solid) : space ∉ run := by
  intro inside
  cases (solid space inside).symm.trans (show isBlank space = true by decide)

/-- Whether a value links does not depend on how a word of it is spelled. -/
theorem isLinkValue_append {run : Text} (nonempty : run ≠ []) (solid : run.Solid)
    (before after : Text) : (before ++ (run ++ after)).isLinkValue =
      !([space].isPrefixOf before || before.hasInfix [space, space] ||
        after.hasInfix [space, space]) := by
  have free := solid.space_not_mem
  have leading : [space].isPrefixOf (before ++ (run ++ after)) = [space].isPrefixOf before := by
    cases before with
    | nil =>
      obtain ⟨u, rest, rfl⟩ := List.exists_cons_of_ne_nil nonempty
      have first : space ≠ u := List.ne_of_not_mem_cons free
      simp [List.isPrefixOf, first]
    | cons u before => rfl
  have doubled : (before ++ (run ++ after)).hasInfix [space, space] =
      (before.hasInfix [space, space] || after.hasInfix [space, space]) := by
    have single : ¬ [space, space] <:+: run := fun twice => free (twice.subset List.mem_cons_self)
    rw [Bool.eq_iff_iff, Bool.or_eq_true, hasInfix_iff, hasInfix_iff, hasInfix_iff, doubled_append,
      doubled_append, or_iff_right single]
    · exact fun last => absurd (List.mem_of_getLast? last) free
    · intro _ first
      rw [List.head?_append_of_ne_nil _ nonempty] at first
      exact free (List.mem_of_head? first)
  rw [isLinkValue, leading, doubled, Bool.or_assoc]

/-- A run between blanks is one of the words, and the others are those on its two sides. -/
theorem words_texts_append {run : Text} (nonempty : run ≠ []) (solid : run.Solid)
    (before after : Text) (begins : ∀ u ∈ before.getLast?, isBlank u = true)
    (ends : ∀ u ∈ after.head?, isBlank u = true) :
    (before ++ (run ++ after)).words.map Word.text =
      before.words.map Word.text ++ run :: after.words.map Word.text := by
  rw [words, wordsFrom_append begins, wordsFrom_run _ solid nonempty ends, List.map_append,
    List.map_cons, wordsFrom_texts after, ← words]

/-- A word with the mark before it is read as one name. -/
theorem tokens_of_written_mark {w : Text} (nonempty : w ≠ []) (solid : w.Solid) :
    (tokens .marked (tagMark ++ w)).map Token.name = [tagMark ++ w] := by
  have marked : tagMark ++ w ≠ [] := by simp [nonempty]
  have texts := words_texts_append marked (List.forall_mem_append.mpr ⟨tagMark_solid, solid⟩) [] []
    (by simp) (by simp)
  rw [List.append_nil, List.nil_append] at texts
  rw [tokens_names, texts]
  simp [Word.token?_of_written_mark 0 nonempty, words, wordsFrom]

/-- The units next to a run are blank. -/
theorem RunAt.borders {before run after : Text}
    (h : (before ++ (run ++ after)).RunAt before.length run) :
    (∀ u ∈ before.getLast?, isBlank u = true) ∧ ∀ u ∈ after.head?, isBlank u = true := by
  constructor
  · intro u last
    have long : before ≠ [] := List.ne_nil_of_mem (List.mem_of_getLast? last)
    have pos := List.length_pos_iff.mpr long
    refine h.begins (before.length - 1) u (by omega) ?_
    rw [List.getElem?_append_left (by omega), ← List.getLast?_eq_getElem?]
    exact last
  · intro u first
    refine h.ends u ?_
    rw [← List.length_append, ← List.append_assoc, List.getElem?_append_right (Nat.le_refl _),
      Nat.sub_self, ← List.head?_eq_getElem?]
    exact first

/-- A value and a respelled one are cut alike, and each word is read as the same name. -/
theorem Respelled.readAlike {value marked : Text} (h : Respelled value marked) :
    value.isLinkValue = marked.isLinkValue ∧
      (value.tokens .bare).map Token.name = (marked.tokens .bare).map Token.name := by
  obtain ⟨before, w, after, rfl, rfl, run, fresh⟩ := h
  have solid : (tagMark ++ w).Solid := List.forall_mem_append.mpr ⟨tagMark_solid, run.solid⟩
  have nonempty : tagMark ++ w ≠ [] := by simp [run.nonempty]
  obtain ⟨begins, ends⟩ := run.borders
  refine ⟨?_, ?_⟩
  · rw [isLinkValue_append run.nonempty run.solid, isLinkValue_append nonempty solid]
  · have alike : (Word.token? .bare ⟨0, w⟩).map Token.name =
        (Word.token? .bare ⟨0, tagMark ++ w⟩).map Token.name := by
      rw [Word.token?_bare_of_fresh fresh, Word.token?_of_written_mark 0 run.nonempty]
      rfl
    rw [tokens_names, tokens_names, words_texts_append run.nonempty run.solid _ _ begins ends,
      words_texts_append nonempty solid _ _ begins ends]
    simp only [List.filterMap_append, List.filterMap_cons, alike]

end Text

namespace Tag

theorem ofValue?_names (value : Text) (start line : Int) :
    (ofValue? value start line).map (·.map Tag.name) =
      if value.isLinkValue then some ((value.tokens .bare).map Token.name) else none := by
  rw [ofValue?]
  split
  · rw [Option.map_some, List.map_map, ← Token.scan_names .bare start]
    rfl
  · rfl

/-- Where the first word of a value has a tag to read, this is the first tag of both readings. -/
theorem first_of_value {value : Text} {start line : Int} {tags : List Tag} {w : Word}
    (read : ofValue? value start line = some tags) (first : value.words.head? = some w)
    (readable : w.text.HasTag) : tags.head?.map token = (Token.scan .marked start value).head? ∧
      ∃ t, Token.first? value = some t ∧ tags.head?.map name = some t.name ∧
        (value.FitsAt start → tags.head?.map token = some (t.shift start)) := by
  obtain ⟨ws, words⟩ := List.head?_eq_some_iff.mp first
  obtain ⟨t, marked, bare⟩ := Word.token?_of_hasTag readable
  have found : Token.first? value = some (t.shift w.start) := by
    simp [Token.first?, Text.tokens, words, marked]
  have plain : (Token.scan .marked start value).head? =
      some (t.place (Binary.round (start + w.start))) := by
    simp [Token.scan, words, marked]
  have linked : tags.head? = some ((t.place (Binary.round (start + w.start))).toTag 0 line) := by
    unfold ofValue? at read
    split at read
    · obtain rfl := Option.some.inj read
      simp [Token.scan, words, bare]
    · cases read
  have agrees : tags.head?.map token = (Token.scan .marked start value).head? := by
    rw [linked, plain]
    rfl
  refine ⟨agrees, _, found, by rw [linked]; rfl, fun fits => ?_⟩
  rw [agrees, Token.scan_eq_of_fitsAt .marked fits, List.head?_map]
  exact congrArg (Option.map (·.shift start)) found

/-- Respelled, a value links the same declarations one by one. -/
theorem lookups_of_respelled {value marked : Text} (h : value.Respelled marked) (r : Registry)
    (start line start' line' : Int) :
    (ofValue? value start line).map (·.map fun t => r.lookup t.name) =
      (ofValue? marked start' line').map (·.map fun t => r.lookup t.name) := by
  have names : (ofValue? value start line).map (·.map Tag.name) =
      (ofValue? marked start' line').map (·.map Tag.name) := by
    rw [ofValue?_names, ofValue?_names, h.readAlike.1, h.readAlike.2]
  have resolved := congrArg (Option.map (List.map r.lookup)) names
  simpa only [Option.map_map, Function.comp_def, List.map_map] using resolved

end Tag

/-! ### Requests on a linked word -/

namespace Workspace

variable {g : Grammars} {ws : Workspace} {uri : Text}

/-- Whether the cursor is on a word of a linking value in an open document. -/
def OnLinkedWord (g : Grammars) (ws : Workspace) (uri word : Text) (p : Point) : Prop :=
  ∃ text tag attr name quoted value quote i, OpenMarkup g ws uri text ∧
    LinkValue (g.markup text) tag attr name quoted value quote ∧ value.text.isLinkValue = true ∧
    value.text.RunAt i word ∧ p.row = value.start.row ∧ value.start.column + i ≤ p.column ∧
    p.column ≤ value.start.column + i + word.length

/-- On a word that is a name as a whole, the requests answer with the owner of the name. -/
theorem Reachable.answers_on_word (h : Reachable g ws) {word name : Text} {p : Point}
    (cursor : OnLinkedWord g ws uri word p)
    (read : Word.token? .bare ⟨0, word⟩ = some ⟨name, 0, word.length⟩) :
    AnswersWith g ws uri p (ws.tags.lookup name) := by
  obtain ⟨text, tag, attr, attrName, quoted, value, quote, i, doc, link, links, run, row, begun,
    goesOn⟩ := cursor
  obtain ⟨line, column⟩ := p
  simp only at row begun goesOn
  have inside := run.stop_le
  subst row
  obtain ⟨start, starts, fits, answers⟩ := h.answers_on_link doc link
    (show value.start.column ≤ column by omega)
    (show column ≤ value.start.column + value.text.length by omega)
  rw [starts] at begun goesOn
  have member : (⟨name, i + start, word.length + i + start⟩ : Token) ∈
      Token.scan .bare start value.text := by
    rw [Token.scan_eq_of_fitsAt .bare fits]
    refine List.mem_map.mpr ⟨_, List.mem_filterMap.mpr
      ⟨⟨i, word⟩, Text.mem_words_iff.mpr run, congrArg (Option.map (·.shift i)) read⟩, ?_⟩
    simp [Token.shift]
  have linked : Tag.ofValue? value.text start value.start.row = some
      ((Token.scan .bare start value.text).map (·.toTag 0 value.start.row)) := if_pos links
  have touched : Tag.touches ⟨name, i + start, word.length + i + start, 0, value.start.row⟩ column =
      true := by
    simp only [Tag.touches, Tag.token, Token.touches, Bool.and_eq_true]
    exact ⟨decide_eq_true (by omega), decide_eq_true (by omega)⟩
  rw [Tag.atValue?_of_touches fits linked (List.mem_map_of_mem member) touched] at answers
  exact answers

end Workspace

/-- What the bare reading makes of a word without a mark. -/
theorem Token.fresh_of_mem_scanWords {offset : Int} {text : Text} {w : Word} {t : Token}
    (h : (w, t) ∈ scanWords offset text) (fresh : ¬ tagMark <:+: w.text) :
    t.name = tagMark ++ w.text ∧ (text.FitsAt offset →
      t.start = w.start + offset ∧ t.stop = w.start + w.text.length + offset) := by
  obtain ⟨member, placed⟩ := mem_scanWords_iff.mp h
  have inside := (Text.runAt_of_mem_words member).stop_le
  rw [Word.placed?, Word.token?_bare_of_fresh fresh, Option.map_some] at placed
  obtain rfl := Option.some.inj placed
  refine ⟨rfl, fun fits => ?_⟩
  have left := fits w.start (by omega)
  have right := fits (w.start + w.text.length) (by omega)
  push_cast at right
  simp only [place, left, Int.add_zero, Int.add_assoc, right]
  omega

open Workspace in
/-- At every offset the marked reading is the bare one of the words that have a mark. Every other
token of the bare reading is a whole word, under the name that the marked reading gives to the word
with the mark before it. Where the first word of a value has a tag to read, the first tag that the
value links is the first one of the marked reading. A mark before a bare word changes neither
whether a value links nor any declaration that it links, and the requests on the two spellings of a
link answer with the same declaration. -/
theorem readings_agree :
    (∀ (text : Text) (offset : Int),
      Token.scan .bare offset text = (Token.scanWords offset text).map Prod.snd ∧
      Token.scan .marked offset text = ((Token.scanWords offset text).filter
        fun p => p.1.text.hasInfix tagMark).map Prod.snd ∧
      ∀ w t, (w, t) ∈ Token.scanWords offset text → text.RunAt w.start w.text ∧
        (¬ tagMark <:+: w.text → t.name = tagMark ++ w.text ∧
          (text.FitsAt offset →
            t.start = w.start + offset ∧ t.stop = w.start + w.text.length + offset) ∧
          ∀ column, (Token.scan .marked column (tagMark ++ w.text)).map Token.name = [t.name])) ∧
    (∀ (value : Text) (start line : Int) (tags : List Tag) (w : Word),
      Tag.ofValue? value start line = some tags → value.words.head? = some w → w.text.HasTag →
        tags.head?.map Tag.token = (Token.scan .marked start value).head? ∧
        ∃ t, Token.first? value = some t ∧ tags.head?.map Tag.name = some t.name ∧
          (value.FitsAt start → tags.head?.map Tag.token = some (t.shift start))) ∧
    (∀ (value marked : Text) (r : Registry) (start line start' line' : Int),
      value.Respelled marked →
        (Tag.ofValue? value start line).map (·.map fun t => r.lookup t.name) =
          (Tag.ofValue? marked start' line').map (·.map fun t => r.lookup t.name)) ∧
    ∀ (g : Grammars) (ws : Workspace) (uri uri' w : Text) (p p' : Point), Reachable g ws →
      ¬ tagMark <:+: w → OnLinkedWord g ws uri w p → OnLinkedWord g ws uri' (tagMark ++ w) p' →
        AnswersWith g ws uri p (ws.tags.lookup (tagMark ++ w)) ∧
        AnswersWith g ws uri' p' (ws.tags.lookup (tagMark ++ w)) := by
  refine ⟨fun text offset => ⟨Token.scan_bare_eq offset text, Token.scan_marked_eq offset text, ?_⟩,
    fun value start line tags w => Tag.first_of_value, ?_, ?_⟩
  · intro w t member
    have run := Text.runAt_of_mem_words (Token.mem_scanWords_iff.mp member).1
    refine ⟨run, fun fresh => ?_⟩
    obtain ⟨named, columns⟩ := Token.fresh_of_mem_scanWords member fresh
    refine ⟨named, columns, fun column => ?_⟩
    rw [Token.scan_names, named]
    exact Text.tokens_of_written_mark run.nonempty run.solid
  · intro value marked r start line start' line' respelled
    exact Tag.lookups_of_respelled respelled r start line start' line'
  · intro g ws uri uri' w p p' reachable fresh bare marked
    have nonempty : w ≠ [] := by
      obtain ⟨_, _, _, _, _, _, _, _, _, _, _, run, _⟩ := bare
      exact run.nonempty
    exact ⟨reachable.answers_on_word bare (Word.token?_bare_of_fresh fresh),
      reachable.answers_on_word marked (Word.token?_of_written_mark 0 nonempty .bare)⟩

namespace Sample

def spelledText : Text := "<p hx-lsp=\"a hx@a\">"

def spelled : Workspace :=
  Workspace.run linking (.new log) (handover ++ [.edit "untitled:x" spelledText])

end Sample

namespace Workspace

theorem spelled_open :
    OpenMarkup Sample.linking Sample.spelled "untitled:x" Sample.spelledText where
  ready := rfl
  opened := by decide
  markup := by decide
  nested := by decide
  leaves := by decide
  short := by decide

theorem spelled_value : LinkValue (Sample.linking.markup Sample.spelledText)
    ((Sample.tagIn Sample.spelledText).locate Sample.spelledText)
    ((Sample.attrIn Sample.spelledText).locate Sample.spelledText)
    (Sample.nameIn.locate Sample.spelledText)
    ((Sample.quotesIn Sample.spelledText).locate Sample.spelledText)
    ((Sample.valueIn Sample.spelledText).locate Sample.spelledText) 0x22 :=
  ⟨linking_filled _ (by decide) (by decide) (by decide), by decide, by decide, by decide,
    by decide⟩

end Workspace

open Workspace in
/-- Both links of one value lead to the file that the tag was handed over to. -/
theorem readings_of_handover :
    AnswersWith Sample.linking Sample.spelled "untitled:x" ⟨0, 11⟩ (some ⟨"hx@a", 2, 6, 1, 0⟩) ∧
    AnswersWith Sample.linking Sample.spelled "untitled:x" ⟨0, 15⟩ (some ⟨"hx@a", 2, 6, 1, 0⟩) := by
  obtain ⟨_, _, _, requests⟩ := readings_agree
  have owned : Sample.spelled.tags.lookup (tagMark ++ Text.ofString "a") =
    some ⟨"hx@a", 2, 6, 1, 0⟩ := by decide
  rw [← owned]
  refine requests _ _ _ _ _ _ _ ⟨_, _, rfl⟩ (by decide)
    ⟨_, _, _, _, _, _, _, 0, spelled_open, spelled_value, by decide,
      Text.runAt_of_mem_words (w := ⟨0, Text.ofString "a"⟩) (by decide), by decide, by decide,
      by decide⟩
    ⟨_, _, _, _, _, _, _, 2, spelled_open, spelled_value, by decide,
      Text.runAt_of_mem_words (w := ⟨2, tagMark ++ Text.ofString "a"⟩) (by decide), by decide,
      by decide, by decide⟩

end Hypertag
