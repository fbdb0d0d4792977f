import Hypertag.Proofs.Requests
import Hypertag.Proofs.Tokens
import Hypertag.Proofs.ValueHover

/-!
# The linked tag under the cursor

The column where a linking value starts is found again by a search for the value in its row. The
quote before the value keeps the search from an earlier occurrence: one that touched the cursor would
have the quote in it. The tags of a value do not touch each other, so the cursor touches at most one,
and the requests answer with the owner of that one.
-/

namespace Hypertag

/-! ### The start of a value -/

namespace Text

theorem mem_occurrences_iff {needle text : Text} (nonempty : needle ≠ []) {i m : Nat} :
    m ∈ occurrences needle i text ↔ ∃ k, m = i + k ∧ needle <+: text.drop k := by
  induction text generalizing i with
  | nil => simp [occurrences, nonempty]
  | cons u rest ih =>
    have later : m ∈ occurrences needle (i + 1) rest ↔
        ∃ k, m = i + (k + 1) ∧ needle <+: (u :: rest).drop (k + 1) := by
      simp only [ih, List.drop_succ_cons, Nat.add_assoc, Nat.add_comm 1]
    rw [← Nat.or_exists_add_one, ← later, occurrences]
    simp only [List.drop_zero, Nat.add_zero, ← List.isPrefixOf_iff_prefix]
    split
    · next here => simp [here]
    · next elsewhere => simp [elsewhere]

theorem occurrences_sorted (needle : Text) (i : Nat) (text : Text) :
    (occurrences needle i text).Pairwise (· < ·) ∧ ∀ m ∈ occurrences needle i text, i ≤ m := by
  induction text generalizing i with
  | nil => simp [occurrences]
  | cons u rest ih =>
    obtain ⟨sorted, bounded⟩ := ih (i + 1)
    rw [occurrences]
    split
    · refine ⟨List.pairwise_cons.mpr ⟨bounded, sorted⟩, List.forall_mem_cons.mpr ⟨le_rfl, ?_⟩⟩
      exact fun m member => Nat.le_of_succ_le (bounded m member)
    · exact ⟨sorted, fun m member => Nat.le_of_succ_le (bounded m member)⟩

end Text

/-- A text that covers an index of another one has the unit in it that stands there. -/
theorem Text.mem_of_prefix_drop {row value : Text} {j k : Nat} {u : UInt16}
    (written : value <+: row.drop j) (stands : row[k]? = some u) (begun : j ≤ k)
    (goesOn : k < j + value.length) : u ∈ value := by
  have same := getElem?_of_written written (show k - j < value.length by omega)
  rw [Nat.add_sub_cancel' begun, stands] at same
  exact List.mem_of_getElem? same.symm

/-- A value right behind a quote that is not in it is found where it starts, whatever occurrences of
it there are besides. -/
theorem valueStart?_of_quote {row value : Text} {quote : UInt16} {k : Nat} {column : Int}
    (nonempty : value ≠ []) (fresh : quote ∉ value) (written : quote :: value <+: row.drop k)
    (begun : k + 1 ≤ column) (goesOn : column ≤ k + 1 + value.length) :
    valueStart? row value column = some (k + 1) := by
  have behind : value <+: row.drop (k + 1) := by
    simpa using List.IsPrefix.drop written 1
  have stands : row[k]? = some quote := by
    obtain ⟨rest, whole⟩ := written
    have first : (row.drop k)[0]? = some quote := by rw [← whole]; rfl
    simpa using first
  have listed : k + 1 ∈ Text.occurrences value 0 row :=
    (Text.mem_occurrences_iff nonempty).mpr ⟨k + 1, (Nat.zero_add _).symm, behind⟩
  obtain ⟨earlier, later, split⟩ := List.append_of_mem listed
  rw [valueStart?, List.find?_eq_some_iff_append]
  refine ⟨by simp only [Bool.and_eq_true, decide_eq_true_eq]; omega, earlier, later, split, ?_⟩
  intro j member
  -- an earlier occurrence that reached the column would have the quote in it
  have sorted := (Text.occurrences_sorted value 0 row).1
  rw [split, List.pairwise_append] at sorted
  have before := sorted.2.2 j member (k + 1) List.mem_cons_self
  obtain ⟨m, rfl, occurs⟩ := (Text.mem_occurrences_iff nonempty).mp
    (split ▸ List.mem_append_left _ member : j ∈ Text.occurrences value 0 row)
  have misses : ¬ k < m + value.length := fun reaches =>
    fresh (Text.mem_of_prefix_drop occurs stands (by omega) reaches)
  simp only [Bool.not_eq_true', Bool.and_eq_false_iff, decide_eq_false_iff_not]
  omega

/-! ### The tags of a value -/

/-- The tags of a value do not touch each other. -/
theorem Token.scan_separated (reading : Reading) {offset : Int} {value : Text}
    (fits : value.FitsAt offset) :
    (scan reading offset value).Pairwise fun t u => t.stop < u.start := by
  rw [scan_eq_of_fitsAt reading fits, List.pairwise_map]
  refine (Text.tokens_apart reading value).imp ?_
  rintro t u ⟨k, stop, before, _⟩
  simp only [shift]
  omega

/-- A column touches at most one tag of a value. -/
theorem Token.eq_of_touches {reading : Reading} {offset : Int} {value : Text} {column : Int}
    (fits : value.FitsAt offset) {t u : Token}
    (ht : t ∈ scan reading offset value) (hu : u ∈ scan reading offset value)
    (touchesT : t.touches column = true) (touchesU : u.touches column = true) : t = u := by
  obtain ⟨before, after, split⟩ := List.append_of_mem ht
  have apart := scan_separated reading fits
  rw [split, List.pairwise_append, List.pairwise_cons] at apart
  rw [split] at hu
  simp only [touches, Bool.and_eq_true, decide_eq_true_eq] at touchesT touchesU
  rcases List.mem_append.mp hu with earlier | later
  · have := apart.2.2 u earlier t List.mem_cons_self
    omega
  · rcases List.mem_cons.mp later with rfl | further
    · rfl
    · have := apart.2.1.1 u further
      omega

namespace Tag

variable {value : Text} {start line column : Int} {tags : List Tag}

theorem eq_of_touches (fits : value.FitsAt start)
    (read : ofValue? value start line = some tags) {t u : Tag} (ht : t ∈ tags) (hu : u ∈ tags)
    (touchesT : t.touches column = true) (touchesU : u.touches column = true) : t = u := by
  unfold ofValue? at read
  split at read
  · obtain rfl := Option.some.inj read
    obtain ⟨a, inA, rfl⟩ := List.mem_map.mp ht
    obtain ⟨b, inB, rfl⟩ := List.mem_map.mp hu
    rw [Token.eq_of_touches fits inA inB touchesT touchesU]
  · cases read

/-- The tag of a value that a column touches is the one that is found. -/
theorem atValue?_of_touches (fits : value.FitsAt start)
    (read : ofValue? value start line = some tags) {t : Tag} (member : t ∈ tags)
    (touched : t.touches column = true) : atValue? value start line column = some t := by
  rw [atValue?, read, Option.bind_some]
  cases found : tags.find? (·.touches column) with
  | none => exact absurd touched (List.find?_eq_none.mp found t member)
  | some u =>
    have touchedToo : u.touches column = true := by simpa using List.find?_some found
    rw [eq_of_touches fits read member (List.mem_of_find?_eq_some found) touched touchedToo]

end Tag

/-! ### Answers -/

namespace Workspace

variable {g : Grammars} {ws : Workspace} {uri text : Text}

/-- Whether both requests at a point answer with an entry of the registry, or find no tag. -/
structure AnswersWith (g : Grammars) (ws : Workspace) (uri : Text) (p : Point)
    (tag? : Option Tag) : Prop where
  definition : (ws.gotoDefinition g uri p).2 = tag?.bind fun tag =>
    (ws.index.shownUri? tag.file).map fun target => ⟨target, tag.range⟩
  hover : ws.hover g uri p = tag?.elim (.ok none) ws.tagHover

/-- An open document of a size that editors have, read as markup in a tree as grammars make them. -/
structure OpenMarkup (g : Grammars) (ws : Workspace) (uri text : Text) : Prop where
  ready : ws.ready = true
  opened : ws.documents.get? uri = some text
  markup : (ws.treeOf? uri).any (·.domain.declaresTags) = false
  nested : (g.outline text).isNested = true
  leaves : (g.markup text).NamesAreLeaves
  short : text.length ≤ RowRange.maxCoordinate

/-- In a link the requests answer with the linked tag. -/
theorem answersWith_of_link {p : Point} {value : Text}
    (markup : (ws.treeOf? uri).any (·.domain.declaresTags) = false)
    (placed : ws.position? g uri p .hover = some (.value linkAttribute value)) :
    AnswersWith g ws uri p (ws.linkedTag? uri p linkAttribute value) := by
  constructor
  · have asked : ws.definition? g uri p =
        (ws.linkedTag? uri p linkAttribute value).bind fun tag =>
          (ws.index.shownUri? tag.file).map fun target => (tag, target) := by
      rw [definition?, placed]
      simp only [tagAt?, Option.bind_eq_bind, Option.bind_some, Option.pure_def,
        Option.map_eq_bind, Function.comp_def]
    rw [gotoDefinition, asked]
    cases ws.linkedTag? uri p linkAttribute value with
    | none => rfl
    | some tag =>
      simp only [Option.bind_some]
      cases ws.index.shownUri? tag.file with
      | none => rfl
      | some target => rfl
  · have undeclared : ws.declaredTag? uri p = none := by
      rw [declaredTag?, Option.bind_eq_none_iff]
      intro entry found
      rw [found] at markup
      exact if_neg (by simpa using markup)
    simp only [Workspace.hover, undeclared, placed, if_true]
    cases ws.linkedTag? uri p linkAttribute value with
    | none => rfl
    | some tag => rfl

/-- A link whose value stands in one row, between two quotes that are not in it. -/
structure LinkValue (root tag attr name quoted value : Markup.Node) (quote : UInt16) : Prop
    extends Markup.FilledValue root tag attr name quoted value where
  link : name.text = linkAttribute
  enclosed : quoted.text = quote :: value.text ++ [quote]
  fresh : quote ∉ value.text
  oneRow : Text.newline ∉ quoted.text

/-- The row of a link has the quote and the value in it, where the value starts. -/
theorem LinkValue.row {outline : Markup.Outline} {tag attr name quoted value : Markup.Node}
    {quote : UInt16} (nested : outline.isNested = true)
    (h : LinkValue (outline.locate text) tag attr name quoted value quote) :
    ∃ (n k : Nat) (row : Text), text.rows[n]? = some row ∧
      quote :: value.text <+: row.drop k ∧ value.start = ⟨n, k + 1⟩ ∧
      value.stop = ⟨n, k + 1 + value.text.length⟩ := by
  obtain ⟨q, q', quotedSpan⟩ :=
    Markup.spans_of_mem_locate text outline nested (h.quoted_mem h.placed.inTree)
  obtain ⟨v, v', valueSpan⟩ := Markup.spans_of_mem_locate text outline nested h.value_mem
  have quotedBounds := And.intro quotedSpan.ordered quotedSpan.inside
  have valueBounds := And.intro valueSpan.ordered valueSpan.inside
  obtain ⟨opening, closing⟩ := h.between
  rw [quotedSpan.start, valueSpan.start, Text.pointAt_lt_iff (by omega)] at opening
  rw [valueSpan.stop, quotedSpan.stop, Text.pointAt_lt_iff (by omega)] at closing
  have lengths := congrArg List.length h.enclosed
  rw [quotedSpan.length, List.length_append, List.length_cons, valueSpan.length,
    List.length_singleton] at lengths
  obtain rfl : v = q + 1 := by omega
  have clean : Text.newline ∉ quote :: value.text := by
    have oneRow := h.oneRow
    rw [h.enclosed] at oneRow
    exact fun inside => oneRow (List.mem_append_left _ inside)
  have begins : quote :: value.text <+: text.drop q := by
    have cut : quoted.text <+: text.drop q := by
      rw [quotedSpan.content, Text.slice]
      exact List.IsPrefix.drop (List.take_prefix q' text) q
    rw [h.enclosed] at cut
    exact (List.prefix_append _ _).trans cut
  obtain ⟨n, k, row, found, inRow, point⟩ :=
    Text.row_of_advance ⟨0, 0⟩ clean (List.cons_ne_nil _ _) begins
  have onward {m : Nat} (inside : m ≤ value.text.length + 1) :
      text.pointAt (q + m) = ⟨n, k + m⟩ := by
    obtain ⟨rest, whole⟩ := begins
    rw [Text.pointAt, Point.advance_add, point, ← whole, Point.advance_append _ rest inside,
      Point.advance_row _ clean inside]
    simp
  refine ⟨n, k, row, found, inRow, ?_, ?_⟩
  · rw [valueSpan.start, onward (by omega)]
    rfl
  · rw [valueSpan.stop, show v' = q + (value.text.length + 1) by rw [valueSpan.length]; omega,
      onward (Nat.le_refl _)]
    simp only [Point.mk.injEq, true_and]
    omega

/-- The linked tag is looked up by the token that the cursor touches, once the row and the start of
the value are known. -/
theorem linkedTag?_eq {p : Point} {row value : Text} {start : Nat} (nonempty : value ≠ [])
    (found : ws.row? uri p.row = some row) (starts : valueStart? row value p.column = some start) :
    ws.linkedTag? uri p linkAttribute value =
      (Tag.atValue? value start p.row p.column).bind fun t => ws.tags.lookup t.name := by
  have filled : linkAttribute = linkAttribute ∧ (!value.isEmpty) = true := by simp [nonempty]
  rw [linkedTag?, if_pos filled, found]
  simp only [Option.bind_eq_bind, Option.bind_some, starts]

/-- At a cursor on a link, up to the closing quote, a hover reads the value. -/
theorem Reachable.position?_on_link (h : Reachable g ws) (doc : OpenMarkup g ws uri text)
    {tag attr name quoted value : Markup.Node} {quote : UInt16}
    (link : LinkValue (g.markup text) tag attr name quoted value quote) {p : Point}
    (begun : value.start ≤ p) (goesOn : p ≤ value.stop) (fits : Markup.searchPoint p = p) :
    ws.position? g uri p .hover = some (.value linkAttribute value.text) := by
  have wellNested := Markup.wellNested_locate text (g.outline text) doc.nested
  obtain ⟨longer, notEmpty⟩ := link.texts wellNested fun n =>
    Markup.spans_of_mem_locate text (g.outline text) doc.nested
  obtain ⟨forward, toValue, _⟩ := link.parts_ordered wellNested
  have past : name.stop ≤ p := Point.le_trans (Point.le_of_lt toValue) begun
  have attrIn := link.attr_mem link.placed.inTree
  have before : p < attr.stop :=
    Point.lt_of_le_of_lt goesOn (Point.lt_of_lt_of_le link.between.2
      ((wellNested attr attrIn).inside quoted (by simp [link.parts])).2)
  have further : p ≠ name.start := fun met =>
    absurd (met ▸ Point.lt_of_lt_of_le toValue begun) (Point.not_lt.mpr forward)
  have read := link.hover_position wellNested doc.leaves (fun _ _ _ _ => further) longer notEmpty
    (Point.le_trans forward past) before fits
  rw [if_neg (Point.not_lt.mpr past), if_pos begun, link.link] at read
  rw [h.position?_of_open doc.ready doc.opened, doc.markup, if_neg Bool.false_ne_true]
  exact read

/-- At a cursor on a link the requests answer with the owner of the tag that the cursor touches,
when the tags of the value are read where it starts. -/
theorem Reachable.answers_on_link (h : Reachable g ws) (doc : OpenMarkup g ws uri text)
    {tag attr name quoted value : Markup.Node} {quote : UInt16}
    (link : LinkValue (g.markup text) tag attr name quoted value quote) {c : Int}
    (begun : value.start.column ≤ c) (goesOn : c ≤ value.start.column + value.text.length) :
    ∃ start : Nat, value.start.column = start ∧ value.text.FitsAt start ∧
      AnswersWith g ws uri ⟨value.start.row, c⟩
        ((Tag.atValue? value.text start value.start.row c).bind fun t =>
          ws.tags.lookup t.name) := by
  obtain ⟨n, k, row, found, inRow, starts, stops⟩ := link.row doc.nested
  have length := inRow.length_le
  have inText := Text.length_of_split found
  have short := doc.short
  rw [List.length_cons, List.length_drop] at length
  simp only [RowRange.maxCoordinate] at short
  rw [starts] at begun goesOn ⊢
  simp only at begun goesOn ⊢
  refine ⟨k + 1, rfl, Text.fitsAt_of_le (by omega) (by simp only [Binary.exactLimit]; omega), ?_⟩
  have placed := h.position?_on_link doc link (p := ⟨n, c⟩) (starts ▸ Or.inr ⟨rfl, begun⟩)
    (stops ▸ Or.inr ⟨rfl, goesOn⟩)
    (Markup.searchPoint_eq_self (by simp only; omega) (by simp only; omega))
  have isRow : ws.row? uri n = some row := by
    rw [row?, doc.opened, Option.bind_some]
    exact found
  have answers := answersWith_of_link doc.markup placed
  rw [linkedTag?_eq link.filled isRow
    (valueStart?_of_quote link.filled link.fresh inRow begun goesOn)] at answers
  exact answers

end Workspace

namespace Sample

/-! The parts of the tag that the linking grammars take a text for. -/

def nameIn : Markup.Outline := .mk .attrName 3 9 []

def valueIn (text : Text) : Markup.Outline := .mk .attrValue 11 (text.length - 2) []

def quotesIn (text : Text) : Markup.Outline :=
  .mk .quotedValue 10 (text.length - 1) [valueIn text]

def attrIn (text : Text) : Markup.Outline :=
  .mk .attr 3 (text.length - 1) [nameIn, quotesIn text]

def tagIn (text : Text) : Markup.Outline :=
  .mk (.other "start_tag") 0 text.length [.mk .tagName 1 2 [], attrIn text]

end Sample

namespace Workspace

/-- The linking grammars see a filled value in each text that they take apart. -/
theorem linking_filled (text : Text) (marked : (Sample.nameIn.locate text).isMarkedName = true)
    (filled : ((Sample.valueIn text).locate text).text ≠ [])
    (between : ((Sample.quotesIn text).locate text).start <
        ((Sample.valueIn text).locate text).start ∧
      ((Sample.valueIn text).locate text).stop < ((Sample.quotesIn text).locate text).stop) :
    Markup.FilledValue (Sample.linking.markup text) ((Sample.tagIn text).locate text)
      ((Sample.attrIn text).locate text) (Sample.nameIn.locate text)
      ((Sample.quotesIn text).locate text) ((Sample.valueIn text).locate text) := by
  have element : (Markup.Outline.mk .element 0 text.length [Sample.tagIn text]).locate text ∈
      (Sample.linking.markup text).nodes :=
    Markup.Node.child_mem_nodes (Markup.Node.self_mem_nodes _) List.mem_cons_self
  have tag : (Sample.tagIn text).locate text ∈ (Sample.linking.markup text).nodes :=
    Markup.Node.child_mem_nodes element List.mem_cons_self
  refine ⟨⟨⟨_, Markup.Node.self_mem_nodes _, rfl, tag⟩, ⟨tag, nofun, [_], _, rfl, rfl⟩,
    rfl, rfl, marked, rfl, ?_, Or.inr ⟨_, List.mem_cons_self⟩⟩, rfl, filled, between⟩
  intro v member
  obtain rfl := List.mem_singleton.mp member
  exact ⟨rfl, rfl⟩

end Workspace

end Hypertag
