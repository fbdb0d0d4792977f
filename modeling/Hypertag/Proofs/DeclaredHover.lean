import Hypertag.Proofs.Requests
import Hypertag.Proofs.Words

/-!
# Hovered declarations

In a script or backend file a hover reads the first tag of the row under the cursor, wherever in the
row comments stand. A declaration is the first tag of its comment's part of the row. The two are the
same tag exactly where the declaration comes first in the whole row.
-/

namespace Hypertag

namespace Tag

/-- Whether no mark stands before a tag in its row, and a blank or nothing right behind it. -/
def LeadsRow (t : Tag) (row : Text) : Prop :=
  ¬ tagMark <:+: row.take t.start.toNat ∧
    ∀ u ∈ (row.drop t.stop.toNat).head?, Text.isBlank u = true

/-- A declared tag that leads its row is the row's first. -/
theorem first?_of_leadsRow {text row : Text} {comments : List Span} {t : Tag}
    (h : t ∈ extract text comments) (found : text.row? t.line = some row) (leads : t.LeadsRow row) :
    Token.first? row = some t.token := by
  obtain ⟨solid, marked, long⟩ := name_of_mem_extract h
  obtain ⟨other, i, same, start, stop, cut⟩ := row_of_mem_extract h
  obtain rfl := Option.some.inj (found.symm.trans same)
  obtain ⟨fresh, ends⟩ := leads
  rw [start, Int.toNat_natCast] at fresh
  rw [stop, Int.toNat_natCast, ← List.drop_drop] at ends
  rw [Text.slice, List.drop_take, Nat.add_sub_cancel_left] at cut
  have inside : i ≤ row.length := by
    have length := congrArg List.length cut
    rw [List.length_take, List.length_drop] at length
    omega
  have parts : row = row.take i ++ (t.name ++ (row.drop i).drop t.name.length) := by
    conv_lhs => rw [← List.take_append_drop i row, ← List.take_append_drop t.name.length
      (row.drop i), cut]
  rw [Token.first?_eq, parts, Text.firstFrom?_of_mark 0 marked long solid ends fresh,
    List.length_take_of_le inside]
  simp [token, start, stop]

/-- The first row of a hover text is the name between stars. -/
theorem row_of_hoverText {index : DocumentIndex} {t : Tag} {doc : Text}
    (clean : Text.newline ∉ t.name) (shown : t.hoverText index = .ok doc) :
    doc.rows.head? = some (Text.ofString "**" ++ t.name ++ Text.ofString "**") := by
  have stars : Text.newline ∉ Text.ofString "**" := by decide
  have below : Text.ofString "**\n\nDefined in `" =
    Text.ofString "**" ++ Text.newline :: Text.ofString "\nDefined in `" := by decide
  unfold hoverText at shown
  cases located : t.location index with
  | error e =>
    rw [located] at shown
    cases shown
  | ok place =>
    rw [located] at shown
    have shape : doc = (Text.ofString "**" ++ t.name ++ Text.ofString "**") ++
        Text.newline :: (Text.ofString "\nDefined in `" ++ place ++ Text.ofString "`") := by
      rw [← Except.ok.inj shown, below]
      simp only [List.append_assoc, List.cons_append]
    rw [shape, Text.rows, Text.split_append, Text.split_of_not_mem (by simp [stars, clean])]
    rfl

/-- A hover text tells the name of its tag. -/
theorem name_of_hoverText {index : DocumentIndex} {s t : Tag} {doc : Text}
    (cleanS : Text.newline ∉ s.name) (cleanT : Text.newline ∉ t.name)
    (hs : s.hoverText index = .ok doc) (ht : t.hoverText index = .ok doc) : s.name = t.name := by
  have same := (row_of_hoverText cleanS hs).symm.trans (row_of_hoverText cleanT ht)
  simpa using same

end Tag

namespace Workspace

variable {g : Grammars} {ws : Workspace} {uri text : Text} {entry : FileTree}

theorem tagHover_eq_some_iff {t : Tag} {doc : Text} :
    ws.tagHover t = .ok (some doc) ↔ t.hoverText ws.index = .ok doc := by
  rw [tagHover]
  cases t.hoverText ws.index with
  | error e => constructor <;> intro h <;> cases h
  | ok shown => simp [Except.map, Except.mapError]

/-- In an open file that declares tags a hover shows the owner of the first tag of the row, if the
cursor touches it. -/
theorem Reachable.hover_of_source (h : Reachable g ws) (opened : ws.documents.get? uri = some text)
    (found : ws.treeOf? uri = some entry) (source : entry.domain.declaresTags) (p : Point) :
    ws.hover g uri p = (((text.row? p.row).bind (Token.at? · p.column)).bind fun token =>
      ws.tags.lookup token.name).elim (.ok none) ws.tagHover := by
  obtain ⟨file, _, cached⟩ := treeOf?_eq_some_iff.mp found
  obtain ⟨lang, read⟩ := h.read cached
  have unplaced : ws.position? g uri p .hover = none := by
    cases ready : ws.ready with
    | true =>
      rw [read] at found
      rw [position?_of_tree ready found, if_pos source]
    | false => simp [position?, ready]
  rw [Workspace.hover, declaredTag?, found, Option.bind_some, if_pos source, row?, opened,
    Option.bind_some, unplaced]
  split
  · next owner sought => rw [sought, Option.elim_some]
  · next none => rw [none, Option.elim_none]

/-- The name of an owner has no newline in it. -/
theorem Reachable.newline_not_mem (h : Reachable g ws) {name : Text} {owner : Tag}
    (owned : ws.tags.lookup name = some owner) : owner.name = name ∧ Text.newline ∉ owner.name := by
  obtain ⟨_, entry, _, _, _, named, _, t, declared, assigned⟩ := h.owner_tracked owned
  refine ⟨named, ?_⟩
  rw [← assigned, Tag.assign_name]
  obtain ⟨comments, extracted⟩ := CachedTree.extract_of_declared declared
  obtain ⟨c, _, commented⟩ := List.mem_flatMap.mp extracted
  exact Tag.newline_not_mem_of_ofRows (fun _ => Text.not_mem_of_mem_split) commented

/-- A hover in an open file that declares tags shows the hover text of an owner exactly where the
cursor touches the first tag of the row, and that one has the owner's name. -/
theorem Reachable.hover_eq_iff (h : Reachable g ws) (opened : ws.documents.get? uri = some text)
    (found : ws.treeOf? uri = some entry) (source : entry.domain.declaresTags) {name doc : Text}
    {owner : Tag} (owned : ws.tags.lookup name = some owner)
    (shown : owner.hoverText ws.index = .ok doc) (p : Point) :
    ws.hover g uri p = .ok (some doc) ↔ ∃ row token, text.row? p.row = some row ∧
      Token.first? row = some token ∧ token.touches p.column = true ∧ token.name = name := by
  rw [h.hover_of_source opened found source]
  constructor
  · intro answer
    cases sought : ((text.row? p.row).bind (Token.at? · p.column)).bind fun token =>
        ws.tags.lookup token.name with
    | none =>
      rw [sought] at answer
      cases answer
    | some other =>
      obtain ⟨token, touched, ownedToo⟩ := Option.bind_eq_some_iff.mp sought
      obtain ⟨row, isRow, first⟩ := Option.bind_eq_some_iff.mp touched
      obtain ⟨first, touches⟩ := Option.filter_eq_some_iff.mp first
      refine ⟨row, token, isRow, first, touches, ?_⟩
      rw [sought] at answer
      obtain ⟨named, clean⟩ := h.newline_not_mem owned
      obtain ⟨namedToo, cleanToo⟩ := h.newline_not_mem ownedToo
      rw [← namedToo, ← named]
      exact Tag.name_of_hoverText cleanToo clean (tagHover_eq_some_iff.mp answer) shown
  · rintro ⟨row, token, isRow, first, touches, rfl⟩
    have touched : Token.at? row p.column = some token :=
      Option.filter_eq_some_iff.mpr ⟨first, touches⟩
    rw [isRow, Option.bind_some, touched, Option.bind_some, owned, Option.elim_some]
    exact tagHover_eq_some_iff.mpr shown

/-- Where no query has met a tree of another language, the owner of a tag that an open script or
backend file declares can be shown, and it is shown at every column of the declaration exactly if
the declaration is the first tag of its row. It is, wherever no mark stands before it in the row and
a blank or nothing behind it. -/
theorem declaration_hovered_iff_first (h : Unmixed g ws)
    (opened : ws.documents.get? uri = some text) (found : ws.treeOf? uri = some entry)
    {tags : List Tag} (read : ws.tagsIn? entry = some tags) {t : Tag} (declared : t ∈ tags) :
    ∃ owner doc row, ws.tags.lookup t.name = some owner ∧ owner.hoverText ws.index = .ok doc ∧
      text.row? t.line = some row ∧
      ((∀ c, t.start ≤ c → c ≤ t.stop → ws.hover g uri ⟨t.line, c⟩ = .ok (some doc)) ↔
        Token.first? row = some t.token) ∧
      (t.LeadsRow row → Token.first? row = some t.token) := by
  obtain ⟨owner, owned⟩ := h.owner_of_declares ⟨entry, tags, found, read, t, declared, rfl⟩
  obtain ⟨source, lang, _, rfl⟩ := tagsIn?_eq_some read
  obtain ⟨place, located⟩ := h.reachable.location owner
  obtain ⟨doc, shown⟩ : ∃ doc, owner.hoverText ws.index = .ok doc := by
    rw [Tag.hoverText, located]
    exact ⟨_, rfl⟩
  obtain rfl := h.reachable.current uri text entry opened found
  obtain ⟨comments, extracted⟩ := CachedTree.extract_of_declared declared
  obtain ⟨row, i, isRow, start, stop, _⟩ := Tag.row_of_mem_extract extracted
  have shownAt (c : Int) := h.reachable.hover_eq_iff opened found source owned shown ⟨t.line, c⟩
  refine ⟨owner, doc, row, owned, shown, isRow, ⟨?_, ?_⟩, Tag.first?_of_leadsRow extracted isRow⟩
  · intro everywhere
    obtain ⟨_, token, sameRow, first, left, named⟩ :=
      (shownAt t.start).mp (everywhere t.start (by omega) (by omega))
    obtain rfl := Option.some.inj (isRow.symm.trans sameRow)
    obtain ⟨_, other, otherRow, otherFirst, right, _⟩ :=
      (shownAt t.stop).mp (everywhere t.stop (by omega) (by omega))
    obtain rfl := Option.some.inj (isRow.symm.trans otherRow)
    obtain rfl := Option.some.inj (first.symm.trans otherFirst)
    obtain ⟨_, _, long, _, _⟩ := Text.mem_tokens_marked (List.mem_of_head? first)
    simp only [Token.touches, Bool.and_eq_true, decide_eq_true_eq] at left right
    have starts : token.start = t.start := by
      rw [named] at long
      omega
    have stops : token.stop = t.stop := by
      rw [named] at long
      omega
    rw [first, Tag.token, ← named, ← starts, ← stops]
  · intro first c begun goesOn
    exact (shownAt c).mpr ⟨row, t.token, isRow, first, by simp [Token.touches, Tag.token, begun,
      goesOn], rfl⟩

end Workspace

namespace Sample

def doubled : Text := "/* hx@a */ /* hx@b */"

def pairs : Grammars where
  outline text := .mk .document 0 text.length []
  comments _ _ := .ofSpans [⟨0, 10⟩, ⟨11, 21⟩]
  foreign _ _ _ := []

def pairing : List Operation :=
  [.load, .scan { entries := [.directory "ws" [.directory "web" [.file "a.js" doubled]]] }
    { lang := .python, templateExt := "html", templates := [], jsTags := ["web"],
      backendTags := [] } "/ws",
    .edit "file:///ws/web/a.js" doubled]

def paired : Workspace := Workspace.run pairs (.new log) pairing

end Sample

namespace Workspace

theorem paired_tracked : Sample.paired.treeOf? "file:///ws/web/a.js" =
    some (readAs Sample.pairs .python .javascript Sample.doubled) := rfl

theorem paired_read : Sample.paired.tagsIn?
    (readAs Sample.pairs .python .javascript Sample.doubled) =
      some [⟨"hx@a", 3, 7, 0, 0⟩, ⟨"hx@b", 14, 18, 0, 0⟩] := by decide

end Workspace

open Workspace in
/-- The first of the two declarations is shown from its start to its end. -/
theorem hovered_first_declaration :
    Sample.paired.hover Sample.pairs "file:///ws/web/a.js" ⟨0, 3⟩ =
      .ok (some (Text.ofString "**hx@a**\n\nDefined in `/ws/web/a.js:1`")) ∧
    Sample.paired.hover Sample.pairs "file:///ws/web/a.js" ⟨0, 7⟩ =
      .ok (some (Text.ofString "**hx@a**\n\nDefined in `/ws/web/a.js:1`")) := by
  have unmixed : Unmixed Sample.pairs Sample.paired :=
    ⟨Sample.log, Sample.pairing, ⟨trivial, trivial, trivial, trivial⟩, rfl⟩
  have opened : Sample.paired.documents.get? "file:///ws/web/a.js" = some Sample.doubled := by
    decide
  obtain ⟨owner, doc, row, owned, shown, isRow, hovered, _⟩ := declaration_hovered_iff_first
    unmixed opened paired_tracked paired_read (t := ⟨"hx@a", 3, 7, 0, 0⟩) (by decide)
  have owner_eq : Sample.paired.tags.lookup "hx@a" = some ⟨"hx@a", 3, 7, 0, 0⟩ := by decide
  have doc_eq : (⟨"hx@a", 3, 7, 0, 0⟩ : Tag).hoverText Sample.paired.index =
    .ok (Text.ofString "**hx@a**\n\nDefined in `/ws/web/a.js:1`") := by decide
  have row_eq : Text.row? Sample.doubled 0 = some Sample.doubled := by decide
  cases owner_eq.symm.trans owned
  cases doc_eq.symm.trans shown
  cases row_eq.symm.trans isRow
  have everywhere := hovered.mpr (by decide)
  exact ⟨everywhere 3 (by decide) (by decide), everywhere 7 (by decide) (by decide)⟩

open Workspace in
/-- The second declaration is owned like the first, and is not shown. -/
theorem second_declaration_not_hovered :
    (Sample.paired.documents.get? "file:///ws/web/a.js" = some Sample.doubled ∧
    ∃ entry tags, Sample.paired.treeOf? "file:///ws/web/a.js" = some entry ∧
      Sample.paired.tagsIn? entry = some tags ∧ ⟨"hx@b", 14, 18, 0, 0⟩ ∈ tags) ∧
    Sample.paired.tags.lookup "hx@b" = some ⟨"hx@b", 14, 18, 0, 0⟩ ∧
    Sample.paired.hover Sample.pairs "file:///ws/web/a.js" ⟨0, 14⟩ = .ok none :=
  ⟨⟨by decide, _, _, paired_tracked, paired_read, by decide⟩, by decide, by decide⟩

end Hypertag
