import Hypertag.Proofs.Enrollment
import Hypertag.Proofs.Extraction
import Hypertag.Proofs.OpenText

/-!
# Where definitions lie

A request for a definition looks a name up in the registry, and the owner's file up in the index.
The owner is written in the text that its file was read from, and its file has a uri, through every
change of owners and numbers. What the cursor is over is left to the position.
-/

namespace Hypertag

def RowRange.Spells (r : RowRange) (text name : Text) : Prop :=
  ∃ (row : Text) (start stop : Nat), text.row? r.line = some row ∧ r.start = start ∧
    r.stop = stop ∧ row.slice start stop = name

/-- A declared tag stands in a comment of the text that its file was read from. -/
theorem CachedTree.extract_of_declared {entry : FileTree} {query : BackendLang} {t : Tag}
    (h : t ∈ entry.declared query) : ∃ comments, t ∈ Tag.extract entry.text comments := by
  unfold declared at h
  split at h
  · cases h
  · exact ⟨_, h⟩

theorem CachedTree.spells_of_declared {entry : FileTree} {query : BackendLang} {t : Tag}
    (h : t ∈ entry.declared query) : t.range.Spells entry.text t.name := by
  obtain ⟨comments, extracted⟩ := extract_of_declared h
  obtain ⟨row, i, found, start, stop, cut⟩ := Tag.row_of_mem_extract extracted
  exact ⟨row, i, i + t.name.length, found, start, stop, cut⟩

namespace Workspace

/-- Whether the document with a uri is tracked and declares a tag of this name, by the query in
force. -/
def Declares (ws : Workspace) (uri name : Text) : Prop :=
  ∃ entry tags, ws.treeOf? uri = some entry ∧ ws.tagsIn? entry = some tags ∧
    ∃ t ∈ tags, t.name = name

/-- The name that a position asks for: its own or, in a link, the one that the column touches. -/
def soughtAt? (ws : Workspace) (uri : Text) (p : Point) : Markup.Position → Option Text
  | .name name => some name
  | .value name value =>
    if name = linkAttribute ∧ !value.isEmpty then
      (ws.row? uri p.row).bind fun row =>
        (valueStart? row value p.column).bind fun start =>
          (Tag.atValue? value start p.row p.column).map Tag.name
    else none

def sought? (g : Grammars) (ws : Workspace) (uri : Text) (p : Point) : Option Text :=
  (ws.position? g uri p .hover).bind (ws.soughtAt? uri p)

theorem tagAt?_eq (ws : Workspace) (uri : Text) (p : Point) (position : Markup.Position) :
    ws.tagAt? uri p position = (ws.soughtAt? uri p position).bind ws.tags.lookup := by
  cases position with
  | name name => rfl
  | value name value =>
    rw [tagAt?, linkedTag?, soughtAt?]
    split
    · simp only [Option.bind_eq_bind, Option.bind_assoc, Option.bind_map]
      rfl
    · rfl

theorem definition?_eq_some_iff {g : Grammars} {ws : Workspace} {uri : Text} {p : Point}
    {owner : Tag} {target : Text} : ws.definition? g uri p = some (owner, target) ↔
      ∃ name, ws.sought? g uri p = some name ∧ ws.tags.lookup name = some owner ∧
        ws.index.shownUri? owner.file = some target := by
  simp only [definition?, sought?, tagAt?_eq, Option.bind_eq_bind, Option.bind_eq_some_iff,
    Option.pure_def, Option.some.injEq, Prod.mk.injEq]
  constructor
  · rintro ⟨position, placed, tag, ⟨name, sought, owned⟩, uri, shown, rfl, rfl⟩
    exact ⟨name, ⟨position, placed, sought⟩, owned, shown⟩
  · rintro ⟨name, ⟨position, placed, sought⟩, owned, shown⟩
    exact ⟨position, placed, owner, ⟨name, sought, owned⟩, target, shown, rfl, rfl⟩

/-- The answer is the place of the owner of the name that is asked for. -/
theorem gotoDefinition_eq_some_iff {g : Grammars} {ws : Workspace} {uri : Text} {p : Point}
    {target : Location} : (ws.gotoDefinition g uri p).2 = some target ↔
      ∃ name owner, ws.sought? g uri p = some name ∧ ws.tags.lookup name = some owner ∧
        ws.index.shownUri? owner.file = some target.uri ∧ owner.range = target.range := by
  obtain ⟨place, range⟩ := target
  unfold gotoDefinition
  cases found : ws.definition? g uri p with
  | none =>
    constructor
    · intro h
      cases h
    · rintro ⟨name, owner, sought, owned, shown, _⟩
      cases found.symm.trans (definition?_eq_some_iff.mpr ⟨name, sought, owned, shown⟩)
  | some pair =>
    obtain ⟨tag, shownAt⟩ := pair
    constructor
    · intro h
      cases h
      obtain ⟨name, sought, owned, shown⟩ := definition?_eq_some_iff.mp found
      exact ⟨name, tag, sought, owned, shown, rfl⟩
    · rintro ⟨name, owner, sought, owned, shown, rfl⟩
      cases found.symm.trans (definition?_eq_some_iff.mpr ⟨name, sought, owned, shown⟩)
      rfl

/-- The file of a number is shown by its uri, which is never empty. -/
theorem Reachable.shownUri? {g : Grammars} {ws : Workspace} (h : Reachable g ws) {uri : Text}
    {file : FileId} (known : ws.index.idOf? uri = some file) :
    ws.index.shownUri? file = some uri := by
  have found := ws.index.uriOf?_eq_some_iff.mpr (ws.index.idOf?_eq_some_iff.mp known)
  have named := h.uri_ne_nil known
  simp [DocumentIndex.shownUri?, found, named]

/-- An owner stands, under its name and at its place, in a tracked document. -/
theorem Reachable.owner_declared {g : Grammars} {ws : Workspace} (h : Reachable g ws) {name : Text}
    {owner : Tag} (owned : ws.tags.lookup name = some owner) :
    ∃ uri entry, ws.index.idOf? uri = some owner.file ∧ ws.treeOf? uri = some entry ∧
      entry.domain.declaresTags ∧ ∃ query, ∃ t ∈ entry.declared query,
        t.name = name ∧ t.range = owner.range := by
  obtain ⟨uri, entry, known, cached, source, named, query, t, ht, assigned⟩ := h.owner_tracked owned
  refine ⟨uri, entry, known, (treeOf?_of_known known).trans cached, source, query, t, ht, ?_, ?_⟩
  · rw [← named, ← assigned, Tag.assign_name]
  · rw [← assigned]
    rfl

/-- Where no query has met a tree of another language, an owner stands there by the query in
force. -/
theorem Unmixed.owner_declared {g : Grammars} {ws : Workspace} (h : Unmixed g ws) {name : Text}
    {owner : Tag} (owned : ws.tags.lookup name = some owner) :
    ∃ uri entry tags, ws.index.idOf? uri = some owner.file ∧ ws.treeOf? uri = some entry ∧
      ws.tagsIn? entry = some tags ∧ ∃ t ∈ tags, t.name = name ∧ t.range = owner.range := by
  obtain ⟨declared, named⟩ := Tag.mem_of_first? (h.settled.owner_first name owner owned)
  obtain ⟨_, entry, cached, source⟩ := source_of_declared declared
  obtain ⟨uri, known⟩ := h.inStep.tracked.indexed owner.file entry cached
  obtain ⟨lang, hl⟩ := h.inStep.tracked.loaded owner.file entry cached
  rw [declarations_of_source cached source hl] at declared
  obtain ⟨t, ht, assigned⟩ := List.mem_map.mp declared
  refine ⟨uri, entry, entry.declared lang, known, (treeOf?_of_known known).trans cached,
    tagsIn?_of_source source hl, t, ht, ?_, ?_⟩
  · rw [← named, ← assigned, Tag.assign_name]
  · rw [← assigned]
    rfl

/-- A name that a tracked file declares has an owner. -/
theorem Unmixed.owner_of_declares {g : Grammars} {ws : Workspace} (h : Unmixed g ws)
    {uri name : Text} (declares : ws.Declares uri name) :
    ∃ owner, ws.tags.lookup name = some owner := by
  obtain ⟨entry, tags, found, read, t, ht, rfl⟩ := declares
  obtain ⟨file, _, cached⟩ := treeOf?_eq_some_iff.mp found
  apply h.settled.owned file (t.assign file)
  rw [declarations_of_tags cached read]
  exact List.mem_map_of_mem ht

/-- In every reachable state, a definition that is found lies in a tracked script or backend file,
and its range cuts the name that was asked for out of the text which that file was read from. Where
no query has met a tree of another language, one is found exactly when some tracked file declares
the name. -/
theorem gotoDefinition_never_dangles {g : Grammars} {ws : Workspace} (h : Reachable g ws)
    (uri : Text) (p : Point) :
    (∀ target, (ws.gotoDefinition g uri p).2 = some target →
      ∃ name entry, ws.sought? g uri p = some name ∧ ws.treeOf? target.uri = some entry ∧
        entry.domain.declaresTags ∧ target.range.Spells entry.text name) ∧
    (Unmixed g ws → ((∃ target, (ws.gotoDefinition g uri p).2 = some target) ↔
      ∃ name source, ws.sought? g uri p = some name ∧ ws.Declares source name)) := by
  refine ⟨?_, fun unmixed => ⟨?_, ?_⟩⟩
  · intro target found
    obtain ⟨name, owner, sought, owned, shown, range⟩ := gotoDefinition_eq_some_iff.mp found
    obtain ⟨source, entry, known, tracked, declares, _, t, ht, rfl, place⟩ := h.owner_declared owned
    obtain rfl := Option.some.inj ((h.shownUri? known).symm.trans shown)
    have spelled := CachedTree.spells_of_declared ht
    rw [place, range] at spelled
    exact ⟨t.name, entry, sought, tracked, declares, spelled⟩
  · rintro ⟨target, found⟩
    obtain ⟨name, owner, sought, owned, _⟩ := gotoDefinition_eq_some_iff.mp found
    obtain ⟨source, entry, tags, _, tracked, read, t, ht, named, _⟩ := unmixed.owner_declared owned
    exact ⟨name, source, sought, entry, tags, tracked, read, t, ht, named⟩
  · rintro ⟨name, source, sought, declares⟩
    obtain ⟨owner, owned⟩ := unmixed.owner_of_declares declares
    obtain ⟨place, _, known, _⟩ := h.owner_declared owned
    exact ⟨⟨place, owner.range⟩, gotoDefinition_eq_some_iff.mpr
      ⟨name, owner, sought, owned, h.shownUri? known, rfl⟩⟩

end Workspace

namespace Sample

/-- Grammars that take every text for one comment and, as markup, for a tag that links. -/
def linking : Grammars where
  outline text :=
    .mk .document 0 text.length [.mk .element 0 text.length
      [.mk (.other "start_tag") 0 text.length
        [.mk .tagName 1 2 [], .mk .attr 3 (text.length - 1)
          [.mk .attrName 3 9 [], .mk .quotedValue 10 (text.length - 1)
            [.mk .attrValue 11 (text.length - 2) []]]]]]
  comments _ text := .ofSpans [⟨0, text.length⟩]
  foreign _ _ _ := []

def linked : Workspace :=
  Workspace.run linking (.new log) (handover ++ [.edit "untitled:x" "<p hx-lsp=\"b a\">"])

theorem linked_unmixed : Workspace.Unmixed linking linked := by
  have kept : Workspace.LanguageKept linking (.new log) handover :=
    ⟨trivial, Or.inr (fun _ _ h => by cases h), trivial, Or.inl rfl, trivial, trivial⟩
  exact ⟨log, handover ++ [.edit "untitled:x" "<p hx-lsp=\"b a\">"], kept.snoc (by trivial), rfl⟩

end Sample

open Workspace in
/-- The link leads to the file that the tag was handed over to. -/
theorem definition_of_handover :
    (Sample.linked.gotoDefinition Sample.linking "untitled:x" ⟨0, 13⟩).2 =
      some ⟨"file:///ws/app/y.py", ⟨0, 2, 6⟩⟩ ∧
    (∃ source, Sample.linked.Declares source "hx@a") ∧
    ∃ entry, Sample.linked.treeOf? "file:///ws/app/y.py" = some entry ∧
      entry.domain.declaresTags ∧ RowRange.Spells ⟨0, 2, 6⟩ entry.text "hx@a" := by
  have sought : Sample.linked.sought? Sample.linking "untitled:x" ⟨0, 13⟩ =
    some (Text.ofString "hx@a") := by decide
  have found : (Sample.linked.gotoDefinition Sample.linking "untitled:x" ⟨0, 13⟩).2 =
    some ⟨"file:///ws/app/y.py", ⟨0, 2, 6⟩⟩ := by decide
  obtain ⟨lies, complete⟩ :=
    gotoDefinition_never_dangles Sample.linked_unmixed.reachable "untitled:x" ⟨0, 13⟩
  obtain ⟨name, entry, asked, tracked, declares, spelled⟩ := lies _ found
  obtain ⟨declared, source, asked', declaration⟩ :=
    (complete Sample.linked_unmixed).mp ⟨_, found⟩
  cases sought.symm.trans asked
  cases sought.symm.trans asked'
  exact ⟨found, ⟨source, declaration⟩, entry, tracked, declares, spelled⟩

end Hypertag
