import Hypertag.Proofs.Definition
import Hypertag.Proofs.LinkFree
import Hypertag.Proofs.Listing
import Hypertag.Proofs.Provenance

/-!
# Requests always answer

A request fails when a reserved name is looked up, or when the uri of a file cannot be read. Names
under the cursor carry the mark of attributes, which no reserved name does. A uri gets into the
index by being read, or as that of a canonical path. What the answers say is left out.
-/

namespace Hypertag

/-! ### Marked names -/

namespace Markup

/-- The name that a value belongs to is marked. -/
theorem marked_of_value {root : Node} {p : Point} {mode : Mode} {name value : Text}
    (h : root.position? p mode = some (.value name value)) : attributeMark <:+: name := by
  obtain ⟨element, inside, read⟩ := position?_eq_some h
  rcases read with named | ⟨v, near, shaped⟩
  · rcases namePosition?_eq_some named with ⟨new, _⟩ | ⟨_, _, _, written⟩
    · cases new
    · cases written
  · have marked := (ReadAt.of_nearest inside near).marked
    rcases shapePosition?_eq_some shaped with written | empty | ⟨_, _, _, _, filled⟩
    · cases written
    · cases empty
      exact marked
    · cases filled
      exact marked

end Markup

namespace KnowledgeBase

theorem not_reserved_of_marked {name : Text} (marked : Markup.attributeMark <:+: name) :
    name ∉ reservedNames := by
  have unmarked : ∀ n ∈ reservedNames, n.hasInfix Markup.attributeMark = false := by decide
  intro reserved
  have bare := unmarked name reserved
  rw [Text.hasInfix_iff.mpr marked] at bare
  cases bare

/-- A marked name can be looked up, whatever the lookup is for. -/
theorem valuesOf_of_marked {name : Text} (marked : Markup.attributeMark <:+: name)
    (purpose : LookupError) : ∃ entries, valuesOf purpose name = .ok entries := by
  unfold valuesOf
  split
  · exact ⟨_, rfl⟩
  · exact ⟨[], if_neg (not_reserved_of_marked marked)⟩

theorem valueDocumentation_of_marked {name : Text} (marked : Markup.attributeMark <:+: name)
    (value : Text) : ∃ shown, valueDocumentation name value = .ok shown := by
  obtain ⟨entries, found⟩ := valuesOf_of_marked marked .documentation
  exact ⟨_, by rw [valueDocumentation, found]; rfl⟩

theorem valueCompletions_of_marked {name : Text} (marked : Markup.attributeMark <:+: name) :
    ∃ items, valueCompletions name = .ok items := by
  obtain ⟨entries, found⟩ := valuesOf_of_marked marked .suggestions
  exact ⟨_, by rw [valueCompletions, found]; rfl⟩

end KnowledgeBase

/-! ### Uris that can be read -/

/-- The uri of a canonical path can be read: no name on the way is empty. -/
theorem Disk.canonicalUri_parses {disk : Disk} {path uri : Text}
    (named : disk.canonicalUri path = .ok uri) : ∃ u, Uri.parse uri = .ok u := by
  cases real : disk.canonical path with
  | error e =>
    rw [canonicalUri, real] at named
    cases named
  | ok p =>
    rw [canonicalUri, real] at named
    cases named
    exact ⟨_, Uri.parse_ofPath_of_single rfl
      (Path.render_ne_doubleSlash (canonical_proper real))⟩

/-- A declared tag has a range that an editor can be told of, in a text of a size that it can. -/
theorem CachedTree.range_of_declared {entry : FileTree} {query : BackendLang} {t : Tag}
    (h : t ∈ entry.declared query) (short : entry.text.length ≤ RowRange.maxCoordinate) :
    t.range.isValid = true := by
  obtain ⟨comments, extracted⟩ := extract_of_declared h
  obtain ⟨c, _, commented⟩ := List.mem_flatMap.mp extracted
  obtain ⟨offset, written, _, _⟩ := Tag.mem_ofComment commented
  obtain ⟨row, i, found, start, stop, cut⟩ := Tag.row_of_mem_extract extracted
  have marked := written.marked
  have fits : i + t.name.length ≤ row.length := by
    have length := congrArg List.length cut
    rw [Text.slice, List.length_drop, List.length_take] at length
    omega
  cases line : t.line with
  | negSucc n =>
    rw [line] at found
    cases found
  | ofNat n =>
    rw [line] at found
    have inside := Text.length_of_split found
    simp only [RowRange.isValid, Tag.range, line, start, stop, List.all_cons, List.all_nil,
      Bool.and_eq_true, decide_eq_true_eq, Int.ofNat_eq_natCast, and_true]
    omega

namespace Workspace

variable {g : Grammars} {ws : Workspace}

/-- Every indexed uri can be read. -/
theorem Reachable.uri_parses (h : Reachable g ws) :
    ∀ uri file, ws.index.idOf? uri = some file → ∃ u, Uri.parse uri = .ok u := by
  refine Reachable.induction (P := fun ws => ∀ uri file, ws.index.idOf? uri = some file →
    ∃ u, Uri.parse uri = .ok u) ?_ ?_ h
  · intro log uri file known
    cases known
  · intro ws op reachable parses uri file known
    cases forgets : op.forgets with
    | false =>
      rcases perform_index reachable.tracked forgets known with old | ⟨_, _, _, _, domain, fits⟩
      · exact parses uri file old
      · obtain ⟨_, u, _, parsed, _⟩ := classifyUri_eq_some.mp fits
        exact ⟨u, parsed⟩
    | true =>
      cases op with
      | reset => cases known
      | scan disk config root =>
        have known : (ws.scan g disk config root).1.index.idOf? uri = some file := known
        cases ready : ws.ready with
        | true =>
          obtain ⟨path, named⟩ := scan_index ready known
          exact Disk.canonicalUri_parses named
        | false =>
          rw [scan_of_idle g disk ready] at known
          exact parses uri file known
      | load => cases forgets
      | setConfig config => cases forgets
      | edit other text => cases forgets
      | save other => cases forgets
      | close other => cases forgets

/-- The place of a tag can be shown, whatever its file. -/
theorem Reachable.location (h : Reachable g ws) (t : Tag) :
    ∃ place, t.location ws.index = .ok place := by
  unfold Tag.location
  cases shown : ws.index.shownUri? t.file with
  | none => exact ⟨_, rfl⟩
  | some uri =>
    have found : ws.index.uriOf? t.file = some uri := (Option.filter_eq_some_iff.mp shown).1
    have known := ws.index.idOf?_eq_some_iff.mpr (ws.index.uriOf?_eq_some_iff.mp found)
    obtain ⟨u, parsed⟩ := h.uri_parses uri t.file known
    exact ⟨_, by simp only [parsed]; rfl⟩

theorem Reachable.tagHover (h : Reachable g ws) (t : Tag) :
    ∃ shown, ws.tagHover t = .ok shown := by
  obtain ⟨place, located⟩ := h.location t
  exact ⟨_, by rw [Workspace.tagHover, Tag.hoverText, located]; rfl⟩

theorem Reachable.tagCompletions (h : Reachable g ws) (tags : List Tag) :
    ∃ items, Tag.completions ws.index tags = .ok items := by
  refine mapM_ok fun t _ => ?_
  obtain ⟨place, located⟩ := h.location t
  exact ⟨_, by rw [located]; rfl⟩

theorem marked_of_position {uri : Text} {p : Point} {mode : Markup.Mode} {name value : Text}
    (h : ws.position? g uri p mode = some (.value name value)) :
    Markup.attributeMark <:+: name := by
  unfold position? at h
  split at h
  · split at h
    · split at h
      · exact Markup.marked_of_value h
      · cases h
    · obtain ⟨text, _, read⟩ := Option.bind_eq_some_iff.mp h
      exact Markup.marked_of_value read
  · cases h

theorem Reachable.hover (h : Reachable g ws) (uri : Text) (p : Point) :
    ∃ shown, ws.hover g uri p = .ok shown := by
  unfold Workspace.hover
  split
  · exact h.tagHover _
  · split
    · exact ⟨_, rfl⟩
    · exact ⟨_, rfl⟩
    · next name value found =>
      split
      · split
        · exact ⟨_, rfl⟩
        · exact h.tagHover _
      · obtain ⟨shown, documented⟩ :=
          KnowledgeBase.valueDocumentation_of_marked (marked_of_position found) value
        exact ⟨shown, by rw [documented]; rfl⟩

theorem Reachable.completion (h : Reachable g ws) (uri : Text) (p : Point) :
    ∃ items, ws.completion g uri p = .ok items := by
  unfold Workspace.completion
  split
  · exact ⟨_, rfl⟩
  · split
    · exact ⟨_, rfl⟩
    · exact ⟨_, rfl⟩
  · next name value found =>
    split
    · obtain ⟨items, listed⟩ := h.tagCompletions ws.tags.tags
      exact ⟨some items, by rw [listed]; rfl⟩
    · obtain ⟨items, suggested⟩ :=
        KnowledgeBase.valueCompletions_of_marked (marked_of_position found)
      exact ⟨_, by rw [suggested]; rfl⟩

/-- In every reachable state a hover and a completion are answered at every point of every
document, and a definition that is found has a range an editor can be told of, as long as the text
of its file is not longer than that. The names of values under the cursor can be looked up, and the
uris of the index can be read. -/
theorem requests_always_answer (h : Reachable g ws) (uri : Text) (p : Point) :
    (∃ shown, ws.hover g uri p = .ok shown) ∧
    (∃ items, ws.completion g uri p = .ok items) ∧
    (∀ target, (ws.gotoDefinition g uri p).2 = some target → ∃ entry,
      ws.treeOf? target.uri = some entry ∧
      (entry.text.length ≤ RowRange.maxCoordinate → target.range.isValid = true)) ∧
    (∀ mode name value, ws.position? g uri p mode = some (.value name value) →
      (∃ shown, KnowledgeBase.valueDocumentation name value = .ok shown) ∧
      ∃ items, KnowledgeBase.valueCompletions name = .ok items) ∧
    ∀ indexed file, ws.index.idOf? indexed = some file → ∃ u, Uri.parse indexed = .ok u := by
  refine ⟨h.hover uri p, h.completion uri p, ?_, ?_, h.uri_parses⟩
  · intro target found
    obtain ⟨name, owner, _, owned, shown, range⟩ := gotoDefinition_eq_some_iff.mp found
    obtain ⟨source, entry, known, tracked, _, _, t, declared, _, place⟩ := h.owner_declared owned
    obtain rfl := Option.some.inj ((h.shownUri? known).symm.trans shown)
    refine ⟨entry, tracked, ?_⟩
    intro short
    rw [← range, ← place]
    exact CachedTree.range_of_declared declared short
  · intro mode name value found
    have marked := marked_of_position found
    exact ⟨KnowledgeBase.valueDocumentation_of_marked marked value,
      KnowledgeBase.valueCompletions_of_marked marked⟩

end Workspace

open Workspace in
/-- The link that leads to the file which a tag was handed over to can be hovered and completed. -/
theorem requests_of_handover :
    Reachable Sample.linking Sample.linked ∧
    (∃ shown, Sample.linked.hover Sample.linking "untitled:x" ⟨0, 13⟩ = .ok shown) ∧
    (∃ items, Sample.linked.completion Sample.linking "untitled:x" ⟨0, 13⟩ = .ok items) ∧
    (∃ target, (Sample.linked.gotoDefinition Sample.linking "untitled:x" ⟨0, 13⟩).2 = some target ∧
      target.range.isValid = true) ∧
    ∃ u, Uri.parse "file:///ws/app/y.py" = .ok u := by
  have reachable : Reachable Sample.linking Sample.linked := ⟨_, _, rfl⟩
  have found : (Sample.linked.gotoDefinition Sample.linking "untitled:x" ⟨0, 13⟩).2 =
    some ⟨"file:///ws/app/y.py", ⟨0, 2, 6⟩⟩ := by decide
  obtain ⟨hover, completion, definition, _, indexed⟩ :=
    requests_always_answer reachable "untitled:x" ⟨0, 13⟩
  refine ⟨reachable, hover, completion, ⟨_, found, ?_⟩, indexed _ 1 (by decide)⟩
  obtain ⟨entry, tracked, valid⟩ := definition _ found
  have read : Sample.linked.treeOf? "file:///ws/app/y.py" =
    some (readAs Sample.linking .python .backend "# hx@a") := by rfl
  cases tracked.symm.trans read
  exact valid (by decide)

end Hypertag
