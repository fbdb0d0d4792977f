import Hypertag.Proofs.Requests

/-!
# Completion of tags

Inside the value of the attribute that links tags, the registry is offered, sorted by name. The
registry keeps its tags in an order that depends on everything that has happened, but the names in
it are those that the tracked files declare. So the list depends on what is declared now and on
nothing else. Which cursor is inside such a value is left to the position.
-/

namespace Hypertag

namespace Workspace

/-- Whether an item says where a tag of its name is declared: it shows the path of a tracked file
and, counted from one, a line on which the text of that file has the name. -/
def Locates (ws : Workspace) (item : CompletionItem) : Prop :=
  ∃ uri entry tags u t, ws.treeOf? uri = some entry ∧ ws.tagsIn? entry = some tags ∧
    Uri.parse uri = .ok u ∧ t ∈ tags ∧ t.range.Spells entry.text item.label ∧
    item.detail = u.filePath ++ ":" ++ Decimal.renderInt (t.line + 1)

/-- What a list of all tags holds: the declared names in order, each once and with its place. -/
structure ListsTags (ws : Workspace) (items : List CompletionItem) : Prop where
  increasing : (items.map CompletionItem.label).Pairwise (· < ·)
  declared : ∀ name, name ∈ items.map CompletionItem.label ↔ ∃ source, ws.Declares source name
  located : ∀ item ∈ items, ws.Locates item

/-- The names on the list depend only on which names are declared. -/
theorem ListsTags.labels_eq {ws other : Workspace} {items items' : List CompletionItem}
    (h : ws.ListsTags items) (h' : other.ListsTags items')
    (same : ∀ name, (∃ source, ws.Declares source name) ↔ ∃ source, other.Declares source name) :
    items.map CompletionItem.label = items'.map CompletionItem.label := by
  apply h.increasing.eq_of_mem_iff h'.increasing
  intro name
  rw [h.declared, h'.declared, same]

end Workspace

namespace Tag

def suggestion (t : Tag) (place : Text) : CompletionItem :=
  { label := t.name, kind := .reference, detail := place, documentation := none,
    sortText := none }

/-- The suggestions for tags, once each can be placed: one for each, sorted by name. -/
theorem completions_eq_ok {index : DocumentIndex} {tags : List Tag} {items : List CompletionItem} :
    completions index tags = .ok items ↔
      List.Forall₂ (fun t item => ∃ place, t.location index = .ok place ∧
        item = t.suggestion place) (Text.sortBy Tag.name tags) items := by
  have placed : ∀ (t : Tag) (item : CompletionItem),
      ((t.location index).map fun detail => t.suggestion detail) = .ok item ↔
        ∃ place, t.location index = .ok place ∧ item = t.suggestion place := by
    intro t item
    cases t.location index with
    | error e => simp [Except.map]
    | ok place => simp [Except.map, eq_comm]
  have listed : completions index tags = .ok items ↔ _ := mapM_ok_iff
  rw [listed]
  constructor
  · exact fun h => h.imp fun t item => (placed t item).mp
  · exact fun h => h.imp fun t item => (placed t item).mpr

/-- The labels are the names in order. -/
theorem labels_of_completions {index : DocumentIndex} {tags : List Tag}
    {items : List CompletionItem} (h : completions index tags = .ok items) :
    items.map CompletionItem.label = (Text.sortBy Tag.name tags).map Tag.name := by
  have rows := completions_eq_ok.mp h
  clear h
  generalize Text.sortBy Tag.name tags = sorted at rows ⊢
  induction rows with
  | nil => rfl
  | cons first _ ih =>
    obtain ⟨place, _, rfl⟩ := first
    simpa [suggestion] using ih

theorem mem_of_completions {index : DocumentIndex} {tags : List Tag} {items : List CompletionItem}
    (h : completions index tags = .ok items) {item : CompletionItem} (member : item ∈ items) :
    ∃ t ∈ tags, ∃ place, t.location index = .ok place ∧ item = t.suggestion place := by
  obtain ⟨t, listed, place⟩ := exists_of_forall₂ (completions_eq_ok.mp h).flip member
  exact ⟨t, (Text.sortBy_perm Tag.name tags).mem_iff.mp listed, place⟩

end Tag

namespace Workspace

variable {g : Grammars} {ws : Workspace}

/-- The names in the registry are those that tracked files declare. -/
theorem Unmixed.registered_iff_declares (h : Unmixed g ws) {name : Text} :
    name ∈ ws.tags.tags.map Tag.name ↔ ∃ source, ws.Declares source name := by
  constructor
  · intro member
    obtain ⟨t, registered, rfl⟩ := List.mem_map.mp member
    obtain ⟨source, entry, tags, _, tracked, read, declared, found, named, _⟩ :=
      h.owner_declared (ws.tags.lookup_eq_some_iff.mpr ⟨registered, rfl⟩)
    exact ⟨source, entry, tags, tracked, read, declared, found, named⟩
  · rintro ⟨source, declares⟩
    obtain ⟨owner, owned⟩ := h.owner_of_declares declares
    obtain ⟨registered, rfl⟩ := ws.tags.lookup_eq_some_iff.mp owned
    exact List.mem_map_of_mem registered

/-- What is suggested for a registered tag leads to a declaration of its name. -/
theorem Unmixed.locates (h : Unmixed g ws) {t : Tag} (registered : t ∈ ws.tags.tags)
    {place : Text} (located : t.location ws.index = .ok place) :
    ws.Locates (t.suggestion place) := by
  obtain ⟨uri, entry, tags, known, tracked, read, declared, found, named, range⟩ :=
    h.owner_declared (ws.tags.lookup_eq_some_iff.mpr ⟨registered, rfl⟩)
  obtain ⟨u, parsed⟩ := h.reachable.uri_parses uri t.file known
  have line : declared.line = t.line := congrArg RowRange.line range
  obtain ⟨_, lang, _, rfl⟩ := tagsIn?_eq_some read
  have spelled := CachedTree.spells_of_declared found
  rw [named] at spelled
  refine ⟨uri, entry, _, u, declared, tracked, read, parsed, found, spelled, ?_⟩
  simp only [Tag.location, h.reachable.shownUri? known, parsed, Except.map,
    Except.ok.injEq] at located
  rw [line]
  exact located.symm

/-- The registry in order is a list of all tags. -/
theorem Unmixed.listsTags (h : Unmixed g ws) {items : List CompletionItem}
    (listed : Tag.completions ws.index ws.tags.tags = .ok items) : ws.ListsTags items := by
  have labels := Tag.labels_of_completions listed
  constructor
  · rw [labels]
    exact Text.sortBy_strict ws.tags.names_nodup
  · intro name
    rw [labels, ((Text.sortBy_perm Tag.name ws.tags.tags).map Tag.name).mem_iff]
    exact h.registered_iff_declares
  · intro item member
    obtain ⟨t, registered, place, located, rfl⟩ := Tag.mem_of_completions listed member
    exact h.locates registered located

/-- Inside a linking value the answer is a list of all tags. -/
theorem Unmixed.completion_of_link (h : Unmixed g ws) {uri value : Text} {p : Point}
    (link : ws.position? g uri p .completion = some (.value linkAttribute value)) :
    ∃ items, ws.completion g uri p = .ok (some items) ∧ ws.ListsTags items := by
  obtain ⟨items, listed⟩ := h.reachable.tagCompletions ws.tags.tags
  refine ⟨items, ?_, h.listsTags listed⟩
  simp [Workspace.completion, link, listed, Except.map, Except.mapError]

/-- A completion inside the value of the linking attribute is answered with the names that the
tracked script and backend files declare, each once and in increasing order, and each item says
where its name is declared. Any state in which the same names are declared gives the same list of
names, whatever has led to it. In no state a query has met a tree of another language. -/
theorem completion_lists_declared_tags (h : Unmixed g ws) {uri value : Text} {p : Point}
    (link : ws.position? g uri p .completion = some (.value linkAttribute value)) :
    ∃ items, ws.completion g uri p = .ok (some items) ∧ ws.ListsTags items ∧
      ∀ (g' : Grammars) (other : Workspace), Unmixed g' other →
        (∀ name, (∃ source, ws.Declares source name) ↔ ∃ source, other.Declares source name) →
        ∀ uri' value' p',
          other.position? g' uri' p' .completion = some (.value linkAttribute value') →
          ∃ items', other.completion g' uri' p' = .ok (some items') ∧
            items.map CompletionItem.label = items'.map CompletionItem.label := by
  obtain ⟨items, completed, lists⟩ := h.completion_of_link link
  refine ⟨items, completed, lists, ?_⟩
  intro g' other unmixed same uri' value' p' link'
  obtain ⟨items', completed', lists'⟩ := unmixed.completion_of_link link'
  exact ⟨items', completed', lists.labels_eq lists' same⟩

end Workspace

open Workspace in
/-- After the handover the registry has the new name first, and the list has it last. -/
theorem completion_of_handover :
    Unmixed Sample.linking Sample.linked ∧
    Sample.linked.tags.tags.map Tag.name = [Text.ofString "hx@b", Text.ofString "hx@a"] ∧
    Sample.linked.position? Sample.linking "untitled:x" ⟨0, 13⟩ .completion =
      some (.value linkAttribute []) ∧
    ∃ items, Sample.linked.completion Sample.linking "untitled:x" ⟨0, 13⟩ = .ok (some items) ∧
      Sample.linked.ListsTags items ∧
      items.map (fun item => (item.label, item.detail)) =
        [(Text.ofString "hx@a", Text.ofString "/ws/app/y.py:1"),
          (Text.ofString "hx@b", Text.ofString "/ws/app/x.py:1")] := by
  have link : Sample.linked.position? Sample.linking "untitled:x" ⟨0, 13⟩ .completion =
    some (.value linkAttribute []) := by decide
  obtain ⟨items, completed, lists, _⟩ := completion_lists_declared_tags Sample.linked_unmixed link
  refine ⟨Sample.linked_unmixed, by decide, link, items, completed, lists, ?_⟩
  have answer : (Sample.linked.completion Sample.linking "untitled:x" ⟨0, 13⟩).map
      (Option.map (List.map fun item => (item.label, item.detail))) =
    .ok (some [(Text.ofString "hx@a", Text.ofString "/ws/app/y.py:1"),
      (Text.ofString "hx@b", Text.ofString "/ws/app/x.py:1")]) := by decide
  rw [completed] at answer
  exact Option.some.inj (Except.ok.inj answer)

end Hypertag
