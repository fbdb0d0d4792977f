import Hypertag.Proofs.NamePosition

/-!
# Attributes in quotes

Which attributes have a value in quotes that is read, and what is read where the cursor is in such
an attribute: its own name and its own values, whatever stands around it. Errors may stand anywhere
else, and spans are nested. What the values say in each mode is left to other modules.
-/

namespace Hypertag

namespace Markup

namespace Node

def NamesAreLeaves (root : Node) : Prop := ∀ n ∈ root.nodes, n.kind = .attrName → n.children = []

instance (root : Node) : Decidable root.NamesAreLeaves :=
  inferInstanceAs (Decidable (∀ n ∈ root.nodes, _ → _))

theorem NamesAreLeaves.below {root n : Node} (h : root.NamesAreLeaves) (inside : n ∈ root.nodes) :
    n.NamesAreLeaves := fun m below => h m ((nodes_sublist root inside).subset below)

end Node

/-! ### Candidates in quotes -/

structure InQuotes (root attr name quoted : Node) : Prop where
  placed : ∃ tag, InTag root tag attr
  kind : attr.kind = .attr
  marked : name.isMarkedName = true
  parts : ∃ before after, attr.children = before ++ quoted :: after ∧ name ∈ before
  quotes : quoted.kind = .quotedValue

theorem InQuotes.of_frames {root quoted name : Node} {inAttribute inTag : Frame}
    {above : List Frame} (way : Leads root quoted (inAttribute :: inTag :: above))
    (kind : inAttribute.parent.kind = .attr) (tag : inTag.isInTag = true)
    (quotes : quoted.kind = .quotedValue) (marked : name.isMarkedName = true)
    (before : name ∈ inAttribute.before) : InQuotes root inAttribute.parent name quoted := by
  simp only [Frame.isInTag, Node.isError, Bool.and_eq_true, Bool.not_eq_true',
    decide_eq_false_iff_not] at tag
  cases way with
  | step parts upwards =>
    cases upwards with
    | step children higher =>
      exact ⟨⟨inTag.parent, higher.mem_nodes, tag.1, inTag.before, inTag.after, children, tag.2⟩,
        kind, marked, ⟨inAttribute.before, inAttribute.after, parts, before⟩, quotes⟩

/-- The way up from the quotes of an attribute. -/
theorem InQuotes.frames {root attr name quoted : Node} (h : InQuotes root attr name quoted) :
    ∃ inAttribute inTag above, Leads root quoted (inAttribute :: inTag :: above) ∧
      inAttribute.parent = attr ∧ inTag.isInTag = true ∧ name ∈ inAttribute.before := by
  obtain ⟨tag, inTree, error, before, after, children, named⟩ := h.placed
  obtain ⟨first, last, parts, member⟩ := h.parts
  obtain ⟨above, way⟩ := leads_of_mem_nodes inTree
  have toAttr := Leads.step (f := ⟨tag, before, after⟩) children way
  have toQuoted := Leads.step (f := ⟨attr, first, last⟩) parts toAttr
  exact ⟨_, _, above, toQuoted, rfl, by simp [Frame.isInTag, Node.isError, error, named], member⟩

theorem mem_unclosed_shape {node : Node} {f : Frame} {v : ValuedAttribute}
    (h : v ∈ ValuedAttribute.unclosed node f) : v.shape = .unclosed f.parent := by
  unfold ValuedAttribute.unclosed at h
  split at h
  · obtain ⟨name, _, rfl⟩ := List.mem_map.mp h
    rfl
  · cases h

/-- An error behind an attribute stands in the same tag, and the attribute comes before it. -/
theorem mem_beforeError_shape {error : Node} {f : Frame} {v : ValuedAttribute}
    (h : v ∈ ValuedAttribute.beforeError error f) :
    ∃ attr ∈ f.before, v.shape = .beforeError attr error := by
  unfold ValuedAttribute.beforeError at h
  split at h
  · obtain ⟨attr, found, named⟩ := List.mem_flatMap.mp h
    obtain ⟨name, _, rfl⟩ := List.mem_map.mp named
    exact ⟨attr, mem_behindTagName (List.mem_of_mem_filter found), rfl⟩
  · cases h

theorem mem_empty_shape {quoted : Node} {f g : Frame} {v : ValuedAttribute}
    (h : v ∈ ValuedAttribute.empty quoted f g) : v.shape = .empty f.parent quoted ∧
      v.name ∈ f.before ∧ v.name.isMarkedName = true ∧ f.parent.kind = .attr ∧
      g.isInTag = true ∧ quoted.kind = .quotedValue ∧ quoted.text = emptyQuotes := by
  unfold ValuedAttribute.empty at h
  split at h
  · next fits =>
    obtain ⟨name, named, rfl⟩ := List.mem_map.mp h
    obtain ⟨before, marked⟩ := List.mem_filter.mp named
    simp only [Bool.and_eq_true, decide_eq_true_eq] at fits
    exact ⟨rfl, before, marked, fits.1.2, fits.2, fits.1.1⟩
  · cases h

theorem mem_filled_shape {value : Node} {f g i : Frame} {v : ValuedAttribute}
    (h : v ∈ ValuedAttribute.filled value f g i) : v.shape = .filled g.parent value ∧
      v.name ∈ g.before ∧ v.name.isMarkedName = true ∧ g.parent.kind = .attr ∧
      i.isInTag = true ∧ f.parent.kind = .quotedValue ∧ value.kind = .attrValue := by
  unfold ValuedAttribute.filled at h
  split at h
  · next fits =>
    obtain ⟨name, named, rfl⟩ := List.mem_map.mp h
    obtain ⟨before, marked⟩ := List.mem_filter.mp named
    simp only [Bool.and_eq_true, decide_eq_true_eq] at fits
    exact ⟨rfl, before, marked, fits.1.2, fits.2, fits.1.1.2, fits.1.1.1⟩
  · cases h

/-- The candidates with empty quotes. -/
theorem empty_mem_valuedAttributes_iff {root attr name quoted : Node} :
    ⟨name, .empty attr quoted⟩ ∈ root.valuedAttributes ↔
      InQuotes root attr name quoted ∧ quoted.text = emptyQuotes := by
  constructor
  · intro listed
    obtain ⟨node, f, above, way, found⟩ := valuedAttribute_cases listed
    rcases found with unclosed | beforeError | ⟨g, rest, rfl, empty⟩ | ⟨g, i, rest, _, filled⟩
    · cases mem_unclosed_shape unclosed
    · obtain ⟨_, _, shape⟩ := mem_beforeError_shape beforeError
      cases shape
    · obtain ⟨shape, before, marked, kind, inTag, quotes, text⟩ := mem_empty_shape empty
      cases shape
      exact ⟨.of_frames way kind inTag quotes marked before, text⟩
    · cases (mem_filled_shape filled).1
  · rintro ⟨h, text⟩
    obtain ⟨f, g, above, way, rfl, inTag, before⟩ := h.frames
    have candidate : ⟨name, .empty f.parent quoted⟩ ∈ ValuedAttribute.empty quoted f g := by
      simp [ValuedAttribute.empty, h.quotes, text, h.kind, inTag, before, h.marked]
    refine List.mem_flatMap.mpr ⟨_, way.mem_walk, ?_⟩
    cases above with
    | nil => exact List.mem_append_right _ candidate
    | cons i above => exact List.mem_append_left _ (List.mem_append_right _ candidate)

/-- The candidates with a value in quotes. -/
theorem filled_mem_valuedAttributes_iff {root attr name value : Node} :
    ⟨name, .filled attr value⟩ ∈ root.valuedAttributes ↔
      ∃ quoted, InQuotes root attr name quoted ∧ value ∈ quoted.children ∧
        value.kind = .attrValue := by
  constructor
  · intro listed
    obtain ⟨node, f, above, way, found⟩ := valuedAttribute_cases listed
    rcases found with unclosed | beforeError | ⟨g, rest, _, empty⟩ | ⟨g, i, rest, rfl, filled⟩
    · cases mem_unclosed_shape unclosed
    · obtain ⟨_, _, shape⟩ := mem_beforeError_shape beforeError
      cases shape
    · cases (mem_empty_shape empty).1
    · obtain ⟨shape, before, marked, kind, inTag, quotes, valueKind⟩ := mem_filled_shape filled
      cases shape
      exact ⟨f.parent, .of_frames way.parent kind inTag quotes marked before, way.child, valueKind⟩
  · rintro ⟨quoted, h, inner, kind⟩
    obtain ⟨g, i, above, way, rfl, inTag, before⟩ := h.frames
    obtain ⟨first, last, values⟩ := List.append_of_mem inner
    have toValue := Leads.step (f := ⟨quoted, first, last⟩) values way
    refine List.mem_flatMap.mpr ⟨_, toValue.mem_walk, List.mem_append_right _ ?_⟩
    simp [ValuedAttribute.filled, kind, h.quotes, h.kind, inTag, before, h.marked]

/-- The error behind an attribute starts where the attribute ends, or later. -/
theorem stop_le_of_beforeError {root name attr error : Node} (nested : root.WellNested)
    (h : ⟨name, .beforeError attr error⟩ ∈ root.valuedAttributes) : attr.stop ≤ error.start := by
  obtain ⟨node, f, above, way, found⟩ := valuedAttribute_cases h
  rcases found with unclosed | beforeError | ⟨g, rest, _, empty⟩ | ⟨g, i, rest, _, filled⟩
  · cases mem_unclosed_shape unclosed
  · obtain ⟨_, before, shape⟩ := mem_beforeError_shape beforeError
    cases shape
    cases way with
    | step children upwards =>
      have ordered := (nested _ upwards.mem_nodes).ordered
      rw [children, List.pairwise_append] at ordered
      exact ordered.2.2 attr before error List.mem_cons_self
  · cases (mem_empty_shape empty).1
  · cases (mem_filled_shape filled).1

/-- Without errors a value stands in closed quotes. -/
theorem ValueShape.Around.of_errorFree {root name : Node} (clean : root.ErrorFree)
    {shape : ValueShape} (h : shape.Around root name) :
    (∃ attr quoted, shape = .empty attr quoted ∧ AttributeOf root name attr ∧
      quoted ∈ attr.children ∧ quoted.kind = .quotedValue) ∨
    ∃ attr value, shape = .filled attr value ∧ AttributeOf root name attr := by
  cases shape with
  | unclosed tag => exact absurd h.2.1 (clean tag h.1)
  | beforeError attr error =>
    obtain ⟨_, tag, inTree, _, child, kind⟩ := h
    exact absurd kind (clean error (Node.child_mem_nodes inTree child))
  | empty attr quoted => exact Or.inl ⟨attr, quoted, rfl, h.1, h.2.1, h.2.2.1⟩
  | filled attr value => exact Or.inr ⟨attr, value, rfl, h.1⟩

/-! ### Parts of shapes -/

theorem exists_latestPart? {p : Point} {shapes : List ValueShape} {part : ValueShape → Option Node}
    {s : ValueShape} (listed : s ∈ shapes) {n : Node} (has : part s = some n)
    (begun : n.start ≤ p) : ∃ m, latestPart? p shapes part = some m :=
  exists_latest? (List.mem_filterMap.mpr ⟨s, listed, has⟩) begun

theorem latestPart?_eq_none {p : Point} {shapes : List ValueShape}
    {part : ValueShape → Option Node}
    (h : ∀ s ∈ shapes, ∀ n, part s = some n → p < n.start) : latestPart? p shapes part = none := by
  rw [latestPart?, latest?_eq_none_iff]
  intro n member
  obtain ⟨s, listed, has⟩ := List.mem_filterMap.mp member
  exact Point.not_le.mpr (h s listed n has)

/-- A part that all shapes share is read as soon as it has begun. -/
theorem latestPart?_eq {p : Point} {shapes : List ValueShape} {part : ValueShape → Option Node}
    {m : Node} (alone : ∀ s ∈ shapes, ∀ n, part s = some n → n = m) {shape : ValueShape}
    (listed : shape ∈ shapes) (has : part shape = some m) :
    latestPart? p shapes part = if m.start ≤ p then some m else none := by
  split
  · next begun =>
    obtain ⟨n, found⟩ := exists_latestPart? listed has begun
    obtain ⟨s, member, hasN⟩ := mem_of_latestPart? found
    rw [found, alone s member n hasN]
  · next later =>
    refine latestPart?_eq_none fun s member n hasN => ?_
    rw [alone s member n hasN]
    exact Point.not_le.mp later

/-! ### A cursor in an attribute -/

/-- A marked name is not empty. -/
theorem MarkedName.covers {root name : Node} (nested : root.WellNested) (h : MarkedName root name) :
    name.Covers name.start := by
  refine ⟨Point.le_refl _, (nested name h.inTree).written ?_⟩
  intro empty
  have marked := h.marked
  rw [empty, List.infix_nil] at marked
  cases marked

section Unique

variable {root a b name : Node} {p : Point} (nested : root.WellNested)
  (leaves : root.NamesAreLeaves)
include nested leaves

theorem MarkedName.eq_of_covers (ha : MarkedName root a) (hb : MarkedName root b)
    (aroundA : a.Covers p) (aroundB : b.Covers p) : a = b :=
  leaf_unique nested ha.inTree hb.inTree (leaves a ha.inTree ha.kind) (leaves b hb.inTree hb.kind)
    aroundA aroundB

/-- Of two marked names the one that starts first ends before the other. -/
theorem MarkedName.eq_or_stop_le (ha : MarkedName root a) (hb : MarkedName root b)
    (order : a.start ≤ b.start) : a = b ∨ a.stop ≤ b.start := by
  by_cases before : a.stop ≤ b.start
  · exact Or.inr before
  · exact Or.inl (ha.eq_of_covers nested leaves hb ⟨order, Point.not_le.mp before⟩
      (hb.covers nested))

theorem MarkedName.eq_of_same_start (ha : MarkedName root a) (hb : MarkedName root b)
    (same : a.start = b.start) : a = b :=
  ha.eq_of_covers nested leaves hb (ha.covers nested) (same ▸ hb.covers nested)

/-- A marked name has one parent. -/
theorem MarkedName.parent_unique (named : MarkedName root name) (ha : a ∈ root.nodes)
    (hb : b ∈ root.nodes) (childA : name ∈ a.children) (childB : name ∈ b.children) : a = b :=
  Markup.parent_unique nested ha hb childA childB (leaves name named.inTree named.kind)
    (named.covers nested)

/-- The nearest candidates have one name. -/
theorem name_eq_of_nearest {v w : ValuedAttribute} (hv : v ∈ nearest p root.valuedAttributes)
    (hw : w ∈ nearest p root.valuedAttributes) : v.name = w.name :=
  (mem_valuedAttributes (mem_nearest.mp hv).1.1).name.eq_of_same_start nested leaves
    (mem_valuedAttributes (mem_nearest.mp hw).1.1).name (start_of_nearest hv hw)

/-- The values that count are read under the name that they have in common. -/
theorem valuePosition?_of_nearest (mode : Mode) {v : ValuedAttribute}
    (near : v ∈ nearest p root.valuedAttributes) :
    valuePosition? mode p root.valuedAttributes =
      shapePosition? mode p v.name ((nearest p root.valuedAttributes).map (·.shape)) := by
  obtain ⟨last, found⟩ : ∃ last, (nearest p root.valuedAttributes).getLast? = some last := by
    rw [← Option.isSome_iff_exists, List.getLast?_isSome]
    exact List.ne_nil_of_mem near
  rw [valuePosition?, found, Option.bind_some,
    name_eq_of_nearest nested leaves (List.mem_of_getLast? found) near]

end Unique

/-- A marked attribute of a tag whose value stands in quotes. Inside the quotes there is nothing, or
a value. The tag lies in a container. -/
structure QuotedValue (root tag attr name quoted : Node) : Prop where
  contained : ∃ c ∈ root.nodes, c.kind.isContainer = true ∧ tag ∈ c.nodes
  placed : InTag root tag attr
  kind : attr.kind = .attr
  parts : attr.children = [name, quoted]
  marked : name.isMarkedName = true
  quotes : quoted.kind = .quotedValue
  values : ∀ v ∈ quoted.children, v.kind = .attrValue ∧ v.children = []
  written : quoted.text = emptyQuotes ∨ ∃ v, v ∈ quoted.children

namespace QuotedValue

variable {root element tag attr name quoted : Node} {p : Point}
  (h : QuotedValue root tag attr name quoted)
include h

theorem child : attr ∈ tag.children := h.placed.child

theorem name_kind : name.kind = .attrName := by
  have marked := h.marked
  simp only [Node.isMarkedName, Node.isAttributeName, Bool.and_eq_true, decide_eq_true_eq] at marked
  exact marked.1

theorem attr_mem (inside : tag ∈ element.nodes) : attr ∈ element.nodes :=
  Node.child_mem_nodes inside h.child

theorem quoted_mem (inside : tag ∈ element.nodes) : quoted ∈ element.nodes :=
  Node.child_mem_nodes (h.attr_mem inside) (by simp [h.parts])

theorem name_marked (inside : tag ∈ element.nodes) : MarkedName element name :=
  markedName_of_isMarkedName (Node.child_mem_nodes (h.attr_mem inside) (by simp [h.parts])) h.marked

/-- An attribute has nothing below it but its name, its quotes and values. -/
theorem cases_of_mem (leaf : name.children = []) {n : Node} (inside : n ∈ attr.nodes) :
    n = attr ∨ n = name ∨ n = quoted ∨ n.kind = .attrValue := by
  rw [Node.nodes_eq, h.parts] at inside
  rcases List.mem_cons.mp inside with rfl | below
  · exact Or.inl rfl
  · obtain ⟨part, member, lower⟩ := Node.mem_nodesIn.mp below
    rcases List.mem_pair.mp member with rfl | rfl
    · exact Or.inr (Or.inl (Node.eq_of_mem_leaf leaf lower))
    · rw [Node.nodes_eq] at lower
      rcases List.mem_cons.mp lower with rfl | deeper
      · exact Or.inr (Or.inr (Or.inl rfl))
      · obtain ⟨v, value, lowest⟩ := Node.mem_nodesIn.mp deeper
        obtain ⟨kind, leaf⟩ := h.values v value
        obtain rfl := Node.eq_of_mem_leaf leaf lowest
        exact Or.inr (Or.inr (Or.inr kind))

theorem not_container (leaf : name.children = []) {n : Node} (inside : n ∈ attr.nodes) :
    n.kind.isContainer = false := by
  rcases h.cases_of_mem leaf inside with rfl | rfl | rfl | value
  · rw [h.kind]
    rfl
  · rw [h.name_kind]
    rfl
  · rw [h.quotes]
    rfl
  · rw [value]
    rfl

/-- A cursor in the quotes lies in the attribute and in the tag. -/
theorem covers (nested : root.WellNested) (inside : quoted.Covers p) :
    attr.Covers p ∧ tag.Covers p := by
  have attrIn := h.attr_mem h.placed.inTree
  have quotedIn : quoted ∈ attr.nodes :=
    Node.child_mem_nodes attr.self_mem_nodes (by simp [h.parts])
  have attrCovers := covers_of_mem_nodes (nested.below attrIn) quotedIn inside
  exact ⟨attrCovers, covers_of_mem_nodes (nested.below h.placed.inTree)
    (h.attr_mem tag.self_mem_nodes) attrCovers⟩

/-- The innermost container around a cursor in the attribute has the tag in it. -/
theorem enclosing (nested : root.WellNested) (leaves : root.NamesAreLeaves)
    (attrCovers : attr.Covers p) (fits : searchPoint p = p) :
    ∃ element, root.enclosing? p = some element ∧ element ∈ root.nodes ∧ tag ∈ element.nodes := by
  have tagCovers := covers_of_mem_nodes (nested.below h.placed.inTree)
    (h.attr_mem tag.self_mem_nodes) attrCovers
  obtain ⟨c, inRoot, container, below⟩ := h.contained
  obtain ⟨element, enclosed, member, kind⟩ := enclosing?_of_container nested inRoot container
    (covers_of_mem_nodes (nested.below inRoot) below tagCovers) fits
  refine ⟨element, enclosed, Node.mem_nodes_of_enclosing enclosed, ?_⟩
  -- above the tag everything has the tag in it, and below there is no container
  obtain ⟨frames, way⟩ := leads_of_mem_nodes h.placed.inTree
  obtain ⟨above, down, higher⟩ := way.descent nested tagCovers
  obtain ⟨before, after, children, _⟩ := h.placed.behind
  rw [down, (nested tag h.placed.inTree).descent children attrCovers] at member
  rcases List.mem_append.mp member with outer | under
  · exact higher element outer
  · rcases List.mem_cons.mp under with rfl | lower
    · exact element.self_mem_nodes
    · have named := h.name_marked h.placed.inTree
      have none := h.not_container (leaves name named.inTree named.kind)
        (Node.descent_subset p attr lower)
      cases none.symm.trans kind

theorem inQuotes (inside : tag ∈ element.nodes) : InQuotes element attr name quoted :=
  ⟨⟨tag, inside, h.placed.kind, h.placed.behind⟩, h.kind, h.marked,
    ⟨[name], [], h.parts, List.mem_singleton.mpr rfl⟩, h.quotes⟩

/-- The value is among the candidates. -/
theorem candidate (inside : tag ∈ element.nodes) :
    ∃ shape, ⟨name, shape⟩ ∈ element.valuedAttributes := by
  rcases h.written with empty | ⟨v, value⟩
  · exact ⟨_, empty_mem_valuedAttributes_iff.mpr ⟨h.inQuotes inside, empty⟩⟩
  · exact ⟨_, filled_mem_valuedAttributes_iff.mpr
      ⟨quoted, h.inQuotes inside, value, (h.values v value).1⟩⟩

section Element

variable (nested : element.WellNested) (leaves : element.NamesAreLeaves)
  (inside : tag ∈ element.nodes)
include nested leaves inside

/-- Of the names that begin at or before a cursor in the attribute, none starts behind its name. -/
theorem start_le (covers : attr.Covers p) {other : Node} (named : MarkedName element other)
    (begun : other.start ≤ p) : other.start ≤ name.start := by
  by_contra later
  have later := Point.not_le.mp later
  have attrIn := h.attr_mem inside
  have first := ((nested attr attrIn).inside name (by simp [h.parts])).1
  have around : attr.Covers other.start := ⟨Point.le_of_lt (Point.lt_of_le_of_lt first later),
    Point.lt_of_le_of_lt begun covers.2⟩
  have nameLeaf := leaves name (h.name_marked inside).inTree h.name_kind
  rcases below_or_above nested named.inTree attrIn (named.covers nested) around with under | outer
  · rcases h.cases_of_mem nameLeaf under with rfl | rfl | rfl | value
    · cases h.kind.symm.trans named.kind
    · exact Point.not_le.mpr later (Point.le_refl _)
    · cases h.quotes.symm.trans named.kind
    · cases value.symm.trans named.kind
  · obtain rfl := Node.eq_of_mem_leaf (leaves other named.inTree named.kind) outer
    cases h.kind.symm.trans named.kind

/-- A candidate of the attribute counts at a cursor in it. -/
theorem mem_nearest_of_candidate (covers : attr.Covers p) (begun : name.start ≤ p)
    {shape : ValueShape} (candidate : ⟨name, shape⟩ ∈ element.valuedAttributes) :
    ⟨name, shape⟩ ∈ nearest p element.valuedAttributes :=
  mem_nearest.mpr ⟨⟨candidate, begun⟩, fun _ member begunW =>
    h.start_le nested leaves inside covers (mem_valuedAttributes member).name begunW⟩

/-- The candidates that count at a cursor in the attribute have its name. -/
theorem name_of_nearest (covers : attr.Covers p) (begun : name.start ≤ p) {w : ValuedAttribute}
    (near : w ∈ nearest p element.valuedAttributes) : w.name = name := by
  obtain ⟨shape, candidate⟩ := h.candidate inside
  exact name_eq_of_nearest nested leaves near
    (h.mem_nearest_of_candidate nested leaves inside covers begun candidate)

/-- The name has no other parent than the attribute. -/
theorem parent_eq {n : Node} (member : n ∈ element.nodes) (child : name ∈ n.children) : n = attr :=
  (h.name_marked inside).parent_unique nested leaves member (h.attr_mem inside) child
    (by simp [h.parts])

/-- At a cursor in the attribute its shapes are read, under its name. -/
theorem valuePosition?_eq (mode : Mode) (covers : attr.Covers p) (begun : name.start ≤ p) :
    valuePosition? mode p element.valuedAttributes =
      shapePosition? mode p name ((nearest p element.valuedAttributes).map (·.shape)) := by
  obtain ⟨shape, candidate⟩ := h.candidate inside
  exact valuePosition?_of_nearest nested leaves mode
    (h.mem_nearest_of_candidate nested leaves inside covers begun candidate)

end Element

end QuotedValue

end Markup

end Hypertag
