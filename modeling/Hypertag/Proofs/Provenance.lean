import Hypertag.Markup.Position
import Hypertag.Proofs.MarkupTree
import Mathlib.Data.List.Infix
import Mathlib.Data.List.Nodup

/-!
# Where positions come from

A position is put together from candidates of many kinds, found all over an element. Its name is
the text of one marked name of the tree. What else goes into it belongs to the attribute of that
name, as long as no two names start at the same point. Which of several names is taken, and where
none is, is not said here.
-/

namespace Hypertag

namespace Text

theorem indexOf?_isSome_iff {needle t : Text} : (indexOf? needle t).isSome ↔ needle <:+: t := by
  induction t with
  | nil =>
    rw [indexOf?, List.infix_nil]
    cases needle <;> simp
  | cons u rest ih =>
    rw [indexOf?, List.infix_cons_iff, ← ih, ← List.isPrefixOf_iff_prefix]
    split
    · next here => simp [here]
    · next later => simp [later]

theorem hasInfix_iff {t needle : Text} : t.hasInfix needle = true ↔ needle <:+: t :=
  indexOf?_isSome_iff

end Text

namespace Markup

structure MarkedName (root name : Node) : Prop where
  inTree : name ∈ root.nodes
  kind : name.kind = .attrName
  marked : attributeMark <:+: name.text

theorem markedName_of_isMarkedName {root name : Node} (inTree : name ∈ root.nodes)
    (h : name.isMarkedName = true) : MarkedName root name := by
  simp only [Node.isMarkedName, Node.isAttributeName, Bool.and_eq_true, decide_eq_true_eq] at h
  exact ⟨inTree, h.1, Text.hasInfix_iff.mp h.2⟩

structure AttributeOf (root name attr : Node) : Prop where
  inTree : attr ∈ root.nodes
  kind : attr.kind = .attr
  name : name ∈ attr.children

/-- Whether all parts of a shape stand in a tree as it says, around a name. -/
def ValueShape.Around (root name : Node) : ValueShape → Prop
  | unclosed tag => tag ∈ root.nodes ∧ tag.kind = .error ∧ name ∈ tag.children
  | beforeError attr error => AttributeOf root name attr ∧
      ∃ tag ∈ root.nodes, attr ∈ tag.children ∧ error ∈ tag.children ∧ error.kind = .error
  | empty attr quoted => AttributeOf root name attr ∧
      quoted ∈ attr.children ∧ quoted.kind = .quotedValue ∧ quoted.text = emptyQuotes
  | filled attr value => AttributeOf root name attr ∧
      ∃ quoted ∈ attr.children, quoted.kind = .quotedValue ∧
        value ∈ quoted.children ∧ value.kind = .attrValue

/-! ### Candidates -/

theorem Leads.child {root node : Node} {f : Frame} {above : List Frame}
    (h : Leads root node (f :: above)) : node ∈ f.parent.children := by
  cases h with
  | step children _ => simp [children]

theorem Leads.before {root node : Node} {f : Frame} {above : List Frame}
    (h : Leads root node (f :: above)) {sibling : Node} (hs : sibling ∈ f.before) :
    sibling ∈ f.parent.children := by
  cases h with
  | step children _ => simp [children, hs]

theorem Leads.parent {root node : Node} {f : Frame} {above : List Frame}
    (h : Leads root node (f :: above)) : Leads root f.parent above := by
  cases h with
  | step _ upwards => exact upwards

theorem mem_behindTagName {nodes : List Node} {n : Node} (h : n ∈ behindTagName nodes) :
    n ∈ nodes :=
  (List.dropWhile_sublist _).subset (List.mem_of_mem_drop h)

theorem mem_followedNames {nodes : List Node} {n : Node} (h : n ∈ Node.followedNames nodes) :
    n ∈ nodes ∧ n.isMarkedName = true := by
  induction nodes with
  | nil => cases h
  | cons first rest ih =>
    rw [Node.followedNames] at h
    split at h
    · next fits =>
      rcases List.mem_cons.mp h with rfl | later
      · exact ⟨List.mem_cons_self, (Bool.and_eq_true_iff.mp fits).1⟩
      · exact ⟨List.mem_cons_of_mem first (ih later).1, (ih later).2⟩
    · exact ⟨List.mem_cons_of_mem first (ih h).1, (ih h).2⟩

/-- A bare attribute has a marked name of the tree. -/
theorem mem_bareAttributes {root : Node} {b : BareAttribute} (h : b ∈ root.bareAttributes) :
    MarkedName root b.name := by
  obtain ⟨visit, visited, found⟩ := List.mem_flatMap.mp h
  unfold BareAttribute.ofVisit at found
  split at found
  · next name inAttribute inTag above =>
    split at found
    · next fits =>
      obtain rfl := List.mem_singleton.mp found
      simp only [Bool.and_eq_true] at fits
      exact markedName_of_isMarkedName (leads_of_walk visited).mem_nodes fits.1.1.1
    · cases found
  · cases found

/-- What holds of a valued attribute: a marked name of the tree, and a shape around it. -/
structure ValuedAttribute.Placed (root : Node) (v : ValuedAttribute) : Prop where
  name : MarkedName root v.name
  shape : v.shape.Around root v.name

section Visits

variable {root node : Node} {v : ValuedAttribute}

theorem placed_of_unclosed {f : Frame} {above : List Frame} (way : Leads root node (f :: above))
    (h : v ∈ ValuedAttribute.unclosed node f) : v.Placed root := by
  unfold ValuedAttribute.unclosed at h
  split at h
  · next fits =>
    obtain ⟨name, found, rfl⟩ := List.mem_map.mp h
    obtain ⟨last, marked⟩ := Option.filter_eq_some_iff.mp (Option.mem_toList.mp found)
    have sibling := way.before (List.mem_of_mem_filter (List.mem_of_getLast? last))
    simp only [Bool.and_eq_true, Node.isError, decide_eq_true_eq] at fits
    have tag := way.parent.mem_nodes
    exact ⟨markedName_of_isMarkedName (Node.child_mem_nodes tag sibling) marked,
      tag, fits.1.2, sibling⟩
  · cases h

theorem placed_of_beforeError {f : Frame} {above : List Frame} (way : Leads root node (f :: above))
    (h : v ∈ ValuedAttribute.beforeError node f) : v.Placed root := by
  unfold ValuedAttribute.beforeError at h
  split at h
  · next fits =>
    obtain ⟨attr, found, named⟩ := List.mem_flatMap.mp h
    obtain ⟨name, followed, rfl⟩ := List.mem_map.mp named
    obtain ⟨behind, kind⟩ := List.mem_filter.mp found
    obtain ⟨child, marked⟩ := mem_followedNames followed
    simp only [Bool.and_eq_true, Node.isError, decide_eq_true_eq] at fits kind
    have sibling := way.before (mem_behindTagName behind)
    have inTree := Node.child_mem_nodes way.parent.mem_nodes sibling
    exact ⟨markedName_of_isMarkedName (Node.child_mem_nodes inTree child) marked,
      ⟨inTree, kind, child⟩, f.parent, way.parent.mem_nodes, sibling, way.child, fits.1⟩
  · cases h

theorem placed_of_empty {f g : Frame} {above : List Frame} (way : Leads root node (f :: above))
    (h : v ∈ ValuedAttribute.empty node f g) : v.Placed root := by
  unfold ValuedAttribute.empty at h
  split at h
  · next fits =>
    obtain ⟨name, found, rfl⟩ := List.mem_map.mp h
    obtain ⟨before, marked⟩ := List.mem_filter.mp found
    simp only [Bool.and_eq_true, decide_eq_true_eq] at fits
    have attr := way.parent.mem_nodes
    exact ⟨markedName_of_isMarkedName (Node.child_mem_nodes attr (way.before before)) marked,
      ⟨attr, fits.1.2, way.before before⟩, way.child, fits.1.1.1, fits.1.1.2⟩
  · cases h

theorem placed_of_filled {f g h : Frame} {above : List Frame}
    (way : Leads root node (f :: g :: above)) (found : v ∈ ValuedAttribute.filled node f g h) :
    v.Placed root := by
  unfold ValuedAttribute.filled at found
  split at found
  · next fits =>
    obtain ⟨name, named, rfl⟩ := List.mem_map.mp found
    obtain ⟨before, marked⟩ := List.mem_filter.mp named
    simp only [Bool.and_eq_true, decide_eq_true_eq] at fits
    have quoted := way.parent
    have attr := quoted.parent.mem_nodes
    exact ⟨markedName_of_isMarkedName (Node.child_mem_nodes attr (quoted.before before)) marked,
      ⟨attr, fits.1.2, quoted.before before⟩, f.parent, quoted.child, fits.1.1.2, way.child,
      fits.1.1.1⟩
  · cases found

end Visits

/-- A valued attribute is found where a node below a tag is entered, in one of four ways. -/
theorem valuedAttribute_of_visit {visit : Visit} {v : ValuedAttribute}
    (h : v ∈ ValuedAttribute.ofVisit visit) : ∃ node f above, visit = .enter node (f :: above) ∧
      (v ∈ ValuedAttribute.unclosed node f ∨ v ∈ ValuedAttribute.beforeError node f ∨
        (∃ inTag rest, above = inTag :: rest ∧ v ∈ ValuedAttribute.empty node f inTag) ∨
        ∃ inAttribute inTag rest, above = inAttribute :: inTag :: rest ∧
          v ∈ ValuedAttribute.filled node f inAttribute inTag) := by
  unfold ValuedAttribute.ofVisit at h
  split at h
  · cases h
  · cases h
  · next node f =>
    refine ⟨node, f, [], rfl, ?_⟩
    rcases List.mem_append.mp h with unclosed | beforeError
    · exact Or.inl unclosed
    · exact Or.inr (Or.inl beforeError)
  · next node f g =>
    refine ⟨node, f, [g], rfl, ?_⟩
    simp only [List.mem_append] at h
    rcases h with (unclosed | beforeError) | empty
    · exact Or.inl unclosed
    · exact Or.inr (Or.inl beforeError)
    · exact Or.inr (Or.inr (Or.inl ⟨g, [], rfl, empty⟩))
  · next node f g i above =>
    refine ⟨node, f, g :: i :: above, rfl, ?_⟩
    simp only [List.mem_append] at h
    rcases h with ((unclosed | beforeError) | empty) | filled
    · exact Or.inl unclosed
    · exact Or.inr (Or.inl beforeError)
    · exact Or.inr (Or.inr (Or.inl ⟨g, i :: above, rfl, empty⟩))
    · exact Or.inr (Or.inr (Or.inr ⟨g, i, above, rfl, filled⟩))

theorem valuedAttribute_cases {root : Node} {v : ValuedAttribute} (h : v ∈ root.valuedAttributes) :
    ∃ node f above, Leads root node (f :: above) ∧
      (v ∈ ValuedAttribute.unclosed node f ∨ v ∈ ValuedAttribute.beforeError node f ∨
        (∃ inTag rest, above = inTag :: rest ∧ v ∈ ValuedAttribute.empty node f inTag) ∨
        ∃ inAttribute inTag rest, above = inAttribute :: inTag :: rest ∧
          v ∈ ValuedAttribute.filled node f inAttribute inTag) := by
  obtain ⟨visit, visited, found⟩ := List.mem_flatMap.mp h
  obtain ⟨node, f, above, rfl, ways⟩ := valuedAttribute_of_visit found
  exact ⟨node, f, above, leads_of_walk visited, ways⟩

theorem mem_valuedAttributes {root : Node} {v : ValuedAttribute}
    (h : v ∈ root.valuedAttributes) : v.Placed root := by
  obtain ⟨node, f, above, way, found⟩ := valuedAttribute_cases h
  rcases found with unclosed | beforeError | ⟨inTag, rest, _, empty⟩ |
    ⟨inAttribute, inTag, rest, rfl, filled⟩
  · exact placed_of_unclosed way unclosed
  · exact placed_of_beforeError way beforeError
  · exact placed_of_empty way empty
  · exact placed_of_filled way filled

/-! ### From an element to its tree -/

section Lift

variable {root element name : Node} (inside : element ∈ root.nodes)
include inside

theorem MarkedName.lift (h : MarkedName element name) : MarkedName root name :=
  ⟨(Node.nodes_sublist root inside).subset h.inTree, h.kind, h.marked⟩

theorem AttributeOf.lift {attr : Node} (h : AttributeOf element name attr) :
    AttributeOf root name attr :=
  ⟨(Node.nodes_sublist root inside).subset h.inTree, h.kind, h.name⟩

theorem ValueShape.Around.lift {shape : ValueShape} (h : shape.Around element name) :
    shape.Around root name := by
  have nodes := (Node.nodes_sublist root inside).subset
  cases shape with
  | unclosed tag => exact ⟨nodes h.1, h.2⟩
  | beforeError attr error =>
    obtain ⟨held, tag, inTree, rest⟩ := h
    exact ⟨held.lift inside, tag, nodes inTree, rest⟩
  | empty attr quoted => exact ⟨h.1.lift inside, h.2⟩
  | filled attr value => exact ⟨h.1.lift inside, h.2⟩

end Lift

/-! ### The choice among candidates -/

theorem mem_of_latest? {α : Type} {p : Point} {start : α → Point} {candidates : List α} {c : α}
    (h : latest? p start candidates = some c) : c ∈ candidates ∧ start c ≤ p := by
  obtain ⟨member, begun⟩ := List.mem_filter.mp (List.mem_of_getLast? h)
  exact ⟨member, of_decide_eq_true begun⟩

theorem mem_of_latestPart? {p : Point} {shapes : List ValueShape} {part : ValueShape → Option Node}
    {n : Node} (h : latestPart? p shapes part = some n) : ∃ s ∈ shapes, part s = some n :=
  List.mem_filterMap.mp (mem_of_latest? h).1

theorem mem_nearest {p : Point} {values : List ValuedAttribute} {v : ValuedAttribute} :
    v ∈ nearest p values ↔ (v ∈ values ∧ v.name.start ≤ p) ∧
      ∀ w ∈ values, w.name.start ≤ p → w.name.start ≤ v.name.start := by
  simp only [nearest, List.mem_filter, List.all_eq_true, decide_eq_true_eq, and_imp]

/-- The nearest candidates all start at one point. -/
theorem start_of_nearest {p : Point} {values : List ValuedAttribute} {v w : ValuedAttribute}
    (hv : v ∈ nearest p values) (hw : w ∈ nearest p values) : v.name.start = w.name.start := by
  obtain ⟨⟨memberV, begunV⟩, lastV⟩ := mem_nearest.mp hv
  obtain ⟨⟨memberW, begunW⟩, lastW⟩ := mem_nearest.mp hw
  exact Point.le_antisymm (lastW v memberV begunV) (lastV w memberW begunW)

/-- A position read from names is that of a bare attribute, or asks for a new one. -/
theorem namePosition?_eq_some {mode : Mode} {p : Point} {bares : List BareAttribute}
    {tags : List OpenTag} {position : Position}
    (h : namePosition? mode p bares tags = some position) :
    position = .name newAttribute ∧ mode = .completion ∨
      ∃ b ∈ bares, b.name.start ≤ p ∧ position = .name b.name.text := by
  obtain ⟨bare, found, read⟩ := Option.bind_eq_some_iff.mp h
  obtain ⟨member, begun⟩ := mem_of_latest? found
  have written : some (Position.name bare.name.text) = some position →
      ∃ b ∈ bares, b.name.start ≤ p ∧ position = .name b.name.text := fun same =>
    ⟨bare, member, begun, (Option.some.inj same).symm⟩
  split at read
  · exact Or.inr (written read)
  · split at read
    · split at read
      · exact Or.inr (written read)
      · cases read
    · split at read
      · exact Or.inl ⟨(Option.some.inj read).symm, rfl⟩
      · split at read
        · cases read
        · exact Or.inr (written read)

theorem filled_of_latestPart? {p : Point} {shapes : List ValueShape} {value : Node}
    (h : latestPart? p shapes ValueShape.value? = some value) :
    ∃ attr, ValueShape.filled attr value ∈ shapes := by
  obtain ⟨shape, member, part⟩ := mem_of_latestPart? h
  cases shape with
  | filled attr v =>
    obtain rfl := Option.some.inj part
    exact ⟨attr, member⟩
  | unclosed tag => cases part
  | beforeError attr error => cases part
  | empty attr quoted => cases part

/-- A position read from the shapes of one value has the attribute's name, and its value is empty
or written in one of the shapes. -/
theorem shapePosition?_eq_some {mode : Mode} {p : Point} {name : Node} {shapes : List ValueShape}
    {position : Position} (h : shapePosition? mode p name shapes = some position) :
    position = .name name.text ∨ position = .value name.text [] ∨ mode = .hover ∧
      ∃ attr value, ValueShape.filled attr value ∈ shapes ∧
        position = .value name.text value.text := by
  have empty : some (Position.value name.text []) = some position →
      position = .value name.text [] := fun same => (Option.some.inj same).symm
  unfold shapePosition? at h
  split at h
  · exact Or.inl (Option.some.inj h).symm
  · split at h
    · split at h
      · cases h
      · exact Or.inr (Or.inl (empty h))
    · split at h
      · cases h
      · split at h
        · exact Or.inr (Or.inl (empty h))
        · split at h
          · cases h
          · split at h
            · cases found : latestPart? p shapes ValueShape.value? with
              | none =>
                rw [found] at h
                exact Or.inr (Or.inl (empty h))
              | some value =>
                rw [found] at h
                obtain ⟨attr, member⟩ := filled_of_latestPart? found
                exact Or.inr (Or.inr ⟨rfl, attr, value, member, (Option.some.inj h).symm⟩)
            · exact Or.inr (Or.inl (empty h))

/-- Where a position in a tree was read: from the names of the innermost element around the cursor,
or from the values of the attribute nearest to it. -/
theorem position?_eq_some {root : Node} {p : Point} {mode : Mode} {position : Position}
    (h : root.position? p mode = some position) : ∃ element ∈ root.nodes,
      namePosition? mode p element.bareAttributes element.openTags = some position ∨
      ∃ v ∈ nearest p element.valuedAttributes, shapePosition? mode p v.name
        ((nearest p element.valuedAttributes).map (·.shape)) = some position := by
  obtain ⟨element, found, read⟩ := Option.bind_eq_some_iff.mp h
  refine ⟨element, Node.mem_nodes_of_enclosing found, ?_⟩
  rcases Option.or_eq_some_iff.mp read with named | ⟨_, valued⟩
  · exact Or.inl named
  · obtain ⟨v, last, shaped⟩ := Option.bind_eq_some_iff.mp valued
    exact Or.inr ⟨v, List.mem_of_getLast? last, shaped⟩

/-! ### Positions -/

/-- Whether no two names of attributes start at one point. -/
def Node.DistinctNames (root : Node) : Prop :=
  ((root.nodes.filter Node.isAttributeName).map Node.start).Nodup

instance (root : Node) : Decidable root.DistinctNames :=
  inferInstanceAs (Decidable (List.Nodup _))

/-- Where names start at distinct points, a name is known by its start. -/
theorem MarkedName.eq_of_start {root a b : Node} (distinct : root.DistinctNames)
    (ha : MarkedName root a) (hb : MarkedName root b) (same : a.start = b.start) : a = b := by
  have listed : ∀ {n}, MarkedName root n → n ∈ root.nodes.filter Node.isAttributeName :=
    fun h => List.mem_filter.mpr ⟨h.inTree, decide_eq_true h.kind⟩
  exact List.inj_on_of_nodup_map distinct (listed ha) (listed hb) same

structure ReadAt (root : Node) (p : Point) (name : Node) : Prop extends MarkedName root name where
  begun : name.start ≤ p

/-- Whether a text stands inside the quotes of the attribute that has a name. -/
def QuotedFor (root name : Node) (text : Text) : Prop :=
  ∃ attr, AttributeOf root name attr ∧ ∃ quoted ∈ attr.children, quoted.kind = .quotedValue ∧
    ∃ value ∈ quoted.children, value.kind = .attrValue ∧ value.text = text

theorem ReadAt.of_bare {root element : Node} (inside : element ∈ root.nodes) {p : Point}
    {b : BareAttribute} (member : b ∈ element.bareAttributes) (begun : b.name.start ≤ p) :
    ReadAt root p b.name :=
  ⟨(mem_bareAttributes member).lift inside, begun⟩

theorem ReadAt.of_nearest {root element : Node} (inside : element ∈ root.nodes) {p : Point}
    {v : ValuedAttribute} (near : v ∈ nearest p element.valuedAttributes) :
    ReadAt root p v.name := by
  obtain ⟨⟨member, begun⟩, _⟩ := mem_nearest.mp near
  exact ⟨(mem_valuedAttributes member).name.lift inside, begun⟩

/-- The shapes of the nearest candidates belong to one name. -/
theorem around_of_nearest {root element : Node} (distinct : root.DistinctNames)
    (inside : element ∈ root.nodes) {p : Point} {v : ValuedAttribute}
    (near : v ∈ nearest p element.valuedAttributes) :
    ∀ shape ∈ (nearest p element.valuedAttributes).map (·.shape), shape.Around root v.name := by
  intro shape listed
  obtain ⟨w, other, rfl⟩ := List.mem_map.mp listed
  have placed := mem_valuedAttributes (mem_nearest.mp other).1.1
  have same : w.name = v.name := MarkedName.eq_of_start distinct (placed.name.lift inside)
    (ReadAt.of_nearest inside near).toMarkedName (start_of_nearest other near)
  exact same ▸ placed.shape.lift inside

/-- A name at the cursor is the text of a marked name, or stands for a new attribute. A value at
the cursor is that of an attribute with such a name: it is empty, or it stands in the quotes of the
same attribute, and it is read from the shapes of that name alone. -/
theorem position_of_one_attribute {root : Node} (distinct : root.DistinctNames) (p : Point)
    (mode : Mode) :
    (∀ n, root.position? p mode = some (.name n) →
      n = newAttribute ∧ mode = .completion ∨ ∃ name, ReadAt root p name ∧ name.text = n) ∧
    ∀ n v, root.position? p mode = some (.value n v) → ∃ name, ReadAt root p name ∧
      name.text = n ∧ (v = [] ∨ mode = .hover ∧ QuotedFor root name v) ∧
      ∃ shapes, root.position? p mode = shapePosition? mode p name shapes ∧
        ∀ shape ∈ shapes, shape.Around root name := by
  constructor
  · intro n found
    obtain ⟨element, inside, read⟩ := position?_eq_some found
    rcases read with named | ⟨v, near, shaped⟩
    · rcases namePosition?_eq_some named with ⟨new, completes⟩ | ⟨b, member, begun, written⟩
      · exact Or.inl ⟨Position.name.inj new, completes⟩
      · exact Or.inr ⟨b.name, .of_bare inside member begun, (Position.name.inj written).symm⟩
    · refine Or.inr ⟨v.name, .of_nearest inside near, ?_⟩
      rcases shapePosition?_eq_some shaped with written | empty | ⟨_, _, _, _, filled⟩
      · exact (Position.name.inj written).symm
      · cases empty
      · cases filled
  · intro n text found
    obtain ⟨element, inside, read⟩ := position?_eq_some found
    rcases read with named | ⟨v, near, shaped⟩
    · rcases namePosition?_eq_some named with ⟨new, _⟩ | ⟨_, _, _, written⟩
      · cases new
      · cases written
    · have around := around_of_nearest distinct inside near
      have alone := found.trans shaped.symm
      rcases shapePosition?_eq_some shaped with
        written | empty | ⟨hover, attr, value, member, filled⟩
      · cases written
      · cases empty
        exact ⟨v.name, .of_nearest inside near, rfl, Or.inl rfl, _, alone, around⟩
      · cases filled
        obtain ⟨held, quoted, child, kind, inner, valueKind⟩ := around _ member
        have written : QuotedFor root v.name value.text :=
          ⟨attr, held, quoted, child, kind, value, inner, valueKind, rfl⟩
        exact ⟨v.name, .of_nearest inside near, rfl, Or.inr ⟨hover, written⟩, _, alone, around⟩

end Markup

namespace Sample

def siblings : Markup.Node :=
  Markup.Outline.locate "<p hx-get=\"a\" hx-swap=\"b\">"
    (.mk .document 0 26 [.mk .element 0 26 [.mk (.other "start_tag") 0 26
      [.mk .tagName 1 2 [],
       .mk .attr 3 13 [.mk .attrName 3 9 [], .mk .quotedValue 10 13 [.mk .attrValue 11 12 []]],
       .mk .attr 14 25
        [.mk .attrName 14 21 [], .mk .quotedValue 22 25 [.mk .attrValue 23 24 []]]]]])

end Sample

open Markup in
/-- The second value is read with the second name. -/
theorem position_of_second_sibling :
    Sample.siblings.DistinctNames ∧
    Sample.siblings.position? ⟨0, 23⟩ .hover =
      some (.value (Text.ofString "hx-swap") (Text.ofString "b")) ∧
    ∃ name, ReadAt Sample.siblings ⟨0, 23⟩ name ∧ name.text = Text.ofString "hx-swap" ∧
      QuotedFor Sample.siblings name (Text.ofString "b") := by
  have distinct : Sample.siblings.DistinctNames := by decide
  have found : Sample.siblings.position? ⟨0, 23⟩ .hover =
    some (.value (Text.ofString "hx-swap") (Text.ofString "b")) := by decide
  obtain ⟨name, read, text, value, _⟩ :=
    (position_of_one_attribute distinct ⟨0, 23⟩ .hover).2 _ _ found
  refine ⟨distinct, found, name, read, text, ?_⟩
  rcases value with empty | ⟨_, quoted⟩
  · exact absurd empty (by decide)
  · exact quoted

end Hypertag
