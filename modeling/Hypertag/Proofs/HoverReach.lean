import Hypertag.Proofs.QuotedAttribute

/-!
# How far a hover reaches

In a tree without errors a hover names an attribute that the cursor is over, with one exception: an
attribute with empty quotes is still read behind its end, up to the next attribute with a value in
quotes or to the end of the element. Bare names and filled values end where they are written. Both
directions are stated, so that the exception is neither larger nor smaller than that.
-/

namespace Hypertag

namespace Markup

def Position.attributeName : Position → Text
  | name n => n
  | value n _ => n

/-- Whether a point lies over an attribute with a name, its end included. -/
def Node.HasOver (root : Node) (p : Point) (n : Text) : Prop :=
  ∃ attr ∈ root.nodes, attr.kind = .attr ∧
    (∃ name ∈ attr.children, name.kind = .attrName ∧ name.text = n) ∧
    attr.start ≤ p ∧ p ≤ attr.stop

instance (root : Node) (p : Point) (n : Text) : Decidable (root.HasOver p n) :=
  inferInstanceAs (Decidable (∃ attr ∈ root.nodes, _))

/-- Whether a node is the name of a marked attribute with a value in quotes that is read. -/
def ReadName (root name : Node) : Prop :=
  ∃ attr quoted, InQuotes root attr name quoted ∧
    (quoted.text = emptyQuotes ∨ ∃ value ∈ quoted.children, value.kind = .attrValue)

/-- An attribute of an element with empty quotes that a cursor has left behind: up to the cursor no
later attribute with a value in quotes begins, and no bare name is at the cursor. -/
structure LeftBehind (element : Node) (p : Point) (attr name quoted : Node) : Prop
    extends InQuotes element attr name quoted where
  empty : quoted.text = emptyQuotes
  ended : attr.stop < p
  last : ∀ other, ReadName element other → other.start ≤ p → other.start ≤ name.start
  aside : ∀ bare, BareName element bare → bare.start ≤ p → bare.stop < p

/-! ### Names -/

section Names

variable {element : Node} {p : Point} (nested : element.WellNested)
include nested

/-- A name that is hovered is a bare one around the cursor, its end included. -/
theorem bareName_of_hover {position : Position}
    (h : namePosition? .hover p element.bareAttributes element.openTags = some position) :
    ∃ bare, BareName element bare ∧ bare.start ≤ p ∧ p ≤ bare.stop ∧
      position = .name bare.text := by
  rw [namePosition?_hover nested] at h
  obtain ⟨b, latest, read⟩ := Option.bind_eq_some_iff.mp h
  obtain ⟨member, begun⟩ := mem_of_latest? latest
  split at read
  · next inside =>
    exact ⟨b.name, mem_bareNames_iff.mp (List.mem_map_of_mem member), begun, inside,
      (Option.some.inj read).symm⟩
  · cases read

/-- No name is hovered exactly when all bare names that have begun have ended. -/
theorem namePosition?_hover_eq_none_iff (leaves : element.NamesAreLeaves) :
    namePosition? .hover p element.bareAttributes element.openTags = none ↔
      ∀ bare, BareName element bare → bare.start ≤ p → bare.stop < p := by
  rw [namePosition?_hover nested, Option.bind_eq_none_iff]
  constructor
  · intro none bare named begun
    rcases latest_bareName nested p with ⟨_, later⟩ | ⟨b, latest, namedB, begunB, last⟩
    · exact absurd begun (Point.not_le.mpr (later bare named))
    · have ended : b.name.stop < p := by
        by_contra goesOn
        simpa [Point.not_lt.mp goesOn] using none b latest
      rcases named.markedName.eq_or_stop_le nested leaves namedB.markedName
        (last bare named begun) with rfl | before
      · exact ended
      · exact Point.lt_of_le_of_lt before (Point.lt_of_le_of_lt
          (nested _ namedB.markedName.inTree).forward ended)
  · intro ended b latest
    obtain ⟨member, begun⟩ := mem_of_latest? latest
    have named := mem_bareNames_iff.mp (List.mem_map_of_mem member)
    exact if_neg (Point.not_le.mpr (ended b.name named begun))

end Names

/-! ### Values -/

theorem readName_iff {root name : Node} :
    ReadName root name ↔ ∃ attr, (∃ quoted, ⟨name, .empty attr quoted⟩ ∈ root.valuedAttributes) ∨
      ∃ value, ⟨name, .filled attr value⟩ ∈ root.valuedAttributes := by
  simp only [empty_mem_valuedAttributes_iff, filled_mem_valuedAttributes_iff]
  constructor
  · rintro ⟨attr, quoted, h, empty | ⟨value, inner, kind⟩⟩
    · exact ⟨attr, Or.inl ⟨quoted, h, empty⟩⟩
    · exact ⟨attr, Or.inr ⟨value, quoted, h, inner, kind⟩⟩
  · rintro ⟨attr, ⟨quoted, h, empty⟩ | ⟨value, quoted, h, inner, kind⟩⟩
    · exact ⟨attr, quoted, h, Or.inl empty⟩
    · exact ⟨attr, quoted, h, Or.inr ⟨value, inner, kind⟩⟩

/-- Behind the end of an attribute a hover reads its values exactly if empty quotes are among
them. -/
theorem shapePosition?_behind {p : Point} {name attr : Node} {shapes : List ValueShape}
    (own : ∀ s ∈ shapes, (∃ quoted, s = .empty attr quoted) ∨ ∃ value, s = .filled attr value)
    (nonempty : shapes ≠ []) (begun : attr.start ≤ p) (nameEnded : name.stop ≤ p)
    (ended : attr.stop ≤ p) {position : Position} :
    shapePosition? .hover p name shapes = some position ↔
      position = .value name.text [] ∧ ∃ quoted, ValueShape.empty attr quoted ∈ shapes := by
  have past : ¬ p < name.stop := Point.not_lt.mpr nameEnded
  by_cases empty : ∃ quoted, ValueShape.empty attr quoted ∈ shapes
  · obtain ⟨quoted, listed⟩ := empty
    have found : latestPart? p shapes ValueShape.emptyAttribute? = some attr := by
      rw [latestPart?_eq (m := attr) ?_ listed rfl, if_pos begun]
      intro s member n has
      rcases own s member with ⟨quoted, rfl⟩ | ⟨value, rfl⟩ <;> cases has
      rfl
    have listed : ∃ quoted, ValueShape.empty attr quoted ∈ shapes := ⟨quoted, listed⟩
    simp only [shapePosition?, past, found, listed, and_false, Option.isSome_some, Bool.or_true,
      reduceIte, reduceCtorEq, false_and, and_true, Option.some.injEq]
    exact eq_comm
  · have filled : ∀ s ∈ shapes, ∃ value, s = .filled attr value := fun s member =>
      (own s member).resolve_left fun ⟨quoted, same⟩ => empty ⟨quoted, same ▸ member⟩
    have absent (part : ValueShape → Option Node)
        (other : ∀ value, part (.filled attr value) = none) : latestPart? p shapes part = none := by
      refine latestPart?_eq_none fun s member n has => ?_
      obtain ⟨value, rfl⟩ := filled s member
      cases (other value).symm.trans has
    have found : latestPart? p shapes ValueShape.filledAttribute? = some attr := by
      obtain ⟨s, member⟩ := List.exists_mem_of_ne_nil shapes nonempty
      obtain ⟨value, rfl⟩ := filled s member
      rw [latestPart?_eq (m := attr) ?_ member rfl, if_pos begun]
      intro t listed n has
      obtain ⟨value, rfl⟩ := filled t listed
      cases has
      rfl
    simp [shapePosition?, past, found, ended, empty,
      absent ValueShape.unclosed? fun _ => rfl,
      absent ValueShape.emptyAttribute? fun _ => rfl,
      absent ValueShape.error? fun _ => rfl]

/-- A position read from the values of an attribute has the attribute's name. -/
theorem attributeName_of_shapePosition? {mode : Mode} {p : Point} {name : Node}
    {shapes : List ValueShape} {position : Position}
    (h : shapePosition? mode p name shapes = some position) :
    position.attributeName = name.text := by
  rcases shapePosition?_eq_some h with rfl | rfl | ⟨_, _, _, _, rfl⟩ <;> rfl

section Values

variable {element : Node} {p : Point} (nested : element.WellNested) (clean : element.ErrorFree)
  (leaves : element.NamesAreLeaves)

include clean in
/-- Without errors every candidate has a value in quotes. -/
theorem quotes_of_errorFree {v : ValuedAttribute} (listed : v ∈ element.valuedAttributes) :
    ∃ attr, AttributeOf element v.name attr ∧
      ((∃ quoted, v.shape = .empty attr quoted) ∨ ∃ value, v.shape = .filled attr value) := by
  rcases (mem_valuedAttributes listed).shape.of_errorFree clean with
    ⟨attr, quoted, shape, held, _⟩ | ⟨attr, value, shape, held⟩
  · exact ⟨attr, held, Or.inl ⟨quoted, shape⟩⟩
  · exact ⟨attr, held, Or.inr ⟨value, shape⟩⟩

include clean in
theorem readName_of_errorFree {v : ValuedAttribute} (listed : v ∈ element.valuedAttributes) :
    ReadName element v.name := by
  obtain ⟨attr, _, ⟨quoted, shape⟩ | ⟨value, shape⟩⟩ := quotes_of_errorFree clean listed
  · exact readName_iff.mpr ⟨attr, Or.inl ⟨quoted, shape ▸ listed⟩⟩
  · exact readName_iff.mpr ⟨attr, Or.inr ⟨value, shape ▸ listed⟩⟩

include nested clean leaves

/-- Without errors the values that count belong to one attribute. -/
theorem shapes_of_nearest {v : ValuedAttribute} (near : v ∈ nearest p element.valuedAttributes)
    {attr : Node} (held : AttributeOf element v.name attr) :
    ∀ s ∈ (nearest p element.valuedAttributes).map (·.shape),
      (∃ quoted, s = .empty attr quoted) ∨ ∃ value, s = .filled attr value := by
  intro s listed
  obtain ⟨w, nearW, rfl⟩ := List.mem_map.mp listed
  have candidate := (mem_nearest.mp nearW).1.1
  obtain ⟨other, heldW, shape⟩ := quotes_of_errorFree clean candidate
  have named := (mem_valuedAttributes candidate).name
  rw [← name_eq_of_nearest nested leaves nearW near] at held
  obtain rfl := named.parent_unique nested leaves heldW.inTree held.inTree heldW.name held.name
  exact shape

/-- Behind its end a hover reads an attribute exactly if empty quotes are among its values. -/
theorem shapePosition?_of_nearest {v : ValuedAttribute}
    (near : v ∈ nearest p element.valuedAttributes) {attr : Node}
    (held : AttributeOf element v.name attr) (ended : attr.stop < p) {position : Position} :
    shapePosition? .hover p v.name ((nearest p element.valuedAttributes).map (·.shape)) =
        some position ↔
      position = .value v.name.text [] ∧
        ∃ quoted, ⟨v.name, .empty attr quoted⟩ ∈ nearest p element.valuedAttributes := by
  have span := nested attr held.inTree
  have listed : v.shape ∈ (nearest p element.valuedAttributes).map (·.shape) :=
    List.mem_map_of_mem near
  rw [shapePosition?_behind (shapes_of_nearest nested clean leaves near held)
    (List.ne_nil_of_mem listed) (Point.le_trans span.forward (Point.le_of_lt ended))
    (Point.le_trans (span.inside v.name held.name).2 (Point.le_of_lt ended)) (Point.le_of_lt ended)]
  refine and_congr_right fun _ => exists_congr fun quoted => ?_
  constructor
  · intro member
    obtain ⟨w, nearW, shape⟩ := List.mem_map.mp member
    rw [← name_eq_of_nearest nested leaves nearW near, ← shape]
    exact nearW
  · exact fun member => List.mem_map.mpr ⟨_, member, rfl⟩

end Values

/-! ### The reach of a hover -/

theorem Node.HasOver.lift {root element : Node} (inside : element ∈ root.nodes) {p : Point}
    {n : Text} (h : element.HasOver p n) : root.HasOver p n := by
  obtain ⟨attr, inTree, rest⟩ := h
  exact ⟨attr, (Node.nodes_sublist root inside).subset inTree, rest⟩

theorem BareName.hasOver {element bare : Node} (nested : element.WellNested) {p : Point}
    (h : BareName element bare) (begun : bare.start ≤ p) (within : p ≤ bare.stop) :
    element.HasOver p bare.text := by
  obtain ⟨tag, attr, placed, kind, child, _⟩ := h.whole
  have inTree := Node.child_mem_nodes placed.inTree placed.child
  have span := (nested attr inTree).inside bare child
  exact ⟨attr, inTree, kind, ⟨bare, child, h.markedName.kind, rfl⟩,
    Point.le_trans span.1 begun, Point.le_trans within span.2⟩

section Reach

variable {element : Node} {p : Point} (nested : element.WellNested) (clean : element.ErrorFree)
  (leaves : element.NamesAreLeaves)
include nested clean leaves

/-- A hovered value is one that the cursor is over, or an empty one left behind. -/
theorem hasOver_or_leftBehind {v : ValuedAttribute}
    (near : v ∈ nearest p element.valuedAttributes)
    (aside : ∀ bare, BareName element bare → bare.start ≤ p → bare.stop < p) {position : Position}
    (read : shapePosition? .hover p v.name ((nearest p element.valuedAttributes).map (·.shape)) =
      some position) :
    element.HasOver p position.attributeName ∨ ∃ attr quoted,
      LeftBehind element p attr v.name quoted ∧ position = .value v.name.text [] := by
  obtain ⟨⟨candidate, begun⟩, last⟩ := mem_nearest.mp near
  obtain ⟨attr, held, _⟩ := quotes_of_errorFree clean candidate
  by_cases within : p ≤ attr.stop
  · have span := (nested attr held.inTree).inside v.name held.name
    have written := attributeName_of_shapePosition? read
    exact Or.inl ⟨attr, held.inTree, held.kind,
      ⟨v.name, held.name, (mem_valuedAttributes candidate).name.kind, written.symm⟩,
      Point.le_trans span.1 begun, within⟩
  · have ended := Point.not_le.mp within
    obtain ⟨same, quoted, empty⟩ :=
      (shapePosition?_of_nearest nested clean leaves near held ended).mp read
    obtain ⟨inQuotes, text⟩ := empty_mem_valuedAttributes_iff.mp (mem_nearest.mp empty).1.1
    refine Or.inr ⟨attr, quoted, ⟨inQuotes, text, ended, ?_, aside⟩, same⟩
    intro other named begunOther
    obtain ⟨_, listed⟩ := readName_iff.mp named
    rcases listed with ⟨_, listed⟩ | ⟨_, listed⟩ <;> exact last _ listed begunOther

/-- An attribute that is left behind is read. -/
theorem valuePosition?_of_leftBehind {attr name quoted : Node}
    (h : LeftBehind element p attr name quoted) :
    valuePosition? .hover p element.valuedAttributes = some (.value name.text []) := by
  have candidate := empty_mem_valuedAttributes_iff.mpr ⟨h.toInQuotes, h.empty⟩
  have held := (mem_valuedAttributes candidate).shape.1
  have begun : name.start ≤ p := by
    have named := (mem_valuedAttributes candidate).name
    exact Point.le_trans (nested name named.inTree).forward (Point.le_trans
      ((nested attr held.inTree).inside name held.name).2 (Point.le_of_lt h.ended))
  have near : ⟨name, .empty attr quoted⟩ ∈ nearest p element.valuedAttributes :=
    mem_nearest.mpr ⟨⟨candidate, begun⟩, fun w listed begunW =>
      h.last w.name (readName_of_errorFree clean listed) begunW⟩
  rw [valuePosition?_of_nearest nested leaves .hover near]
  exact (shapePosition?_of_nearest nested clean leaves near held h.ended).mpr
    ⟨rfl, quoted, near⟩

end Reach

/-- In a tree without errors a hover is over the attribute that it names, unless that one has empty
quotes and was left behind, and every attribute left behind is read. -/
theorem hover_reach {root : Node} (nested : root.WellNested) (clean : root.ErrorFree)
    (leaves : root.NamesAreLeaves) (p : Point) :
    (∀ position, root.position? p .hover = some position →
      root.HasOver p position.attributeName ∨ ∃ element attr name quoted,
        root.enclosing? p = some element ∧ LeftBehind element p attr name quoted ∧
          position = .value name.text []) ∧
    ∀ element attr name quoted, root.enclosing? p = some element →
      LeftBehind element p attr name quoted →
        root.position? p .hover = some (.value name.text []) := by
  constructor
  · intro position found
    obtain ⟨element, enclosed, read⟩ := Option.bind_eq_some_iff.mp found
    have inside := Node.mem_nodes_of_enclosing enclosed
    have nestedIn := nested.below inside
    have leavesIn := leaves.below inside
    rcases Option.or_eq_some_iff.mp read with named | ⟨unnamed, valued⟩
    · obtain ⟨bare, isBare, begun, within, rfl⟩ := bareName_of_hover nestedIn named
      exact Or.inl ((isBare.hasOver nestedIn begun within).lift inside)
    · obtain ⟨v, last, shaped⟩ := Option.bind_eq_some_iff.mp valued
      have aside := (namePosition?_hover_eq_none_iff nestedIn leavesIn).mp unnamed
      rcases hasOver_or_leftBehind nestedIn (clean.below inside) leavesIn
        (List.mem_of_getLast? last) aside shaped with held | ⟨attr, quoted, behind, same⟩
      · exact Or.inl (held.lift inside)
      · exact Or.inr ⟨element, attr, v.name, quoted, enclosed, behind, same⟩
  · intro element attr name quoted enclosed behind
    have inside := Node.mem_nodes_of_enclosing enclosed
    have nestedIn := nested.below inside
    have leavesIn := leaves.below inside
    rw [Node.position?, enclosed, Option.bind_some,
      (namePosition?_hover_eq_none_iff nestedIn leavesIn).mpr behind.aside, Option.none_or]
    exact valuePosition?_of_leftBehind nestedIn (clean.below inside) leavesIn behind

end Markup

namespace Sample

def trailingText : Text := "<p hx-get=\"\" class=\"x\"></p>"

def trailingTag : Markup.Outline :=
  .mk (.other "start_tag") 0 23 [.mk .tagName 1 2 [],
    .mk .attr 3 12 [.mk .attrName 3 9 [], .mk .quotedValue 10 12 []],
    .mk .attr 13 22 [.mk .attrName 13 18 [], .mk .quotedValue 19 22 [.mk .attrValue 20 21 []]]]

def trailingOutline : Markup.Outline :=
  .mk .document 0 27 [.mk .element 0 27 [trailingTag,
    .mk (.other "end_tag") 23 27 [.mk .tagName 25 26 []]]]

def trailing : Markup.Node := trailingOutline.locate trailingText

end Sample

open Markup in
/-- A cursor in the other attribute has left the empty quotes behind. -/
theorem hover_reach_of_trailing : ∃ element attr name quoted,
    Sample.trailing.enclosing? ⟨0, 15⟩ = some element ∧
    LeftBehind element ⟨0, 15⟩ attr name quoted ∧ name.text = Text.ofString "hx-get" := by
  have reach := (hover_reach (wellNested_locate Sample.trailingText Sample.trailingOutline
    (by decide)) (by decide) (by decide) ⟨0, 15⟩).1 _ (show Sample.trailing.position? ⟨0, 15⟩ .hover =
      some (.value (Text.ofString "hx-get") []) by decide)
  rcases reach with held | ⟨element, attr, name, quoted, enclosed, behind, same⟩
  · exact absurd held (by decide)
  · exact ⟨element, attr, name, quoted, enclosed, behind, (Position.value.inj same).1.symm⟩

/-- In the other attribute the empty quotes are read, although the cursor is over no attribute with
their name. -/
theorem hover_beyond_empty_quotes :
    Sample.trailing.WellNested ∧ Sample.trailing.ErrorFree ∧
    Sample.trailing.position? ⟨0, 15⟩ .hover = some (.value (Text.ofString "hx-get") []) ∧
    ¬ Sample.trailing.HasOver ⟨0, 15⟩ (Text.ofString "hx-get") :=
  ⟨Markup.wellNested_locate Sample.trailingText Sample.trailingOutline (by decide), by decide,
    by decide, by decide⟩

end Hypertag
