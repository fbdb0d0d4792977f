import Hypertag.Proofs.QuotedAttribute

/-!
# Completion inside quotes

Between the quotes of a marked attribute's value, values are completed, unless the element around
has a bare marked name at or before the cursor: names are read first, and a bare name counts as long
as its tag or a later one goes on. Trees are without errors here, and their spans are nested.
-/

namespace Hypertag

namespace Markup

/-! ### Values of an attribute -/

/-- Inside the quotes of one attribute its values are completed, whether they are empty or not. -/
theorem shapePosition?_inside {p : Point} {name attr quoted : Node} {shapes : List ValueShape}
    (own : ∀ s ∈ shapes, s = .empty attr quoted ∨ ∃ value, s = .filled attr value)
    (beforeQuote : p < quoted.stop) (beforeEnd : p < attr.stop) :
    shapePosition? .completion p name shapes = some (.value name.text []) := by
  have part : ∀ {part : ValueShape → Option Node} {n : Node},
      latestPart? p shapes part = some n →
      part (.empty attr quoted) = some n ∨ ∃ value, part (.filled attr value) = some n := by
    intro part n found
    obtain ⟨s, member, has⟩ := mem_of_latestPart? found
    rcases own s member with rfl | ⟨value, rfl⟩
    · exact Or.inl has
    · exact Or.inr ⟨value, has⟩
  have unclosed : latestPart? p shapes ValueShape.unclosed? = none := by
    refine latestPart?_eq_none fun s member n has => ?_
    rcases own s member with rfl | ⟨value, rfl⟩ <;> cases has
  have errors : latestPart? p shapes ValueShape.error? = none := by
    refine latestPart?_eq_none fun s member n has => ?_
    rcases own s member with rfl | ⟨value, rfl⟩ <;> cases has
  have quotes : (latestPart? p shapes ValueShape.emptyQuotes?).any (·.stop ≤ p) = false := by
    cases found : latestPart? p shapes ValueShape.emptyQuotes? with
    | none => rfl
    | some n =>
      rcases part found with has | ⟨_, has⟩
      · cases has
        exact decide_eq_false (Point.not_le.mpr beforeQuote)
      · cases has
  simp only [shapePosition?, unclosed, errors, quotes]
  cases latestPart? p shapes ValueShape.emptyAttribute? with
  | some n => simp
  | none =>
    cases found : latestPart? p shapes ValueShape.filledAttribute? with
    | none => simp
    | some n =>
      rcases part found with has | ⟨_, has⟩
      · cases has
      · cases has
        simp [Point.not_le.mpr beforeEnd]

namespace QuotedValue

variable {root element tag attr name quoted : Node} {p : Point}
  (h : QuotedValue root tag attr name quoted)
include h

/-- The tag is open: it has an attribute behind its name. -/
theorem opens (clean : root.ErrorFree) : OpenTag.ofVisit (.leave tag) = [⟨tag, none⟩] := by
  have named : attr.isNamedAttribute = true := by
    simp [Node.isNamedAttribute, h.kind, h.parts, Node.isAttributeName, h.name_kind]
  have nonempty : (fromFirstAttribute tag.children).isEmpty = false :=
    List.isEmpty_eq_false_iff.mpr (h.placed.fromFirstAttribute_ne_nil named)
  have errors : (fromFirstAttribute tag.children).all (!·.isError) = true := by
    rw [List.all_eq_true]
    intro n member
    have sibling := mem_behindTagName ((List.dropWhile_sublist _).subset member)
    rw [clean.isError (Node.child_mem_nodes h.placed.inTree sibling)]
    rfl
  simp [OpenTag.ofVisit, nonempty, errors, clean.isError h.placed.inTree]

section Element

variable (nested : element.WellNested) (leaves : element.NamesAreLeaves)
  (inside : tag ∈ element.nodes)
include nested leaves inside

/-- The candidates that count at a cursor in the attribute are those of the attribute. -/
theorem own_of_nearest (clean : element.ErrorFree) (covers : attr.Covers p)
    (begun : name.start ≤ p) {w : ValuedAttribute}
    (near : w ∈ nearest p element.valuedAttributes) :
    w.name = name ∧ (w.shape = .empty attr quoted ∨ ∃ value, w.shape = .filled attr value) := by
  have same := h.name_of_nearest nested leaves inside covers begun near
  have shape := (mem_valuedAttributes (mem_nearest.mp near).1.1).shape
  refine ⟨same, ?_⟩
  rw [same] at shape
  rcases shape.of_errorFree clean with ⟨a, q, empty, of, child, quotes⟩ | ⟨a, value, filled, of⟩
  · obtain rfl := h.parent_eq nested leaves inside of.inTree of.name
    rw [h.parts] at child
    rcases List.mem_pair.mp child with rfl | rfl
    · cases quotes.symm.trans h.name_kind
    · exact Or.inl empty
  · obtain rfl := h.parent_eq nested leaves inside of.inTree of.name
    exact Or.inr ⟨value, filled⟩

/-- At a cursor in the quotes the values say: complete the value of this attribute. -/
theorem valuePosition (clean : element.ErrorFree) (covers : quoted.Covers p) :
    valuePosition? .completion p element.valuedAttributes = some (.value name.text []) := by
  have holds := nested attr (h.attr_mem inside)
  have last := (holds.inside quoted (by simp [h.parts])).2
  have ordered := holds.ordered
  rw [h.parts, List.pairwise_pair] at ordered
  have begun : name.start ≤ p := Point.le_trans
    (nested name (h.name_marked inside).inTree).forward (Point.le_trans ordered covers.1)
  have around : attr.Covers p := ⟨Point.le_trans (holds.inside name (by simp [h.parts])).1 begun,
    Point.lt_of_lt_of_le covers.2 last⟩
  rw [h.valuePosition?_eq nested leaves inside .completion around begun]
  refine shapePosition?_inside ?_ covers.2 around.2
  intro s listed
  obtain ⟨w, near, rfl⟩ := List.mem_map.mp listed
  exact (h.own_of_nearest nested leaves inside clean around begun near).2

end Element

/-- The position at a cursor in the quotes: a bare name that counts there, or else the value. -/
theorem position (nested : root.WellNested) (clean : root.ErrorFree) (leaves : root.NamesAreLeaves)
    (inside : quoted.Covers p) (fits : searchPoint p = p) :
    ∃ element, root.enclosing? p = some element ∧ element ∈ root.nodes ∧ tag ∈ element.nodes ∧
      root.position? p .completion = ((latest? p (·.name.start) element.bareAttributes).map
        fun bare => Position.name bare.name.text).or (some (.value name.text [])) := by
  obtain ⟨element, enclosed, inTree, tagIn⟩ :=
    h.enclosing nested leaves (h.covers nested inside).1 fits
  have nestedE := nested.below inTree
  have cleanE := clean.below inTree
  have values := h.valuePosition nestedE (leaves.below inTree) tagIn cleanE inside
  have goesOn : ∀ t, latest? p (·.tag.start) element.openTags = some t → p < t.tag.stop :=
    fun t => lt_stop_of_latest_openTag nestedE cleanE tagIn (h.opens clean)
      (h.covers nested inside).2
  refine ⟨element, enclosed, inTree, tagIn, ?_⟩
  rw [Node.position?, enclosed, Option.bind_some, values,
    namePosition?_of_errorFree (fun t => error_of_openTag cleanE) goesOn]

end QuotedValue

/-- With the cursor between the quotes of a marked attribute's value, values of that attribute are
completed if and only if no bare marked name of the element around starts at or before the cursor.
Otherwise the last one of these names is completed in their place. -/
theorem completion_inside_quotes {root tag attr name quoted : Node} {p : Point}
    (nested : root.WellNested) (clean : root.ErrorFree) (leaves : root.NamesAreLeaves)
    (h : QuotedValue root tag attr name quoted) (inside : quoted.start < p ∧ p < quoted.stop)
    (row : 0 ≤ p.row ∧ p.row < 4294967296) (column : 0 ≤ p.column ∧ p.column < 2147483648) :
    ∃ element, root.enclosing? p = some element ∧ tag ∈ element.nodes ∧
      (root.position? p .completion = some (.value name.text []) ↔
        ∀ bare, BareName element bare → p < bare.start) ∧
      ((∃ bare, BareName element bare ∧ bare.start ≤ p) →
        ∃ bare, BareName element bare ∧ bare.start ≤ p ∧
          (∀ other, BareName element other → other.start ≤ p → other.start ≤ bare.start) ∧
          root.position? p .completion = some (.name bare.text)) := by
  obtain ⟨element, enclosed, inTree, tagIn, position⟩ := h.position nested clean leaves
    ⟨Point.le_of_lt inside.1, inside.2⟩ (searchPoint_eq_self row column)
  refine ⟨element, enclosed, tagIn, ?_⟩
  rcases latest_bareName (nested.below inTree) p with
    ⟨none, later⟩ | ⟨b, latest, named, begun, last⟩
  · rw [none] at position
    refine ⟨⟨fun _ => later, fun _ => position⟩, ?_⟩
    rintro ⟨bare, named, begun⟩
    exact absurd begun (Point.not_le.mpr (later bare named))
  · rw [latest] at position
    refine ⟨⟨?_, ?_⟩, fun _ => ⟨b.name, named, begun, last, position⟩⟩
    · intro value
      cases position.symm.trans value
    · intro later
      exact absurd begun (Point.not_le.mpr (later b.name named))

end Markup

namespace Sample

def boostedText : Text := "<p hx-get=\"\" hx-boost hx-swap=\"\"></p>"

def emptyAttribute (start stop : Nat) : Markup.Outline :=
  .mk .attr start stop [.mk .attrName start (stop - 3) [], .mk .quotedValue (stop - 2) stop []]

def boostedTag : Markup.Outline :=
  .mk (.other "start_tag") 0 33 [.mk .tagName 1 2 [], emptyAttribute 3 12,
    .mk .attr 13 21 [.mk .attrName 13 21 []], emptyAttribute 22 32]

def boostedElement : Markup.Outline :=
  .mk .element 0 37 [boostedTag, .mk (.other "end_tag") 33 37 [.mk .tagName 35 36 []]]

def boostedOutline : Markup.Outline := .mk .document 0 37 [boostedElement]

def boosted : Markup.Node := boostedOutline.locate boostedText

end Sample

namespace Markup

theorem boosted_tag : Sample.boostedTag.locate Sample.boostedText ∈ Sample.boosted.nodes := by
  have element : Sample.boostedElement.locate Sample.boostedText ∈ Sample.boosted.nodes :=
    Node.child_mem_nodes (Node.self_mem_nodes _) List.mem_cons_self
  exact Node.child_mem_nodes element List.mem_cons_self

theorem boosted_nested : Sample.boosted.WellNested :=
  wellNested_locate Sample.boostedText Sample.boostedOutline (by decide)

/-- Both attributes of the tag with quotes are such as completions are asked for. -/
theorem boosted_quoted {start stop : Nat} (h : (start, stop) = (3, 12) ∨ (start, stop) = (22, 32)) :
    QuotedValue Sample.boosted (Sample.boostedTag.locate Sample.boostedText)
      ((Sample.emptyAttribute start stop).locate Sample.boostedText)
      ((Outline.mk .attrName start (stop - 3) []).locate Sample.boostedText)
      ((Outline.mk .quotedValue (stop - 2) stop []).locate Sample.boostedText) := by
  have document : ∃ c ∈ Sample.boosted.nodes, c.kind.isContainer = true ∧
      Sample.boostedTag.locate Sample.boostedText ∈ c.nodes :=
    ⟨Sample.boosted, Node.self_mem_nodes _, rfl, boosted_tag⟩
  rcases h with same | same
  · cases same
    exact ⟨document, ⟨boosted_tag, by decide, [_], _, rfl, rfl⟩, rfl, rfl, by decide, rfl,
      by simp [Outline.locate, Outline.locateAll], Or.inl (by decide)⟩
  · cases same
    exact ⟨document, ⟨boosted_tag, by decide, [_, _, _], _, rfl, rfl⟩, rfl, rfl, by decide, rfl,
      by simp [Outline.locate, Outline.locateAll], Or.inl (by decide)⟩

end Markup

open Markup in
/-- In the first quotes values are completed: the bare name starts behind. -/
theorem completion_before_bare_name :
    Sample.boosted.position? ⟨0, 11⟩ .completion =
      some (.value (Text.ofString "hx-get") []) ∧
    ∃ element, Sample.boosted.enclosing? ⟨0, 11⟩ = some element ∧
      ∀ bare, BareName element bare → (⟨0, 11⟩ : Point) < bare.start := by
  have found : Sample.boosted.position? ⟨0, 11⟩ .completion =
    some (.value (Text.ofString "hx-get") []) := by decide
  obtain ⟨element, enclosed, _, reads, _⟩ := completion_inside_quotes boosted_nested (by decide)
    (by decide) (boosted_quoted (Or.inl rfl)) (p := ⟨0, 11⟩) (by decide) (by decide) (by decide)
  exact ⟨found, element, enclosed, reads.mp found⟩

open Markup in
/-- In the second quotes the bare name between the attributes is completed. -/
theorem completion_behind_bare_name :
    Sample.boosted.WellNested ∧ Sample.boosted.ErrorFree ∧
    (∃ tag attr name quoted, QuotedValue Sample.boosted tag attr name quoted ∧
      name.text = Text.ofString "hx-swap" ∧ quoted.start < (⟨0, 31⟩ : Point) ∧
      (⟨0, 31⟩ : Point) < quoted.stop) ∧
    Sample.boosted.position? ⟨0, 31⟩ .completion = some (.name (Text.ofString "hx-boost")) := by
  refine ⟨boosted_nested, by decide, ?_, by decide⟩
  exact ⟨_, _, _, _, boosted_quoted (Or.inr rfl), by decide, by decide, by decide⟩

end Hypertag
