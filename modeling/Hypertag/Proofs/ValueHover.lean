import Hypertag.Proofs.MarkupText
import Hypertag.Proofs.QuotedAttribute

/-!
# Hover on a filled value

An attribute with a value in quotes has three parts: its name, what stands between the name and the
value, and the value up to the end of the attribute. A hover reads each part as what it is, among
whatever other attributes, elements and errors: a bare name counts only up to its end, the values of
other attributes are further away, and an error behind the attribute has not begun. What a hover
reads behind the end of an attribute is not said here.
-/

namespace Hypertag

namespace Markup

/-- A marked attribute of a tag that has one value between quotes. -/
structure FilledValue (root tag attr name quoted value : Node) : Prop
    extends QuotedValue root tag attr name quoted where
  only : quoted.children = [value]
  filled : value.text ≠ []
  between : quoted.start < value.start ∧ value.stop < quoted.stop

/-- The shapes of a filled value say what the cursor is over, whatever errors follow. -/
theorem shapePosition?_filled {p : Point} {name attr value : Node} {shapes : List ValueShape}
    (own : ∀ s ∈ shapes, s = .filled attr value ∨
      ∃ error, s = .beforeError attr error ∧ p < error.start)
    (listed : .filled attr value ∈ shapes) (covers : attr.Covers p) :
    shapePosition? .hover p name shapes =
      if p < name.stop then some (.name name.text)
      else some (.value name.text (if value.start ≤ p then value.text else [])) := by
  have unclosed : latestPart? p shapes ValueShape.unclosed? = none := by
    refine latestPart?_eq_none fun s member n has => ?_
    rcases own s member with rfl | ⟨error, rfl, _⟩ <;> cases has
  have empty : latestPart? p shapes ValueShape.emptyAttribute? = none := by
    refine latestPart?_eq_none fun s member n has => ?_
    rcases own s member with rfl | ⟨error, rfl, _⟩ <;> cases has
  have errors : latestPart? p shapes ValueShape.error? = none := by
    refine latestPart?_eq_none fun s member n has => ?_
    rcases own s member with rfl | ⟨error, rfl, later⟩
    · cases has
    · cases has
      exact later
  have whole : latestPart? p shapes ValueShape.filledAttribute? = some attr := by
    rw [latestPart?_eq (m := attr) ?_ listed rfl, if_pos covers.1]
    intro s member n has
    rcases own s member with rfl | ⟨error, rfl, _⟩ <;> cases has
    rfl
  have text : latestPart? p shapes ValueShape.value? =
      if value.start ≤ p then some value else none := by
    refine latestPart?_eq ?_ listed rfl
    intro s member n has
    rcases own s member with rfl | ⟨error, rfl, _⟩ <;> cases has
    rfl
  simp only [shapePosition?, unclosed, empty, errors, whole, text]
  by_cases inName : p < name.stop
  · simp [inName]
  · by_cases begun : value.start ≤ p
    · simp [inName, begun, Point.not_le.mpr covers.2]
    · simp [inName, begun, Point.not_le.mpr covers.2]

namespace FilledValue

variable {root element tag attr name quoted value : Node} {p : Point}
  (h : FilledValue root tag attr name quoted value)
include h

theorem value_mem : value ∈ root.nodes :=
  Node.child_mem_nodes (h.quoted_mem h.placed.inTree) (by simp [h.only])

/-- Between the ends of an attribute there is more than its name, and between quotes that hold
something there is more than nothing. -/
theorem texts {text : Text} (nested : root.WellNested)
    (spans : ∀ n ∈ root.nodes, ∃ first last, n.Spans text first last) :
    name.text ≠ attr.text ∧ quoted.text ≠ emptyQuotes := by
  have attrIn := h.attr_mem h.placed.inTree
  have nameIn := (h.name_marked h.placed.inTree).inTree
  have quotedIn := h.quoted_mem h.placed.inTree
  obtain ⟨a, a', attrSpan⟩ := spans attr attrIn
  obtain ⟨n, n', nameSpan⟩ := spans name nameIn
  obtain ⟨q, q', quotedSpan⟩ := spans quoted quotedIn
  obtain ⟨v, v', valueSpan⟩ := spans value h.value_mem
  have attrBounds := And.intro attrSpan.ordered attrSpan.inside
  have nameBounds := And.intro nameSpan.ordered nameSpan.inside
  have quotedBounds := And.intro quotedSpan.ordered quotedSpan.inside
  have valueBounds := And.intro valueSpan.ordered valueSpan.inside
  have first := ((nested attr attrIn).inside name (by simp [h.parts])).1
  have last := ((nested attr attrIn).inside quoted (by simp [h.parts])).2
  have ordered := (nested attr attrIn).ordered
  obtain ⟨opening, closing⟩ := h.between
  rw [h.parts, List.pairwise_pair] at ordered
  rw [attrSpan.start, nameSpan.start, Text.pointAt_le_iff (by omega)] at first
  rw [attrSpan.stop, quotedSpan.stop, Text.pointAt_le_iff (by omega)] at last
  rw [nameSpan.stop, quotedSpan.start, Text.pointAt_le_iff (by omega)] at ordered
  rw [quotedSpan.start, valueSpan.start, Text.pointAt_lt_iff (by omega)] at opening
  rw [valueSpan.stop, quotedSpan.stop, Text.pointAt_lt_iff (by omega)] at closing
  have written : 0 < v' - v := valueSpan.length ▸ List.length_pos_iff.mpr h.filled
  constructor
  · intro same
    have length := congrArg List.length same
    rw [nameSpan.length, attrSpan.length] at length
    omega
  · intro empty
    have length : quoted.text.length = 2 := congrArg List.length empty
    rw [quotedSpan.length] at length
    omega

/-- The parts of the attribute follow one another. -/
theorem parts_ordered (nested : root.WellNested) : name.start ≤ name.stop ∧
    name.stop < value.start ∧ value.start < attr.stop := by
  have attrIn := h.attr_mem h.placed.inTree
  have ordered := (nested attr attrIn).ordered
  rw [h.parts, List.pairwise_pair] at ordered
  have last := ((nested attr attrIn).inside quoted (by simp [h.parts])).2
  refine ⟨(nested name (h.name_marked h.placed.inTree).inTree).forward,
    Point.lt_of_le_of_lt ordered h.between.1, ?_⟩
  exact Point.lt_of_lt_of_le
    (Point.lt_of_le_of_lt (nested value h.value_mem).forward h.between.2) last

section Element

variable (nested : element.WellNested) (leaves : element.NamesAreLeaves)
  (inside : tag ∈ element.nodes)
include nested leaves inside

/-- The shapes that count at a cursor in the attribute: its value, and errors behind it. -/
theorem shape_of_nearest (notEmpty : quoted.text ≠ emptyQuotes) (covers : attr.Covers p)
    (begun : name.start ≤ p) {w : ValuedAttribute}
    (near : w ∈ nearest p element.valuedAttributes) : w.shape = .filled attr value ∨
      ∃ error, w.shape = .beforeError attr error ∧ p < error.start := by
  obtain ⟨other, shape⟩ := w
  obtain rfl : other = name := h.name_of_nearest nested leaves inside covers begun near
  have member := (mem_nearest.mp near).1.1
  have around := (mem_valuedAttributes member).shape
  have quotes : ∀ q ∈ attr.children, q.kind = .quotedValue → q = quoted := by
    intro q child kind
    rw [h.parts] at child
    rcases List.mem_pair.mp child with rfl | rfl
    · cases h.name_kind.symm.trans kind
    · rfl
  cases shape with
  | unclosed t =>
    obtain rfl := h.parent_eq nested leaves inside around.1 around.2.2
    cases h.kind.symm.trans around.2.1
  | beforeError a e =>
    obtain rfl := h.parent_eq nested leaves inside around.1.inTree around.1.name
    exact Or.inr ⟨e, rfl, Point.lt_of_lt_of_le covers.2 (stop_le_of_beforeError nested member)⟩
  | empty a q =>
    obtain ⟨of, child, kind, text⟩ := around
    obtain rfl := h.parent_eq nested leaves inside of.inTree of.name
    exact absurd (quotes q child kind ▸ text) notEmpty
  | filled a v =>
    obtain ⟨of, q, child, kind, inner, _⟩ := around
    obtain rfl := h.parent_eq nested leaves inside of.inTree of.name
    rw [quotes q child kind, h.only] at inner
    exact Or.inl (congrArg _ (List.mem_singleton.mp inner))

/-- A bare name and the attribute are nowhere around the same point. -/
theorem not_covers_bareName (longer : name.text ≠ attr.text) {bare : Node}
    (named : BareName element bare) (aroundBare : bare.Covers p) : ¬ attr.Covers p := by
  intro aroundAttr
  have marked := named.markedName
  have attrIn := h.attr_mem inside
  have nameLeaf := leaves name (h.name_marked inside).inTree h.name_kind
  rcases below_or_above nested marked.inTree attrIn aroundBare aroundAttr with under | outer
  · rcases h.cases_of_mem nameLeaf under with rfl | rfl | rfl | kind
    · cases h.kind.symm.trans marked.kind
    · obtain ⟨t, a, placed, _, child, text⟩ := named.whole
      have attrIn' := Node.child_mem_nodes placed.inTree placed.child
      obtain rfl := h.parent_eq nested leaves inside attrIn' child
      exact longer text
    · cases h.quotes.symm.trans marked.kind
    · cases kind.symm.trans marked.kind
  · obtain rfl := Node.eq_of_mem_leaf (leaves bare marked.inTree marked.kind) outer
    cases h.kind.symm.trans marked.kind

/-- At a cursor in the attribute every bare name that has begun has ended where the attribute
starts. -/
theorem bareName_stop_le (longer : name.text ≠ attr.text) (covers : attr.Covers p) {bare : Node}
    (named : BareName element bare) (begun : bare.start ≤ p) : bare.stop ≤ attr.start := by
  have apart : ∀ {q}, bare.Covers q → ¬ attr.Covers q :=
    h.not_covers_bareName nested leaves inside longer named
  have earlier : bare.start < attr.start := Point.not_le.mp fun later =>
    apart (named.markedName.covers nested) ⟨later, Point.lt_of_le_of_lt begun covers.2⟩
  exact Point.not_lt.mp fun overlaps => apart ⟨Point.le_of_lt earlier, overlaps⟩
    ⟨Point.le_refl _, Point.lt_of_le_of_lt covers.1 covers.2⟩

/-- It has ended before the cursor, unless it ends and the name of the attribute starts there. -/
theorem bareName_stop_lt (longer : name.text ≠ attr.text) (covers : attr.Covers p)
    (begun : name.start ≤ p) {bare : Node} (named : BareName element bare)
    (begunB : bare.start ≤ p) (apart : bare.stop = name.start → p ≠ name.start) :
    bare.stop < p := by
  have before := h.bareName_stop_le nested leaves inside longer covers named begunB
  have first := ((nested attr (h.attr_mem inside)).inside name (by simp [h.parts])).1
  have ended : bare.stop ≤ name.start := Point.le_trans before first
  by_contra late
  have met : name.start = p := Point.le_antisymm begun (Point.le_trans (Point.not_lt.mp late) ended)
  exact apart (Point.le_antisymm ended (met ▸ Point.not_lt.mp late)) met.symm

end Element

/-- What a hover reads at a cursor in the attribute, from its name on. -/
theorem hover_position (nested : root.WellNested) (leaves : root.NamesAreLeaves)
    (apart : ∀ other ∈ root.nodes, other.isMarkedName = true → other.stop = name.start →
      p ≠ name.start) (longer : name.text ≠ attr.text)
    (notEmpty : quoted.text ≠ emptyQuotes) (begun : name.start ≤ p) (goesOn : p < attr.stop)
    (fits : searchPoint p = p) :
    root.position? p .hover = if p < name.stop then some (.name name.text)
      else some (.value name.text (if value.start ≤ p then value.text else [])) := by
  have attrIn := h.attr_mem h.placed.inTree
  have covers : attr.Covers p :=
    ⟨Point.le_trans ((nested attr attrIn).inside name (by simp [h.parts])).1 begun, goesOn⟩
  obtain ⟨element, enclosed, inTree, tagIn⟩ := h.enclosing nested leaves covers fits
  have nestedE := nested.below inTree
  have leavesE := leaves.below inTree
  have names : namePosition? .hover p element.bareAttributes element.openTags = none := by
    rw [namePosition?_hover nestedE, Option.bind_eq_none_iff]
    intro b latest
    obtain ⟨member, begunB⟩ := mem_of_latest? latest
    have named := mem_bareNames_iff.mp (List.mem_map_of_mem member)
    have inRoot := (Node.nodes_sublist root inTree).subset named.markedName.inTree
    exact if_neg (Point.not_le.mpr (h.bareName_stop_lt nestedE leavesE tagIn longer covers begun
      named begunB (apart b.name inRoot named.marked)))
  have candidate : ⟨name, .filled attr value⟩ ∈ element.valuedAttributes :=
    filled_mem_valuedAttributes_iff.mpr ⟨quoted, h.inQuotes tagIn, by simp [h.only],
      (h.values value (by simp [h.only])).1⟩
  have near := h.mem_nearest_of_candidate nestedE leavesE tagIn covers begun candidate
  rw [Node.position?, enclosed, Option.bind_some, names, Option.none_or,
    h.valuePosition?_eq nestedE leavesE tagIn .hover covers begun]
  refine shapePosition?_filled ?_ (List.mem_map.mpr ⟨_, near, rfl⟩) covers
  intro s listed
  obtain ⟨w, counts, rfl⟩ := List.mem_map.mp listed
  exact h.shape_of_nearest nestedE leavesE tagIn notEmpty covers begun counts

end FilledValue

/-- With the cursor in an attribute that has a value between quotes, a hover reads the name up to
its end, an empty value from there to the start of the value, and the value from its start to the
end of the attribute, whatever stands around the attribute. The spans are nested. Three things are
taken from the words of markup: nothing stands below a name, the value leaves room for its quotes
on both sides, and no marked name ends where this one starts, neither a sibling's nor one inside an
error, since a name goes on as far as it can. -/
theorem hover_on_filled_attribute {text : Text} {outline : Outline}
    (nested : outline.isNested = true) (leaves : (outline.locate text).NamesAreLeaves)
    {tag attr name quoted value : Node}
    (h : FilledValue (outline.locate text) tag attr name quoted value)
    (apart : ∀ other ∈ (outline.locate text).nodes, other.isMarkedName = true →
      other.stop ≠ name.start) {p : Point}
    (row : 0 ≤ p.row ∧ p.row < 4294967296) (column : 0 ≤ p.column ∧ p.column < 2147483648) :
    (name.start ≤ p → p < name.stop →
      (outline.locate text).position? p .hover = some (.name name.text)) ∧
    (name.stop ≤ p → p < value.start →
      (outline.locate text).position? p .hover = some (.value name.text [])) ∧
    (value.start ≤ p → p < attr.stop →
      (outline.locate text).position? p .hover = some (.value name.text value.text)) := by
  have wellNested := wellNested_locate text outline nested
  obtain ⟨longer, notEmpty⟩ := h.texts wellNested fun n => spans_of_mem_locate text outline nested
  obtain ⟨forward, toValue, toEnd⟩ := h.parts_ordered wellNested
  have reads : name.start ≤ p → p < attr.stop → _ := fun begun goesOn =>
    h.hover_position wellNested leaves (fun other inTree marked touches =>
      absurd touches (apart other inTree marked)) longer notEmpty begun goesOn
      (searchPoint_eq_self row column)
  refine ⟨?_, ?_, ?_⟩
  · intro begun inName
    rw [reads begun (Point.lt_trans inName (Point.lt_trans toValue toEnd)), if_pos inName]
  · intro ended early
    rw [reads (Point.le_trans forward ended) (Point.lt_trans early toEnd),
      if_neg (Point.not_lt.mpr ended), if_neg (Point.not_le.mpr early)]
  · intro begun goesOn
    have ended : name.stop ≤ p := Point.le_trans (Point.le_of_lt toValue) begun
    rw [reads (Point.le_trans forward ended) goesOn, if_neg (Point.not_lt.mpr ended), if_pos begun]

end Markup

namespace Sample

def strayText : Text := "<div hx-a hx-b=\"x\" = hx-c></div>"

def strayAttribute : Markup.Outline :=
  .mk .attr 10 18 [.mk .attrName 10 14 [], .mk .quotedValue 15 18 [.mk .attrValue 16 17 []]]

def strayTag : Markup.Outline :=
  .mk (.other "start_tag") 0 26 [.mk .tagName 1 4 [], .mk .attr 5 9 [.mk .attrName 5 9 []],
    strayAttribute, .mk .error 19 25 [.mk .error 21 25 []]]

def strayElement : Markup.Outline :=
  .mk .element 0 32 [strayTag, .mk (.other "end_tag") 26 32 [.mk .tagName 28 31 []]]

def strayOutline : Markup.Outline := .mk .document 0 32 [strayElement]

end Sample

namespace Markup

theorem stray_filled : FilledValue (Sample.strayOutline.locate Sample.strayText)
    (Sample.strayTag.locate Sample.strayText) (Sample.strayAttribute.locate Sample.strayText)
    ((Outline.mk .attrName 10 14 []).locate Sample.strayText)
    ((Outline.mk .quotedValue 15 18 [.mk .attrValue 16 17 []]).locate Sample.strayText)
    ((Outline.mk .attrValue 16 17 []).locate Sample.strayText) := by
  have element : Sample.strayElement.locate Sample.strayText ∈
      (Sample.strayOutline.locate Sample.strayText).nodes :=
    Node.child_mem_nodes (Node.self_mem_nodes _) List.mem_cons_self
  have tag : Sample.strayTag.locate Sample.strayText ∈
      (Sample.strayOutline.locate Sample.strayText).nodes :=
    Node.child_mem_nodes element List.mem_cons_self
  refine ⟨⟨⟨_, Node.self_mem_nodes _, rfl, tag⟩, ⟨tag, by decide, [_, _], _, rfl, rfl⟩, rfl, rfl,
    by decide, rfl, ?_, Or.inr ⟨_, List.mem_cons_self⟩⟩, rfl, by decide, by decide⟩
  intro v member
  obtain rfl := List.mem_singleton.mp member
  exact ⟨rfl, rfl⟩

end Markup

open Markup in
/-- The three parts of the attribute are read, behind a bare name and before an error. -/
theorem hover_between_bare_name_and_error :
    (Sample.strayOutline.locate Sample.strayText).position? ⟨0, 10⟩ .hover =
      some (.name (Text.ofString "hx-b")) ∧
    (Sample.strayOutline.locate Sample.strayText).position? ⟨0, 15⟩ .hover =
      some (.value (Text.ofString "hx-b") []) ∧
    (Sample.strayOutline.locate Sample.strayText).position? ⟨0, 17⟩ .hover =
      some (.value (Text.ofString "hx-b") (Text.ofString "x")) := by
  have reads := fun {p : Point} => hover_on_filled_attribute (p := p) (by decide) (by decide)
    stray_filled (by decide)
  exact ⟨(reads (by decide) (by decide)).1 (by decide) (by decide),
    (reads (by decide) (by decide)).2.1 (by decide) (by decide),
    (reads (by decide) (by decide)).2.2 (by decide) (by decide)⟩

namespace Sample

def joinedText : Text := "<p <i hx-ahx-b=\"x\">"

/-- A tag with a name inside an error that ends where the name of the attribute starts. -/
def joinedOutline : Markup.Outline :=
  .mk .document 0 19 [.mk .element 0 19 [.mk (.other "start_tag") 0 19 [.mk .tagName 1 2 [],
    .mk .error 3 10 [.mk (.other "start_tag") 3 10 [.mk .tagName 4 5 [],
      .mk .attr 6 10 [.mk .attrName 6 10 []]]],
    .mk .attr 10 18 [.mk .attrName 10 14 [],
      .mk .quotedValue 15 18 [.mk .attrValue 16 17 []]]]]]

end Sample

/-- Names that touch are left out above: where the first one ends, it is still the one read. -/
example : (Sample.joinedOutline.locate Sample.joinedText).position? ⟨0, 10⟩ .hover =
    some (.name (Text.ofString "hx-a")) := by decide

end Hypertag
