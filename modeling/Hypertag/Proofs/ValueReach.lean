import Hypertag.Proofs.QuotedAttribute
import Hypertag.Proofs.VisitOrder

/-!
# How far values are completed

Without errors, values are completed only inside a marked attribute with quotes, under its name and
up to its end. Names may have anything below them here, attributes too. Then several attributes can
start with one name, each inside the name of the next, and the outermost one is found last: its
quotes come behind everything in its name. So the name that is read is that of the attribute that
reaches furthest.
-/

namespace Hypertag

namespace Markup

/-! ### Attributes that share the start of a name -/

def ValueShape.quotedAttribute? : ValueShape → Option Node
  | empty attr _ => some attr
  | filled attr _ => some attr
  | _ => none

theorem ValueShape.of_quotedAttribute? {shape : ValueShape} {attr : Node}
    (h : shape.quotedAttribute? = some attr) :
    (∃ quoted, shape = .empty attr quoted) ∨ ∃ value, shape = .filled attr value := by
  cases shape with
  | unclosed tag => cases h
  | beforeError attr error => cases h
  | empty attr quoted =>
    cases h
    exact Or.inl ⟨quoted, rfl⟩
  | filled attr value =>
    cases h
    exact Or.inr ⟨value, rfl⟩

theorem ValueShape.unclosed?_of_quoted {shape : ValueShape} {attr : Node}
    (h : shape.quotedAttribute? = some attr) : shape.unclosed? = none := by
  rcases of_quotedAttribute? h with ⟨quoted, rfl⟩ | ⟨value, rfl⟩
  · rfl
  · rfl

/-- How a value in quotes is found: at or below a child of its attribute that comes behind the
name. -/
structure FoundBehind (root name attr : Node) (frames : List Frame) : Prop where
  marked : name.isMarkedName = true
  way : ∃ lower f above child, frames = lower ++ f :: above ∧ Leads root attr above ∧
    attr.children = f.before ++ child :: f.after ∧ name ∈ f.before

theorem foundBehind_of_visit {root : Node} {visit : Visit} (visited : visit ∈ root.walk)
    {v : ValuedAttribute} (found : v ∈ ValuedAttribute.ofVisit visit) {attr : Node}
    (shape : v.shape.quotedAttribute? = some attr) :
    ∃ node frames, visit = .enter node frames ∧ FoundBehind root v.name attr frames := by
  obtain ⟨node, f, above, rfl, ways⟩ := valuedAttribute_of_visit found
  refine ⟨node, f :: above, rfl, ?_⟩
  have way := leads_of_walk visited
  rcases ways with unclosed | beforeError | ⟨g, rest, rfl, empty⟩ | ⟨g, i, rest, rfl, filled⟩
  · rw [mem_unclosed_shape unclosed] at shape
    cases shape
  · obtain ⟨_, _, same⟩ := mem_beforeError_shape beforeError
    rw [same] at shape
    cases shape
  · obtain ⟨same, before, marked, _⟩ := mem_empty_shape empty
    rw [same] at shape
    cases shape
    cases way with
    | step children upwards =>
      exact ⟨marked, [], f, g :: rest, node, rfl, upwards, children, before⟩
  · obtain ⟨same, before, marked, _⟩ := mem_filled_shape filled
    rw [same] at shape
    cases shape
    cases way.parent with
    | step children upwards =>
      exact ⟨marked, [f], g, i :: rest, f.parent, rfl, upwards, children, before⟩

namespace FoundBehind

variable {root name attr name' attr' : Node} {frames frames' : List Frame}

theorem covers (h : FoundBehind root name attr frames) (nested : root.WellNested) :
    name.Covers name.start ∧ attr.Covers name.start := by
  obtain ⟨_, f, above, child, _, outer, children, before⟩ := h.way
  have inside : name ∈ attr.nodes :=
    Node.child_mem_nodes attr.self_mem_nodes (by simp [children, before])
  have named := markedName_of_isMarkedName
    ((Node.nodes_sublist root outer.mem_nodes).subset inside) h.marked
  exact ⟨named.covers nested, covers_of_mem_nodes (nested.below outer.mem_nodes) inside
    (named.covers nested)⟩

/-- Of two attributes that start with one name, the one that is found later ends later. -/
theorem stop_le (h : FoundBehind root name attr frames) (h' : FoundBehind root name' attr' frames')
    (nested : root.WellNested) (same : name.start = name'.start)
    (order : ¬ place frames' < place frames) : attr.stop ≤ attr'.stop := by
  obtain ⟨aroundName, around⟩ := h.covers nested
  obtain ⟨_, around'⟩ := h'.covers nested
  rw [← same] at around'
  obtain ⟨lower, f, above, child, rfl, way, children, before⟩ := h.way
  obtain ⟨lower', f', above', child', rfl, way', children', before'⟩ := h'.way
  rcases Nat.le_total above'.length above.length with deeper | higher
  · obtain ⟨_, _, inner⟩ := way'.through nested way deeper around' around
    exact (span_of_mem_nodes (nested.below way'.mem_nodes) inner.mem_nodes).2
  · obtain ⟨between, rfl, inner⟩ := way.through nested way' higher around around'
    rcases inner.downwards with ⟨_, rfl⟩ | ⟨between, g, c, rfl, childrenG, lowest⟩
    · exact Point.le_refl _
    · -- the second attribute lies in the first one's name, and was found before
      have inside : c ∈ root.nodes :=
        Node.child_mem_nodes way.mem_nodes (by simp [childrenG])
      have aroundC := covers_of_mem_nodes (nested.below inside) lowest.mem_nodes around'
      have shorter : g.before.length < f.before.length := by
        obtain ⟨first, rest, cut⟩ := List.append_of_mem before
        have named : attr.children = first ++ name :: (rest ++ child :: f.after) := by
          rw [children, cut]
          simp
        obtain ⟨same, _⟩ := (nested _ way.mem_nodes).split_unique childrenG named aroundC aroundName
        rw [same, cut, List.length_append, List.length_cons]
        omega
      have first : place (lower' ++ f' :: (between ++ [g] ++ above)) =
          place above ++ g.before.length :: place (lower' ++ f' :: between) := by
        simp [place]
      have second : place (lower ++ f :: above) =
          place above ++ f.before.length :: place lower := by
        simp [place]
      rw [first, second] at order
      exact absurd (lt_behind _ shorter _ _) order

end FoundBehind

/-- Candidates that start with one name are found in the order in which their attributes end. -/
theorem valuedAttributes_sorted {root : Node} (nested : root.WellNested) :
    root.valuedAttributes.Pairwise fun v w => ∀ a b, v.shape.quotedAttribute? = some a →
      w.shape.quotedAttribute? = some b → v.name.start = w.name.start → a.stop ≤ b.stop := by
  rw [Node.valuedAttributes, List.pairwise_flatMap]
  constructor
  · intro visit visited
    refine List.pairwise_of_forall_mem_list ?_
    intro v foundV w foundW a b shapeV shapeW same
    obtain ⟨node, frames, rfl, behindV⟩ := foundBehind_of_visit visited foundV shapeV
    obtain ⟨_, _, enters, behindW⟩ := foundBehind_of_visit visited foundW shapeW
    cases enters
    exact behindV.stop_le behindW nested same (List.lt_irrefl _)
  · refine (walk_sorted root).imp_of_mem ?_
    intro first second visited visited' order v foundV w foundW a b shapeV shapeW same
    obtain ⟨node, frames, rfl, behindV⟩ := foundBehind_of_visit visited foundV shapeV
    obtain ⟨node', frames', rfl, behindW⟩ := foundBehind_of_visit visited' foundW shapeW
    exact behindV.stop_le behindW nested same
      (List.lt_asymm (order node frames node' frames' rfl rfl))

/-! ### Completed values -/

/-- Without errors, a candidate stands in quotes. -/
theorem quoted_of_errorFree {root : Node} (clean : root.ErrorFree) {v : ValuedAttribute}
    (h : v ∈ root.valuedAttributes) : ∃ attr, v.shape.quotedAttribute? = some attr := by
  rcases (mem_valuedAttributes h).shape.of_errorFree clean with
    ⟨attr, quoted, same, _⟩ | ⟨attr, value, same, _⟩
  · exact ⟨attr, by rw [same]; rfl⟩
  · exact ⟨attr, by rw [same]; rfl⟩

theorem inQuotes_of_quoted {root attr : Node} {v : ValuedAttribute}
    (h : v ∈ root.valuedAttributes) (has : v.shape.quotedAttribute? = some attr) :
    ∃ quoted, InQuotes root attr v.name quoted ∧
      ∀ empty, v.shape.emptyQuotes? = some empty → empty = quoted := by
  obtain ⟨name, shape⟩ := v
  rcases ValueShape.of_quotedAttribute? has with ⟨quoted, rfl⟩ | ⟨value, rfl⟩
  · refine ⟨quoted, (empty_mem_valuedAttributes_iff.mp h).1, ?_⟩
    intro empty same
    exact (Option.some.inj same).symm
  · obtain ⟨quoted, inQuotes, _⟩ := filled_mem_valuedAttributes_iff.mp h
    exact ⟨quoted, inQuotes, fun _ none => nomatch none⟩

/-- How the attribute of a candidate in quotes lies around its name and its quotes. -/
structure QuotedSpans (v : ValuedAttribute) (attr : Node) : Prop where
  start : attr.start ≤ v.name.start
  stop : v.name.stop ≤ attr.stop
  empty : ∀ empty, v.shape.emptyQuotes? = some empty →
    v.name.stop ≤ empty.start ∧ empty.start ≤ empty.stop ∧ empty.stop ≤ attr.stop

theorem spans_of_quoted {root attr : Node} (nested : root.WellNested) {v : ValuedAttribute}
    (h : v ∈ root.valuedAttributes) (has : v.shape.quotedAttribute? = some attr) :
    QuotedSpans v attr := by
  obtain ⟨quoted, inQuotes, same⟩ := inQuotes_of_quoted h has
  obtain ⟨tag, placed⟩ := inQuotes.placed
  obtain ⟨before, after, parts, member⟩ := inQuotes.parts
  have attrIn := Node.child_mem_nodes placed.inTree placed.child
  have holds := nested attr attrIn
  have child : quoted ∈ attr.children := by simp [parts]
  have ordered := holds.ordered
  rw [parts, List.pairwise_append] at ordered
  obtain ⟨start, stop⟩ := holds.inside v.name (by simp [parts, member])
  refine ⟨start, stop, ?_⟩
  intro empty hasEmpty
  rw [same empty hasEmpty]
  exact ⟨ordered.2.2 v.name member quoted List.mem_cons_self,
    (nested quoted (Node.child_mem_nodes attrIn child)).forward, (holds.inside quoted child).2⟩

/-- The last of the nearest candidates has the attribute that reaches furthest. -/
theorem stop_le_of_last {root : Node} (nested : root.WellNested) {p : Point}
    {last v : ValuedAttribute} (isLast : (nearest p root.valuedAttributes).getLast? = some last)
    (near : v ∈ nearest p root.valuedAttributes) {a b : Node}
    (hasV : v.shape.quotedAttribute? = some a) (hasLast : last.shape.quotedAttribute? = some b) :
    a.stop ≤ b.stop := by
  have sorted : (nearest p root.valuedAttributes).Pairwise _ :=
    (valuedAttributes_sorted nested).sublist
      (List.filter_sublist.trans List.filter_sublist)
  have same := start_of_nearest near (List.mem_of_getLast? isLast)
  obtain ⟨before, split⟩ := List.getLast?_eq_some_iff.mp isLast
  rw [split, List.pairwise_append] at sorted
  rw [split] at near
  rcases List.mem_append.mp near with earlier | final
  · exact sorted.2.2 v earlier last List.mem_cons_self a b hasV hasLast same
  · obtain rfl := List.mem_singleton.mp final
    cases hasV.symm.trans hasLast
    exact Point.le_refl _

/-- Where quotes are read and their attributes have ended, nothing is completed. -/
theorem shapePosition?_past {p : Point} {name : Node} {shapes : List ValueShape}
    (sound : ∀ s ∈ shapes, s.unclosed? = none)
    (quotes : ∃ s ∈ shapes, ∃ attr, s.quotedAttribute? = some attr)
    (ended : ∀ s ∈ shapes, ∀ attr, s.quotedAttribute? = some attr → attr.start ≤ p ∧ attr.stop ≤ p)
    (closed : ∀ s ∈ shapes, ∀ quoted, s.emptyQuotes? = some quoted →
      quoted.start ≤ p ∧ quoted.stop ≤ p) :
    shapePosition? .completion p name shapes = none := by
  by_cases empty : ∃ attr quoted, ValueShape.empty attr quoted ∈ shapes
  · obtain ⟨attr, quoted, listed⟩ := empty
    obtain ⟨latest, foundAttr⟩ : ∃ n, latestPart? p shapes ValueShape.emptyAttribute? = some n :=
      exists_latestPart? listed rfl (ended _ listed attr rfl).1
    obtain ⟨last, foundQuotes⟩ : ∃ n, latestPart? p shapes ValueShape.emptyQuotes? = some n :=
      exists_latestPart? listed rfl (closed _ listed quoted rfl).1
    obtain ⟨s, member, has⟩ := mem_of_latestPart? foundQuotes
    simp [shapePosition?, foundAttr, foundQuotes, (closed s member last has).2]
  · have noEmpty : latestPart? p shapes ValueShape.emptyAttribute? = none := by
      rw [Option.eq_none_iff_forall_ne_some]
      intro n found
      obtain ⟨s, member, has⟩ := mem_of_latestPart? found
      cases s <;> cases has
      exact empty ⟨_, _, member⟩
    have unclosed : latestPart? p shapes ValueShape.unclosed? = none := by
      refine latestPart?_eq_none fun s member n has => ?_
      cases (sound s member).symm.trans has
    obtain ⟨s, member, attr, has⟩ := quotes
    obtain ⟨latest, found⟩ : ∃ n, latestPart? p shapes ValueShape.filledAttribute? = some n := by
      rcases ValueShape.of_quotedAttribute? has with ⟨quoted, rfl⟩ | ⟨value, rfl⟩
      · exact absurd ⟨_, _, member⟩ empty
      · exact exists_latestPart? member rfl (ended _ member attr rfl).1
    have stop : latest.stop ≤ p := by
      obtain ⟨t, listed, has⟩ := mem_of_latestPart? found
      cases t <;> cases has
      exact (ended _ listed latest rfl).2
    simp [shapePosition?, unclosed, noEmpty, found, stop]

section Completed

variable {root : Node} (nested : root.WellNested) (clean : root.ErrorFree) {p : Point}
  {last : ValuedAttribute} (isLast : (nearest p root.valuedAttributes).getLast? = some last)
  {attr : Node} (hasLast : last.shape.quotedAttribute? = some attr)
include nested clean isLast hasLast

/-- With the attribute of the last candidate, those of all others have ended. -/
theorem ended_of_last (past : attr.stop ≤ p) {v : ValuedAttribute}
    (near : v ∈ nearest p root.valuedAttributes) : ∃ a, v.shape.quotedAttribute? = some a ∧
      a.start ≤ p ∧ a.stop ≤ p ∧
      ∀ empty, v.shape.emptyQuotes? = some empty → empty.start ≤ p ∧ empty.stop ≤ p := by
  obtain ⟨⟨member, begun⟩, _⟩ := mem_nearest.mp near
  obtain ⟨a, has⟩ := quoted_of_errorFree clean member
  have spans := spans_of_quoted nested member has
  have stop := Point.le_trans (stop_le_of_last nested isLast near has hasLast) past
  refine ⟨a, has, Point.le_trans spans.start begun, stop, ?_⟩
  intro empty hasEmpty
  obtain ⟨_, forward, ends⟩ := spans.empty empty hasEmpty
  exact ⟨Point.le_trans forward (Point.le_trans ends stop), Point.le_trans ends stop⟩

theorem lt_stop_of_completion {position : Position}
    (h : shapePosition? .completion p last.name
      ((nearest p root.valuedAttributes).map (·.shape)) = some position) : p < attr.stop := by
  by_contra past
  have ended := @ended_of_last root nested clean p last isLast attr hasLast (Point.not_lt.mp past)
  have nothing := @shapePosition?_past p last.name
    ((nearest p root.valuedAttributes).map (·.shape)) ?_
    ⟨_, List.mem_map_of_mem (List.mem_of_getLast? isLast), attr, hasLast⟩ ?_ ?_
  · cases nothing.symm.trans h
  · intro s listed
    obtain ⟨v, near, rfl⟩ := List.mem_map.mp listed
    obtain ⟨a, has, _⟩ := ended near
    exact ValueShape.unclosed?_of_quoted has
  · intro s listed b hasB
    obtain ⟨v, near, rfl⟩ := List.mem_map.mp listed
    obtain ⟨a, has, start, stop, _⟩ := ended near
    cases has.symm.trans hasB
    exact ⟨start, stop⟩
  · intro s listed
    obtain ⟨v, near, rfl⟩ := List.mem_map.mp listed
    obtain ⟨_, _, _, _, closed⟩ := ended near
    exact closed

end Completed

/-- Without errors, values are completed only at a cursor in a marked attribute with quotes, under
its name and as if nothing were written yet. Whatever else is around the cursor is inside that
attribute or has it inside, so it is no sibling and no text behind. -/
theorem value_completion_inside_attribute {root : Node} {p : Point} {n v : Text}
    (nested : root.WellNested) (clean : root.ErrorFree)
    (found : root.position? p .completion = some (.value n v)) :
    v = [] ∧ ∃ element attr name quoted, root.enclosing? p = some element ∧
      InQuotes element attr name quoted ∧ name.text = n ∧ attr.Covers p ∧
      ∀ m ∈ element.nodes, m.Covers p → m ∈ attr.nodes ∨ attr ∈ m.nodes := by
  obtain ⟨element, enclosed, read⟩ := Option.bind_eq_some_iff.mp found
  have inTree := Node.mem_nodes_of_enclosing enclosed
  have nested := nested.below inTree
  have clean := clean.below inTree
  rcases Option.or_eq_some_iff.mp read with named | ⟨_, valued⟩
  · rcases namePosition?_eq_some named with ⟨same, _⟩ | ⟨_, _, _, same⟩ <;> cases same
  obtain ⟨last, isLast, shaped⟩ := Option.bind_eq_some_iff.mp valued
  obtain ⟨⟨member, begun⟩, _⟩ := mem_nearest.mp (List.mem_of_getLast? isLast)
  obtain ⟨attr, hasLast⟩ := quoted_of_errorFree clean member
  obtain ⟨quoted, inQuotes, _⟩ := inQuotes_of_quoted member hasLast
  have covers : attr.Covers p := ⟨Point.le_trans (spans_of_quoted nested member hasLast).start begun,
    lt_stop_of_completion nested clean isLast hasLast shaped⟩
  obtain ⟨tag, placed⟩ := inQuotes.placed
  have attrIn := Node.child_mem_nodes placed.inTree placed.child
  rcases shapePosition?_eq_some shaped with same | same | ⟨mode, _⟩
  · cases same
  · cases same
    exact ⟨rfl, element, attr, last.name, quoted, enclosed, inQuotes, rfl, covers,
      fun m inside around => below_or_above nested inside attrIn around covers⟩
  · cases mode

end Markup

namespace Sample

def twofoldText : Text := "<p hx-a=\"\"=\"b\">"

def innerTag : Markup.Outline :=
  .mk (.other "start_tag") 3 10 [.mk .tagName 3 3 [],
    .mk .attr 3 10 [.mk .attrName 3 7 [], .mk .quotedValue 8 10 []]]

def twofoldOutline : Markup.Outline :=
  .mk .document 0 15 [.mk .element 0 15 [.mk (.other "start_tag") 0 15 [.mk .tagName 1 2 [],
    .mk .attr 3 14 [.mk .attrName 3 10 [innerTag],
      .mk .quotedValue 11 14 [.mk .attrValue 12 13 []]]]]]

def twofold : Markup.Node := twofoldOutline.locate twofoldText

end Sample

open Markup in
/-- Between the inner quotes values are completed for the outer attribute. -/
theorem value_completion_of_twofold :
    Sample.twofold.position? ⟨0, 9⟩ .completion =
      some (.value (Text.ofString "hx-a=\"\"") []) ∧
    ∃ element attr name quoted, Sample.twofold.enclosing? ⟨0, 9⟩ = some element ∧
      InQuotes element attr name quoted ∧ name.text = Text.ofString "hx-a=\"\"" ∧
      attr.Covers ⟨0, 9⟩ := by
  have found : Sample.twofold.position? ⟨0, 9⟩ .completion =
    some (.value (Text.ofString "hx-a=\"\"") []) := by decide
  obtain ⟨_, element, attr, name, quoted, enclosed, inQuotes, text, covers, _⟩ :=
    value_completion_inside_attribute
      (wellNested_locate Sample.twofoldText Sample.twofoldOutline (by decide)) (by decide) found
  exact ⟨found, element, attr, name, quoted, enclosed, inQuotes, text, covers⟩

end Hypertag
