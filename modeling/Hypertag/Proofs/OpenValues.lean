import Hypertag.Proofs.OpenTags
import Hypertag.Proofs.ValueReach

/-!
# Values that stay open

Which values are completed at a cursor at or behind the name of an attribute, among errors. A value
whose quote is never closed is always open. One without double quotes is open as well, until an
equals sign that could not be placed begins behind it, and again from the next error on. One in
double quotes is open up to its end, which is not treated here beyond the start of the name.
-/

namespace Hypertag

namespace Markup

def Unquoted (root name : Node) : Prop :=
  ∀ shape, ⟨name, shape⟩ ∈ root.valuedAttributes → shape.quotedAttribute? = none

/-- Whether the last error that has begun behind an attribute is an equals sign. -/
def EndsInEquals (root : Node) (p : Point) (name : Node) : Prop :=
  ∃ attr error, ⟨name, .beforeError attr error⟩ ∈ root.valuedAttributes ∧ error.start ≤ p ∧
    error.text = equalsSign ∧
    ∀ attr' other, ⟨name, .beforeError attr' other⟩ ∈ root.valuedAttributes → other.start ≤ p →
      other.start ≤ error.start

/-- Whether more may be written of a value at a cursor at or behind the start of its name. -/
inductive Unfinished (root : Node) (p : Point) (name : Node) : Prop
  | starts : name.start = p → Unfinished root p name
  | unclosed {tag : Node} : ⟨name, .unclosed tag⟩ ∈ root.valuedAttributes → Unfinished root p name
  | unquoted : Unquoted root name → ¬ EndsInEquals root p name → Unfinished root p name

/-- A name whose value is open at a cursor: of the names with a value it starts last at or before the
cursor, and its value is unfinished. -/
structure OpenValue (root : Node) (p : Point) (name : Node) : Prop where
  valued : ∃ shape, ⟨name, shape⟩ ∈ root.valuedAttributes
  begun : name.start ≤ p
  last : ∀ v ∈ root.valuedAttributes, v.name.start ≤ p → v.name.start ≤ name.start
  unfinished : Unfinished root p name

theorem OpenValue.nearest {root name : Node} {p : Point} (h : OpenValue root p name) :
    ∃ shape, ⟨name, shape⟩ ∈ nearest p root.valuedAttributes := by
  obtain ⟨shape, candidate⟩ := h.valued
  exact ⟨shape, mem_nearest.mpr ⟨⟨candidate, h.begun⟩, h.last⟩⟩

/-! ### Errors behind an attribute -/

theorem ValueShape.error?_eq_some {shape : ValueShape} {error : Node} :
    shape.error? = some error ↔ ∃ attr, shape = .beforeError attr error := by
  cases shape <;> simp [ValueShape.error?]

theorem ValueShape.quotedAttribute?_of_empty {shape : ValueShape} {quoted : Node}
    (h : shape.emptyQuotes? = some quoted) : ∃ attr, shape.quotedAttribute? = some attr := by
  cases shape <;> cases h
  exact ⟨_, rfl⟩

theorem isInTag_of_beforeError {error : Node} {f : Frame} {v : ValuedAttribute}
    (h : v ∈ ValuedAttribute.beforeError error f) : f.isInTag = true := by
  unfold ValuedAttribute.beforeError at h
  split at h
  · next fits =>
    simp only [Bool.and_eq_true] at fits
    exact fits.2
  · cases h

/-- A value before an error is found where the error is entered, in the tag of its attribute. -/
theorem frame_of_beforeError {root : Node} {visit : Visit} (visited : visit ∈ root.walk)
    {v : ValuedAttribute} (found : v ∈ ValuedAttribute.ofVisit visit) {attr error : Node}
    (shape : v.shape = .beforeError attr error) :
    ∃ f above, visit = .enter error (f :: above) ∧ Leads root error (f :: above) ∧
      attr ∈ f.before ∧ f.parent.isTag = true := by
  obtain ⟨node, f, above, rfl, ways⟩ := valuedAttribute_of_visit found
  have way := leads_of_walk visited
  rcases ways with unclosed | beforeError | ⟨g, rest, _, empty⟩ | ⟨g, i, rest, _, filled⟩
  · cases (mem_unclosed_shape unclosed).symm.trans shape
  · obtain ⟨a, before, same⟩ := mem_beforeError_shape beforeError
    cases same.symm.trans shape
    exact ⟨f, above, rfl, way, before, way.isTag (isInTag_of_beforeError beforeError)⟩
  · cases (mem_empty_shape empty).1.symm.trans shape
  · cases (mem_filled_shape filled).1.symm.trans shape

section Tree

variable {root : Node} (nested : root.WellNested) (leaves : root.NamesAreLeaves)
  (apart : root.TagsApart)
include nested leaves apart

/-- The errors behind one attribute are found in their order. -/
theorem errors_ordered : root.valuedAttributes.Pairwise fun v w => v.name = w.name →
    ∀ e d, v.shape.error? = some e → w.shape.error? = some d → e = d ∨ e.stop ≤ d.start := by
  rw [Node.valuedAttributes, List.pairwise_flatMap]
  constructor
  · intro visit visited
    refine List.pairwise_of_forall_mem_list ?_
    intro v foundV w foundW _ e d hasE hasD
    obtain ⟨a, shapeV⟩ := ValueShape.error?_eq_some.mp hasE
    obtain ⟨b, shapeW⟩ := ValueShape.error?_eq_some.mp hasD
    obtain ⟨_, _, rfl, _⟩ := frame_of_beforeError visited foundV shapeV
    obtain ⟨_, _, same, _⟩ := frame_of_beforeError visited foundW shapeW
    cases same
    exact Or.inl rfl
  · refine (walk_sorted root).imp_of_mem ?_
    intro first second visited visited' order v foundV w foundW same e d hasE hasD
    obtain ⟨a, shapeV⟩ := ValueShape.error?_eq_some.mp hasE
    obtain ⟨b, shapeW⟩ := ValueShape.error?_eq_some.mp hasD
    obtain ⟨f, above, rfl, way, beforeV, isTagV⟩ := frame_of_beforeError visited foundV shapeV
    obtain ⟨g, above', rfl, way', beforeW, isTagW⟩ := frame_of_beforeError visited' foundW shapeW
    have placedV := mem_valuedAttributes (List.mem_flatMap.mpr ⟨_, visited, foundV⟩)
    have placedW := mem_valuedAttributes (List.mem_flatMap.mpr ⟨_, visited', foundW⟩)
    have heldV : AttributeOf root v.name a := by
      have around := placedV.shape
      rw [shapeV] at around
      exact around.1
    have heldW : AttributeOf root v.name b := by
      have around := placedW.shape
      rw [shapeW, ← same] at around
      exact around.1
    -- one name has one attribute, so the two errors stand in one tag
    obtain rfl := placedV.name.parent_unique nested leaves heldV.inTree heldW.inTree heldV.name
      heldW.name
    have aroundAttr := covers_of_mem_nodes (nested.below heldV.inTree)
      (Node.child_mem_nodes a.self_mem_nodes heldV.name) (placedV.name.covers nested)
    have around : ∀ {n : Node}, n ∈ root.nodes → a ∈ n.children → n.Covers v.name.start :=
      fun inside child => covers_of_mem_nodes (nested.below inside)
        (Node.child_mem_nodes (Node.self_mem_nodes _) child) aroundAttr
    have aroundV := around way.parent.mem_nodes (way.before beforeV)
    have aroundW := around way'.parent.mem_nodes (way'.before beforeW)
    have sameTag := apart.eq_of_covers nested way.parent.mem_nodes way'.parent.mem_nodes isTagV
      isTagW aroundV aroundW
    have upV := way.parent
    rw [sameTag] at upV
    obtain rfl := apart.frames_unique nested isTagW aroundW upV way'.parent
    exact Or.inr (way.stop_le_of_place nested way' sameTag
      (order e (f :: above) d (g :: above) rfl rfl))

end Tree

/-- Of errors in order, the last one that has begun is an equals sign exactly if of those that have
begun none starts behind an equals sign. -/
theorem latest_is_sign_iff {p : Point} {errors : List Node}
    (ordered : errors.Pairwise fun e d => e = d ∨ e.stop ≤ d.start)
    (holds : ∀ e ∈ errors, e.Holds) :
    (latest? p Node.start errors).any (·.text = equalsSign) = true ↔
      ∃ e ∈ errors, e.start ≤ p ∧ e.text = equalsSign ∧
        ∀ d ∈ errors, d.start ≤ p → d.start ≤ e.start := by
  constructor
  · intro sign
    obtain ⟨e, latest, text⟩ := (Option.any_eq_true _ _).mp sign
    obtain ⟨member, begun⟩ := mem_of_latest? latest
    have sorted : errors.Pairwise fun e d => e.start ≤ d.start := by
      refine ordered.imp_of_mem ?_
      rintro e d listed _ (rfl | behind)
      · exact Point.le_refl _
      · exact Point.le_trans (holds e listed).forward behind
    exact ⟨e, member, begun, of_decide_eq_true text,
      fun d listed begunD => start_le_latest sorted latest listed begunD⟩
  · rintro ⟨e, member, begun, text, last⟩
    obtain ⟨l, latest⟩ := exists_latest? member begun
    obtain ⟨memberL, begunL⟩ := mem_of_latest? latest
    have same : e = l := by
      obtain ⟨before, split⟩ := List.getLast?_eq_some_iff.mp latest
      have ordered := ordered.sublist (List.filter_sublist (p := fun n => decide (n.start ≤ p)))
      rw [split, List.pairwise_append] at ordered
      have listed : e ∈ before ++ [l] :=
        split ▸ List.mem_filter.mpr ⟨member, decide_eq_true begun⟩
      rcases List.mem_append.mp listed with earlier | final
      · refine (ordered.2.2 e earlier l List.mem_cons_self).resolve_right fun behind => ?_
        have width := (holds e member).written (by rw [text]; decide)
        exact Point.not_le.mpr width (Point.le_trans behind (last l memberL begunL))
      · exact List.mem_singleton.mp final
    rw [latest, Option.any_some, ← same, text]
    exact decide_eq_true rfl

/-! ### Shapes of one name -/

section Shapes

variable {p : Point} {name : Node} {shapes : List ValueShape}

/-- At a cursor where no quote and no error has begun and no attribute has ended, the value is
completed. -/
theorem shapePosition?_ahead
    (quotes : ∀ s ∈ shapes, ∀ quoted, s.emptyQuotes? = some quoted → p < quoted.start)
    (errors : ∀ s ∈ shapes, ∀ error, s.error? = some error → p < error.start)
    (goesOn : ∀ s ∈ shapes, ∀ attr, s.quotedAttribute? = some attr → p < attr.stop) :
    shapePosition? .completion p name shapes = some (.value name.text []) := by
  have noQuotes := latestPart?_eq_none quotes
  have noErrors := latestPart?_eq_none errors
  simp only [shapePosition?, noQuotes, noErrors]
  cases found : latestPart? p shapes ValueShape.filledAttribute? with
  | none => simp
  | some attr =>
    obtain ⟨s, member, has⟩ := mem_of_latestPart? found
    have stop : ¬ attr.stop ≤ p := by
      cases s <;> cases has
      exact Point.not_le.mpr (goesOn _ member attr rfl)
    simp [stop]

section Unquoted

variable (unquoted : ∀ s ∈ shapes, s.quotedAttribute? = none)
include unquoted

theorem latestParts_of_unquoted : latestPart? p shapes ValueShape.emptyAttribute? = none ∧
    latestPart? p shapes ValueShape.emptyQuotes? = none ∧
    latestPart? p shapes ValueShape.filledAttribute? = none := by
  have absent (part : ValueShape → Option Node) (quotes : ∀ s n, part s = some n →
      s.quotedAttribute? ≠ none) : latestPart? p shapes part = none :=
    latestPart?_eq_none fun s member n has => absurd (unquoted s member) (quotes s n has)
  refine ⟨absent _ fun s n has => ?_, absent _ fun s n has => ?_, absent _ fun s n has => ?_⟩
  all_goals
    cases s <;> cases has
    exact Option.some_ne_none _

/-- A value whose quote is never closed is completed. -/
theorem shapePosition?_unclosed {tag : Node} (listed : ValueShape.unclosed tag ∈ shapes)
    (begun : tag.start ≤ p) :
    shapePosition? .completion p name shapes = some (.value name.text []) := by
  obtain ⟨latest, found⟩ : ∃ n, latestPart? p shapes ValueShape.unclosed? = some n :=
    exists_latestPart? listed rfl begun
  obtain ⟨_, noQuotes, _⟩ := @latestParts_of_unquoted p shapes unquoted
  simp [shapePosition?, found, noQuotes]

/-- A value without double quotes is completed if the last error that has begun is no equals
sign. -/
theorem shapePosition?_unquoted
    (noSign : (latestPart? p shapes ValueShape.error?).any (·.text = equalsSign) = false) :
    shapePosition? .completion p name shapes = some (.value name.text []) := by
  obtain ⟨_, noQuotes, noFilled⟩ := @latestParts_of_unquoted p shapes unquoted
  simp [shapePosition?, noQuotes, noFilled, noSign]

/-- An equals sign behind a value without quotes keeps it from being completed. -/
theorem shapePosition?_behind_sign (closed : ∀ s ∈ shapes, s.unclosed? = none)
    (sign : (latestPart? p shapes ValueShape.error?).any (·.text = equalsSign) = true) :
    shapePosition? .completion p name shapes = none := by
  have noUnclosed : latestPart? p shapes ValueShape.unclosed? = none := by
    refine latestPart?_eq_none fun s member n has => ?_
    cases (closed s member).symm.trans has
  obtain ⟨noEmpty, _⟩ := @latestParts_of_unquoted p shapes unquoted
  simp [shapePosition?, noUnclosed, noEmpty, sign]

end Unquoted

end Shapes

/-! ### The value at a cursor -/

/-- A name in an error is not that of an attribute in quotes. -/
theorem unquoted_of_unclosed {root name tag : Node} (nested : root.WellNested)
    (leaves : root.NamesAreLeaves) (unclosed : ⟨name, .unclosed tag⟩ ∈ root.valuedAttributes) :
    Unquoted root name := by
  intro shape candidate
  rw [Option.eq_none_iff_forall_ne_some]
  intro attr has
  obtain ⟨inTree, kind, child⟩ := (mem_valuedAttributes unclosed).shape
  obtain ⟨quoted, inQuotes, _⟩ := inQuotes_of_quoted candidate has
  obtain ⟨_, placed⟩ := inQuotes.placed
  obtain ⟨before, after, parts, member⟩ := inQuotes.parts
  have same := (mem_valuedAttributes unclosed).name.parent_unique nested leaves inTree
    (Node.child_mem_nodes placed.inTree placed.child) child (by simp [parts, member])
  cases (same ▸ kind).symm.trans inQuotes.kind

section Nearest

variable {root : Node} {p : Point} (nested : root.WellNested) (leaves : root.NamesAreLeaves)
  {v : ValuedAttribute} (near : v ∈ nearest p root.valuedAttributes)
include nested leaves near

/-- The shapes that count at a cursor are those of one name. -/
theorem mem_shapes_iff {shape : ValueShape} :
    shape ∈ (nearest p root.valuedAttributes).map (·.shape) ↔
      ⟨v.name, shape⟩ ∈ root.valuedAttributes := by
  constructor
  · intro listed
    obtain ⟨w, nearW, rfl⟩ := List.mem_map.mp listed
    rw [name_eq_of_nearest nested leaves near nearW]
    exact (mem_nearest.mp nearW).1.1
  · intro candidate
    obtain ⟨⟨_, begun⟩, last⟩ := mem_nearest.mp near
    exact List.mem_map.mpr ⟨_, mem_nearest.mpr ⟨⟨candidate, begun⟩, last⟩, rfl⟩

theorem latest_error_iff (apart : root.TagsApart) :
    (latestPart? p ((nearest p root.valuedAttributes).map (·.shape)) ValueShape.error?).any
      (·.text = equalsSign) = true ↔ EndsInEquals root p v.name := by
  have member : ∀ e, e ∈ ((nearest p root.valuedAttributes).map (·.shape)).filterMap
      ValueShape.error? ↔ ∃ attr, ⟨v.name, .beforeError attr e⟩ ∈ root.valuedAttributes := by
    intro e
    simp only [List.mem_filterMap, mem_shapes_iff nested leaves near, ValueShape.error?_eq_some]
    constructor
    · rintro ⟨_, candidate, attr, rfl⟩
      exact ⟨attr, candidate⟩
    · rintro ⟨attr, candidate⟩
      exact ⟨_, candidate, attr, rfl⟩
  have ordered : (((nearest p root.valuedAttributes).map (·.shape)).filterMap
      ValueShape.error?).Pairwise fun e d => e = d ∨ e.stop ≤ d.start := by
    rw [List.pairwise_filterMap, List.pairwise_map]
    refine ((errors_ordered nested leaves apart).sublist
      (List.filter_sublist.trans List.filter_sublist)).imp_of_mem ?_
    intro w x nearW nearX order e hasE d hasD
    exact order (name_eq_of_nearest nested leaves nearW nearX) e d hasE hasD
  have holds : ∀ e ∈ ((nearest p root.valuedAttributes).map (·.shape)).filterMap
      ValueShape.error?, e.Holds := by
    intro e listed
    obtain ⟨attr, candidate⟩ := (member e).mp listed
    obtain ⟨_, tag, inTree, _, child, _⟩ := (mem_valuedAttributes candidate).shape
    exact nested e (Node.child_mem_nodes inTree child)
  rw [latestPart?, latest_is_sign_iff ordered holds]
  simp only [member]
  constructor
  · rintro ⟨e, ⟨attr, candidate⟩, begun, text, last⟩
    exact ⟨attr, e, candidate, begun, text, fun attr' other listed => last other ⟨attr', listed⟩⟩
  · rintro ⟨attr, e, candidate, begun, text, last⟩
    refine ⟨e, ⟨attr, candidate⟩, begun, text, ?_⟩
    rintro other ⟨attr', listed⟩
    exact last attr' other listed

/-- At the start of a name its value is completed. -/
theorem shapePosition?_at_start (start : v.name.start = p) :
    shapePosition? .completion p v.name ((nearest p root.valuedAttributes).map (·.shape)) =
      some (.value v.name.text []) := by
  have width : p < v.name.stop :=
    start ▸ ((mem_valuedAttributes (mem_nearest.mp near).1.1).name.covers nested).2
  refine shapePosition?_ahead ?_ ?_ ?_
  · intro s listed quoted has
    have candidate := (mem_shapes_iff nested leaves near).mp listed
    obtain ⟨attr, hasAttr⟩ := ValueShape.quotedAttribute?_of_empty has
    exact Point.lt_of_lt_of_le width ((spans_of_quoted nested candidate hasAttr).empty quoted has).1
  · intro s listed error has
    have candidate := (mem_shapes_iff nested leaves near).mp listed
    obtain ⟨attr, rfl⟩ := ValueShape.error?_eq_some.mp has
    have held := (mem_valuedAttributes candidate).shape.1
    have ends := ((nested attr held.inTree).inside v.name held.name).2
    exact Point.lt_of_lt_of_le width
      (Point.le_trans ends (stop_le_of_beforeError nested candidate))
  · intro s listed attr has
    have candidate := (mem_shapes_iff nested leaves near).mp listed
    exact Point.lt_of_lt_of_le width (spans_of_quoted nested candidate has).stop

/-- An unfinished value is completed. -/
theorem shapePosition?_of_unfinished (apart : root.TagsApart)
    (unfinished : Unfinished root p v.name) :
    shapePosition? .completion p v.name ((nearest p root.valuedAttributes).map (·.shape)) =
      some (.value v.name.text []) := by
  have shapes := @mem_shapes_iff root p nested leaves v near
  cases unfinished with
  | starts start => exact shapePosition?_at_start nested leaves near start
  | @unclosed tag listed =>
    have unquoted := unquoted_of_unclosed nested leaves listed
    obtain ⟨inTree, _, child⟩ := (mem_valuedAttributes listed).shape
    have begun := Point.le_trans ((nested tag inTree).inside v.name child).1
      (mem_nearest.mp near).1.2
    exact shapePosition?_unclosed (fun s member => unquoted s (shapes.mp member))
      (shapes.mpr listed) begun
  | unquoted unquoted goesOn =>
    refine shapePosition?_unquoted (fun s member => unquoted s (shapes.mp member)) ?_
    rw [← Bool.not_eq_true]
    exact fun sign => goesOn ((latest_error_iff nested leaves near apart).mp sign)

/-- A value that is finished is not completed, where its attribute has ended. -/
theorem shapePosition?_of_finished (apart : root.TagsApart)
    (finished : ¬ Unfinished root p v.name)
    (ended : ∀ shape attr, ⟨v.name, shape⟩ ∈ root.valuedAttributes →
      shape.quotedAttribute? = some attr → attr.stop ≤ p) :
    shapePosition? .completion p v.name ((nearest p root.valuedAttributes).map (·.shape)) =
      none := by
  have shapes := @mem_shapes_iff root p nested leaves v near
  have closed : ∀ s ∈ (nearest p root.valuedAttributes).map (·.shape), s.unclosed? = none := by
    intro s member
    rw [Option.eq_none_iff_forall_ne_some]
    intro tag has
    cases s <;> cases has
    exact finished (.unclosed (shapes.mp member))
  by_cases unquoted : Unquoted root v.name
  · have sign : EndsInEquals root p v.name :=
      Classical.byContradiction fun goesOn => finished (.unquoted unquoted goesOn)
    exact shapePosition?_behind_sign (fun s member => unquoted s (shapes.mp member)) closed
      ((latest_error_iff nested leaves near apart).mpr sign)
  · simp only [Unquoted, not_forall] at unquoted
    obtain ⟨shape, listed, quoted⟩ := unquoted
    refine shapePosition?_past closed
      ⟨shape, shapes.mpr listed, Option.ne_none_iff_exists'.mp quoted⟩ ?_ ?_
    · intro s member attr has
      have spans := spans_of_quoted nested (shapes.mp member) has
      exact ⟨Point.le_trans spans.start (mem_nearest.mp near).1.2,
        ended s attr (shapes.mp member) has⟩
    · intro s member empty hasEmpty
      obtain ⟨attr, has⟩ := ValueShape.quotedAttribute?_of_empty hasEmpty
      obtain ⟨_, forward, stop⟩ :=
        (spans_of_quoted nested (shapes.mp member) has).empty empty hasEmpty
      have stop := Point.le_trans stop (ended s attr (shapes.mp member) has)
      exact ⟨Point.le_trans forward stop, stop⟩

end Nearest

/-- Where the attributes in quotes have ended that started before the cursor, a value is completed
exactly if it is open. -/
theorem valuePosition?_eq_some_iff {root : Node} {p : Point} (nested : root.WellNested)
    (leaves : root.NamesAreLeaves) (apart : root.TagsApart)
    (ended : ∀ v ∈ root.valuedAttributes, v.name.start < p →
      ∀ attr, v.shape.quotedAttribute? = some attr → attr.stop ≤ p) {position : Position} :
    valuePosition? .completion p root.valuedAttributes = some position ↔
      ∃ name, OpenValue root p name ∧ position = .value name.text [] := by
  constructor
  · intro read
    obtain ⟨v, last, _⟩ := Option.bind_eq_some_iff.mp read
    have near := List.mem_of_getLast? last
    obtain ⟨⟨candidate, begun⟩, latest⟩ := mem_nearest.mp near
    rw [valuePosition?_of_nearest nested leaves .completion near] at read
    have unfinished : Unfinished root p v.name := by
      by_contra finished
      have before : v.name.start < p :=
        Point.not_le.mp fun late => finished (.starts (Point.le_antisymm begun late))
      have nothing := shapePosition?_of_finished nested leaves near apart finished
        fun shape attr listed => ended ⟨v.name, shape⟩ listed before attr
      cases nothing.symm.trans read
    rw [shapePosition?_of_unfinished nested leaves near apart unfinished] at read
    exact ⟨v.name, ⟨⟨v.shape, candidate⟩, begun, latest, unfinished⟩, (Option.some.inj read).symm⟩
  · rintro ⟨name, openValue, rfl⟩
    obtain ⟨shape, near⟩ := openValue.nearest
    rw [valuePosition?_of_nearest nested leaves .completion near]
    exact shapePosition?_of_unfinished nested leaves near apart openValue.unfinished

end Markup

end Hypertag
