import Hypertag.Proofs.OpenValues

/-!
# Completion at a pending equals sign

Behind a bare marked attribute an equals sign can wait for its value: the grammar makes an error of
it. Between the attribute and the end of that sign no name is completed. A value is completed if an
attribute of the element around is still open there: one that starts at the cursor, one whose quote
is never closed, or one without double quotes, unless the last error that has begun behind it is an
equals sign. So an earlier attribute without quotes answers as long as the cursor is before the sign.
Spans are nested, names are leaves and no tag has another one in it.
-/

namespace Hypertag

namespace Markup

/-- A bare marked attribute of a tag, and an equals sign right behind it. -/
structure PendingEquals (root tag attr name equals : Node) : Prop where
  inTree : tag ∈ root.nodes
  sound : tag.kind ≠ .error
  placed : ∃ before after, tag.children = before ++ attr :: equals :: after ∧
    hasTagName before = true
  kind : attr.kind = .attr
  child : name ∈ attr.children
  marked : name.isMarkedName = true
  bare : name.text = attr.text
  error : equals.kind = .error
  sign : equals.text = equalsSign

namespace PendingEquals

variable {root tag attr name equals : Node} {p : Point}
  (h : PendingEquals root tag attr name equals)
include h

theorem inTag : InTag root tag attr := by
  obtain ⟨before, after, children, named⟩ := h.placed
  exact ⟨h.inTree, h.sound, before, equals :: after, children, named⟩

theorem bareName : BareName root name :=
  ⟨h.marked, tag, attr, h.inTag, h.kind, h.child, h.bare⟩

theorem isNamed : attr.isNamedAttribute = true := by
  have marked := h.marked
  simp only [Node.isMarkedName, Bool.and_eq_true] at marked
  simp only [Node.isNamedAttribute, h.kind, decide_true, Bool.true_and, List.any_eq_true]
  exact ⟨name, h.child, marked.1⟩

variable (nested : root.WellNested)
include nested

/-- The children of the tag other than the attribute and the sign come before both or behind. -/
theorem sibling_cases {n : Node} (child : n ∈ tag.children) :
    n.stop ≤ attr.start ∨ n = attr ∨ n = equals ∨ equals.stop ≤ n.start := by
  obtain ⟨before, after, children, _⟩ := h.placed
  have ordered := (nested tag h.inTree).ordered
  rw [children, List.pairwise_append, List.pairwise_cons, List.pairwise_cons] at ordered
  rw [children] at child
  simp only [List.mem_append, List.mem_cons] at child
  rcases child with first | rfl | rfl | last
  · exact Or.inl (ordered.2.2 n first attr List.mem_cons_self)
  · exact Or.inr (Or.inl rfl)
  · exact Or.inr (Or.inr (Or.inl rfl))
  · exact Or.inr (Or.inr (Or.inr (ordered.2.1.2.1 n last)))

theorem attr_spans : tag.start ≤ attr.start ∧ attr.start ≤ name.start ∧ name.start < attr.stop := by
  have covers := h.bareName.markedName.covers nested
  have attrIn := Node.child_mem_nodes h.inTree h.inTag.child
  have inAttr := (nested attr attrIn).inside name h.child
  exact ⟨((nested tag h.inTree).inside attr h.inTag.child).1, inAttr.1,
    Point.lt_of_lt_of_le covers.2 inAttr.2⟩

theorem equals_spans :
    attr.stop ≤ equals.start ∧ equals.start ≤ equals.stop ∧ equals.stop ≤ tag.stop := by
  obtain ⟨before, after, children, _⟩ := h.placed
  have child : equals ∈ tag.children := by simp [children]
  have holds := nested tag h.inTree
  have ordered := holds.ordered
  rw [children, List.pairwise_append, List.pairwise_cons] at ordered
  exact ⟨ordered.2.1.1 equals List.mem_cons_self,
    (nested equals (Node.child_mem_nodes h.inTree child)).forward, (holds.inside equals child).2⟩

/-! ### Names -/

/-- The tag is open at the sign or at an error that has begun before. -/
theorem opens : ∃ before error after, tag.children = before ++ error :: after ∧
    (∀ above, OpenTag.ofVisit (.enter error (⟨tag, before, after⟩ :: above)) =
      [⟨tag, some error⟩]) ∧ (error = equals ∨ error.start ≤ attr.start) := by
  obtain ⟨before, after, children, named⟩ := h.placed
  have cut : tag.children = (before ++ [attr]) ++ equals :: after := by simp [children]
  have attributes : fromFirstAttribute (before ++ [attr]) ≠ [] := by
    rw [fromFirstAttribute_append named h.isNamed]
    simp
  obtain ⟨first, e, rest, split, opens, place⟩ := openTag_of_first_error
    (decide_eq_false h.sound) cut (decide_eq_true h.error) (hasTagName_append named _) attributes
  refine ⟨first, e, rest, split, opens, ?_⟩
  rcases place with ⟨_, same, _⟩ | ⟨member, isError⟩
  · exact Or.inl same
  · refine Or.inr ?_
    rcases List.mem_append.mp member with earlier | self
    · have child : e ∈ tag.children := by simp [split]
      have ordered := (nested tag h.inTree).ordered
      rw [children, List.pairwise_append] at ordered
      exact Point.le_trans (nested e (Node.child_mem_nodes h.inTree child)).forward
        (ordered.2.2 e earlier attr List.mem_cons_self)
    · obtain rfl := List.mem_singleton.mp self
      cases h.kind.symm.trans (of_decide_eq_true isError)

/-- Of the bare attributes that begin behind the name and before the sign, the sign follows. -/
theorem following (apart : root.TagsApart) {b : BareAttribute} (member : b ∈ root.bareAttributes)
    (last : name.start ≤ b.name.start) (before : b.name.start < equals.start) :
    b.attr = attr ∧ b.following = some equals := by
  obtain ⟨⟨tag', inTree, sound, first, rest, children, named, follows⟩, kind, child, marked, _⟩ :=
    followed_of_bareAttribute member
  have placed : InTag root tag' b.attr := ⟨inTree, sound, first, rest, children, named⟩
  have attrIn := Node.child_mem_nodes inTree placed.child
  have covers := (markedName_of_isMarkedName (Node.child_mem_nodes attrIn child) marked).covers nested
  have aroundAttr := covers_of_mem_nodes (nested.below attrIn)
    (Node.child_mem_nodes b.attr.self_mem_nodes child) covers
  have aroundTag := covers_of_mem_nodes (nested.below inTree)
    (Node.child_mem_nodes tag'.self_mem_nodes placed.child) aroundAttr
  obtain ⟨tagStart, attrStart, _⟩ := h.attr_spans nested
  obtain ⟨_, forward, tagStop⟩ := h.equals_spans nested
  have around : tag.Covers b.name.start :=
    ⟨Point.le_trans tagStart (Point.le_trans attrStart last),
      Point.lt_of_lt_of_le before (Point.le_trans forward tagStop)⟩
  obtain rfl := apart.eq_of_covers nested inTree h.inTree placed.isTag h.inTag.isTag aroundTag around
  have same : b.attr = attr := by
    rcases h.sibling_cases nested placed.child with earlier | same | sign | later
    · exact absurd (Point.le_trans earlier (Point.le_trans attrStart last))
        (Point.not_le.mpr aroundAttr.2)
    · exact same
    · cases kind.symm.trans (sign ▸ h.error)
    · exact absurd (Point.le_trans (Point.le_trans forward later) aroundAttr.1)
        (Point.not_le.mpr before)
  obtain ⟨front, after, whole, _⟩ := h.placed
  obtain ⟨_, _, behind⟩ := (nested _ inTree).split_unique children whole aroundAttr (same ▸ aroundAttr)
  exact ⟨same, by rw [follows, behind]; rfl⟩

/-- No name is completed between the attribute and the end of the sign. -/
theorem namePosition?_eq_none (apart : root.TagsApart) (behind : attr.stop ≤ p)
    (upTo : p ≤ equals.stop) :
    namePosition? .completion p root.bareAttributes root.openTags = none := by
  obtain ⟨tagStart, attrStart, nameStart⟩ := h.attr_spans nested
  obtain ⟨gap, forward, tagStop⟩ := h.equals_spans nested
  have nameBegun : name.start ≤ p := Point.le_trans (Point.le_of_lt nameStart) behind
  have attrBegun : attr.start ≤ p := Point.le_trans attrStart nameBegun
  obtain ⟨before, error, after, children, opens, place⟩ := h.opens nested
  obtain ⟨t, latestTag, begunTag, counts⟩ := latest_openTag_of_error nested apart h.inTree
    h.inTag.isTag children opens (Point.le_trans tagStart attrBegun)
  obtain ⟨above, way⟩ := leads_of_mem_nodes h.inTree
  have toError := Leads.step (f := ⟨tag, before, after⟩) children way
  have listed : ⟨tag, some error⟩ ∈ root.openTags :=
    List.mem_flatMap.mpr ⟨_, toError.mem_walk, by simp [opens]⟩
  rcases latest_bareName nested p with ⟨_, none⟩ | ⟨b, latestBare, named, begunBare, last⟩
  · exact absurd nameBegun (Point.not_le.mpr (none name h.bareName))
  have goesOn : ¬ t.tag.stop < p := by
    rw [Point.not_lt]
    rcases counts with same | later
    · rw [same]
      exact Point.le_trans upTo tagStop
    · have inTree := (mem_openTags (mem_of_latest? latestTag).1).1
      exact Point.le_trans upTo (Point.le_trans tagStop
        (Point.le_trans later (nested t.tag inTree).forward))
  have stops : (begun p (root.openTags.filterMap (·.error)) ||
      equalsPending p root.openTags t b) = true := by
    by_cases begunError : error.start ≤ p
    · rw [begun_of_mem (List.mem_filterMap.mpr ⟨_, listed, rfl⟩) begunError, Bool.true_or]
    · -- the sign is the first error of the tag, and the cursor stands between the two
      have early : p < equals.start := by
        rcases place with rfl | earlier
        · exact Point.not_le.mp begunError
        · exact absurd (Point.le_trans earlier attrBegun) begunError
      have isSign : error = equals :=
        place.resolve_right fun earlier => begunError (Point.le_trans earlier attrBegun)
      have isTag : t.tag = tag := by
        refine counts.resolve_right fun later => ?_
        exact Point.not_le.mpr early (Point.le_trans forward
          (Point.le_trans tagStop (Point.le_trans later begunTag)))
      obtain ⟨same, follows⟩ := h.following nested apart (mem_of_latest? latestBare).1
        (last name h.bareName nameBegun) (Point.lt_of_le_of_lt begunBare early)
      have child : b.name ∈ attr.children :=
        same ▸ (placed_of_bareAttribute (mem_of_latest? latestBare).1).2.2.1
      have ended : b.name.stop ≤ p := Point.le_trans
        ((nested attr (Node.child_mem_nodes h.inTree h.inTag.child)).inside b.name child).2 behind
      have waits : equalsPending p root.openTags t b = true := by
        simp only [equalsPending, ended, follows, decide_true, Bool.true_and, List.any_eq_true]
        exact ⟨_, listed, by simp [isTag, isSign]⟩
      rw [waits, Bool.or_true]
  rw [namePosition?, latestBare, Option.bind_some, latestTag]
  simp only [if_neg goesOn, if_pos stops]

/-! ### Values -/

/-- The attributes in quotes that started before the cursor have ended. -/
theorem stop_le_of_quoted (apart : root.TagsApart) (behind : attr.stop ≤ p)
    (upTo : p ≤ equals.stop) {v : ValuedAttribute} (candidate : v ∈ root.valuedAttributes)
    (started : v.name.start < p) {a : Node} (has : v.shape.quotedAttribute? = some a) :
    a.stop ≤ p := by
  by_contra goesOn
  have goesOn := Point.not_le.mp goesOn
  obtain ⟨_, inQuotes, _⟩ := inQuotes_of_quoted candidate has
  obtain ⟨tag', placed⟩ := inQuotes.placed
  have start := (spans_of_quoted nested candidate has).start
  obtain ⟨outerStart, outerStop⟩ := (nested tag' placed.inTree).inside a placed.child
  obtain ⟨tagStart, attrStart, nameStart⟩ := h.attr_spans nested
  obtain ⟨gap, forward, tagStop⟩ := h.equals_spans nested
  have attrBegun : attr.start < attr.stop := Point.lt_of_le_of_lt attrStart nameStart
  -- the attribute's tag reaches over the cursor, so it overlaps the tag at its own start or there
  have same : tag' = tag := by
    by_cases first : tag'.start ≤ tag.start
    · refine apart.eq_of_covers nested placed.inTree h.inTree placed.isTag h.inTag.isTag
        ⟨first, ?_⟩ ⟨Point.le_refl _, ?_⟩
      · exact Point.lt_of_le_of_lt (Point.le_trans tagStart (Point.le_trans
          (Point.le_of_lt attrBegun) behind)) (Point.lt_of_lt_of_le goesOn outerStop)
      · exact Point.lt_of_le_of_lt tagStart (Point.lt_of_lt_of_le attrBegun
          (Point.le_trans gap (Point.le_trans forward tagStop)))
    · have early : tag'.start < p :=
        Point.lt_of_le_of_lt (Point.le_trans outerStart start) started
      refine apart.eq_of_covers nested placed.inTree h.inTree placed.isTag h.inTag.isTag
        ⟨Point.le_refl _, ?_⟩ ⟨Point.le_of_lt (Point.not_le.mp first), ?_⟩
      · exact Point.lt_trans early (Point.lt_of_lt_of_le goesOn outerStop)
      · exact Point.lt_of_lt_of_le early (Point.le_trans upTo tagStop)
  rcases h.sibling_cases nested (same ▸ placed.child) with earlier | rfl | rfl | later
  · exact Point.not_le.mpr goesOn (Point.le_trans earlier
      (Point.le_trans (Point.le_of_lt attrBegun) behind))
  · exact Point.not_le.mpr goesOn behind
  · cases h.error.symm.trans inQuotes.kind
  · exact Point.not_le.mpr started (Point.le_trans upTo (Point.le_trans later start))

end PendingEquals

/-- Between a bare marked attribute and the end of the equals sign right behind it, a completion
answers exactly where the value of some attribute of the element is open, and then with that value:
names are never completed there. -/
theorem completion_at_pending_equals {root element tag attr name equals : Node} {p : Point}
    (nested : root.WellNested) (leaves : root.NamesAreLeaves) (apart : root.TagsApart)
    (enclosed : root.enclosing? p = some element)
    (h : PendingEquals element tag attr name equals) (behind : attr.stop ≤ p)
    (upTo : p ≤ equals.stop) (position : Position) :
    root.position? p .completion = some position ↔
      ∃ other, OpenValue element p other ∧ position = .value other.text [] := by
  have inTree := Node.mem_nodes_of_enclosing enclosed
  have nested := nested.below inTree
  have apart := apart.below inTree
  rw [Node.position?, enclosed, Option.bind_some, h.namePosition?_eq_none nested apart behind upTo,
    Option.none_or]
  exact valuePosition?_eq_some_iff nested (leaves.below inTree) apart
    fun v candidate started _ => h.stop_le_of_quoted nested apart behind upTo candidate started

end Markup

namespace Sample

def pendingText : Text := "<p hx-get=a hx-post =></p>"

def pendingTag : Markup.Outline :=
  .mk (.other "start_tag") 0 22 [.mk .tagName 1 2 [],
    .mk .attr 3 11 [.mk .attrName 3 9 [], .mk .attrValue 10 11 []],
    .mk .attr 12 19 [.mk .attrName 12 19 []], .mk .error 20 21 []]

def pendingElement : Markup.Outline :=
  .mk .element 0 26 [pendingTag, .mk (.other "end_tag") 22 26 [.mk .tagName 24 25 []]]

def pendingOutline : Markup.Outline := .mk .document 0 26 [pendingElement]

def pending : Markup.Node := pendingOutline.locate pendingText

end Sample

namespace Markup

theorem pending_equals : PendingEquals (Sample.pendingElement.locate Sample.pendingText)
    (Sample.pendingTag.locate Sample.pendingText)
    ((Outline.mk .attr 12 19 [.mk .attrName 12 19 []]).locate Sample.pendingText)
    ((Outline.mk .attrName 12 19 []).locate Sample.pendingText)
    ((Outline.mk .error 20 21 []).locate Sample.pendingText) where
  inTree := Node.child_mem_nodes (Node.self_mem_nodes _) List.mem_cons_self
  sound := by decide
  placed := ⟨[_, _], [], rfl, rfl⟩
  kind := rfl
  child := List.mem_cons_self
  marked := by decide
  bare := rfl
  error := rfl
  sign := by decide

end Markup

open Markup in
/-- Before the sign the value of the first attribute is open, and behind it none. -/
theorem completion_around_pending_equals :
    (∃ other, OpenValue (Sample.pendingElement.locate Sample.pendingText) ⟨0, 19⟩ other) ∧
    ¬ ∃ other, OpenValue (Sample.pendingElement.locate Sample.pendingText) ⟨0, 21⟩ other := by
  have nested : Sample.pending.WellNested :=
    wellNested_locate Sample.pendingText Sample.pendingOutline (by decide)
  have before := @completion_at_pending_equals Sample.pending _ _ _ _ _ ⟨0, 19⟩ nested (by decide)
    (by decide) rfl pending_equals (by decide) (by decide)
  have behind := @completion_at_pending_equals Sample.pending _ _ _ _ _ ⟨0, 21⟩ nested (by decide)
    (by decide) rfl pending_equals (by decide) (by decide)
  have found : Sample.pending.position? ⟨0, 19⟩ .completion =
    some (.value (Text.ofString "hx-get") []) := by decide
  have nothing : Sample.pending.position? ⟨0, 21⟩ .completion = none := by decide
  constructor
  · obtain ⟨other, openValue, _⟩ := (before _).mp found
    exact ⟨other, openValue⟩
  · rintro ⟨other, openValue⟩
    cases nothing.symm.trans ((behind _).mpr ⟨other, openValue, rfl⟩)

open Markup in
/-- An equals sign waits behind a bare name, and the value of the attribute before is completed. -/
theorem earlier_value_completed_at_pending_equals :
    Sample.pending.WellNested ∧
    (∃ element tag attr name equals, Sample.pending.enclosing? ⟨0, 19⟩ = some element ∧
      PendingEquals element tag attr name equals ∧ attr.stop ≤ (⟨0, 19⟩ : Point) ∧
      (⟨0, 19⟩ : Point) ≤ equals.stop) ∧
    Sample.pending.position? ⟨0, 19⟩ .completion = some (.value (Text.ofString "hx-get") []) := by
  refine ⟨wellNested_locate Sample.pendingText Sample.pendingOutline (by decide), ?_, by decide⟩
  exact ⟨_, _, _, _, _, rfl, pending_equals, by decide, by decide⟩

end Hypertag
