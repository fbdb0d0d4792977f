import Hypertag.Proofs.MarkupSpans
import Hypertag.Proofs.Provenance
import Mathlib.Data.List.TakeWhile

/-!
# Names at the cursor

A name is read from the bare names of an element and from its open tags. Bare names are found in
the order in which they start, so the last one that has begun is the nearest. An open tag that
counts at a cursor inside a tag goes on behind the cursor. Where there are no errors, a completion
therefore reads the nearest bare name, however far behind it the cursor is. A hover reads it up to
its end, with errors or without: the tag of a bare name is always open.
-/

namespace Hypertag

namespace Markup

namespace Node

def ErrorFree (root : Node) : Prop := ∀ n ∈ root.nodes, n.kind ≠ .error

instance (root : Node) : Decidable root.ErrorFree :=
  inferInstanceAs (Decidable (∀ n ∈ root.nodes, _))

theorem ErrorFree.below {root n : Node} (h : root.ErrorFree) (inside : n ∈ root.nodes) :
    n.ErrorFree := fun m below => h m ((nodes_sublist root inside).subset below)

theorem ErrorFree.isError {root n : Node} (h : root.ErrorFree) (inside : n ∈ root.nodes) :
    n.isError = false :=
  decide_eq_false (h n inside)

end Node

/-! ### Bare names -/

theorem hasTagName_append {before : List Node} (named : hasTagName before = true)
    (rest : List Node) : hasTagName (before ++ rest) = true := by
  simp only [hasTagName] at named ⊢
  rw [List.any_append, named, Bool.true_or]

theorem behindTagName_append {before : List Node} (named : hasTagName before = true)
    (rest : List Node) : behindTagName (before ++ rest) = behindTagName before ++ rest := by
  obtain ⟨first, others, split⟩ : ∃ first others,
      before.dropWhile (·.kind ≠ .tagName) = first :: others := by
    apply List.exists_cons_of_ne_nil
    rw [ne_eq, List.dropWhile_eq_nil_iff]
    intro all
    obtain ⟨n, member, kind⟩ := List.any_eq_true.mp named
    exact of_decide_eq_true (all n member) (of_decide_eq_true kind)
  rw [behindTagName, behindTagName, List.dropWhile_append, split]
  simp

/-- The place of an attribute in a tag: behind the tag's name. -/
structure InTag (root tag attr : Node) : Prop where
  inTree : tag ∈ root.nodes
  kind : tag.kind ≠ .error
  behind : ∃ before after, tag.children = before ++ attr :: after ∧ hasTagName before = true

theorem InTag.child {root tag attr : Node} (h : InTag root tag attr) : attr ∈ tag.children := by
  obtain ⟨before, after, children, _⟩ := h.behind
  simp [children]

/-- A tag with a named attribute has a first one. -/
theorem InTag.fromFirstAttribute_ne_nil {root tag attr : Node} (h : InTag root tag attr)
    (named : attr.isNamedAttribute = true) : fromFirstAttribute tag.children ≠ [] := by
  obtain ⟨before, after, children, hasName⟩ := h.behind
  rw [fromFirstAttribute, ne_eq, List.dropWhile_eq_nil_iff]
  intro all
  have member : attr ∈ behindTagName tag.children := by
    rw [children, behindTagName_append hasName]
    simp
  simpa [named] using all attr member

structure BareName (root name : Node) : Prop where
  marked : name.isMarkedName = true
  whole : ∃ tag attr, InTag root tag attr ∧ attr.kind = .attr ∧ name ∈ attr.children ∧
    name.text = attr.text

theorem BareName.markedName {root name : Node} (h : BareName root name) : MarkedName root name := by
  obtain ⟨tag, attr, placed, _, child, _⟩ := h.whole
  exact markedName_of_isMarkedName
    (Node.child_mem_nodes (Node.child_mem_nodes placed.inTree placed.child) child) h.marked

/-- A bare attribute stands in a tag, right before the node that is said to follow it, and its name
is all there is of it. -/
theorem followed_of_bareAttribute {root : Node} {b : BareAttribute} (h : b ∈ root.bareAttributes) :
    (∃ tag ∈ root.nodes, tag.kind ≠ .error ∧ ∃ before after,
      tag.children = before ++ b.attr :: after ∧ hasTagName before = true ∧
      b.following = after.head?) ∧
    b.attr.kind = .attr ∧ b.name ∈ b.attr.children ∧ b.name.isMarkedName = true ∧
      b.name.text = b.attr.text := by
  obtain ⟨visit, visited, found⟩ := List.mem_flatMap.mp h
  unfold BareAttribute.ofVisit at found
  split at found
  · next name inAttribute inTag above =>
    split at found
    · next fits =>
      obtain rfl := List.mem_singleton.mp found
      simp only [Bool.and_eq_true, decide_eq_true_eq, Frame.isInTag, Node.isError,
        Bool.not_eq_true', decide_eq_false_iff_not] at fits
      obtain ⟨⟨⟨marked, kind⟩, text⟩, error, named⟩ := fits
      have way := leads_of_walk visited
      cases way.parent with
      | step children upwards =>
        exact ⟨⟨inTag.parent, upwards.mem_nodes, error, inTag.before, inTag.after, children, named,
          rfl⟩, kind, way.child, marked, text⟩
    · cases found
  · cases found

theorem placed_of_bareAttribute {root : Node} {b : BareAttribute} (h : b ∈ root.bareAttributes) :
    (∃ tag, InTag root tag b.attr) ∧ b.attr.kind = .attr ∧ b.name ∈ b.attr.children ∧
      b.name.isMarkedName = true ∧ b.name.text = b.attr.text := by
  obtain ⟨⟨tag, inTree, error, before, after, children, named, _⟩, rest⟩ :=
    followed_of_bareAttribute h
  exact ⟨⟨tag, inTree, error, before, after, children, named⟩, rest⟩

theorem mem_bareNames_iff {root name : Node} :
    name ∈ root.bareAttributes.map BareAttribute.name ↔ BareName root name := by
  constructor
  · intro listed
    obtain ⟨b, member, rfl⟩ := List.mem_map.mp listed
    obtain ⟨⟨tag, placed⟩, kind, child, marked, text⟩ := placed_of_bareAttribute member
    exact ⟨marked, tag, b.attr, placed, kind, child, text⟩
  · rintro ⟨marked, tag, attr, ⟨inTree, error, before, after, children, named⟩, kind, child, text⟩
    obtain ⟨above, way⟩ := leads_of_mem_nodes inTree
    obtain ⟨first, last, parts⟩ := List.append_of_mem child
    have toAttr := Leads.step (f := ⟨tag, before, after⟩) children way
    have toName := Leads.step (f := ⟨attr, first, last⟩) parts toAttr
    refine List.mem_map.mpr ⟨⟨attr, name, after.head?⟩,
      List.mem_flatMap.mpr ⟨_, toName.mem_walk, ?_⟩, rfl⟩
    simp [BareAttribute.ofVisit, marked, kind, text, Frame.isInTag, Node.isError, error, named]

theorem bareNames_sublist (visits : List Visit) :
    ((visits.flatMap BareAttribute.ofVisit).map BareAttribute.name).Sublist
      (visits.filterMap Visit.entered?) := by
  induction visits with
  | nil => exact List.Sublist.refl _
  | cons visit visits ih =>
    rw [List.flatMap_cons, List.map_append]
    cases visit with
    | leave node => exact ih
    | enter node frames =>
      have entered : (Visit.enter node frames :: visits).filterMap Visit.entered? =
        node :: visits.filterMap Visit.entered? := rfl
      rw [entered]
      unfold BareAttribute.ofVisit
      split
      · next same =>
        cases same
        split
        · exact ih.cons_cons _
        · exact ih.cons _
      · exact ih.cons _

/-- Bare names are found in the order in which they start. -/
theorem bareAttributes_sorted {root : Node} (nested : root.WellNested) :
    root.bareAttributes.Pairwise fun a b => a.name.start ≤ b.name.start := by
  have names := bareNames_sublist root.walk
  rw [entered_walk] at names
  have sorted := (nodes_sorted root nested).sublist names
  rw [List.pairwise_map] at sorted
  exact sorted

theorem latest?_eq_none_iff {α : Type} {p : Point} {start : α → Point} {candidates : List α} :
    latest? p start candidates = none ↔ ∀ c ∈ candidates, ¬ start c ≤ p := by
  simp [latest?]

theorem exists_latest? {α : Type} {p : Point} {start : α → Point} {candidates : List α} {c : α}
    (member : c ∈ candidates) (h : start c ≤ p) : ∃ d, latest? p start candidates = some d :=
  Option.ne_none_iff_exists'.mp fun none => latest?_eq_none_iff.mp none c member h

theorem begun_of_mem {p : Point} {n : Node} {candidates : List Node} (member : n ∈ candidates)
    (h : n.start ≤ p) : begun p candidates = true :=
  Option.isSome_iff_exists.mpr (exists_latest? member h)

/-- Of candidates in order, the last one that has begun starts last. -/
theorem start_le_latest {α : Type} {p : Point} {start : α → Point} {candidates : List α}
    (sorted : candidates.Pairwise fun a b => start a ≤ start b) {c : α}
    (h : latest? p start candidates = some c) {d : α} (member : d ∈ candidates)
    (begun : start d ≤ p) : start d ≤ start c := by
  obtain ⟨before, split⟩ := List.getLast?_eq_some_iff.mp h
  have listed : d ∈ before ++ [c] := split ▸ List.mem_filter.mpr ⟨member, by simpa using begun⟩
  have sorted := sorted.sublist (List.filter_sublist (p := fun a => decide (start a ≤ p)))
  rw [split, List.pairwise_append] at sorted
  rcases List.mem_append.mp listed with earlier | last
  · exact sorted.2.2 d earlier c List.mem_cons_self
  · rw [List.mem_singleton.mp last]
    exact Point.le_refl _

/-- The bare attribute that counts at a cursor: there is none if all bare names start behind the
cursor, and otherwise it has the one that starts last at or before it. -/
theorem latest_bareName {root : Node} (nested : root.WellNested) (p : Point) :
    (latest? p (·.name.start) root.bareAttributes = none ∧
      ∀ bare, BareName root bare → p < bare.start) ∨
    ∃ b, latest? p (·.name.start) root.bareAttributes = some b ∧ BareName root b.name ∧
      b.name.start ≤ p ∧
      ∀ other, BareName root other → other.start ≤ p → other.start ≤ b.name.start := by
  cases latest : latest? p (·.name.start) root.bareAttributes with
  | none =>
    refine Or.inl ⟨rfl, ?_⟩
    intro bare named
    obtain ⟨b, member, rfl⟩ := List.mem_map.mp (mem_bareNames_iff.mpr named)
    exact Point.not_le.mp (latest?_eq_none_iff.mp latest b member)
  | some b =>
    obtain ⟨member, begun⟩ := mem_of_latest? latest
    refine Or.inr ⟨b, rfl, mem_bareNames_iff.mp (List.mem_map_of_mem member), begun, ?_⟩
    intro other named begun'
    obtain ⟨c, member', rfl⟩ := List.mem_map.mp (mem_bareNames_iff.mpr named)
    exact start_le_latest (bareAttributes_sorted nested) latest member' begun'

/-! ### Tags without errors -/

/-- An open tag is a node of the tree, and its error is an error of the tree. -/
theorem mem_openTags {root : Node} {t : OpenTag} (h : t ∈ root.openTags) :
    t.tag ∈ root.nodes ∧ ∀ e, t.error = some e → e ∈ root.nodes ∧ e.kind = .error := by
  obtain ⟨visit, visited, found⟩ := List.mem_flatMap.mp h
  cases visit with
  | leave tag =>
    simp only [OpenTag.ofVisit] at found
    split at found
    · obtain rfl := List.mem_singleton.mp found
      exact ⟨mem_nodes_of_leave visited, by simp⟩
    · cases found
  | enter node frames =>
    cases frames with
    | nil => cases found
    | cons f above =>
      have way := leads_of_walk visited
      simp only [OpenTag.ofVisit] at found
      split at found
      · next fits =>
        obtain rfl := List.mem_singleton.mp found
        simp only [Bool.and_eq_true, Node.isError, decide_eq_true_eq] at fits
        refine ⟨way.parent.mem_nodes, ?_⟩
        rintro e same
        cases same
        exact ⟨way.mem_nodes, fits.1.1.1⟩
      · cases found

theorem error_of_openTag {root : Node} (clean : root.ErrorFree) {t : OpenTag}
    (h : t ∈ root.openTags) : t.error = none := by
  rw [Option.eq_none_iff_forall_ne_some]
  intro e found
  obtain ⟨inside, error⟩ := (mem_openTags h).2 e found
  exact clean e inside error

/-- Without errors a tag is open when it is left. -/
theorem openTag_of_leave {root : Node} (clean : root.ErrorFree) {visit : Visit}
    (visited : visit ∈ root.walk) {t : OpenTag} (h : t ∈ OpenTag.ofVisit visit) :
    visit = .leave t.tag := by
  have none := error_of_openTag clean (List.mem_flatMap.mpr ⟨visit, visited, h⟩)
  cases visit with
  | leave tag =>
    simp only [OpenTag.ofVisit] at h
    split at h
    · obtain rfl := List.mem_singleton.mp h
      rfl
    · cases h
  | enter node frames =>
    cases frames with
    | nil => cases h
    | cons f above =>
      simp only [OpenTag.ofVisit] at h
      split at h
      · obtain rfl := List.mem_singleton.mp h
        cases none
      · cases h

/-- The last candidate is a begun one or stands behind it. -/
theorem mem_of_latest?_append {α : Type} {p : Point} {start : α → Point} {earlier later : List α}
    {a c : α} (h : latest? p start (earlier ++ a :: later) = some c) (begun : start a ≤ p) :
    c = a ∨ c ∈ later := by
  rw [latest?, List.filter_append, List.filter_cons_of_pos (by simpa using begun),
    List.getLast?_append_cons] at h
  exact (List.mem_cons.mp (List.mem_of_getLast? h)).imp_right List.mem_of_mem_filter

/-- The open tag that counts at a cursor inside an open tag goes on behind the cursor. -/
theorem lt_stop_of_latest_openTag {root tag : Node} {p : Point} (nested : root.WellNested)
    (clean : root.ErrorFree) (inside : tag ∈ root.nodes)
    (opens : OpenTag.ofVisit (.leave tag) = [⟨tag, none⟩]) (around : tag.Covers p) {t : OpenTag}
    (latest : latest? p (·.tag.start) root.openTags = some t) : p < t.tag.stop := by
  obtain ⟨frames, way⟩ := leads_of_mem_nodes inside
  obtain ⟨earlier, later, walk, behind⟩ := way.walk_leave nested
  obtain ⟨_, begun⟩ := mem_of_latest? latest
  rw [Node.openTags, walk, List.flatMap_append, List.flatMap_cons, opens,
    List.singleton_append] at latest
  rcases mem_of_latest?_append latest around.1 with rfl | after
  · exact around.2
  · obtain ⟨visit, visited, found⟩ := List.mem_flatMap.mp after
    have inWalk : visit ∈ root.walk := by
      rw [walk]
      exact List.mem_append_right _ (List.mem_cons_of_mem _ visited)
    obtain rfl := openTag_of_leave clean inWalk found
    rcases behind t.tag visited with above | back
    · have inTree := (mem_openTags (List.mem_flatMap.mpr ⟨_, inWalk, found⟩)).1
      have span := span_of_mem_nodes (nested.below inTree) above
      exact Point.lt_of_lt_of_le around.2 span.2
    · exact absurd (Point.le_trans back begun) (Point.not_le.mpr around.2)

/-- Where no tag has an error and the one that counts goes on behind the cursor, a completion reads
the last bare name. -/
theorem namePosition?_of_errorFree {p : Point} {bares : List BareAttribute} {tags : List OpenTag}
    (clean : ∀ t ∈ tags, t.error = none)
    (goesOn : ∀ t, latest? p (·.tag.start) tags = some t → p < t.tag.stop) :
    namePosition? .completion p bares tags =
      (latest? p (·.name.start) bares).map fun bare => .name bare.name.text := by
  have errors : tags.filterMap (·.error) = [] := by
    rw [List.filterMap_eq_nil_iff]
    exact clean
  have pending : ∀ tag bare, equalsPending p tags tag bare = false := by
    intro tag bare
    have none : ∀ start : Point, (tags.any fun t => t.tag.start = tag.tag.start &&
        t.error.any (·.start = start)) = false := by
      intro start
      rw [List.any_eq_false]
      intro t member
      simp [clean t member]
    unfold equalsPending
    cases bare.following with
    | none => simp
    | some following => simp only [none, Bool.and_false]
  unfold namePosition?
  cases latest? p (·.name.start) bares with
  | none => rfl
  | some bare =>
    rw [Option.bind_some, Option.map_some]
    cases latest : latest? p (·.tag.start) tags with
    | none => rfl
    | some tag =>
      have further : ¬ tag.tag.stop < p :=
        Point.not_lt.mpr (Point.le_of_lt (goesOn tag latest))
      simp [further, errors, begun, latest?, pending]

/-! ### Hovered names -/

/-- Where a tag has a named attribute, what stands before it and what follows it. -/
theorem fromFirstAttribute_split {children : List Node} (h : fromFirstAttribute children ≠ []) :
    ∃ front first rest, children = front ++ first :: rest ∧ first.isNamedAttribute = true ∧
      hasTagName front = true ∧
      ∀ later, fromFirstAttribute (front ++ first :: later) = first :: later := by
  obtain ⟨first, rest, seen⟩ := List.exists_cons_of_ne_nil h
  have named : first.isNamedAttribute = true := by
    have head := List.head?_dropWhile_not (!·.isNamedAttribute) (behindTagName children)
    rw [fromFirstAttribute] at seen
    rw [seen] at head
    simpa using head
  obtain ⟨tagName, behind, fromName⟩ : ∃ tagName behind,
      children.dropWhile (·.kind ≠ .tagName) = tagName :: behind := by
    apply List.exists_cons_of_ne_nil
    intro none
    rw [fromFirstAttribute, behindTagName, none] at seen
    cases seen
  have isName : tagName.kind = .tagName := by
    have head := List.head?_dropWhile_not (fun n : Node => decide (n.kind ≠ .tagName)) children
    rw [fromName] at head
    simpa using head
  have others : behind.dropWhile (!·.isNamedAttribute) = first :: rest := by
    rw [fromFirstAttribute, behindTagName, fromName] at seen
    exact seen
  refine ⟨children.takeWhile (·.kind ≠ .tagName) ++
    tagName :: behind.takeWhile (!·.isNamedAttribute), first, rest, ?_, named, ?_, ?_⟩
  · rw [List.append_assoc, List.cons_append, ← others, List.takeWhile_append_dropWhile, ← fromName,
      List.takeWhile_append_dropWhile]
  · simp [hasTagName, isName]
  · intro later
    have before : ∀ n ∈ children.takeWhile (·.kind ≠ .tagName), decide (n.kind ≠ .tagName) = true :=
      fun _ => List.mem_takeWhile_imp (p := fun n : Node => decide (n.kind ≠ .tagName))
    have between : ∀ n ∈ behind.takeWhile (!·.isNamedAttribute), (!n.isNamedAttribute) = true :=
      fun _ => List.mem_takeWhile_imp
    rw [fromFirstAttribute, behindTagName, List.append_assoc, List.dropWhile_append_of_pos before,
      List.cons_append, List.dropWhile_cons_of_neg (by simp [isName]), List.drop_one, List.tail_cons,
      List.dropWhile_append_of_pos between, List.dropWhile_cons_of_neg (by simp [named])]

/-- A tag is found open at the first error behind its first attribute. -/
theorem openTag_of_error {tag error : Node} {before after : List Node}
    (sound : tag.isError = false) (isError : error.isError = true)
    (named : hasTagName before = true) (attributes : fromFirstAttribute before ≠ [])
    (clean : ∀ n ∈ fromFirstAttribute before, n.isError = false) (above : List Frame) :
    OpenTag.ofVisit (.enter error (⟨tag, before, after⟩ :: above)) = [⟨tag, some error⟩] := by
  have seen : (fromFirstAttribute before).isEmpty = false :=
    List.isEmpty_eq_false_iff.mpr attributes
  have all : (fromFirstAttribute before).all (!·.isError) = true := by
    rw [List.all_eq_true]
    intro n member
    rw [clean n member, Bool.not_false]
  simp [OpenTag.ofVisit, Frame.isInTag, sound, isError, named, seen, all]

/-- Where an error stands behind an attribute of a tag, the tag is open at that error or at one
before. -/
theorem openTag_of_first_error {tag error : Node} {before after : List Node}
    (sound : tag.isError = false) (children : tag.children = before ++ error :: after)
    (isError : error.isError = true) (named : hasTagName before = true)
    (attributes : fromFirstAttribute before ≠ []) : ∃ first e rest,
      tag.children = first ++ e :: rest ∧
      (∀ above, OpenTag.ofVisit (.enter e (⟨tag, first, rest⟩ :: above)) = [⟨tag, some e⟩]) ∧
      (first = before ∧ e = error ∧ rest = after ∨ e ∈ before ∧ e.isError = true) := by
  obtain ⟨front, first, others, split, isAttribute, tagName, found⟩ :=
    fromFirstAttribute_split attributes
  have clean : first.isError = false := by
    simp only [Node.isNamedAttribute, Bool.and_eq_true, decide_eq_true_eq] at isAttribute
    simp [Node.isError, isAttribute.1]
  cases errors : others.find? Node.isError with
  | none =>
    refine ⟨before, error, after, children, ?_, Or.inl ⟨rfl, rfl, rfl⟩⟩
    refine openTag_of_error sound isError named attributes ?_
    rw [split, found]
    simpa [clean] using errors
  | some e =>
    obtain ⟨isErrorE, passed, behind, cut, goes⟩ := List.find?_eq_some_iff_append.mp errors
    have whole : tag.children = (front ++ first :: passed) ++ e :: (behind ++ error :: after) := by
      rw [children, split, cut]
      simp
    refine ⟨_, e, _, whole, ?_, Or.inr ⟨by simp [split, cut], isErrorE⟩⟩
    refine openTag_of_error sound isErrorE (hasTagName_append tagName _) ?_ ?_
    · rw [found]
      exact List.cons_ne_nil _ _
    · rw [found]
      simpa [clean] using goes

/-- A tag with a named attribute is open: it is found at the first error behind that attribute or,
where there is none, when it is left. -/
theorem openTag_of_inTag {root tag attr : Node} (placed : InTag root tag attr)
    (named : attr.isNamedAttribute = true) : ∃ t ∈ root.openTags, t.tag = tag := by
  have nonempty := placed.fromFirstAttribute_ne_nil named
  obtain ⟨front, first, rest, split, isAttribute, tagName, found⟩ :=
    fromFirstAttribute_split nonempty
  obtain ⟨above, way⟩ := leads_of_mem_nodes placed.inTree
  have sound : tag.isError = false := decide_eq_false placed.kind
  by_cases errors : ∃ error ∈ rest, error.isError = true
  · obtain ⟨error, member, isError⟩ := errors
    obtain ⟨passed, others, cut⟩ := List.append_of_mem member
    have whole : tag.children = (front ++ first :: passed) ++ error :: others := by
      rw [split, cut]
      simp
    obtain ⟨x, e, y, children, opens, _⟩ := openTag_of_first_error sound whole isError
      (hasTagName_append tagName _) (by rw [found]; exact List.cons_ne_nil _ _)
    have toError := Leads.step (f := ⟨tag, x, y⟩) children way
    exact ⟨⟨tag, some e⟩, List.mem_flatMap.mpr ⟨_, toError.mem_walk, by simp [opens]⟩, rfl⟩
  · obtain ⟨earlier, later, walk, _⟩ := way.walk_eq
    rw [Node.visits_eq] at walk
    refine ⟨⟨tag, none⟩, List.mem_flatMap.mpr ⟨.leave tag, by simp [walk], ?_⟩, rfl⟩
    simp only [Node.isNamedAttribute, Bool.and_eq_true, decide_eq_true_eq] at isAttribute
    rw [OpenTag.ofVisit, split, found]
    simpa [Node.isError, placed.kind, isAttribute.1] using errors

/-- A bare name has an attribute and a tag that start at or before it. -/
theorem begun_of_bareAttribute {root : Node} (nested : root.WellNested) {b : BareAttribute}
    (h : b ∈ root.bareAttributes) {p : Point} (begun : b.name.start ≤ p) :
    b.attr.start ≤ p ∧ ∃ t ∈ root.openTags, t.tag.start ≤ p := by
  obtain ⟨⟨tag, placed⟩, kind, child, marked, _⟩ := placed_of_bareAttribute h
  have inTag := placed.child
  have attrStart : b.attr.start ≤ p := Point.le_trans
    ((nested _ (Node.child_mem_nodes placed.inTree inTag)).inside _ child).1 begun
  simp only [Node.isMarkedName, Bool.and_eq_true] at marked
  have named : b.attr.isNamedAttribute = true := by
    simp only [Node.isNamedAttribute, kind, decide_true, Bool.true_and, List.any_eq_true]
    exact ⟨b.name, child, marked.1⟩
  obtain ⟨t, member, rfl⟩ := openTag_of_inTag placed named
  exact ⟨attrStart, t, member,
    Point.le_trans ((nested _ placed.inTree).inside _ inTag).1 attrStart⟩

/-- A hover reads the last bare name that has begun, unless it has ended before the cursor. -/
theorem namePosition?_hover {root : Node} (nested : root.WellNested) (p : Point) :
    namePosition? .hover p root.bareAttributes root.openTags =
      (latest? p (·.name.start) root.bareAttributes).bind fun bare =>
        if p ≤ bare.name.stop then some (.name bare.name.text) else none := by
  unfold namePosition?
  cases latest : latest? p (·.name.start) root.bareAttributes with
  | none => rfl
  | some b =>
    obtain ⟨member, begunName⟩ := mem_of_latest? latest
    obtain ⟨attrStart, t, openTag, tagStart⟩ := begun_of_bareAttribute nested member begunName
    have attrBegun : begun p (root.bareAttributes.map (·.attr)) = true :=
      begun_of_mem (List.mem_map_of_mem member) attrStart
    rw [Option.bind_some, Option.bind_some]
    obtain ⟨tag, tags⟩ : ∃ tag, latest? p (·.tag.start) root.openTags = some tag :=
      exists_latest? openTag tagStart
    simp [attrBegun, tags]

end Markup

end Hypertag
