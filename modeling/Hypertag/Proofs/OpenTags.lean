import Hypertag.Proofs.NamePosition
import Hypertag.Proofs.VisitOrder

/-!
# Open tags

A tag has the name of a tag among its children and is no error. Where no tag has another one in it,
at most one tag is around a point. A tag is open from the first error behind its first attribute on,
and no tag that is found later ends before it: the open tag that counts at a cursor in the tag, or
right behind it, is the tag itself or starts where it ends.
-/

namespace Hypertag.Markup

namespace Node

def isTag (n : Node) : Bool := !n.isError && hasTagName n.children

/-- Whether no tag stands inside another. -/
def TagsApart (root : Node) : Prop :=
  ∀ tag ∈ root.nodes, tag.isTag = true → ∀ inner ∈ nodesIn tag.children, inner.isTag = false

instance (root : Node) : Decidable root.TagsApart :=
  inferInstanceAs (Decidable (∀ tag ∈ root.nodes, _ → ∀ inner ∈ nodesIn tag.children, _))

theorem TagsApart.below {root n : Node} (h : root.TagsApart) (inside : n ∈ root.nodes) :
    n.TagsApart := fun tag below => h tag ((nodes_sublist root inside).subset below)

theorem TagsApart.eq_of_mem {root tag inner : Node} (h : root.TagsApart) (inTree : tag ∈ root.nodes)
    (isTag : tag.isTag = true) (isInner : inner.isTag = true) (inside : inner ∈ tag.nodes) :
    inner = tag := by
  rw [nodes_eq] at inside
  rcases List.mem_cons.mp inside with same | below
  · exact same
  · exact absurd isInner (by simp [h tag inTree isTag inner below])

/-- At most one tag is around a point. -/
theorem TagsApart.eq_of_covers {root a b : Node} {p : Point} (h : root.TagsApart)
    (nested : root.WellNested) (ha : a ∈ root.nodes) (hb : b ∈ root.nodes)
    (isTagA : a.isTag = true) (isTagB : b.isTag = true) (aroundA : a.Covers p)
    (aroundB : b.Covers p) : a = b := by
  rcases below_or_above nested ha hb aroundA aroundB with below | above
  · exact h.eq_of_mem hb isTagB isTagA below
  · exact (h.eq_of_mem ha isTagA isTagB above).symm

/-- A tag has one way up. -/
theorem TagsApart.frames_unique {root tag : Node} {p : Point} (h : root.TagsApart)
    (nested : root.WellNested) (isTag : tag.isTag = true) (around : tag.Covers p)
    {above above' : List Frame} (way : Leads root tag above) (way' : Leads root tag above') :
    above = above' := by
  have alone : ∀ {lower : List Frame}, Leads tag tag lower → lower = [] := by
    intro lower inner
    rcases inner.downwards with ⟨rfl, _⟩ | ⟨_, f, c, _, children, lowest⟩
    · rfl
    · have below : tag ∈ nodesIn tag.children :=
        mem_nodesIn.mpr ⟨c, by simp [children], lowest.mem_nodes⟩
      exact absurd isTag (by simp [h tag way.mem_nodes isTag tag below])
  rcases Nat.le_total above.length above'.length with less | more
  · obtain ⟨lower, rfl, inner⟩ := way.through nested way' less around around
    rw [alone inner, List.nil_append]
  · obtain ⟨lower, rfl, inner⟩ := way'.through nested way more around around
    rw [alone inner, List.nil_append]

end Node

theorem InTag.isTag {root tag attr : Node} (h : InTag root tag attr) : tag.isTag = true := by
  obtain ⟨before, after, children, named⟩ := h.behind
  simp [Node.isTag, Node.isError, h.kind, children, hasTagName_append named]

theorem Leads.isTag {root node : Node} {f : Frame} {above : List Frame}
    (way : Leads root node (f :: above)) (h : f.isInTag = true) : f.parent.isTag = true := by
  simp only [Frame.isInTag, Bool.and_eq_true, Bool.not_eq_true'] at h
  cases way with
  | step children upwards => simp [Node.isTag, h.1, children, hasTagName_append h.2]

/-! ### The error at which a tag is open -/

theorem fromFirstAttribute_append {before : List Node} (named : hasTagName before = true)
    {attr : Node} (isAttribute : attr.isNamedAttribute = true) (rest : List Node) :
    fromFirstAttribute (before ++ attr :: rest) = fromFirstAttribute before ++ attr :: rest := by
  rw [fromFirstAttribute, fromFirstAttribute, behindTagName_append named, List.dropWhile_append]
  split
  · next none =>
    rw [List.isEmpty_iff.mp none, List.nil_append, List.dropWhile_cons_of_neg (by simp [isAttribute])]
  · rfl

/-- An open tag is the host of the step at which it is found. -/
theorem openTag_of_visit {root : Node} {visit : Visit} (visited : visit ∈ root.walk) {t : OpenTag}
    (h : t ∈ OpenTag.ofVisit visit) : visit.host? = some t.tag ∧ t.tag.isTag = true := by
  cases visit with
  | leave tag =>
    simp only [OpenTag.ofVisit] at h
    split at h
    · next fits =>
      obtain rfl := List.mem_singleton.mp h
      simp only [Bool.and_eq_true, Bool.not_eq_true'] at fits
      obtain ⟨front, first, rest, children, _, named, _⟩ :=
        fromFirstAttribute_split (List.isEmpty_eq_false_iff.mp fits.1.2)
      exact ⟨rfl, by simp [Node.isTag, fits.1.1, children, hasTagName_append named]⟩
    · cases h
  | enter node frames =>
    cases frames with
    | nil => cases h
    | cons f above =>
      simp only [OpenTag.ofVisit] at h
      split at h
      · next fits =>
        obtain rfl := List.mem_singleton.mp h
        simp only [Bool.and_eq_true] at fits
        exact ⟨rfl, (leads_of_walk visited).isTag fits.1.1.2⟩
      · cases h

/-- The open tag that counts at a cursor behind the start of a tag with an error is the tag itself,
or starts where that tag ends or later. -/
theorem latest_openTag_of_error {root tag error : Node} {p : Point} (nested : root.WellNested)
    (apart : root.TagsApart) (inTree : tag ∈ root.nodes) (isTag : tag.isTag = true)
    {before after : List Node} (children : tag.children = before ++ error :: after)
    (opens : ∀ above, OpenTag.ofVisit (.enter error (⟨tag, before, after⟩ :: above)) =
      [⟨tag, some error⟩]) (begun : tag.start ≤ p) :
    ∃ t, latest? p (·.tag.start) root.openTags = some t ∧ t.tag.start ≤ p ∧
      (t.tag = tag ∨ tag.stop ≤ t.tag.start) := by
  obtain ⟨above, way⟩ := leads_of_mem_nodes inTree
  have toError := Leads.step (f := ⟨tag, before, after⟩) children way
  have listed : ⟨tag, some error⟩ ∈ root.openTags :=
    List.mem_flatMap.mpr ⟨_, toError.mem_walk, by simp [opens]⟩
  obtain ⟨t, latest⟩ : ∃ t, latest? p (·.tag.start) root.openTags = some t :=
    exists_latest? listed begun
  refine ⟨t, latest, (mem_of_latest? latest).2, ?_⟩
  obtain ⟨earlier, later, walk, behind⟩ := way.walk_eq
  obtain ⟨passed, split⟩ := Node.visitsIn_append tag above [] before (error :: after)
  rw [List.nil_append, Node.visitsIn, Node.visits_eq error] at split
  have entered : .enter error (⟨tag, before, after⟩ :: above) ∈ tag.visits above := by
    rw [Node.visits_eq, children, split]
    simp
  obtain ⟨inner, outer, cut⟩ := List.append_of_mem entered
  have whole : root.walk = (earlier ++ inner) ++
      .enter error (⟨tag, before, after⟩ :: above) :: (outer ++ later) := by
    rw [walk, cut]
    simp
  rw [Node.openTags, whole, List.flatMap_append, List.flatMap_cons, opens,
    List.singleton_append] at latest
  rcases mem_of_latest?_append latest begun with rfl | after
  · exact Or.inl rfl
  obtain ⟨visit, visited, found⟩ := List.mem_flatMap.mp after
  have inWalk : visit ∈ root.walk := by
    rw [whole]
    exact List.mem_append_right _ (List.mem_cons_of_mem _ visited)
  obtain ⟨host, isTagT⟩ := openTag_of_visit inWalk found
  rcases List.mem_append.mp visited with inside | outside
  · have inVisits : visit ∈ tag.visits above := by
      rw [cut]
      exact List.mem_append_right _ (List.mem_cons_of_mem _ inside)
    rcases host_of_visits tag inVisits host with below | rfl
    · exact Or.inl (apart.eq_of_mem inTree isTag isTagT below)
    · -- the tag itself is no error, so nothing is found where it is entered
      simp only [Node.isTag, Bool.and_eq_true, Bool.not_eq_true'] at isTag
      cases above with
      | nil => cases found
      | cons f above => simp [OpenTag.ofVisit, isTag.1] at found
  · have inTreeT := (mem_openTags (List.mem_flatMap.mpr ⟨visit, inWalk, found⟩)).1
    rcases behind nested visit outside t.tag host with around | back
    · exact Or.inl (apart.eq_of_mem inTreeT isTagT isTag around).symm
    · exact Or.inr back

end Hypertag.Markup
