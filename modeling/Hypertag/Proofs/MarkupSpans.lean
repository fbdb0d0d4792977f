import Hypertag.Proofs.Extraction
import Hypertag.Proofs.MarkupTree
import Mathlib.Data.List.Pairwise

/-!
# Spans of a markup tree

In an outline of a text the spans of children lie inside that of their parent, one behind the
other. Then the way down to a point leads through all nodes around it, so that of two nodes around
one point one lies below the other. And what the walk leaves behind a node lies around or behind
that node.
-/

namespace Hypertag

/-! ### Points of offsets -/

theorem Point.le_advance (p : Point) (text : Text) (n : Nat) : p ≤ advance p text n := by
  induction text generalizing p n with
  | nil =>
    rw [advance_nil]
    exact le_refl p
  | cons u text ih =>
    cases n with
    | zero => exact le_refl p
    | succ n =>
      rw [advance]
      split
      · refine le_trans ?_ (ih _ n)
        exact Or.inl (Int.lt_succ p.row)
      · refine le_trans ?_ (ih _ n)
        exact Or.inr ⟨rfl, Int.le_add_one (Int.le_refl _)⟩

theorem Text.pointAt_mono (text : Text) {m n : Nat} (h : m ≤ n) :
    text.pointAt m ≤ text.pointAt n := by
  obtain ⟨k, rfl⟩ := Nat.exists_eq_add_of_le h
  rw [pointAt, pointAt, Point.advance_add]
  exact Point.le_advance _ _ k

/-- Offsets with something written between them have different points. -/
theorem Text.pointAt_lt_of_slice {text : Text} {m n : Nat} (written : text.slice m n ≠ []) :
    text.pointAt m < text.pointAt n := by
  have length : m < n ∧ m < text.length := by
    have pos := List.length_pos_iff.mpr written
    rw [slice, List.length_drop, List.length_take] at pos
    omega
  obtain ⟨k, rfl⟩ := Nat.exists_eq_add_of_lt length.1
  have next : text.pointAt m < text.pointAt (m + 1) := by
    rw [pointAt, pointAt, Point.advance_add]
    refine Point.lt_advance _ Nat.one_pos ?_
    rw [List.length_drop]
    omega
  exact Point.lt_of_lt_of_le next (text.pointAt_mono (by omega))

namespace Markup

/-! ### Nested spans -/

namespace Node

/-- How the span of a node holds those of its children: they lie inside it, one behind the other.
A node with a text is not empty. -/
structure Holds (n : Node) : Prop where
  forward : n.start ≤ n.stop
  written : n.text ≠ [] → n.start < n.stop
  inside : ∀ c ∈ n.children, n.start ≤ c.start ∧ c.stop ≤ n.stop
  ordered : n.children.Pairwise fun a b => a.stop ≤ b.start

def WellNested (root : Node) : Prop := ∀ n ∈ root.nodes, n.Holds

theorem WellNested.below {root n : Node} (h : root.WellNested) (inside : n ∈ root.nodes) :
    n.WellNested := fun m below => h m ((nodes_sublist root inside).subset below)

def Covers (n : Node) (p : Point) : Prop := n.start ≤ p ∧ p < n.stop

/-- Of the children of a node only one is around a point. -/
theorem Holds.eq_of_covers {n c d : Node} (h : n.Holds) (hc : c ∈ n.children)
    (hd : d ∈ n.children) {p : Point} (aroundC : c.Covers p) (aroundD : d.Covers p) : c = d := by
  by_contra different
  have apart : n.children.Pairwise fun a b => a.stop ≤ b.start ∨ b.stop ≤ a.start :=
    h.ordered.imp Or.inl
  have symmetric : Std.Symm fun a b : Node => a.stop ≤ b.start ∨ b.stop ≤ a.start :=
    ⟨fun _ _ => Or.symm⟩
  rcases apart.forall hc hd different with before | behind
  · exact Point.not_le.mpr aroundC.2 (Point.le_trans before aroundD.1)
  · exact Point.not_le.mpr aroundD.2 (Point.le_trans behind aroundC.1)

end Node

section Nested

variable {root n : Node} {frames : List Frame} {p : Point} (nested : root.WellNested)
include nested

theorem Leads.span (way : Leads root n frames) : root.start ≤ n.start ∧ n.stop ≤ root.stop := by
  induction way with
  | top => exact ⟨Point.le_refl _, Point.le_refl _⟩
  | @step n f frames children upwards ih =>
    have child : n ∈ f.parent.children := by simp [children]
    obtain ⟨start, stop⟩ := (nested _ upwards.mem_nodes).inside n child
    exact ⟨Point.le_trans ih.1 start, Point.le_trans stop ih.2⟩

theorem span_of_mem_nodes (inside : n ∈ root.nodes) :
    root.start ≤ n.start ∧ n.stop ≤ root.stop := by
  obtain ⟨frames, way⟩ := leads_of_mem_nodes inside
  exact way.span nested

theorem covers_of_mem_nodes (inside : n ∈ root.nodes) (h : n.Covers p) : root.Covers p := by
  obtain ⟨start, stop⟩ := span_of_mem_nodes nested inside
  exact ⟨Point.le_trans start h.1, Point.lt_of_lt_of_le h.2 stop⟩

/-! ### The way down -/

omit nested in
/-- The way down goes past children that end at or before the point. -/
theorem Node.descentIn_append {before after : List Node} (passed : ∀ s ∈ before, s.stop ≤ p)
    (h : n.Covers p) : Node.descentIn p (before ++ n :: after) = n.descent p := by
  induction before with
  | nil => rw [List.nil_append, Node.descentIn, if_pos h.2, if_pos h.1]
  | cons s before ih =>
    have first : ¬ p < s.stop := Point.not_lt.mpr (passed s List.mem_cons_self)
    rw [List.cons_append, Node.descentIn, if_neg first]
    exact ih fun s member => passed s (List.mem_cons_of_mem _ member)

omit nested in
theorem Node.Holds.descent (h : root.Holds) {before after : List Node}
    (children : root.children = before ++ n :: after) (around : n.Covers p) :
    root.descent p = root :: n.descent p := by
  have passed : ∀ s ∈ before, s.stop ≤ p := by
    intro s member
    have ordered := h.ordered
    rw [children, List.pairwise_append] at ordered
    exact Point.le_trans (ordered.2.2 s member n List.mem_cons_self) around.1
  rw [Node.descent_eq, children, Node.descentIn_append passed around]

/-- The way down to a point leads through every node around it, and through nothing before but the
nodes above. -/
theorem Leads.descent (way : Leads root n frames) (h : n.Covers p) :
    ∃ above, root.descent p = above ++ n.descent p ∧ ∀ a ∈ above, n ∈ a.nodes := by
  induction way with
  | top => exact ⟨[], rfl, by simp⟩
  | @step n f frames children upwards ih =>
    have child : n ∈ f.parent.children := by simp [children]
    have inside := Node.child_mem_nodes f.parent.self_mem_nodes child
    obtain ⟨above, down, around⟩ :=
      ih (covers_of_mem_nodes (nested.below upwards.mem_nodes) inside h)
    refine ⟨above ++ [f.parent], ?_, ?_⟩
    · rw [down, (nested _ upwards.mem_nodes).descent children h, List.append_assoc,
        List.singleton_append]
    · intro a member
      rcases List.mem_append.mp member with higher | parent
      · exact (Node.nodes_sublist a (around a higher)).subset inside
      · rw [List.mem_singleton.mp parent]
        exact inside

theorem mem_descent (inside : n ∈ root.nodes) (h : n.Covers p) : n ∈ root.descent p := by
  obtain ⟨frames, way⟩ := leads_of_mem_nodes inside
  obtain ⟨above, down, _⟩ := way.descent nested h
  rw [down, Node.descent_eq]
  simp

/-- Of two nodes around one point, one lies below the other. -/
theorem below_or_above {a b : Node} (ha : a ∈ root.nodes) (hb : b ∈ root.nodes)
    (aroundA : a.Covers p) (aroundB : b.Covers p) : a ∈ b.nodes ∨ b ∈ a.nodes := by
  obtain ⟨frames, way⟩ := leads_of_mem_nodes ha
  obtain ⟨above, down, higher⟩ := way.descent nested aroundA
  have member := mem_descent nested hb aroundB
  rw [down] at member
  rcases List.mem_append.mp member with outer | under
  · exact Or.inl (higher b outer)
  · exact Or.inr (Node.descent_subset p a under)

/-- Around a point there is at most one node with nothing below it. -/
theorem leaf_unique {a b : Node} (ha : a ∈ root.nodes) (hb : b ∈ root.nodes)
    (leafA : a.children = []) (leafB : b.children = []) (aroundA : a.Covers p)
    (aroundB : b.Covers p) : a = b := by
  rcases below_or_above nested ha hb aroundA aroundB with under | outer
  · exact Node.eq_of_mem_leaf leafB under
  · exact (Node.eq_of_mem_leaf leafA outer).symm

/-- With a container around a point, there is an innermost one. -/
theorem enclosing?_of_container (inside : n ∈ root.nodes) (container : n.kind.isContainer = true)
    (h : n.Covers p) (fits : searchPoint p = p) : ∃ element, root.enclosing? p = some element ∧
      element ∈ root.descent p ∧ element.kind.isContainer = true := by
  have member := List.mem_reverse.mpr (mem_descent nested inside h)
  have found : ((root.descent p).reverse.find? (·.kind.isContainer)).isSome :=
    List.find?_isSome.mpr ⟨n, member, container⟩
  obtain ⟨element, first⟩ := Option.isSome_iff_exists.mp found
  refine ⟨element, ?_, List.mem_reverse.mp (List.mem_of_find?_eq_some first), ?_⟩
  · rw [Node.enclosing?, fits]
    exact first
  · simpa using List.find?_some first

/-- A node with nothing below it has one parent. -/
theorem parent_unique {a b x : Node} (ha : a ∈ root.nodes) (hb : b ∈ root.nodes)
    (childA : x ∈ a.children) (childB : x ∈ b.children) (leaf : x.children = [])
    (h : x.Covers p) : a = b := by
  have alone : ∀ {c d : Node}, c ∈ root.nodes → x ∈ c.children → x ∈ d.children → d ∈ c.nodes →
      c = d := by
    intro c d inside childC childD below
    rw [Node.nodes_eq] at below
    rcases List.mem_cons.mp below with same | deeper
    · exact same.symm
    · obtain ⟨e, childE, lower⟩ := Node.mem_nodesIn.mp deeper
      have inE : x ∈ e.nodes := Node.child_mem_nodes lower childD
      have nestedE := nested.below (Node.child_mem_nodes inside childE)
      obtain rfl := (nested c inside).eq_of_covers childE childC
        (covers_of_mem_nodes nestedE inE h) h
      obtain rfl := Node.eq_of_mem_leaf leaf lower
      rw [leaf] at childD
      cases childD
  have around : ∀ {c : Node}, c ∈ root.nodes → x ∈ c.children → c.Covers p := fun inside child =>
    covers_of_mem_nodes (nested.below inside)
      (Node.child_mem_nodes (Node.self_mem_nodes _) child) h
  rcases below_or_above nested ha hb (around ha childA) (around hb childB) with under | outer
  · exact (alone hb childB childA under).symm
  · exact alone ha childA childB outer

/-! ### The way back -/

omit nested in
/-- The walk over a tree has that over each of its nodes in it. What comes after the node is about
nodes around it or, where spans are nested, behind it. -/
theorem Leads.walk_eq (way : Leads root n frames) : ∃ earlier later,
    root.walk = earlier ++ n.visits frames ++ later ∧
      (root.WellNested → ∀ visit ∈ later, ∀ t, visit.host? = some t →
        n ∈ t.nodes ∨ n.stop ≤ t.start) := by
  induction way with
  | top => exact ⟨[], [], by simp [Node.walk], by simp⟩
  | @step n f frames children upwards ih =>
    obtain ⟨earlier, later, walk, behind⟩ := ih
    obtain ⟨passed, split⟩ :=
      Node.visitsIn_append f.parent frames [] f.before (n :: f.after)
    have child : n ∈ f.parent.children := by simp [children]
    rw [List.nil_append, Node.visitsIn] at split
    rw [Node.visits_eq, children, split] at walk
    refine ⟨earlier ++ .enter f.parent frames :: passed,
      Node.visitsIn f.parent frames (f.before ++ [n]) f.after ++ .leave f.parent :: later,
      by simp [walk], ?_⟩
    intro nested visit visited t host
    have inside := Node.child_mem_nodes f.parent.self_mem_nodes child
    rcases List.mem_append.mp visited with sibling | outer
    · rcases host_of_visitsIn _ sibling host with below | rfl
      · obtain ⟨s, after, inside⟩ := Node.mem_nodesIn.mp below
        have inTree : s ∈ root.nodes :=
          Node.child_mem_nodes upwards.mem_nodes (by simp [children, after])
        have ordered := (nested _ upwards.mem_nodes).ordered
        rw [children, List.pairwise_append, List.pairwise_cons] at ordered
        exact Or.inr (Point.le_trans (ordered.2.1.1 s after)
          (span_of_mem_nodes (nested.below inTree) inside).1)
      · exact Or.inl inside
    · rcases List.mem_cons.mp outer with rfl | further
      · cases host
        exact Or.inl inside
      · rcases behind nested visit further t host with around | back
        · exact Or.inl ((Node.nodes_sublist t around).subset inside)
        · exact Or.inr (Point.le_trans
            (span_of_mem_nodes (nested.below upwards.mem_nodes) inside).2 back)

end Nested

mutual

/-- The nodes of a tree stand in the order in which they start. -/
theorem nodes_sorted (n : Node) (nested : n.WellNested) :
    n.nodes.Pairwise fun a b => a.start ≤ b.start := by
  match n with
  | ⟨kind, start, stop, text, children⟩ =>
    have below : ∀ c ∈ children, c.WellNested := fun c child =>
      nested.below (Node.child_mem_nodes (Node.self_mem_nodes _) child)
    have sorted := nodesIn_sorted children below (nested _ (Node.self_mem_nodes _)).ordered
    have first : ∀ m ∈ Node.nodesIn children, start ≤ m.start := fun m inside =>
      (span_of_mem_nodes nested (by rw [Node.nodes]; exact List.mem_cons_of_mem _ inside)).1
    rw [Node.nodes, List.pairwise_cons]
    exact ⟨first, sorted⟩

theorem nodesIn_sorted (children : List Node) (nested : ∀ c ∈ children, c.WellNested)
    (ordered : children.Pairwise fun a b => a.stop ≤ b.start) :
    (Node.nodesIn children).Pairwise fun a b => a.start ≤ b.start := by
  match children with
  | [] => exact List.Pairwise.nil
  | child :: rest =>
    obtain ⟨behind, ordered⟩ := List.pairwise_cons.mp ordered
    obtain ⟨nestedFirst, nestedRest⟩ := List.forall_mem_cons.mp nested
    rw [Node.nodesIn, List.pairwise_append]
    refine ⟨nodes_sorted child nestedFirst, nodesIn_sorted rest nestedRest ordered, ?_⟩
    intro a inFirst b inRest
    obtain ⟨s, member, inside⟩ := Node.mem_nodesIn.mp inRest
    have ends := (span_of_mem_nodes nestedFirst inFirst).2
    have begins := (span_of_mem_nodes (nestedRest s member) inside).1
    have forward := (nestedFirst a inFirst).forward
    exact Point.le_trans forward (Point.le_trans ends (Point.le_trans (behind s member) begins))

end

theorem Leads.walk_leave {root n : Node} {frames : List Frame} (way : Leads root n frames)
    (nested : root.WellNested) : ∃ earlier later, root.walk = earlier ++ .leave n :: later ∧
      ∀ t, .leave t ∈ later → n ∈ t.nodes ∨ n.stop ≤ t.start := by
  obtain ⟨earlier, later, walk, behind⟩ := way.walk_eq
  rw [Node.visits_eq] at walk
  refine ⟨earlier ++ .enter n frames :: Node.visitsIn n frames [] n.children, later, ?_,
    fun t left => behind nested _ left t rfl⟩
  simpa using walk

theorem Leads.mem_walk {root n : Node} {frames : List Frame} (way : Leads root n frames) :
    .enter n frames ∈ root.walk := by
  obtain ⟨earlier, later, walk, _⟩ := way.walk_eq
  rw [walk, Node.visits_eq]
  simp

/-! ### Outlines -/

namespace Outline

def start : Outline → Nat
  | .mk _ start _ _ => start

def stop : Outline → Nat
  | .mk _ _ stop _ => stop

mutual

def isNested : Outline → Bool
  | .mk _ start stop children => areNested start stop children

/-- Whether ranges are nested, and stand one behind the other between two offsets. -/
def areNested (lower upper : Nat) : List Outline → Bool
  | [] => lower ≤ upper
  | o :: rest => lower ≤ o.start && o.isNested && areNested o.stop upper rest

end

theorem locate_start (text : Text) (o : Outline) :
    (o.locate text).start = text.pointAt o.start := by
  cases o
  rw [locate, start]

theorem locate_stop (text : Text) (o : Outline) : (o.locate text).stop = text.pointAt o.stop := by
  cases o
  rw [locate, stop]

end Outline

structure Located (lower upper : Point) (children : List Node) : Prop where
  nested : ∀ c ∈ children, c.WellNested
  forward : lower ≤ upper
  inside : ∀ c ∈ children, lower ≤ c.start ∧ c.stop ≤ upper
  ordered : children.Pairwise fun a b => a.stop ≤ b.start

mutual

theorem wellNested_locate (text : Text) (o : Outline) (h : o.isNested = true) :
    (o.locate text).WellNested := by
  match o with
  | .mk kind start stop children =>
    rw [Outline.isNested] at h
    have located := located_of_areNested text start stop children h
    rw [Outline.locate]
    intro n inside
    rw [Node.nodes] at inside
    rcases List.mem_cons.mp inside with rfl | below
    · exact ⟨located.forward, Text.pointAt_lt_of_slice, located.inside, located.ordered⟩
    · obtain ⟨c, child, inC⟩ := Node.mem_nodesIn.mp below
      exact located.nested c child n inC

theorem located_of_areNested (text : Text) (lower upper : Nat) (children : List Outline)
    (h : Outline.areNested lower upper children = true) :
    Located (text.pointAt lower) (text.pointAt upper) (Outline.locateAll text children) := by
  match children with
  | [] =>
    rw [Outline.areNested, decide_eq_true_eq] at h
    exact ⟨by simp [Outline.locateAll], text.pointAt_mono h, by simp [Outline.locateAll],
      List.Pairwise.nil⟩
  | o :: rest =>
    simp only [Outline.areNested, Bool.and_eq_true, decide_eq_true_eq] at h
    obtain ⟨⟨begins, first⟩, later⟩ := h
    have nested := wellNested_locate text o first
    have others := located_of_areNested text o.stop upper rest later
    have begins := text.pointAt_mono begins
    have forward := (nested _ (Node.self_mem_nodes _)).forward
    rw [Outline.locateAll]
    rw [← Outline.locate_start] at begins
    rw [← Outline.locate_stop] at others
    refine ⟨?_, ?_, ?_, ?_⟩
    · exact List.forall_mem_cons.mpr ⟨nested, others.nested⟩
    · exact Point.le_trans begins (Point.le_trans forward others.forward)
    · refine List.forall_mem_cons.mpr ⟨⟨begins, others.forward⟩, ?_⟩
      intro s member
      obtain ⟨low, high⟩ := others.inside s member
      exact ⟨Point.le_trans begins (Point.le_trans forward low), high⟩
    · refine List.pairwise_cons.mpr ⟨?_, others.ordered⟩
      intro s member
      exact (others.inside s member).1

end

end Markup

end Hypertag
