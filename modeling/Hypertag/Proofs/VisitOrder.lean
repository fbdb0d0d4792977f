import Hypertag.Proofs.MarkupSpans

/-!
# The order of visits

The place of a node says how many siblings come before at each level, from the top of the tree
down. The walk enters nodes in the order of their places, also such as look alike or have no width.
Where spans are nested there is one way down to a point, so the nodes around it are told apart by
how deep they lie.
-/

namespace Hypertag.Markup

/-! ### Places -/

/-- Where frames lead to: the number of siblings before, at each level from the top. -/
def place (frames : List Frame) : List Nat := (frames.map (·.before.length)).reverse

theorem place_cons (f : Frame) (upper : List Frame) :
    place (f :: upper) = place upper ++ [f.before.length] := by
  simp [place]

theorem lt_below (upper : List Nat) (i : Nat) (lower : List Nat) : upper < upper ++ i :: lower := by
  have below : upper ++ [] < upper ++ i :: lower := List.append_left_lt (List.nil_lt_cons i lower)
  rwa [List.append_nil] at below

theorem lt_behind (upper : List Nat) {i j : Nat} (h : i < j) (first second : List Nat) :
    upper ++ i :: first < upper ++ j :: second :=
  List.append_left_lt (List.cons_lt_cons_iff.mpr (Or.inl h))

def Visit.place? : Visit → Option (List Nat)
  | enter _ frames => some (place frames)
  | leave _ => none

theorem places_eq (n : Node) (above : List Frame) :
    (n.visits above).filterMap Visit.place? =
      place above :: (Node.visitsIn n above [] n.children).filterMap Visit.place? := by
  rw [Node.visits_eq]
  simp [Visit.place?]

mutual

theorem mem_places (node : Node) {above : List Frame} {k : List Nat}
    (h : k ∈ (node.visits above).filterMap Visit.place?) : ∃ lower, k = place above ++ lower := by
  match node with
  | ⟨kind, start, stop, text, children⟩ =>
    rw [places_eq] at h
    rcases List.mem_cons.mp h with rfl | below
    · exact ⟨[], by simp⟩
    · obtain ⟨i, lower, _, rfl⟩ := mem_placesIn children below
      exact ⟨i :: lower, rfl⟩

theorem mem_placesIn {parent : Node} (children : List Node) {above : List Frame}
    {before : List Node} {k : List Nat}
    (h : k ∈ (Node.visitsIn parent above before children).filterMap Visit.place?) :
    ∃ i lower, before.length ≤ i ∧ k = place above ++ i :: lower := by
  match children with
  | [] => cases h
  | child :: rest =>
    rw [Node.visitsIn, List.filterMap_append] at h
    rcases List.mem_append.mp h with first | later
    · obtain ⟨lower, rfl⟩ := mem_places child first
      exact ⟨before.length, lower, Nat.le_refl _, by simp [place_cons]⟩
    · obtain ⟨i, lower, behind, rfl⟩ := mem_placesIn rest later
      rw [List.length_append] at behind
      exact ⟨i, lower, by omega, rfl⟩

end

mutual

theorem places_sorted (node : Node) (above : List Frame) :
    ((node.visits above).filterMap Visit.place?).Pairwise (· < ·) := by
  match node with
  | ⟨kind, start, stop, text, children⟩ =>
    rw [places_eq, List.pairwise_cons]
    refine ⟨?_, placesIn_sorted _ above [] children⟩
    intro k member
    obtain ⟨i, lower, _, rfl⟩ := mem_placesIn children member
    exact lt_below _ i lower

theorem placesIn_sorted (parent : Node) (above : List Frame) (before children : List Node) :
    ((Node.visitsIn parent above before children).filterMap Visit.place?).Pairwise (· < ·) := by
  match children with
  | [] => exact List.Pairwise.nil
  | child :: rest =>
    rw [Node.visitsIn, List.filterMap_append, List.pairwise_append]
    refine ⟨places_sorted child _, placesIn_sorted parent above _ rest, ?_⟩
    intro k first l later
    obtain ⟨lower, rfl⟩ := mem_places child first
    obtain ⟨i, lower', behind, rfl⟩ := mem_placesIn rest later
    rw [List.length_append, List.length_singleton] at behind
    rw [place_cons, List.append_assoc]
    exact lt_behind _ behind lower lower'

end

/-- The walk enters nodes in the order of their places. -/
theorem walk_sorted (root : Node) : root.walk.Pairwise fun v w =>
    ∀ n f m g, v = .enter n f → w = .enter m g → place f < place g := by
  have sorted := places_sorted root []
  rw [List.pairwise_filterMap] at sorted
  refine sorted.imp ?_
  rintro _ _ order n f m g rfl rfl
  exact order _ rfl _ rfl

/-! ### Ways to a point -/

theorem Leads.split {root n : Node} {lower upper : List Frame}
    (way : Leads root n (lower ++ upper)) : ∃ m, Leads root m upper ∧ Leads m n lower := by
  induction lower generalizing n with
  | nil => exact ⟨n, way, .top⟩
  | cons f lower ih =>
    cases way with
    | step children upwards =>
      obtain ⟨m, outer, inner⟩ := ih upwards
      exact ⟨m, outer, .step children inner⟩

/-- A way down to another node goes through a child first. -/
theorem Leads.downwards {root n : Node} {frames : List Frame} (way : Leads root n frames) :
    frames = [] ∧ n = root ∨ ∃ lower f c, frames = lower ++ [f] ∧
      root.children = f.before ++ c :: f.after ∧ Leads c n lower := by
  induction way with
  | top => exact Or.inl ⟨rfl, rfl⟩
  | @step n f frames children upwards ih =>
    rcases ih with ⟨rfl, parent⟩ | ⟨lower, g, c, rfl, top, inner⟩
    · exact Or.inr ⟨[], f, n, rfl, parent ▸ children, .top⟩
    · exact Or.inr ⟨f :: lower, g, c, rfl, top, .step children inner⟩

/-- Of two children around one point, neither comes before the other. -/
theorem Node.Holds.not_before {n c d : Node} {p : Point} (h : n.Holds) {before after : List Node}
    (children : n.children = before ++ d :: after) (aroundC : c.Covers p) (aroundD : d.Covers p) :
    c ∉ before := by
  intro member
  have ordered := h.ordered
  rw [children, List.pairwise_append] at ordered
  have apart := ordered.2.2 c member d List.mem_cons_self
  exact Point.not_le.mpr aroundC.2 (Point.le_trans apart aroundD.1)

theorem Node.Holds.split_unique {n c d : Node} {p : Point} (h : n.Holds)
    {before after before' after' : List Node} (first : n.children = before ++ c :: after)
    (second : n.children = before' ++ d :: after') (aroundC : c.Covers p) (aroundD : d.Covers p) :
    before = before' ∧ c = d ∧ after = after' := by
  rcases List.append_eq_append_iff.mp (first.symm.trans second) with
    ⟨between, rfl, rest⟩ | ⟨between, rfl, rest⟩
  · cases between with
    | nil => simpa using rest
    | cons s between =>
      obtain ⟨rfl, _⟩ := List.cons.inj rest
      exact absurd (by simp) (h.not_before second aroundC aroundD)
  · cases between with
    | nil => simpa [eq_comm] using rest
    | cons s between =>
      obtain ⟨rfl, _⟩ := List.cons.inj rest
      exact absurd (by simp) (h.not_before first aroundD aroundC)

section Nested

variable {root a b : Node} {p : Point} (nested : root.WellNested)
include nested

/-- There is one way of a given length down to a point. -/
theorem Leads.unique {upper upper' : List Frame} (wayA : Leads root a upper)
    (wayB : Leads root b upper') (level : upper.length = upper'.length) (aroundA : a.Covers p)
    (aroundB : b.Covers p) : upper = upper' ∧ a = b := by
  induction wayA generalizing b upper' with
  | top =>
    cases wayB with
    | top => exact ⟨rfl, rfl⟩
    | step => cases level
  | @step a f upper children upwards ih =>
    cases wayB with
    | top => cases level
    | @step _ g upper' children' upwards' =>
      have around : ∀ {n c : Node}, n ∈ root.nodes → c ∈ n.children → c.Covers p → n.Covers p :=
        fun inside child => covers_of_mem_nodes (nested.below inside)
          (Node.child_mem_nodes (Node.self_mem_nodes _) child)
      obtain ⟨rfl, same⟩ := ih upwards' (Nat.succ.inj level)
        (around upwards.mem_nodes (by simp [children]) aroundA)
        (around upwards'.mem_nodes (by simp [children']) aroundB)
      cases f with
      | mk parent before after =>
        cases g with
        | mk parent' before' after' =>
          obtain rfl : parent = parent' := same
          obtain ⟨rfl, rfl, rfl⟩ := (nested _ upwards.mem_nodes).split_unique children children'
            aroundA aroundB
          exact ⟨rfl, rfl⟩

/-- A way to a point leads through every node around the point that is not deeper. -/
theorem Leads.through {upper frames : List Frame} (wayA : Leads root a upper)
    (wayB : Leads root b frames) (level : upper.length ≤ frames.length) (aroundA : a.Covers p)
    (aroundB : b.Covers p) : ∃ lower, frames = lower ++ upper ∧ Leads a b lower := by
  have cut := List.take_append_drop (frames.length - upper.length) frames
  rw [← cut] at wayB
  obtain ⟨m, outer, inner⟩ := wayB.split
  have around : m.Covers p :=
    covers_of_mem_nodes (nested.below outer.mem_nodes) inner.mem_nodes aroundB
  have length : upper.length = (frames.drop (frames.length - upper.length)).length := by
    rw [List.length_drop]
    omega
  obtain ⟨same, rfl⟩ := wayA.unique nested outer length aroundA around
  rw [← same] at cut
  exact ⟨_, cut.symm, inner⟩

/-- Siblings lie one behind the other, in the order of their places. -/
theorem Leads.stop_le_of_place {f g : Frame} {above : List Frame} (wayA : Leads root a (f :: above))
    (wayB : Leads root b (g :: above)) (siblings : f.parent = g.parent)
    (order : place (f :: above) < place (g :: above)) : a.stop ≤ b.start := by
  rw [place_cons, place_cons] at order
  have shorter : f.before.length < g.before.length := by
    by_contra longer
    rcases Nat.lt_or_eq_of_le (Nat.not_lt.mp longer) with more | equal
    · exact List.lt_asymm order (lt_behind _ more [] [])
    · rw [equal] at order
      exact List.lt_irrefl _ order
  cases wayA with
  | step childrenA _ =>
    cases wayB with
    | step childrenB upwards =>
      have before : a ∈ g.before := by
        rw [siblings, childrenB] at childrenA
        rcases List.append_eq_append_iff.mp childrenA with
          ⟨between, longer, _⟩ | ⟨between, longer, rest⟩
        · rw [longer, List.length_append] at shorter
          omega
        · cases between with
          | nil =>
            rw [longer, List.append_nil] at shorter
            exact absurd shorter (Nat.lt_irrefl _)
          | cons s between =>
            obtain ⟨rfl, _⟩ := List.cons.inj rest
            simp [longer]
      have ordered := (nested _ upwards.mem_nodes).ordered
      rw [childrenB, List.pairwise_append] at ordered
      exact ordered.2.2 a before b List.mem_cons_self

end Nested

end Hypertag.Markup
