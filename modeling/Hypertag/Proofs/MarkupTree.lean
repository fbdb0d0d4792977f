import Hypertag.Markup.Attribute
import Mathlib.Data.List.Basic

/-!
# Nodes of a markup tree

The nodes of a tree as a list, each before its children, so that two nodes that look alike count
twice. The walk enters nothing else, and the frames of an entered node are its way up to the top.
Nothing is assumed about spans: nodes may overlap or lie outside of their parents.
-/

namespace Hypertag.Markup

namespace Node

mutual

def nodes : Node → List Node
  | node@⟨_, _, _, _, children⟩ => node :: nodesIn children

def nodesIn : List Node → List Node
  | [] => []
  | node :: rest => node.nodes ++ nodesIn rest

end

theorem nodes_eq (n : Node) : n.nodes = n :: nodesIn n.children := by
  cases n
  rw [nodes]

theorem self_mem_nodes (n : Node) : n ∈ n.nodes := by
  rw [nodes_eq]
  exact List.mem_cons_self

mutual

/-- The nodes below a node of a tree are nodes of the tree, in the same order. -/
theorem nodes_sublist (n : Node) {m : Node} (h : m ∈ n.nodes) : m.nodes.Sublist n.nodes := by
  match n with
  | ⟨kind, start, stop, text, children⟩ =>
    rw [nodes] at h ⊢
    rcases List.mem_cons.mp h with rfl | below
    · rw [nodes]
    · exact (nodesIn_sublist children below).cons _

theorem nodesIn_sublist (children : List Node) {m : Node} (h : m ∈ nodesIn children) :
    m.nodes.Sublist (nodesIn children) := by
  match children with
  | [] => cases h
  | child :: rest =>
    rw [nodesIn] at h ⊢
    rcases List.mem_append.mp h with first | later
    · exact (nodes_sublist child first).trans (List.sublist_append_left _ _)
    · exact (nodesIn_sublist rest later).trans (List.sublist_append_right _ _)

end

theorem mem_nodesIn {children : List Node} {m : Node} :
    m ∈ nodesIn children ↔ ∃ child ∈ children, m ∈ child.nodes := by
  induction children with
  | nil => simp [nodesIn]
  | cons first rest ih => simp [nodesIn, ih]

theorem child_mem_nodesIn {children : List Node} {child : Node} (h : child ∈ children) :
    child ∈ nodesIn children :=
  mem_nodesIn.mpr ⟨child, h, child.self_mem_nodes⟩

theorem child_mem_nodes {root n child : Node} (h : n ∈ root.nodes) (below : child ∈ n.children) :
    child ∈ root.nodes := by
  refine (nodes_sublist root h).subset ?_
  rw [nodes_eq]
  exact List.mem_cons_of_mem n (child_mem_nodesIn below)

theorem eq_of_mem_leaf {n m : Node} (leaf : n.children = []) (h : m ∈ n.nodes) : m = n := by
  rw [nodes_eq, leaf] at h
  exact List.mem_singleton.mp h

theorem descent_eq (n : Node) (p : Point) : n.descent p = n :: descentIn p n.children := by
  cases n
  rw [descent]

mutual

theorem descent_subset (p : Point) (n : Node) {m : Node} (h : m ∈ n.descent p) : m ∈ n.nodes := by
  match n with
  | ⟨kind, start, stop, text, children⟩ =>
    rw [descent] at h
    rw [nodes]
    exact List.mem_cons.mpr ((List.mem_cons.mp h).imp_right (descentIn_subset p children))

theorem descentIn_subset (p : Point) (children : List Node) {m : Node}
    (h : m ∈ descentIn p children) : m ∈ nodesIn children := by
  match children with
  | [] => cases h
  | child :: rest =>
    rw [descentIn] at h
    rw [nodesIn, List.mem_append]
    split at h
    · split at h
      · exact Or.inl (descent_subset p child h)
      · cases h
    · exact Or.inr (descentIn_subset p rest h)

end

theorem mem_nodes_of_enclosing {root element : Node} {p : Point}
    (h : root.enclosing? p = some element) : element ∈ root.nodes :=
  descent_subset _ root (List.mem_reverse.mp (List.mem_of_find?_eq_some h))

end Node

/-! ### The walk -/

/-- Whether frames lead from a node up to the top of a tree. -/
inductive Leads (root : Node) : Node → List Frame → Prop where
  | top : Leads root root []
  | step {node : Node} {f : Frame} {above : List Frame}
      (children : f.parent.children = f.before ++ node :: f.after)
      (upwards : Leads root f.parent above) : Leads root node (f :: above)

theorem Leads.mem_nodes {root node : Node} {frames : List Frame} (h : Leads root node frames) :
    node ∈ root.nodes := by
  induction h with
  | top => exact root.self_mem_nodes
  | step children _ ih => exact Node.child_mem_nodes ih (by simp [children])

mutual

theorem leads_of_visits {root : Node} (node : Node) {above : List Frame}
    (h : Leads root node above) {entered : Node} {frames : List Frame}
    (visit : .enter entered frames ∈ node.visits above) : Leads root entered frames := by
  match node with
  | ⟨kind, start, stop, text, children⟩ =>
    rw [Node.visits] at visit
    rcases List.mem_cons.mp visit with top | inner
    · cases top
      exact h
    · rcases List.mem_append.mp inner with below | leaves
      · exact leads_of_visitsIn children h rfl below
      · cases List.mem_singleton.mp leaves

theorem leads_of_visitsIn {root parent : Node} (children : List Node) {above : List Frame}
    (h : Leads root parent above) {before : List Node}
    (whole : parent.children = before ++ children) {entered : Node} {frames : List Frame}
    (visit : .enter entered frames ∈ Node.visitsIn parent above before children) :
    Leads root entered frames := by
  match children with
  | [] => cases visit
  | child :: rest =>
    rw [Node.visitsIn] at visit
    rcases List.mem_append.mp visit with first | later
    · exact leads_of_visits child (.step whole h) first
    · exact leads_of_visitsIn rest h (by rw [whole, List.append_assoc]; rfl) later

end

/-- The walk enters nodes of the tree only, each with its way up. -/
theorem leads_of_walk {root entered : Node} {frames : List Frame}
    (visit : .enter entered frames ∈ root.walk) : Leads root entered frames :=
  leads_of_visits root .top visit

mutual

theorem leads_of_mem_nodesBelow {root : Node} (node : Node) {above : List Frame}
    (h : Leads root node above) {m : Node} (inside : m ∈ node.nodes) :
    ∃ frames, Leads root m frames := by
  match node with
  | ⟨kind, start, stop, text, children⟩ =>
    rw [Node.nodes] at inside
    rcases List.mem_cons.mp inside with rfl | below
    · exact ⟨above, h⟩
    · exact leads_of_mem_nodesIn [] children h rfl below

theorem leads_of_mem_nodesIn {root parent : Node} (before children : List Node)
    {above : List Frame} (h : Leads root parent above)
    (whole : parent.children = before ++ children) {m : Node}
    (inside : m ∈ Node.nodesIn children) : ∃ frames, Leads root m frames := by
  match children with
  | [] => cases inside
  | child :: rest =>
    rw [Node.nodesIn] at inside
    rcases List.mem_append.mp inside with first | later
    · exact leads_of_mem_nodesBelow child (.step (f := ⟨parent, before, rest⟩) whole h) first
    · exact leads_of_mem_nodesIn (before ++ [child]) rest h (by simp [whole]) later

end

/-- Every node of a tree has a way up. -/
theorem leads_of_mem_nodes {root m : Node} (inside : m ∈ root.nodes) :
    ∃ frames, Leads root m frames :=
  leads_of_mem_nodesBelow root .top inside

/-- The node that a step of the walk is about: the parent of an entered node, or the node that is
left. -/
def Visit.host? : Visit → Option Node
  | enter _ [] => none
  | enter _ (f :: _) => some f.parent
  | leave node => some node

mutual

theorem host_of_visits (node : Node) {above : List Frame} {visit : Visit}
    (visited : visit ∈ node.visits above) {host : Node} (h : visit.host? = some host) :
    host ∈ node.nodes ∨ visit = .enter node above := by
  match node with
  | ⟨kind, start, stop, text, children⟩ =>
    rw [Node.visits] at visited
    rw [Node.nodes]
    rcases List.mem_cons.mp visited with enters | inner
    · exact Or.inr enters
    · refine Or.inl (List.mem_cons.mpr ?_)
      rcases List.mem_append.mp inner with below | leaves
      · exact (host_of_visitsIn children below h).symm
      · obtain rfl := List.mem_singleton.mp leaves
        exact Or.inl (Option.some.inj h).symm

theorem host_of_visitsIn {parent : Node} (children : List Node) {above : List Frame}
    {before : List Node} {visit : Visit}
    (visited : visit ∈ Node.visitsIn parent above before children) {host : Node}
    (h : visit.host? = some host) : host ∈ Node.nodesIn children ∨ host = parent := by
  match children with
  | [] => cases visited
  | child :: rest =>
    rw [Node.visitsIn] at visited
    rw [Node.nodesIn, List.mem_append]
    rcases List.mem_append.mp visited with first | later
    · rcases host_of_visits child first h with inside | rfl
      · exact Or.inl (Or.inl inside)
      · exact Or.inr (Option.some.inj h).symm
    · exact (host_of_visitsIn rest later h).imp_left Or.inr

end

theorem mem_nodes_of_leave {root left : Node} (visit : .leave left ∈ root.walk) :
    left ∈ root.nodes := by
  rcases host_of_visits root visit rfl with inside | enters
  · exact inside
  · cases enters

def Visit.entered? : Visit → Option Node
  | enter node _ => some node
  | leave _ => none

mutual

theorem entered_visits (node : Node) (above : List Frame) :
    (node.visits above).filterMap Visit.entered? = node.nodes := by
  match node with
  | ⟨kind, start, stop, text, children⟩ =>
    rw [Node.visits, Node.nodes]
    simp [Visit.entered?, entered_visitsIn]

theorem entered_visitsIn (parent : Node) (above : List Frame) (before children : List Node) :
    (Node.visitsIn parent above before children).filterMap Visit.entered? =
      Node.nodesIn children := by
  match children with
  | [] => rfl
  | child :: rest =>
    rw [Node.visitsIn, Node.nodesIn, List.filterMap_append, entered_visits child,
      entered_visitsIn parent above _ rest]

end

/-- The walk enters each node of the tree, in the order of the nodes. -/
theorem entered_walk (root : Node) : root.walk.filterMap Visit.entered? = root.nodes :=
  entered_visits root []

theorem Node.visits_eq (n : Node) (above : List Frame) :
    n.visits above = .enter n above :: (visitsIn n above [] n.children ++ [.leave n]) := by
  cases n
  rw [visits]

/-- The walk over children is the walk over the first ones, and then over the others. -/
theorem Node.visitsIn_append (parent : Node) (above : List Frame) (before first rest : List Node) :
    ∃ earlier, visitsIn parent above before (first ++ rest) =
      earlier ++ visitsIn parent above (before ++ first) rest := by
  induction first generalizing before with
  | nil => exact ⟨[], by simp⟩
  | cons child first ih =>
    obtain ⟨earlier, split⟩ := ih (before ++ [child])
    refine ⟨child.visits (⟨parent, before, first ++ rest⟩ :: above) ++ earlier, ?_⟩
    rw [List.cons_append, visitsIn, split]
    simp

end Hypertag.Markup
