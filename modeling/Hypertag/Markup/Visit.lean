import Hypertag.Markup.Node

/-!
# Visits

A depth-first walk over a tree, as the list of its steps. Each node is entered before its children
and left behind them, and an entered node knows the way up to the top of the walk.
-/

namespace Hypertag.Markup

/-- A step upwards: the parent, and the siblings on both sides. -/
structure Frame where
  parent : Node
  before : List Node
  after : List Node

inductive Visit where
  | enter (node : Node) (above : List Frame)
  | leave (node : Node)

mutual

def Node.visits (above : List Frame) : Node → List Visit
  | node@⟨_, _, _, _, children⟩ =>
    .enter node above :: (Node.visitsIn node above [] children ++ [.leave node])

def Node.visitsIn (parent : Node) (above : List Frame) (before : List Node) :
    List Node → List Visit
  | [] => []
  | node :: after =>
    node.visits (⟨parent, before, after⟩ :: above) ++
      Node.visitsIn parent above (before ++ [node]) after

end

/-- The walk over a tree by itself. -/
def Node.walk (root : Node) : List Visit := root.visits []

end Hypertag.Markup
