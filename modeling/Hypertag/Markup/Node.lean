import Hypertag.Point

/-!
# Markup trees

A grammar outlines a text: nodes with a kind and half-open ranges of offsets, error nodes
included. Locating an outline in its text gives the tree that positions are read from, where each
node knows its points and its own text.
-/

namespace Hypertag.Markup

inductive Kind where
  | document
  | fragment
  | element
  | error
  | tagName
  | attr
  | attrName
  | attrValue
  | quotedValue
  | other (name : Text)
  deriving DecidableEq, Inhabited

namespace Kind

def ofName (name : Text) : Kind :=
  if name = "document" then document
  else if name = "fragment" then fragment
  else if name = "element" then element
  else if name = "ERROR" then error
  else if name = "tag_name" then tagName
  else if name = "attribute" then attr
  else if name = "attribute_name" then attrName
  else if name = "attribute_value" then attrValue
  else if name = "quoted_attribute_value" then quotedValue
  else other name

/-- The kinds within which attributes are looked for. -/
def isContainer (k : Kind) : Bool := k = document || k = fragment || k = element

end Kind

inductive Outline where
  | mk (kind : Kind) (start stop : Nat) (children : List Outline)
  deriving Inhabited

structure Node where
  kind : Kind
  start : Point
  stop : Point
  text : Text
  children : List Node

mutual

/-- Gives each node of an outline its points and its part of the text. -/
def Outline.locate (text : Text) : Outline → Node
  | .mk kind start stop children =>
    { kind
      start := text.pointAt start
      stop := text.pointAt stop
      text := text.slice start stop
      children := Outline.locateAll text children }

def Outline.locateAll (text : Text) : List Outline → List Node
  | [] => []
  | o :: os => o.locate text :: Outline.locateAll text os

end

mutual

/-- The nodes met on the way down to a point: at each level the first child that ends behind the
point, unless it starts behind the point too. -/
def Node.descent (p : Point) : Node → List Node
  | node@⟨_, _, _, _, children⟩ => node :: Node.descentIn p children

def Node.descentIn (p : Point) : List Node → List Node
  | [] => []
  | node :: rest =>
    if p < node.stop then
      if node.start ≤ p then node.descent p else []
    else Node.descentIn p rest

end

/-- The point at which a tree is searched for `p`. A tree counts rows and bytes with 32 bits, and a
unit has two bytes. So a negative column lies far behind the end of its row. -/
def searchPoint (p : Point) : Point := ⟨p.row % 4294967296, p.column % 2147483648⟩

theorem searchPoint_eq_self {p : Point} (row : 0 ≤ p.row ∧ p.row < 4294967296)
    (column : 0 ≤ p.column ∧ p.column < 2147483648) : searchPoint p = p := by
  cases p
  simp only [searchPoint, Point.mk.injEq]
  exact ⟨Int.emod_eq_of_lt row.1 row.2, Int.emod_eq_of_lt column.1 column.2⟩

/-- The innermost element, fragment or document on the way down to a point. -/
def Node.enclosing? (root : Node) (p : Point) : Option Node :=
  (root.descent (searchPoint p)).reverse.find? (·.kind.isContainer)

end Hypertag.Markup
