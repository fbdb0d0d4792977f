import Hypertag.Markup.Visit

/-!
# Attributes in a tree

Where the `hx-` attributes of a tree stand, finished or not. A tag is any node with a tag name
among its children; an attribute belongs to it when it comes after that name. Everything is listed
in the order in which the walk meets the last node that it depends on.
-/

namespace Hypertag.Markup

/-- What the names of interest contain. -/
def attributeMark : Text := Text.ofChars ['h', 'x', '-']

namespace Node

def isError (n : Node) : Bool := n.kind = .error

def isAttributeName (n : Node) : Bool := n.kind = .attrName

def isMarkedName (n : Node) : Bool := n.isAttributeName && n.text.hasInfix attributeMark

/-- An attribute that has a name, whatever the name. -/
def isNamedAttribute (n : Node) : Bool := n.kind = .attr && n.children.any isAttributeName

/-- The marked names of an attribute that something other than an error follows. -/
def followedNames : List Node → List Node
  | [] => []
  | n :: rest =>
    if n.isMarkedName && rest.any (!·.isError) then n :: followedNames rest
    else followedNames rest

end Node

def hasTagName (nodes : List Node) : Bool := nodes.any (·.kind = .tagName)

/-- What follows the first tag name. -/
def behindTagName (nodes : List Node) : List Node := (nodes.dropWhile (·.kind ≠ .tagName)).drop 1

/-- What follows the first named attribute of a tag, with that attribute. -/
def fromFirstAttribute (children : List Node) : List Node :=
  (behindTagName children).dropWhile (!·.isNamedAttribute)

/-- The frame of a child of a tag, other than the tag of an error. -/
def Frame.isInTag (f : Frame) : Bool := !f.parent.isError && hasTagName f.before

/-- An attribute that is nothing but its name, and the node behind it. -/
structure BareAttribute where
  attr : Node
  name : Node
  following : Option Node

/-- A tag with an attribute, and the first error behind its first attribute. -/
structure OpenTag where
  tag : Node
  error : Option Node

def BareAttribute.ofVisit : Visit → List BareAttribute
  | .enter name (inAttribute :: inTag :: _) =>
    if name.isMarkedName && inAttribute.parent.kind = .attr &&
        name.text = inAttribute.parent.text && inTag.isInTag then
      [⟨inAttribute.parent, name, inTag.after.head?⟩]
    else []
  | _ => []

def OpenTag.ofVisit : Visit → List OpenTag
  | .enter error (inTag :: _) =>
    let seen := fromFirstAttribute inTag.before
    if error.isError && inTag.isInTag && !seen.isEmpty && seen.all (!·.isError) then
      [⟨inTag.parent, some error⟩]
    else []
  | .enter _ [] => []
  | .leave tag =>
    let seen := fromFirstAttribute tag.children
    if !tag.isError && !seen.isEmpty && seen.all (!·.isError) then [⟨tag, none⟩] else []

/-- How a value goes on behind the name of its attribute. -/
inductive ValueShape where
  /-- The quote of the value is never closed: the whole tag is an error. -/
  | unclosed (tag : Node)
  /-- Some value, and an error later in the tag. -/
  | beforeError (attr error : Node)
  /-- Two quotes with nothing between. -/
  | empty (attr quoted : Node)
  | filled (attr value : Node)

structure ValuedAttribute where
  name : Node
  shape : ValueShape

def emptyQuotes : Text := Text.ofChars ['"', '"']

namespace ValuedAttribute

/-- Marked names directly inside an error with a tag name; the entered node is the next one. -/
def unclosed (node : Node) (inTag : Frame) : List ValuedAttribute :=
  if !node.isError && inTag.parent.isError && hasTagName inTag.before then
    ((inTag.before.filter (!·.isError)).getLast?.filter Node.isMarkedName).toList.map fun name =>
      ⟨name, .unclosed inTag.parent⟩
  else []

/-- The valued attributes of a tag before one of its errors. -/
def beforeError (error : Node) (inTag : Frame) : List ValuedAttribute :=
  if error.isError && inTag.isInTag then
    ((behindTagName inTag.before).filter (·.kind = .attr)).flatMap fun attr =>
      (Node.followedNames attr.children).map fun name => ⟨name, .beforeError attr error⟩
  else []

def empty (quoted : Node) (inAttribute inTag : Frame) : List ValuedAttribute :=
  if quoted.kind = .quotedValue && quoted.text = emptyQuotes &&
      inAttribute.parent.kind = .attr && inTag.isInTag then
    (inAttribute.before.filter Node.isMarkedName).map fun name =>
      ⟨name, .empty inAttribute.parent quoted⟩
  else []

def filled (value : Node) (inQuotes inAttribute inTag : Frame) : List ValuedAttribute :=
  if value.kind = .attrValue && inQuotes.parent.kind = .quotedValue &&
      inAttribute.parent.kind = .attr && inTag.isInTag then
    (inAttribute.before.filter Node.isMarkedName).map fun name =>
      ⟨name, .filled inAttribute.parent value⟩
  else []

def ofVisit : Visit → List ValuedAttribute
  | .leave _ => []
  | .enter _ [] => []
  | .enter node [f] => unclosed node f ++ beforeError node f
  | .enter node [f, g] => unclosed node f ++ beforeError node f ++ empty node f g
  | .enter node (f :: g :: h :: _) =>
    unclosed node f ++ beforeError node f ++ empty node f g ++ filled node f g h

end ValuedAttribute

namespace Node

def bareAttributes (root : Node) : List BareAttribute := root.walk.flatMap BareAttribute.ofVisit

def openTags (root : Node) : List OpenTag := root.walk.flatMap OpenTag.ofVisit

def valuedAttributes (root : Node) : List ValuedAttribute :=
  root.walk.flatMap ValuedAttribute.ofVisit

end Node

end Hypertag.Markup
