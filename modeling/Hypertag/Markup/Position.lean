import Hypertag.Markup.Attribute

/-!
# What the cursor is over

The cursor is read against the innermost element around it. It is over the name of an `hx-`
attribute, over its value, or over nothing of interest. Of the candidates that start at or before
the cursor the last one counts. A hover asks what is written, a completion what may be written.
-/

namespace Hypertag.Markup

inductive Position where
  | name (name : Text)
  | value (name value : Text)
  deriving DecidableEq

inductive Mode where
  | hover
  | completion
  deriving DecidableEq

/-- The name that stands for an attribute not yet written. -/
def newAttribute : Text := Text.ofChars ['-', '-']

/-- The last candidate that starts at or before the cursor. -/
def latest? {α : Type} (p : Point) (start : α → Point) (candidates : List α) : Option α :=
  (candidates.filter fun c => start c ≤ p).getLast?

/-- Whether some candidate starts at or before the cursor. -/
def begun (p : Point) (candidates : List Node) : Bool := (latest? p Node.start candidates).isSome

/-- Whether the cursor is at or behind the name, and the tag's error stands right behind the
attribute, where an equals sign waits for its value. -/
def equalsPending (p : Point) (tags : List OpenTag) (tag : OpenTag) (bare : BareAttribute) : Bool :=
  bare.name.stop ≤ p &&
    match bare.following with
    | none => false
    | some following => tags.any fun t =>
        t.tag.start = tag.tag.start && t.error.any (·.start = following.start)

/-- The position read from names alone. -/
def namePosition? (mode : Mode) (p : Point) (bares : List BareAttribute) (tags : List OpenTag) :
    Option Position :=
  (latest? p (·.name.start) bares).bind fun bare =>
    match latest? p (·.tag.start) tags with
    | none => some (.name bare.name.text)
    | some tag =>
      match mode with
      | .hover =>
        if begun p (bares.map (·.attr)) && bare.name.stop ≥ p then
          some (.name bare.name.text)
        else none
      | .completion =>
        if tag.tag.stop < p then some (.name newAttribute)
        else if begun p (tags.filterMap (·.error)) || equalsPending p tags tag bare then none
        else some (.name bare.name.text)

/-- The candidates of the attribute whose name starts last at or before the cursor. -/
def nearest (p : Point) (values : List ValuedAttribute) : List ValuedAttribute :=
  let begunValues := values.filter (·.name.start ≤ p)
  begunValues.filter fun v => begunValues.all (·.name.start ≤ v.name.start)

namespace ValueShape

def unclosed? : ValueShape → Option Node
  | unclosed tag => some tag
  | _ => none

def error? : ValueShape → Option Node
  | beforeError _ error => some error
  | _ => none

def emptyAttribute? : ValueShape → Option Node
  | empty attr _ => some attr
  | _ => none

def emptyQuotes? : ValueShape → Option Node
  | empty _ quoted => some quoted
  | _ => none

def filledAttribute? : ValueShape → Option Node
  | filled attr _ => some attr
  | _ => none

def value? : ValueShape → Option Node
  | filled _ value => some value
  | _ => none

end ValueShape

def equalsSign : Text := Text.ofChars ['=']

/-- The last part of a kind that starts at or before the cursor. -/
def latestPart? (p : Point) (shapes : List ValueShape) (part : ValueShape → Option Node) :
    Option Node :=
  latest? p Node.start (shapes.filterMap part)

/-- The position read from the shapes of one attribute's value. -/
def shapePosition? (mode : Mode) (p : Point) (name : Node) (shapes : List ValueShape) :
    Option Position :=
  if mode = .hover ∧ p < name.stop then some (.name name.text)
  else if (latestPart? p shapes ValueShape.unclosed?).isSome ||
      (latestPart? p shapes ValueShape.emptyAttribute?).isSome then
    if mode = .completion ∧ (latestPart? p shapes ValueShape.emptyQuotes?).any (·.stop ≤ p) then
      none
    else some (.value name.text [])
  else if (latestPart? p shapes ValueShape.error?).any (·.text = equalsSign) then none
  else match latestPart? p shapes ValueShape.filledAttribute? with
    | none => some (.value name.text [])
    | some attr =>
      if attr.stop ≤ p then none
      else match mode with
        | .hover =>
          some (.value name.text ((latestPart? p shapes ValueShape.value?).elim [] Node.text))
        | .completion => some (.value name.text [])

def valuePosition? (mode : Mode) (p : Point) (values : List ValuedAttribute) : Option Position :=
  (nearest p values).getLast?.bind fun v =>
    shapePosition? mode p v.name ((nearest p values).map (·.shape))

/-- What the cursor is over in a tree. -/
def Node.position? (root : Node) (p : Point) (mode : Mode) : Option Position :=
  (root.enclosing? p).bind fun element =>
    (namePosition? mode p element.bareAttributes element.openTags).or
      (valuePosition? mode p element.valuedAttributes)

end Hypertag.Markup
