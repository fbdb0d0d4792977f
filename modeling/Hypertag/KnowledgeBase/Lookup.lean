import Hypertag.Completion
import Hypertag.KnowledgeBase.Attributes
import Hypertag.KnowledgeBase.Values

/-!
# Looking things up

Documentation and suggestions for attributes and their values. A few names are reserved and cannot
be looked up in the table of values at all.
-/

namespace Hypertag.KnowledgeBase

def reservedNames : List Text :=
  ["constructor", "__defineGetter__", "__defineSetter__", "hasOwnProperty", "__lookupGetter__",
   "__lookupSetter__", "isPrototypeOf", "propertyIsEnumerable", "toString", "valueOf", "__proto__",
   "toLocaleString"]

/-- A reserved name was looked up, for documentation or for suggestions. -/
inductive LookupError where
  | documentation
  | suggestions
  deriving DecidableEq

def LookupError.message : LookupError → Text
  | documentation => "values?.find is not a function"
  | suggestions => "values.map is not a function"

def attributeDocumentation (name : Text) : Option Text :=
  (attributes.find? (·.name = name)).map Entry.description

/-- The values of an attribute. A reserved name fails with the given error. -/
def valuesOf (whenReserved : LookupError) (name : Text) : Except LookupError (List Entry) :=
  match values.find? (·.1 = name) with
  | some row => .ok row.2
  | none => if name ∈ reservedNames then .error whenReserved else .ok []

/-- A value is documented only when it is written exactly as known. -/
def valueDocumentation (name value : Text) : Except LookupError (Option Text) :=
  (valuesOf .documentation name).map fun entries =>
    (entries.find? (·.name = value)).map Entry.description

def firstRow (t : Text) : Text := t.takeWhile (· ≠ Text.newline)

/-- Three digits at least, behind a zero. -/
def sortText (index : Nat) : Text :=
  let digits := Nat.toDigits 10 index
  Text.ofChars ('0' :: (List.replicate (3 - digits.length) '0' ++ digits))

def suggestions (kind : CompletionKind) (entries : List Entry) : List CompletionItem :=
  entries.zipIdx.map fun (entry, index) =>
    { label := entry.name
      kind
      detail := firstRow entry.description
      documentation := some entry.description
      sortText := some (sortText index) }

def attributeCompletions : List CompletionItem := suggestions .property attributes

def valueCompletions (name : Text) : Except LookupError (List CompletionItem) :=
  (valuesOf .suggestions name).map (suggestions .value)

end Hypertag.KnowledgeBase
