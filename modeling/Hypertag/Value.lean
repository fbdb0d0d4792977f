import Hypertag.Decimal.Shortest

/-!
# Loose values

Values of no fixed shape, as a client sends them. Their plain text is what an error made from one
shows.
-/

namespace Hypertag

inductive Value where
  | null
  | bool (b : Bool)
  | number (x : Decimal)
  | text (t : Text)
  | array (items : List Value)
  | object (fields : List (Text × Value))
  deriving Inhabited

namespace Value

/-- The last field of a name, when the value is an object that has it. -/
def field? (name : Text) : Value → Option Value
  | object fields => (fields.reverse.find? (·.1 = name)).map Prod.snd
  | _ => none

def text? : Value → Option Text
  | text t => some t
  | _ => none

/-- The items of an array of texts. -/
def texts? : Value → Option (List Text)
  | array items => items.mapM text?
  | _ => none

mutual

/-- The plain text of a value. An object that brings a field `toString` of its own has none. -/
def display? : Value → Option Text
  | null => some "null"
  | bool true => some "true"
  | bool false => some "false"
  | number x => some x.render
  | text t => some t
  | array items => (displayItems? items).map (Text.joinWith ",")
  | object fields => if fields.any (·.1 = "toString") then none else some "[object Object]"

/-- Missing items of an array show as nothing. -/
def displayItems? : List Value → Option (List Text)
  | [] => some []
  | null :: rest => (displayItems? rest).map ([] :: ·)
  | item :: rest => (display? item).bind fun t => (displayItems? rest).map (t :: ·)

end

/-- The text of an error made from a value; there may be no value at all. -/
def errorText? : Option Value → Option Text
  | none => some "undefined"
  | some v => v.display?

/-- The message of an error thrown with a value; without one it is empty. -/
def thrownText? : Option Value → Option Text
  | none => some []
  | some v => v.display?

/-- The fields of an object with their plain texts. -/
def fieldTexts? : Value → Option (List (Text × Text))
  | object fields => fields.mapM fun (name, v) => v.display?.map (name, ·)
  | _ => some []

/-- What is said about a value without a plain text. -/
def noDisplayMessage : Text := "Cannot convert object to primitive value"

end Value

end Hypertag
