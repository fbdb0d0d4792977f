import Hypertag.Tag.Basic
import Hypertag.Text.Blank

/-!
# Reading tags out of text

A text is cut into words at blanks. A word carries a tag from its first mark on, provided
something follows that mark. The bare reading, for values that may leave the mark out, also takes
each word without a mark as a tag of that name.
-/

namespace Hypertag

/-- A maximal run of units that are not blank, and where it starts. -/
structure Word where
  start : Nat
  text : Text
  deriving DecidableEq

/-- The words of a text whose first unit has the given index. -/
def Text.wordsFrom : Nat → Text → List Word
  | _, [] => []
  | i, u :: rest =>
    if isBlank u then wordsFrom (i + 1) rest
    else match wordsFrom (i + 1) rest with
      | [] => [⟨i, [u]⟩]
      | w :: ws => if w.start = i + 1 then ⟨i, u :: w.text⟩ :: ws else ⟨i, [u]⟩ :: w :: ws

def Text.words (t : Text) : List Word := t.wordsFrom 0

inductive Reading where
  | marked
  | bare
  deriving DecidableEq

/-- The tag that a word carries, its columns counted from the start of the word. -/
def Word.token? (reading : Reading) (w : Word) : Option Token :=
  match Text.indexOf? tagMark w.text with
  | some k =>
    if k + tagMark.length < w.text.length then some ⟨w.text.drop k, k, w.text.length⟩ else none
  | none =>
    match reading with
    | .marked => none
    | .bare => some ⟨tagMark ++ w.text, 0, w.text.length⟩

/-- Every tag of a text. -/
def Text.tokens (reading : Reading) (text : Text) : List Token :=
  text.words.filterMap fun w => (w.token? reading).map (·.shift w.start)

namespace Token

/-- Every tag of a text that starts at column `offset`. First the word and then what is in it is
placed. -/
def scan (reading : Reading) (offset : Int) (text : Text) : List Token :=
  text.words.filterMap fun w =>
    (w.token? reading).map (·.place (Binary.round (offset + w.start)))

/-- The first tag of a row. A row declares at most this one. -/
def first? (row : Text) : Option Token := (row.tokens .marked).head?

/-- The first tag of a row, when the column touches it. -/
def at? (row : Text) (column : Int) : Option Token := (first? row).filter (·.touches column)

end Token

def space : UInt16 := 0x20

/-- A value links tags only when it has no leading space and no two spaces in a row. -/
def Text.isLinkValue (value : Text) : Bool :=
  !([space].isPrefixOf value || value.hasInfix [space, space])

namespace Tag

/-- The tags linked by an attribute value that starts at column `start` of a line. -/
def ofValue? (value : Text) (start line : Int) : Option (List Tag) :=
  if value.isLinkValue then some ((Token.scan .bare start value).map (·.toTag 0 line)) else none

/-- The linked tag that the column touches. -/
def atValue? (value : Text) (start line column : Int) : Option Tag :=
  (ofValue? value start line).bind fun tags => tags.find? (·.touches column)

end Tag

end Hypertag
