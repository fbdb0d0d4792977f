import Hypertag.Decimal.Binary

/-!
# Tags

A tag is a name that starts with `hx@`, declared in a comment of a script or backend file and
linked from markup. A token is where such a name stands in one row; a tag also knows its file
and line. Spans are half open.
-/

namespace Hypertag

/-- Files are numbered in the order in which they were registered. -/
abbrev FileId := Int

structure Token where
  name : Text
  start : Int
  stop : Int
  deriving DecidableEq

structure Tag where
  name : Text
  start : Int
  stop : Int
  file : FileId
  line : Int
  deriving DecidableEq

/-- What every tag name starts with. -/
def tagMark : Text := Text.ofChars ['h', 'x', '@']

namespace Token

/-- The end counts as inside, so that a cursor right behind a name still touches it. -/
def touches (t : Token) (column : Int) : Bool := t.start ≤ column && column ≤ t.stop

def shift (t : Token) (offset : Int) : Token :=
  { t with start := t.start + offset, stop := t.stop + offset }

/-- Shifts a token by a column from outside; the new columns are kept as numbers are. -/
def place (t : Token) (column : Int) : Token :=
  { t with start := Binary.round (column + t.start), stop := Binary.round (column + t.stop) }

def toTag (t : Token) (file : FileId) (line : Int) : Tag :=
  { name := t.name, start := t.start, stop := t.stop, file, line }

end Token

namespace Tag

def token (t : Tag) : Token := { name := t.name, start := t.start, stop := t.stop }

def touches (t : Tag) (column : Int) : Bool := t.token.touches column

end Tag

end Hypertag
