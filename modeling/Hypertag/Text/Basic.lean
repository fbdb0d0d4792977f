/-!
# Text

Text is a list of sixteen-bit code units, the unit in which editors count columns. A character
beyond U+FFFF takes two units, a surrogate pair, and text is ordered by its units.
-/

namespace Hypertag

abbrev Text := List UInt16

namespace Text

instance : LawfulBEq Text := List.instLawfulBEq

/-- One unit, or a surrogate pair beyond U+FFFF. -/
def ofChar (c : Char) : Text :=
  if c.toNat < 0x10000 then [c.toNat.toUInt16]
  else
    [(0xD800 + (c.toNat - 0x10000) / 0x400).toUInt16,
     (0xDC00 + (c.toNat - 0x10000) % 0x400).toUInt16]

def ofChars (cs : List Char) : Text := cs.flatMap ofChar

def ofString (s : String) : Text := ofChars s.toList

instance : Coe String Text := ⟨ofString⟩

def ofNat (n : Nat) : Text := ofChars (Nat.toDigits 10 n)

def ofInt : Int → Text
  | .ofNat n => ofNat n
  | .negSucc n => ofChars ['-'] ++ ofNat (n + 1)

def isHighSurrogate (u : UInt16) : Bool := 0xD800 ≤ u && u ≤ 0xDBFF

def isLowSurrogate (u : UInt16) : Bool := 0xDC00 ≤ u && u ≤ 0xDFFF

/-- The characters of a text. A surrogate without its partner reads as U+FFFD. -/
def chars : Text → List Char
  | [] => []
  | [u] => [single u]
  | u :: v :: rest =>
    if isHighSurrogate u && isLowSurrogate v then pair u v :: chars rest
    else single u :: chars (v :: rest)
where
  single (u : UInt16) : Char :=
    if isHighSurrogate u || isLowSurrogate u then Char.ofNat 0xFFFD else Char.ofNat u.toNat
  pair (u v : UInt16) : Char :=
    Char.ofNat (0x10000 + (u.toNat - 0xD800) * 0x400 + (v.toNat - 0xDC00))

def decode (t : Text) : String := String.ofList t.chars

/-- The units from `start` up to, not including, `stop`. -/
def slice (t : Text) (start stop : Nat) : Text := (t.take stop).drop start

/-- Where `needle` first occurs. -/
def indexOf? (needle : Text) : Text → Option Nat
  | [] => if needle.isEmpty then some 0 else none
  | u :: rest =>
    if needle.isPrefixOf (u :: rest) then some 0
    else (indexOf? needle rest).map (· + 1)

def hasInfix (t needle : Text) : Bool := (indexOf? needle t).isSome

/-- The pieces between the occurrences of `separator`; there is always at least one. -/
def split (separator : UInt16) : Text → List Text
  | [] => [[]]
  | u :: rest =>
    if u = separator then [] :: split separator rest
    else match split separator rest with
      | [] => [[u]]
      | piece :: pieces => (u :: piece) :: pieces

def newline : UInt16 := 0x0A

/-- Rows end at a newline only; a carriage return belongs to its row. -/
def rows (t : Text) : List Text := t.split newline

/-- The row with the given number, when there is one. -/
def row? (t : Text) : Int → Option Text
  | .ofNat n => t.rows[n]?
  | .negSucc _ => none

def joinWith (separator : Text) : List Text → Text
  | [] => []
  | [t] => t
  | t :: ts => t ++ separator ++ joinWith separator ts

end Text

end Hypertag
