import Hypertag.Text.Utf8

/-!
# Percent encoding

Writing escapes every byte of a character that is not plain. Reading is forgiving: a run of
escapes that does not decode keeps its first escape as written, and the rest is tried again.
-/

namespace Hypertag.Percent

def mark : UInt16 := 0x25

def isDigit (u : UInt16) : Bool := 0x30 ≤ u && u ≤ 0x39

def isUpper (u : UInt16) : Bool := 0x41 ≤ u && u ≤ 0x5A

def isLower (u : UInt16) : Bool := 0x61 ≤ u && u ≤ 0x7A

def isLetter (u : UInt16) : Bool := isUpper u || isLower u

def isAlphanumeric (u : UInt16) : Bool := isDigit u || isLetter u

def hexValue? (u : UInt16) : Option Nat :=
  if isDigit u then some (u.toNat - 0x30)
  else if 0x41 ≤ u && u ≤ 0x46 then some (u.toNat - 0x37)
  else if 0x61 ≤ u && u ≤ 0x66 then some (u.toNat - 0x57)
  else none

def hexDigit (n : Nat) : UInt16 := (if n < 10 then 0x30 + n else 0x37 + n).toUInt16

/-- A unit of its own, or what looks like an escape: a percent sign, then two letters or digits. -/
inductive Piece where
  | plain (u : UInt16)
  | escape (high low : UInt16)

namespace Piece

/-- Cuts a text into pieces. `skip` units belong to an escape that was already seen. -/
def cutFrom : Nat → Text → List Piece
  | _, [] => []
  | skip + 1, _ :: rest => cutFrom skip rest
  | 0, u :: rest =>
    match rest with
    | high :: low :: _ =>
      if u = mark && isAlphanumeric high && isAlphanumeric low then
        .escape high low :: cutFrom 2 rest
      else .plain u :: cutFrom 0 rest
    | _ => .plain u :: cutFrom 0 rest

def cut (t : Text) : List Piece := cutFrom 0 t

/-- The byte that an escape stands for. -/
def byte? : Piece → Option UInt8
  | plain _ => none
  | escape high low => do
    let h ← hexValue? high
    let l ← hexValue? low
    return (16 * h + l).toUInt8

def isEscape : Piece → Bool
  | plain _ => false
  | escape _ _ => true

def written : Piece → Text
  | plain u => [u]
  | escape high low => [mark, high, low]

end Piece

/-- The text of a run of escapes, when all of them decode. -/
def decodeRun? (run : List Piece) : Option Text :=
  (run.mapM Piece.byte?).bind fun bytes => (Utf8.decode? bytes).map Text.ofChars

/-- Decodes pieces, of which the first `skip` are already decoded. -/
def decodePieces : Nat → List Piece → Text
  | _, [] => []
  | skip + 1, _ :: rest => decodePieces skip rest
  | 0, piece :: rest =>
    if piece.isEscape then
      let more := rest.takeWhile Piece.isEscape
      match decodeRun? (piece :: more) with
      | some t => t ++ decodePieces more.length rest
      | none => piece.written ++ decodePieces 0 rest
    else piece.written ++ decodePieces 0 rest

def decode (t : Text) : Text := decodePieces 0 (Piece.cut t)

/-- Letters, digits, `-`, `.`, `_`, `~`, and the slash between parts of a path. -/
def isPlain (b : UInt8) : Bool :=
  isAlphanumeric b.toNat.toUInt16 || b = 0x2D || b = 0x2E || b = 0x5F || b = 0x7E || b = 0x2F

def encodeByte (b : UInt8) : Text :=
  if isPlain b then [b.toNat.toUInt16] else [mark, hexDigit (b.toNat / 16), hexDigit (b.toNat % 16)]

def encodePath (t : Text) : Text := t.chars.flatMap fun c => (Utf8.encode c).flatMap encodeByte

end Hypertag.Percent
