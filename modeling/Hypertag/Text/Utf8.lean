import Hypertag.Text.Basic

/-!
# UTF-8

Strict decoding of bytes into characters: no overlong forms, no surrogates, nothing beyond the
last code point, nothing cut short.
-/

namespace Hypertag.Utf8

/-- Decodes bytes, `need` continuation bytes being due for a character of at least `least`. -/
def decodeFrom (need acc least : Nat) : List UInt8 → Option (List Char)
  | [] => if need = 0 then some [] else none
  | b :: bs =>
    let n := b.toNat
    match need with
    | 0 =>
      if n < 0x80 then (decodeFrom 0 0 0 bs).map (Char.ofNat n :: ·)
      else if 0xC2 ≤ n ∧ n < 0xE0 then decodeFrom 1 (n - 0xC0) 0x80 bs
      else if 0xE0 ≤ n ∧ n < 0xF0 then decodeFrom 2 (n - 0xE0) 0x800 bs
      else if 0xF0 ≤ n ∧ n < 0xF5 then decodeFrom 3 (n - 0xF0) 0x10000 bs
      else none
    | more + 1 =>
      if 0x80 ≤ n ∧ n < 0xC0 then
        let acc := acc * 64 + (n - 0x80)
        if more = 0 then
          if least ≤ acc ∧ acc.isValidChar then (decodeFrom 0 0 0 bs).map (Char.ofNat acc :: ·)
          else none
        else decodeFrom more acc least bs
      else none

def decode? (bytes : List UInt8) : Option (List Char) := decodeFrom 0 0 0 bytes

def encode (c : Char) : List UInt8 := String.utf8EncodeChar c

end Hypertag.Utf8
