import Hypertag.Uri.Percent
import Mathlib.Data.List.TakeWhile

/-!
# Reading encoded paths

A path is written character by character in UTF-8, and each byte plain or as an escape. Reading
cuts the pieces apart again and decodes each run of escapes as a whole, which never fails on what
was written. What is read back is the path itself, with a replacement for each surrogate that has
no partner. Texts that no path is written as are left out.
-/

namespace Hypertag

namespace Utf8

theorem toNat_ofNat {n : Nat} (h : n < 256) : (UInt8.ofNat n).toNat = n :=
  UInt8.toNat_ofNat_of_lt' h

theorem lt_of_valid {n : Nat} (h : n.isValidChar) : n < 0x110000 := by
  rcases h with low | high
  · omega
  · exact high.2

/-- A continuation byte carries six bits of its character. -/
theorem decodeFrom_next (more acc least : Nat) {x : Nat} (hx : x < 64) (bs : List UInt8) :
    decodeFrom (more + 2) acc least (UInt8.ofNat (x + 128) :: bs) =
      decodeFrom (more + 1) (acc * 64 + x) least bs := by
  rw [decodeFrom, toNat_ofNat (by omega), if_pos (by omega), if_neg (by omega),
    Nat.add_sub_cancel]

/-- The last continuation byte completes the character. -/
theorem decodeFrom_last {acc least x : Nat} {c : Char} (hx : x < 64)
    (number : acc * 64 + x = c.val.toNat) (long : least ≤ c.val.toNat) (bs : List UInt8) :
    decodeFrom 1 acc least (UInt8.ofNat (x + 128) :: bs) =
      (decodeFrom 0 0 0 bs).map (c :: ·) := by
  have whole : Char.ofNat c.val.toNat = c := Char.ofNat_toNat c
  rw [decodeFrom, toNat_ofNat (by omega), if_pos (by omega), if_pos rfl, Nat.add_sub_cancel,
    number, if_pos ⟨long, c.valid⟩, whole]

/-- A character is read back from its bytes, whatever follows. -/
theorem decodeFrom_encode (c : Char) (bs : List UInt8) :
    decodeFrom 0 0 0 (encode c ++ bs) = (decodeFrom 0 0 0 bs).map (c :: ·) := by
  have limit : c.val.toNat < 0x110000 := lt_of_valid c.valid
  unfold encode String.utf8EncodeChar
  by_cases one : c.val.toNat ≤ 0x7F
  · have whole : Char.ofNat c.val.toNat = c := Char.ofNat_toNat c
    rw [if_pos one, List.singleton_append, decodeFrom, toNat_ofNat (by omega), if_pos (by omega),
      whole]
  rw [if_neg one]
  by_cases two : c.val.toNat ≤ 0x7FF
  · rw [if_pos two, List.cons_append, List.singleton_append, decodeFrom, toNat_ofNat (by omega),
      if_neg (by omega), if_pos (by omega)]
    exact decodeFrom_last (by omega) (by omega) (by omega) bs
  rw [if_neg two]
  by_cases three : c.val.toNat ≤ 0xFFFF
  · rw [if_pos three, List.cons_append, List.cons_append, List.singleton_append, decodeFrom,
      toNat_ofNat (by omega), if_neg (by omega), if_neg (by omega), if_pos (by omega),
      decodeFrom_next _ _ _ (by omega)]
    exact decodeFrom_last (by omega) (by omega) (by omega) bs
  · rw [if_neg three, List.cons_append, List.cons_append, List.cons_append, List.singleton_append,
      decodeFrom, toNat_ofNat (by omega), if_neg (by omega), if_neg (by omega), if_neg (by omega),
      if_pos (by omega), decodeFrom_next _ _ _ (by omega), decodeFrom_next _ _ _ (by omega)]
    exact decodeFrom_last (by omega) (by omega) (by omega) bs

/-- Beyond ASCII, all bytes of a character are. -/
theorem high_of_mem_encode {c : Char} {b : UInt8} (beyond : 0x7F < c.val.toNat)
    (hb : b ∈ encode c) : 128 ≤ b.toNat := by
  have high : ∀ n, 128 ≤ n → n < 256 → 128 ≤ (UInt8.ofNat n).toNat := by
    intro n least limit
    rw [toNat_ofNat limit]
    exact least
  unfold encode String.utf8EncodeChar at hb
  generalize c.val.toNat = v at beyond hb
  dsimp only at hb
  rw [if_neg (by omega)] at hb
  split at hb
  · simp only [List.mem_cons, List.not_mem_nil, or_false] at hb
    rcases hb with rfl | rfl <;> exact high _ (by omega) (by omega)
  · split at hb
    · simp only [List.mem_cons, List.not_mem_nil, or_false] at hb
      rcases hb with rfl | rfl | rfl <;> exact high _ (by omega) (by omega)
    · simp only [List.mem_cons, List.not_mem_nil, or_false] at hb
      rcases hb with rfl | rfl | rfl | rfl <;> exact high _ (by omega) (by omega)

theorem decode?_encode (cs : List Char) : decode? (cs.flatMap encode) = some cs := by
  unfold decode?
  induction cs with
  | nil => rfl
  | cons c cs ih => rw [List.flatMap_cons, decodeFrom_encode, ih, Option.map_some]

end Utf8

namespace Text

def isSurrogate (u : UInt16) : Bool := isHighSurrogate u || isLowSurrogate u

theorem toNat_toUInt16 {n : Nat} (h : n < 0x10000) : n.toUInt16.toNat = n :=
  UInt16.toNat_ofNat_of_lt' h

theorem isHighSurrogate_iff (u : UInt16) :
    isHighSurrogate u = true ↔ 0xD800 ≤ u.toNat ∧ u.toNat ≤ 0xDBFF := by
  simp [isHighSurrogate, UInt16.le_iff_toNat_le]

theorem isLowSurrogate_iff (u : UInt16) :
    isLowSurrogate u = true ↔ 0xDC00 ≤ u.toNat ∧ u.toNat ≤ 0xDFFF := by
  simp [isLowSurrogate, UInt16.le_iff_toNat_le]

theorem isSurrogate_iff (u : UInt16) :
    isSurrogate u = true ↔ 0xD800 ≤ u.toNat ∧ u.toNat ≤ 0xDFFF := by
  rw [isSurrogate, Bool.or_eq_true, isHighSurrogate_iff, isLowSurrogate_iff]
  omega

theorem toNat_char {n : Nat} (h : n.isValidChar) : (Char.ofNat n).toNat = n := by
  rw [Char.ofNat, dif_pos h]
  rfl

/-- A unit that is no surrogate is a character of its own. -/
theorem chars_cons {u : UInt16} (h : isSurrogate u = false) (t : Text) :
    chars (u :: t) = Char.ofNat u.toNat :: chars t := by
  obtain ⟨high, low⟩ := Bool.or_eq_false_iff.mp h
  cases t with
  | nil => simp [chars, chars.single, high, low]
  | cons v rest => simp [chars, chars.single, high, low]

theorem ofChar_ofNat {u : UInt16} (h : isSurrogate u = false) :
    ofChar (Char.ofNat u.toNat) = [u] := by
  have limit : u.toNat < 0x10000 := UInt16.toNat_lt u
  have valid : u.toNat.isValidChar := by
    rw [← Bool.not_eq_true, isSurrogate_iff] at h
    unfold Nat.isValidChar
    omega
  rw [ofChar, toNat_char valid, if_pos limit, Nat.toUInt16_eq, UInt16.ofNat_toNat]

theorem chars_ofChar_append (c : Char) (t : Text) : (ofChar c ++ t).chars = c :: t.chars := by
  have valid : c.toNat.isValidChar := c.valid
  have whole : Char.ofNat c.toNat = c := Char.ofNat_toNat c
  unfold ofChar
  generalize c.toNat = v at valid whole ⊢
  split
  · next small =>
    have one : isSurrogate v.toUInt16 = false := by
      rw [← Bool.not_eq_true, isSurrogate_iff, toNat_toUInt16 small]
      unfold Nat.isValidChar at valid
      omega
    rw [List.singleton_append, chars_cons one, toNat_toUInt16 small, whole]
  · next large =>
    have limit := Utf8.lt_of_valid valid
    have high : isHighSurrogate (0xD800 + (v - 0x10000) / 0x400).toUInt16 = true := by
      rw [isHighSurrogate_iff, toNat_toUInt16 (by omega)]
      omega
    have low : isLowSurrogate (0xDC00 + (v - 0x10000) % 0x400).toUInt16 = true := by
      rw [isLowSurrogate_iff, toNat_toUInt16 (by omega)]
      omega
    have joined : 0x10000 + (0xD800 + (v - 0x10000) / 0x400 - 0xD800) * 0x400 +
        (0xDC00 + (v - 0x10000) % 0x400 - 0xDC00) = v := by omega
    rw [List.cons_append, List.singleton_append, chars, high, low, Bool.and_self, if_pos rfl,
      chars.pair, toNat_toUInt16 (by omega), toNat_toUInt16 (by omega), joined, whole]

theorem chars_ofChars (cs : List Char) : (ofChars cs).chars = cs := by
  induction cs with
  | nil => rfl
  | cons c cs ih => rw [ofChars, List.flatMap_cons, chars_ofChar_append, ← ofChars, ih]

/-- A text as it is read back: surrogates without a partner are replaced. -/
def mended (t : Text) : Text := ofChars t.chars

theorem mended_cons {u : UInt16} (h : isSurrogate u = false) (t : Text) :
    mended (u :: t) = u :: mended t := by
  rw [mended, chars_cons h, ofChars, List.flatMap_cons, ofChar_ofNat h]
  rfl

/-- A unit that is not half of a pair is read apart from what is before it. -/
theorem chars_append {u : UInt16} (h : isSurrogate u = false) (a t : Text) :
    chars (a ++ u :: t) = chars a ++ chars (u :: t) := by
  have low : isLowSurrogate u = false := (Bool.or_eq_false_iff.mp h).2
  fun_induction chars a with
  | case1 => rfl
  | case2 v =>
    rw [List.singleton_append, chars, low, Bool.and_false, if_neg Bool.false_ne_true]
    rfl
  | case3 v w rest paired ih =>
    rw [List.cons_append, List.cons_append, chars, if_pos paired, ih]
    rfl
  | case4 v w rest alone ih =>
    rw [List.cons_append, List.cons_append, chars, if_neg alone, ← List.cons_append, ih]
    rfl

theorem mended_append {u : UInt16} (h : isSurrogate u = false) (a t : Text) :
    mended (a ++ u :: t) = mended a ++ u :: mended t := by
  rw [← mended_cons h, mended, chars_append h, ofChars, List.flatMap_append]
  rfl

/-- A surrogate is read as, or as part of, a character beyond all surrogates. -/
theorem chars_of_surrogate {u : UInt16} (h : isSurrogate u = true) (t : Text) :
    ∃ c cs, chars (u :: t) = c :: cs ∧ 0xD800 ≤ c.toNat := by
  have alone : 0xD800 ≤ (chars.single u).toNat := by
    rw [chars.single, ← isSurrogate, if_pos h]
    decide
  cases t with
  | nil => exact ⟨_, _, rfl, alone⟩
  | cons v rest =>
    rw [chars]
    split
    · next paired =>
      rw [Bool.and_eq_true, isHighSurrogate_iff, isLowSurrogate_iff] at paired
      refine ⟨_, _, rfl, ?_⟩
      have valid : (0x10000 + (u.toNat - 0xD800) * 0x400 + (v.toNat - 0xDC00)).isValidChar := by
        unfold Nat.isValidChar
        omega
      rw [chars.pair, toNat_char valid]
      omega
    · exact ⟨_, _, rfl, alone⟩

theorem ofChar_head {c : Char} (h : 0xD800 ≤ c.toNat) :
    ∃ u rest, ofChar c = u :: rest ∧ 0xD800 ≤ u.toNat := by
  have limit : c.toNat < 0x110000 := Utf8.lt_of_valid c.valid
  unfold ofChar
  split
  · exact ⟨_, _, rfl, by rw [toNat_toUInt16 (by omega)]; exact h⟩
  · exact ⟨_, _, rfl, by rw [toNat_toUInt16 (by omega)]; omega⟩

/-- Below the surrogates nothing is replaced. -/
theorem mended_eq_cons {t rest : Text} {d : UInt16} (small : d.toNat < 0xD800)
    (h : mended t = d :: rest) : ∃ tail, t = d :: tail ∧ mended tail = rest := by
  cases t with
  | nil => cases h
  | cons u tail =>
    cases half : isSurrogate u with
    | false =>
      rw [mended_cons half] at h
      cases h
      exact ⟨tail, rfl, rfl⟩
    | true =>
      obtain ⟨c, cs, read, beyond⟩ := chars_of_surrogate half tail
      obtain ⟨u, units, written, large⟩ := ofChar_head beyond
      rw [mended, read, ofChars, List.flatMap_cons, written] at h
      cases h
      omega

end Text

namespace Percent

theorem hexDigit_read {n : Nat} (h : n < 16) :
    isAlphanumeric (hexDigit n) = true ∧ hexValue? (hexDigit n) = some n := by
  have all : ∀ n < 16, isAlphanumeric (hexDigit n) = true ∧ hexValue? (hexDigit n) = some n := by
    decide
  exact all n h

def isWritten (u : UInt16) : Bool :=
  isAlphanumeric u || u ∈ [0x2D, 0x2E, 0x5F, 0x7E, 0x2F, mark]

theorem isWritten_of_plain {b : UInt8} (h : isPlain b = true) :
    isWritten b.toNat.toUInt16 = true ∧ b.toNat.toUInt16 ≠ mark := by
  simp only [isPlain, Bool.or_eq_true, decide_eq_true_eq] at h
  rcases h with ((((alphanumeric | rfl) | rfl) | rfl) | rfl) | rfl
  · refine ⟨by rw [isWritten, alphanumeric, Bool.true_or], ?_⟩
    intro marked
    rw [marked] at alphanumeric
    exact absurd alphanumeric (by decide)
  · decide
  · decide
  · decide
  · decide
  · decide

namespace Piece

def ofByte (b : UInt8) : Piece :=
  if isPlain b then .plain b.toNat.toUInt16
  else .escape (hexDigit (b.toNat / 16)) (hexDigit (b.toNat % 16))

theorem ofByte_of_plain {b : UInt8} (h : isPlain b = true) :
    ofByte b = .plain b.toNat.toUInt16 := if_pos h

theorem isEscape_ofByte (b : UInt8) : (ofByte b).isEscape = !isPlain b := by
  unfold ofByte
  split
  · next plain => rw [plain]; rfl
  · next escaped => rw [Bool.eq_false_iff.mpr escaped]; rfl

theorem byte?_ofByte {b : UInt8} (h : isPlain b = false) : (ofByte b).byte? = some b := by
  have limit := UInt8.toNat_lt b
  have high := (hexDigit_read (show b.toNat / 16 < 16 by omega)).2
  have low := (hexDigit_read (Nat.mod_lt b.toNat (by decide : 16 > 0))).2
  have whole : 16 * (b.toNat / 16) + b.toNat % 16 = b.toNat := Nat.div_add_mod _ _
  rw [ofByte, h, if_neg Bool.false_ne_true, byte?, high, low]
  change some (16 * (b.toNat / 16) + b.toNat % 16).toUInt8 = some b
  rw [whole, Nat.toUInt8, UInt8.ofNat_toNat]

theorem cutFrom_plain {u : UInt16} (h : u ≠ mark) (t : Text) :
    cutFrom 0 (u :: t) = .plain u :: cutFrom 0 t := by
  cases t with
  | nil => rfl
  | cons high t =>
    cases t with
    | nil => rfl
    | cons low rest => simp [cutFrom, h]

theorem cut_encodeByte (b : UInt8) (t : Text) : cut (encodeByte b ++ t) = ofByte b :: cut t := by
  unfold cut encodeByte ofByte
  split
  · next plain =>
    exact cutFrom_plain (isWritten_of_plain plain).2 t
  · have limit := UInt8.toNat_lt b
    have high := (hexDigit_read (show b.toNat / 16 < 16 by omega)).1
    have low := (hexDigit_read (Nat.mod_lt b.toNat (by decide : 16 > 0))).1
    simp [cutFrom, high, low]

theorem cut_encode (bytes : List UInt8) :
    cut (bytes.flatMap encodeByte) = bytes.map ofByte := by
  induction bytes with
  | nil => rfl
  | cons b bytes ih => rw [List.flatMap_cons, cut_encodeByte, ih, List.map_cons]

theorem mapM_byte? {bytes : List UInt8} (h : ∀ b ∈ bytes, isPlain b = false) :
    (bytes.map ofByte).mapM byte? = some bytes := by
  induction bytes with
  | nil => rfl
  | cons b bytes ih =>
    have first := byte?_ofByte (h b List.mem_cons_self)
    have rest := ih fun other ho => h other (List.mem_cons_of_mem b ho)
    simp [first, rest]

end Piece

theorem decodePieces_drop (skip : Nat) (pieces : List Piece) :
    decodePieces skip pieces = decodePieces 0 (pieces.drop skip) := by
  induction pieces generalizing skip with
  | nil => cases skip <;> rfl
  | cons piece rest ih =>
    cases skip with
    | zero => rfl
    | succ skip => exact ih skip

/-- A run of escapes that decodes as a whole is decoded at once, up to the next plain unit. -/
theorem decodePieces_run {run rest : List Piece} {t : Text}
    (escapes : ∀ piece ∈ run, piece.isEscape = true) (decoded : decodeRun? run = some t)
    (ends : rest.takeWhile Piece.isEscape = []) :
    decodePieces 0 (run ++ rest) = t ++ decodePieces 0 rest := by
  cases run with
  | nil =>
    cases decoded
    rfl
  | cons piece more =>
    have whole : (more ++ rest).takeWhile Piece.isEscape = more := by
      rw [List.takeWhile_append_of_pos fun p hp => escapes p (List.mem_cons_of_mem piece hp),
        ends, List.append_nil]
    rw [List.cons_append, decodePieces, if_pos (escapes piece List.mem_cons_self)]
    simp only [whole, decoded]
    rw [decodePieces_drop, List.drop_left]

theorem isPlain_of_high {b : UInt8} (h : 128 ≤ b.toNat) : isPlain b = false := by
  rw [← Bool.not_eq_true]
  intro plain
  have written := (isWritten_of_plain plain).1
  have limit := UInt8.toNat_lt b
  generalize eq : b.toNat.toUInt16 = u at written
  have same : u.toNat = b.toNat := by rw [← eq, Text.toNat_toUInt16 (by omega)]
  simp [isWritten, isAlphanumeric, isDigit, isLetter, isUpper, isLower, mark,
    UInt16.le_iff_toNat_le, ← UInt16.toNat_inj] at written
  omega

/-- Whether each byte of a character is written as an escape. -/
def Escaped (c : Char) : Prop := ∀ b ∈ Utf8.encode c, isPlain b = false

/-- A character is one plain byte, or all its bytes are escaped. -/
theorem plain_or_escaped (c : Char) :
    (∃ b, Utf8.encode c = [b] ∧ isPlain b = true ∧ Text.ofChar c = [b.toNat.toUInt16]) ∨
      Escaped c := by
  by_cases ascii : c.val.toNat ≤ 0x7F
  · have one : Utf8.encode c = [UInt8.ofNat c.val.toNat] := if_pos ascii
    have byte : (UInt8.ofNat c.val.toNat).toNat = c.toNat := Utf8.toNat_ofNat (by omega)
    cases plain : isPlain (UInt8.ofNat c.val.toNat) with
    | true =>
      have unit : Text.ofChar c = [c.toNat.toUInt16] := if_pos (show c.val.toNat < 0x10000 by omega)
      exact Or.inl ⟨_, one, plain, by rw [unit, byte]⟩
    | false =>
      right
      intro b hb
      rw [one] at hb
      exact List.mem_singleton.mp hb ▸ plain
  · right
    intro b hb
    exact isPlain_of_high (Utf8.high_of_mem_encode (by omega) hb)

def piecesOf (cs : List Char) : List Piece := (cs.flatMap Utf8.encode).map Piece.ofByte

theorem decodePieces_escaped {run : List Char} (h : ∀ c ∈ run, Escaped c) (rest : List Piece)
    (ends : rest.takeWhile Piece.isEscape = []) :
    decodePieces 0 (piecesOf run ++ rest) = Text.ofChars run ++ decodePieces 0 rest := by
  have escaped : ∀ b ∈ run.flatMap Utf8.encode, isPlain b = false := by
    intro b hb
    obtain ⟨c, hc, inside⟩ := List.mem_flatMap.mp hb
    exact h c hc b inside
  apply decodePieces_run _ _ ends
  · intro piece hp
    obtain ⟨b, hb, rfl⟩ := List.mem_map.mp hp
    rw [Piece.isEscape_ofByte, escaped b hb]
    rfl
  · rw [decodeRun?, piecesOf, Piece.mapM_byte? escaped, Option.bind_some, Utf8.decode?_encode]
    rfl

/-- Characters are read back from their pieces. The induction keeps the escaped characters that it
has passed, because a run of escapes is decoded as a whole. -/
theorem decodePieces_piecesOf (run cs : List Char) (h : ∀ c ∈ run, Escaped c) :
    decodePieces 0 (piecesOf (run ++ cs)) = Text.ofChars (run ++ cs) := by
  induction cs generalizing run with
  | nil =>
    have whole := decodePieces_escaped h [] rfl
    simpa [decodePieces] using whole
  | cons c cs ih =>
    rcases plain_or_escaped c with ⟨b, one, plain, unit⟩ | escaped
    · have written : piecesOf (run ++ c :: cs) =
          piecesOf run ++ .plain b.toNat.toUInt16 :: piecesOf cs := by
        simp [piecesOf, one, Piece.ofByte_of_plain plain]
      have rest : decodePieces 0 (piecesOf cs) = Text.ofChars cs := ih [] (by simp)
      rw [written, decodePieces_escaped h _ rfl]
      simp [decodePieces, Piece.isEscape, Piece.written, rest, Text.ofChars, unit]
    · have next := ih (run ++ [c]) fun d hd => by
        rcases List.mem_append.mp hd with old | new
        · exact h d old
        · exact List.mem_singleton.mp new ▸ escaped
      simpa using next

theorem decode_encodePath (t : Text) : decode (encodePath t) = t.mended := by
  have cut : Piece.cut (encodePath t) = piecesOf t.chars := by
    rw [encodePath, ← List.flatMap_assoc, Piece.cut_encode, piecesOf]
  rw [decode, cut]
  exact decodePieces_piecesOf [] t.chars (by simp)

theorem isWritten_of_mem_encodeByte {b : UInt8} {u : UInt16} (h : u ∈ encodeByte b) :
    isWritten u = true := by
  unfold encodeByte at h
  split at h
  · next plain => exact List.mem_singleton.mp h ▸ (isWritten_of_plain plain).1
  · have limit := UInt8.toNat_lt b
    have digit : ∀ n < 16, isWritten (hexDigit n) = true := fun n hn => by
      rw [isWritten, (hexDigit_read hn).1, Bool.true_or]
    simp only [List.mem_cons, List.not_mem_nil, or_false] at h
    rcases h with rfl | rfl | rfl
    · decide
    · exact digit _ (by omega)
    · exact digit _ (by omega)

theorem isWritten_of_mem_encodePath {t : Text} {u : UInt16} (h : u ∈ encodePath t) :
    isWritten u = true := by
  obtain ⟨c, _, inside⟩ := List.mem_flatMap.mp h
  obtain ⟨b, _, hu⟩ := List.mem_flatMap.mp inside
  exact isWritten_of_mem_encodeByte hu

end Percent

end Hypertag
