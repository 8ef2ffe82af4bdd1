import Zupt.Bounded
import Zupt.Paths

/-! # Text for a terminal

    The decoder of one UTF-8 scalar, the printer that escapes what a terminal would act on,
    and the check of a path for such text.  A string ends with a NUL, and reading behind it
    is a fault. -/

namespace Zupt.Terminal

open Paths

/-- The memory of a string: its bytes, and the NUL behind them. -/
def memory (s : CString) : Bytes := s.bytes ++ [0]

/-! ## The code -/

/-- `zupt_decode_utf8_scalar`: the code point and the length; `none` is a length of 0. -/
def zuptDecodeUtf8Scalar (text : Bytes) : Checked (Option (UInt32 × Nat)) := do
  let a ← cellAt text 0
  if a < 0x80 then return some (a.toUInt32, 1)
  else
    let b ← cellAt text 1
    if b = 0 then return none
    else if a ≥ 0xC2 ∧ a ≤ 0xDF ∧ b &&& 0xC0 = 0x80 then
      return some (((a &&& 0x1F).toUInt32 <<< 6) ||| (b &&& 0x3F).toUInt32, 2)
    else
      let c ← cellAt text 2
      if c = 0 then return none
      else if c &&& 0xC0 ≠ 0x80 then return none
      else if (a = 0xE0 ∧ b ≥ 0xA0 ∧ b ≤ 0xBF) ∨
          ((a ≥ 0xE1 ∧ a ≤ 0xEC) ∧ b &&& 0xC0 = 0x80) ∨
          (a = 0xED ∧ b ≥ 0x80 ∧ b ≤ 0x9F) ∨
          ((a ≥ 0xEE ∧ a ≤ 0xEF) ∧ b &&& 0xC0 = 0x80) then
        return some (((a &&& 0x0F).toUInt32 <<< 12) ||| ((b &&& 0x3F).toUInt32 <<< 6)
          ||| (c &&& 0x3F).toUInt32, 3)
      else
        let d ← cellAt text 3
        if d = 0 then return none
        else if d &&& 0xC0 ≠ 0x80 then return none
        else if ¬((a = 0xF0 ∧ b ≥ 0x90 ∧ b ≤ 0xBF) ∨
            ((a ≥ 0xF1 ∧ a ≤ 0xF3) ∧ b &&& 0xC0 = 0x80) ∨
            (a = 0xF4 ∧ b ≥ 0x80 ∧ b ≤ 0x8F)) then return none
        else
          return some (((a &&& 0x07).toUInt32 <<< 18) ||| ((b &&& 0x3F).toUInt32 <<< 12)
            ||| ((c &&& 0x3F).toUInt32 <<< 6) ||| (d &&& 0x3F).toUInt32, 4)

/-- A digit of `%X`. -/
def hexDigit (n : Nat) : UInt8 := UInt8.ofNat (if n < 10 then 0x30 + n else 0x41 + (n - 10))

/-- `fprintf(stream, "\\x%02X", b)`. -/
def escape (b : UInt8) : Bytes := [0x5C, 0x78, hexDigit (b.toNat / 16), hexDigit (b.toNat % 16)]

/-- A turn of the loop of `zupt_print_terminal_safe_text`: what is behind the cursor, and
    what the stream has got. -/
def printTurn (s : Bytes × Bytes) : Checked (Turn (Bytes × Bytes) Bytes) := do
  let (cursor, out) := s
  let a ← cellAt cursor 0
  if a ≠ 0 then
    match ← zuptDecodeUtf8Scalar cursor with
    | none => return .next (cursor.drop 1, out ++ escape a)
    | some (codepoint, length) =>
        let bytes ← cellsAt cursor 0 length
        if codepointIsDisplayControl codepoint then
          return .next (cursor.drop length, out ++ bytes.flatMap escape)
        else return .next (cursor.drop length, out ++ bytes)
  else return .done out

/-- `zupt_print_terminal_safe_text`: what it writes to the stream. -/
def zuptPrintTerminalSafeText (text : Bytes) : Checked Bytes := loop printTurn text.length (text, [])

/-- A turn of the loop of `zupt_path_has_unsafe_text`. -/
def unsafeTurn (cursor : Bytes) : Checked (Turn Bytes Bool) := do
  let a ← cellAt cursor 0
  if a ≠ 0 then
    match ← zuptDecodeUtf8Scalar cursor with
    | none => return .done true
    | some (codepoint, length) =>
        if codepointIsDisplayControl codepoint then return .done true else return .next (cursor.drop length)
  else return .done false

/-- `zupt_path_has_unsafe_text`; `none` is a null pointer. -/
def zuptPathHasUnsafeText : Option Bytes → Checked Bool
  | none => .ok true
  | some text => loop unsafeTurn text.length text

/-! ## Reading -/

theorem memory_getD (s : CString) (i : Nat) : (memory s).getD i 0 = charAt s.bytes i := by
  rw [memory, charAt]
  by_cases hi : i < s.bytes.length
  · rw [List.getD_append _ _ _ _ hi]
  · rw [List.getD_append_right _ _ _ _ (Nat.le_of_not_lt hi), List.getD_eq_default _ _ (Nat.le_of_not_lt hi)]
    cases i - s.bytes.length with
    | zero => rfl
    | succ i => rfl

theorem cellAt_memory {s : CString} {i : Nat} (hi : i ≤ s.bytes.length) :
    cellAt (memory s) i = .ok (charAt s.bytes i) := by
  rw [← memory_getD]
  refine cellAt_getD 0 ?_
  rw [memory, List.length_append, List.length_singleton]
  exact Nat.lt_succ_of_le hi

/-- Behind a byte that is not the NUL there is another one. -/
theorem char_next {l : Bytes} {i : Nat} (h : charAt l i ≠ 0) : i + 1 ≤ l.length := by
  by_contra hle
  exact h (List.getD_eq_default _ _ (by omega))

/-- **THE DECODER** reads no further than the NUL. -/
theorem decode_eq (s : CString) : zuptDecodeUtf8Scalar (memory s) = .ok (decodeUtf8Scalar s.bytes) := by
  rw [zuptDecodeUtf8Scalar, decodeUtf8Scalar, cellAt_memory (Nat.zero_le _), ok_bind]
  generalize ha : charAt s.bytes 0 = a
  by_cases hascii : a < 0x80
  · rw [if_pos hascii, if_pos hascii]
    rfl
  have hone : 1 ≤ s.bytes.length := char_next fun hnul => hascii (by rw [← ha, hnul]; decide)
  rw [if_neg hascii, if_neg hascii, cellAt_memory hone, ok_bind]
  generalize hb : charAt s.bytes 1 = b
  by_cases hb0 : b = 0
  · rw [if_pos hb0, if_pos hb0]
    rfl
  rw [if_neg hb0, if_neg hb0]
  by_cases htwo : a ≥ 0xC2 ∧ a ≤ 0xDF ∧ b &&& 0xC0 = 0x80
  · rw [if_pos htwo, if_pos htwo]
    rfl
  rw [if_neg htwo, if_neg htwo, cellAt_memory (char_next (hb ▸ hb0)), ok_bind]
  generalize hc : charAt s.bytes 2 = c
  by_cases hc0 : c = 0
  · rw [if_pos hc0, if_pos hc0]
    rfl
  rw [if_neg hc0, if_neg hc0]
  by_cases htail : c &&& 0xC0 ≠ 0x80
  · rw [if_pos htail, if_pos htail]
    rfl
  rw [if_neg htail, if_neg htail]
  by_cases hthree : (a = 0xE0 ∧ b ≥ 0xA0 ∧ b ≤ 0xBF) ∨ ((a ≥ 0xE1 ∧ a ≤ 0xEC) ∧ b &&& 0xC0 = 0x80) ∨
      (a = 0xED ∧ b ≥ 0x80 ∧ b ≤ 0x9F) ∨ ((a ≥ 0xEE ∧ a ≤ 0xEF) ∧ b &&& 0xC0 = 0x80)
  · rw [if_pos hthree, if_pos hthree]
    rfl
  rw [if_neg hthree, if_neg hthree, cellAt_memory (char_next (hc ▸ hc0)), ok_bind]
  generalize charAt s.bytes 3 = d
  by_cases hd0 : d = 0
  · rw [if_pos hd0, if_pos hd0]
    rfl
  rw [if_neg hd0, if_neg hd0]
  by_cases htail' : d &&& 0xC0 ≠ 0x80
  · rw [if_pos htail', if_pos htail']
    rfl
  rw [if_neg htail', if_neg htail']
  by_cases hfour : ¬((a = 0xF0 ∧ b ≥ 0x90 ∧ b ≤ 0xBF) ∨ ((a ≥ 0xF1 ∧ a ≤ 0xF3) ∧ b &&& 0xC0 = 0x80) ∨
      (a = 0xF4 ∧ b ≥ 0x80 ∧ b ≤ 0x8F))
  · rw [if_pos hfour, if_pos hfour]
    rfl
  · rw [if_neg hfour, if_neg hfour]
    rfl

/-! ## One scalar -/

/-- A byte behind a lead byte. -/
def Tail (b : Nat) : Prop := 0x80 ≤ b ∧ b ≤ 0xBF

/-- The bytes of the shortest encoding of `v`, as numbers: its length, and its bytes. -/
def EncodedAs (v len a b c d : Nat) : Prop :=
  (len = 1 ∧ a < 0x80 ∧ v = a) ∨
    (len = 2 ∧ (0xC0 ≤ a ∧ a < 0xE0) ∧ Tail b ∧ 0x80 ≤ v ∧ v + 0x3080 = a * 64 + b) ∨
    (len = 3 ∧ (0xE0 ≤ a ∧ a < 0xF0) ∧ (Tail b ∧ Tail c) ∧ 0x800 ≤ v ∧
      v + 0xE2080 = a * 4096 + b * 64 + c) ∨
    (len = 4 ∧ (0xF0 ≤ a ∧ a < 0xF8) ∧ (Tail b ∧ Tail c ∧ Tail d) ∧ 0x10000 ≤ v ∧
      v + 0x3C82080 = a * 262144 + b * 4096 + c * 64 + d)

/-- A Unicode scalar value: no surrogate, and at most U+10FFFF. -/
def IsScalar (v : Nat) : Prop := v < 0xD800 ∨ (0xDFFF < v ∧ v < 0x110000)

theorem isTail_iff (b : UInt8) : b &&& 0xC0 = 0x80 ↔ Tail b.toNat := by
  rw [← UInt8.toNat_inj, UInt8.toNat_and]
  have hall : ∀ b < 256, (b &&& 0xC0 = 0x80) ↔ 0x80 ≤ b ∧ b ≤ 0xBF := by decide +kernel
  exact hall b.toNat b.toNat_lt

/-- Two groups of bits. -/
theorem join_bits {x y k : Nat} (hy : y < 2 ^ k) : x <<< k ||| y = x * 2 ^ k + y := by
  rw [Nat.or_comm, BitStream.or_shiftLeft hy, Nat.add_comm, Nat.mul_comm]

/-- A field of a byte, shifted into its place. -/
theorem field_shift {x : UInt8} {k n : Nat} (hk : k < 32) (hx : x.toNat < n) (hroom : n * 2 ^ k ≤ 2 ^ 32) :
    (x.toUInt32 <<< UInt32.ofNat k).toNat = x.toNat <<< k := by
  have hk' : (UInt32.ofNat k).toNat % 32 = k := by
    rw [UInt32.toNat_ofNat']
    omega
  rw [UInt32.toNat_shiftLeft, hk', UInt8.toNat_toUInt32, Nat.shiftLeft_eq]
  exact Nat.mod_eq_of_lt (lt_of_lt_of_le (Nat.mul_lt_mul_of_pos_right hx (Nat.two_pow_pos k)) hroom)

/-- The bits of a byte behind a lead byte. -/
theorem Tail.bits {b : UInt8} (h : Tail b.toNat) :
    ∃ y, (b &&& 0x3F).toNat = y ∧ b.toNat = y + 0x80 ∧ y < 2 ^ 6 := by
  have hmask : (b &&& 0x3F).toNat = b.toNat % 64 := Nat.and_two_pow_sub_one_eq_mod b.toNat 6
  obtain ⟨hlow, hhigh⟩ := h
  exact ⟨b.toNat % 64, hmask, by omega, by omega⟩

/-- The bits of two bytes. -/
theorem twoBytes_eq {a b : UInt8} (ha : 0xC0 ≤ a.toNat ∧ a.toNat < 0xE0) (hb : Tail b.toNat) :
    (((a &&& 0x1F).toUInt32 <<< 6) ||| (b &&& 0x3F).toUInt32).toNat + 0x3080 = a.toNat * 64 + b.toNat := by
  have hmask : (a &&& 0x1F).toNat = a.toNat % 32 := Nat.and_two_pow_sub_one_eq_mod a.toNat 5
  obtain ⟨y, hy, hb', hlt⟩ := hb.bits
  have hlead : ((a &&& 0x1F).toUInt32 <<< 6).toNat = (a &&& 0x1F).toNat <<< 6 :=
    field_shift (n := 32) (by decide) (by omega) (by decide)
  rw [UInt32.toNat_or, hlead, hmask, UInt8.toNat_toUInt32, hy, join_bits hlt, hb']
  omega

/-- The bits of three bytes. -/
theorem threeBytes_eq {a b c : UInt8} (ha : 0xE0 ≤ a.toNat ∧ a.toNat < 0xF0) (hb : Tail b.toNat)
    (hc : Tail c.toNat) :
    (((a &&& 0x0F).toUInt32 <<< 12) ||| ((b &&& 0x3F).toUInt32 <<< 6) ||| (c &&& 0x3F).toUInt32).toNat +
      0xE2080 = a.toNat * 4096 + b.toNat * 64 + c.toNat := by
  have hmask : (a &&& 0x0F).toNat = a.toNat % 16 := Nat.and_two_pow_sub_one_eq_mod a.toNat 4
  obtain ⟨y, hy, hb', hlt⟩ := hb.bits
  obtain ⟨z, hz, hc', hlt'⟩ := hc.bits
  have hlead : ((a &&& 0x0F).toUInt32 <<< 12).toNat = (a &&& 0x0F).toNat <<< 12 :=
    field_shift (n := 16) (by decide) (by omega) (by decide)
  have hsecond : ((b &&& 0x3F).toUInt32 <<< 6).toNat = (b &&& 0x3F).toNat <<< 6 :=
    field_shift (n := 64) (by decide) (by omega) (by decide)
  rw [UInt32.toNat_or, UInt32.toNat_or, hlead, hsecond, hmask, UInt8.toNat_toUInt32, hy, hz, Nat.or_assoc,
    join_bits hlt', join_bits (k := 12) (show y * 2 ^ 6 + z < 2 ^ 12 by omega), hb', hc']
  omega

/-- The bits of four bytes. -/
theorem fourBytes_eq {a b c d : UInt8} (ha : 0xF0 ≤ a.toNat ∧ a.toNat < 0xF8) (hb : Tail b.toNat)
    (hc : Tail c.toNat) (hd : Tail d.toNat) :
    (((a &&& 0x07).toUInt32 <<< 18) ||| ((b &&& 0x3F).toUInt32 <<< 12) ||| ((c &&& 0x3F).toUInt32 <<< 6) |||
      (d &&& 0x3F).toUInt32).toNat + 0x3C82080 =
        a.toNat * 262144 + b.toNat * 4096 + c.toNat * 64 + d.toNat := by
  have hmask : (a &&& 0x07).toNat = a.toNat % 8 := Nat.and_two_pow_sub_one_eq_mod a.toNat 3
  obtain ⟨y, hy, hb', hlt⟩ := hb.bits
  obtain ⟨z, hz, hc', hlt'⟩ := hc.bits
  obtain ⟨t, ht, hd', hlt''⟩ := hd.bits
  have hlead : ((a &&& 0x07).toUInt32 <<< 18).toNat = (a &&& 0x07).toNat <<< 18 :=
    field_shift (n := 8) (by decide) (by omega) (by decide)
  have hsecond : ((b &&& 0x3F).toUInt32 <<< 12).toNat = (b &&& 0x3F).toNat <<< 12 :=
    field_shift (n := 64) (by decide) (by omega) (by decide)
  have hthird : ((c &&& 0x3F).toUInt32 <<< 6).toNat = (c &&& 0x3F).toNat <<< 6 :=
    field_shift (n := 64) (by decide) (by omega) (by decide)
  rw [UInt32.toNat_or, UInt32.toNat_or, UInt32.toNat_or, hlead, hsecond, hthird, hmask,
    UInt8.toNat_toUInt32, hy, hz, ht, Nat.or_assoc, Nat.or_assoc, join_bits hlt'',
    join_bits (k := 12) (show z * 2 ^ 6 + t < 2 ^ 12 by omega),
    join_bits (k := 18) (show y * 2 ^ 12 + (z * 2 ^ 6 + t) < 2 ^ 18 by omega), hb', hc', hd']
  omega

/-- The second byte behind a lead byte of three. -/
theorem leadThree_iff (a b : UInt8) :
    ((a = 0xE0 ∧ b ≥ 0xA0 ∧ b ≤ 0xBF) ∨ ((a ≥ 0xE1 ∧ a ≤ 0xEC) ∧ b &&& 0xC0 = 0x80) ∨
      (a = 0xED ∧ b ≥ 0x80 ∧ b ≤ 0x9F) ∨ ((a ≥ 0xEE ∧ a ≤ 0xEF) ∧ b &&& 0xC0 = 0x80)) ↔
    (0xE0 ≤ a.toNat ∧ a.toNat < 0xF0) ∧ Tail b.toNat ∧ (a.toNat = 0xE0 → 0xA0 ≤ b.toNat) ∧
      (a.toNat = 0xED → b.toNat < 0xA0) := by
  simp only [isTail_iff]
  simp only [← UInt8.toNat_inj, ge_iff_le, UInt8.le_iff_toNat_le, UInt8.reduceToNat, Tail]
  omega

/-- The second byte behind a lead byte of four. -/
theorem leadFour_iff (a b : UInt8) :
    ((a = 0xF0 ∧ b ≥ 0x90 ∧ b ≤ 0xBF) ∨ ((a ≥ 0xF1 ∧ a ≤ 0xF3) ∧ b &&& 0xC0 = 0x80) ∨
      (a = 0xF4 ∧ b ≥ 0x80 ∧ b ≤ 0x8F)) ↔
    (0xF0 ≤ a.toNat ∧ a.toNat < 0xF5) ∧ Tail b.toNat ∧ (a.toNat = 0xF0 → 0x90 ≤ b.toNat) ∧
      (a.toNat = 0xF4 → b.toNat < 0x90) := by
  simp only [isTail_iff]
  simp only [← UInt8.toNat_inj, ge_iff_le, UInt8.le_iff_toNat_le, UInt8.reduceToNat, Tail]
  omega

/-- The lead byte of two. -/
theorem leadTwo_iff (a b : UInt8) : (a ≥ 0xC2 ∧ a ≤ 0xDF ∧ b &&& 0xC0 = 0x80) ↔
    (0xC2 ≤ a.toNat ∧ a.toNat < 0xE0) ∧ Tail b.toNat := by
  simp only [isTail_iff, ge_iff_le, UInt8.le_iff_toNat_le, UInt8.reduceToNat, Tail]
  omega

/-- **THE WELL-FORMEDNESS TABLE**: the decoder accepts the encodings of scalars and nothing
    else. -/
theorem decodeUtf8Scalar_iff (text : Bytes) (v : UInt32) (len : Nat) :
    decodeUtf8Scalar text = some (v, len) ↔ IsScalar v.toNat ∧
      EncodedAs v.toNat len (byteAt text 0) (byteAt text 1) (byteAt text 2) (byteAt text 3) := by
  have hchar (i : Nat) : byteAt text i = (charAt text i).toNat := rfl
  have hnul (x : UInt8) : x = 0 ↔ x.toNat = 0 := UInt8.toNat_inj.symm
  rw [decodeUtf8Scalar, hchar, hchar, hchar, hchar, IsScalar, EncodedAs]
  generalize charAt text 0 = a
  generalize charAt text 1 = b
  generalize charAt text 2 = c
  generalize charAt text 3 = d
  -- one case for each exit of the decoder
  by_cases hascii : a < 0x80
  · have hascii' : a.toNat < 128 := UInt8.lt_iff_toNat_lt.mp hascii
    rw [if_pos hascii, Option.some.injEq, Prod.mk.injEq, ← UInt32.toNat_inj, UInt8.toNat_toUInt32]
    constructor
    · rintro ⟨hv, rfl⟩
      exact ⟨by omega, Or.inl (by omega)⟩
    · rintro ⟨hscalar, h | h | h | h⟩ <;> omega
  have hascii' : ¬a.toNat < 128 := fun h => hascii (UInt8.lt_iff_toNat_lt.mpr h)
  rw [if_neg hascii]
  by_cases hb0 : b = 0
  · rw [if_pos hb0]
    rw [hnul] at hb0
    simp only [reduceCtorEq, false_iff, Tail]
    rintro ⟨hscalar, h | h | h | h⟩ <;> omega
  rw [if_neg hb0]
  by_cases htwo : a ≥ 0xC2 ∧ a ≤ 0xDF ∧ b &&& 0xC0 = 0x80
  · rw [if_pos htwo, Option.some.injEq, Prod.mk.injEq, ← UInt32.toNat_inj]
    obtain ⟨ha, hb⟩ := (leadTwo_iff a b).mp htwo
    have hvalue := twoBytes_eq (a := a) ⟨by omega, ha.2⟩ hb
    generalize (((a &&& 0x1F).toUInt32 <<< 6) ||| (b &&& 0x3F).toUInt32).toNat = x at hvalue ⊢
    simp only [Tail] at hb ⊢
    constructor
    · rintro ⟨hv, rfl⟩
      exact ⟨by omega, Or.inr (Or.inl (by omega))⟩
    · rintro ⟨hscalar, h | h | h | h⟩ <;> omega
  rw [if_neg htwo]
  rw [leadTwo_iff] at htwo
  by_cases hc0 : c = 0
  · rw [if_pos hc0]
    rw [hnul] at hc0
    simp only [reduceCtorEq, false_iff, Tail] at htwo ⊢
    rintro ⟨hscalar, h | h | h | h⟩ <;> omega
  rw [if_neg hc0]
  by_cases htail : c &&& 0xC0 ≠ 0x80
  · rw [if_pos htail]
    rw [ne_eq, isTail_iff] at htail
    simp only [reduceCtorEq, false_iff, Tail] at htwo htail ⊢
    rintro ⟨hscalar, h | h | h | h⟩ <;> omega
  rw [if_neg htail]
  rw [not_not, isTail_iff] at htail
  by_cases hthree : (a = 0xE0 ∧ b ≥ 0xA0 ∧ b ≤ 0xBF) ∨ ((a ≥ 0xE1 ∧ a ≤ 0xEC) ∧ b &&& 0xC0 = 0x80) ∨
      (a = 0xED ∧ b ≥ 0x80 ∧ b ≤ 0x9F) ∨ ((a ≥ 0xEE ∧ a ≤ 0xEF) ∧ b &&& 0xC0 = 0x80)
  · rw [if_pos hthree, Option.some.injEq, Prod.mk.injEq, ← UInt32.toNat_inj]
    obtain ⟨ha, hb, hlow, hhigh⟩ := (leadThree_iff a b).mp hthree
    have hvalue := threeBytes_eq (a := a) ha hb htail
    generalize (((a &&& 0x0F).toUInt32 <<< 12) ||| ((b &&& 0x3F).toUInt32 <<< 6) |||
      (c &&& 0x3F).toUInt32).toNat = x at hvalue ⊢
    simp only [Tail] at hb htail ⊢
    constructor
    · rintro ⟨hv, rfl⟩
      exact ⟨by omega, Or.inr (Or.inr (Or.inl (by omega)))⟩
    · rintro ⟨hscalar, h | h | h | h⟩ <;> omega
  rw [if_neg hthree]
  rw [leadThree_iff] at hthree
  by_cases hd0 : d = 0
  · rw [if_pos hd0]
    rw [hnul] at hd0
    simp only [reduceCtorEq, false_iff, Tail] at htwo hthree htail ⊢
    rintro ⟨hscalar, h | h | h | h⟩ <;> omega
  rw [if_neg hd0]
  by_cases htail' : d &&& 0xC0 ≠ 0x80
  · rw [if_pos htail']
    rw [ne_eq, isTail_iff] at htail'
    simp only [reduceCtorEq, false_iff, Tail] at htwo hthree htail htail' ⊢
    rintro ⟨hscalar, h | h | h | h⟩ <;> omega
  rw [if_neg htail']
  rw [not_not, isTail_iff] at htail'
  by_cases hfour : ¬((a = 0xF0 ∧ b ≥ 0x90 ∧ b ≤ 0xBF) ∨ ((a ≥ 0xF1 ∧ a ≤ 0xF3) ∧ b &&& 0xC0 = 0x80) ∨
      (a = 0xF4 ∧ b ≥ 0x80 ∧ b ≤ 0x8F))
  · rw [if_pos hfour]
    rw [leadFour_iff] at hfour
    simp only [reduceCtorEq, false_iff, Tail] at htwo hthree hfour htail htail' ⊢
    rintro ⟨hscalar, h | h | h | h⟩ <;> omega
  · rw [if_neg hfour, Option.some.injEq, Prod.mk.injEq, ← UInt32.toNat_inj]
    rw [not_not] at hfour
    obtain ⟨ha, hb, hlow, hhigh⟩ := (leadFour_iff a b).mp hfour
    have hvalue := fourBytes_eq (a := a) ⟨ha.1, by omega⟩ hb htail htail'
    generalize (((a &&& 0x07).toUInt32 <<< 18) ||| ((b &&& 0x3F).toUInt32 <<< 12) |||
      ((c &&& 0x3F).toUInt32 <<< 6) ||| (d &&& 0x3F).toUInt32).toNat = x at hvalue ⊢
    simp only [Tail] at hb htail htail' ⊢
    constructor
    · rintro ⟨hv, rfl⟩
      exact ⟨by omega, Or.inr (Or.inr (Or.inr (by omega)))⟩
    · rintro ⟨hscalar, h | h | h | h⟩ <;> omega

/-- What starts with a byte. -/
theorem byte_prefix_iff {n : Nat} {l text : Bytes} (hn : n < 256) (hx : n ≠ 0 ∨ 0 < text.length) :
    UInt8.ofNat n :: l <+: text ↔ byteAt text 0 = n ∧ l <+: text.drop 1 := by
  have hvalue : (UInt8.ofNat n).toNat = n := by
    rw [UInt8.toNat_ofNat']
    exact Nat.mod_eq_of_lt hn
  cases text with
  | nil =>
      have hne : n ≠ 0 := hx.resolve_right (Nat.lt_irrefl 0)
      constructor
      · intro h
        exact absurd (List.prefix_nil.mp h) (List.cons_ne_nil _ _)
      · rintro ⟨h, -⟩
        exact absurd h.symm hne
  | cons b text =>
      rw [List.cons_prefix_cons, ← UInt8.toNat_inj, hvalue]
      exact and_congr eq_comm Iff.rfl

/-- **THE ENCODING** of a character is what the decoder's table speaks of. -/
theorem encodedAs_iff (ch : Char) {text : Bytes} (hpos : 0 < text.length) (len : Nat) :
    EncodedAs ch.val.toNat len (byteAt text 0) (byteAt text 1) (byteAt text 2) (byteAt text 3) ↔
      (String.utf8EncodeChar ch).length = len ∧ String.utf8EncodeChar ch <+: text := by
  have hscalar : IsScalar ch.val.toNat := ch.valid
  have hnil (l : Bytes) : ([] : Bytes) <+: l ↔ True := iff_true_intro List.nil_prefix
  have h0 : byteAt (text.drop 1) 0 = byteAt text 1 := byteAt_drop text 1 0
  have h1 : byteAt (text.drop 2) 0 = byteAt text 2 := byteAt_drop text 2 0
  have h2 : byteAt (text.drop 3) 0 = byteAt text 3 := byteAt_drop text 3 0
  rw [IsScalar] at hscalar
  rw [String.utf8EncodeChar]
  simp only [EncodedAs, Tail]
  generalize ch.val.toNat = v at hscalar ⊢
  -- one case for each length
  by_cases hone : v ≤ 0x7F
  · rw [if_pos hone, byte_prefix_iff (by omega) (Or.inr hpos), hnil]
    simp only [List.length_cons, List.length_nil, and_true]
    constructor
    · rintro (h | h | h | h) <;> omega
    · intro h
      exact Or.inl (by omega)
  rw [if_neg hone]
  by_cases htwo : v ≤ 0x7FF
  · rw [if_pos htwo, byte_prefix_iff (by omega) (by omega), byte_prefix_iff (by omega) (by omega), hnil, h0]
    simp only [List.length_cons, List.length_nil, and_true]
    constructor
    · rintro (h | h | h | h) <;> omega
    · intro h
      exact Or.inr (Or.inl (by omega))
  rw [if_neg htwo]
  by_cases hthree : v ≤ 0xFFFF
  · rw [if_pos hthree, byte_prefix_iff (by omega) (by omega), byte_prefix_iff (by omega) (by omega),
      byte_prefix_iff (by omega) (by omega), hnil, h0, List.drop_drop, h1]
    simp only [List.length_cons, List.length_nil, and_true]
    constructor
    · rintro (h | h | h | h) <;> omega
    · intro h
      exact Or.inr (Or.inr (Or.inl (by omega)))
  · rw [if_neg hthree, byte_prefix_iff (by omega) (by omega), byte_prefix_iff (by omega) (by omega),
      byte_prefix_iff (by omega) (by omega), byte_prefix_iff (by omega) (by omega), hnil, h0,
      List.drop_drop, h1, List.drop_drop, h2]
    simp only [List.length_cons, List.length_nil, and_true]
    constructor
    · rintro (h | h | h | h) <;> omega
    · intro h
      exact Or.inr (Or.inr (Or.inr (by omega)))

/-- **WHAT THE DECODER FINDS** in front of text: the character whose encoding stands there. -/
theorem decodeUtf8Scalar_char {text : Bytes} (hne : text ≠ []) (v : UInt32) (len : Nat) :
    decodeUtf8Scalar text = some (v, len) ↔
      ∃ ch : Char, ch.val = v ∧ (String.utf8EncodeChar ch).length = len ∧ String.utf8EncodeChar ch <+: text := by
  have hpos : 0 < text.length := List.length_pos_iff.mpr hne
  rw [decodeUtf8Scalar_iff]
  constructor
  · rintro ⟨hscalar, hencoded⟩
    exact ⟨⟨v, hscalar⟩, rfl, (encodedAs_iff ⟨v, hscalar⟩ hpos len).mp hencoded⟩
  · rintro ⟨ch, rfl, h⟩
    exact ⟨ch.valid, (encodedAs_iff ch hpos len).mpr h⟩

/-- **THE DECODER ACCEPTS** the encodings of characters and nothing else. -/
theorem decode_spec (s : CString) : ∃ r, zuptDecodeUtf8Scalar (memory s) = .ok r ∧
    ∀ v len, r = some (v, len) ↔
      ∃ ch : Char, ch.val = v ∧ (String.utf8EncodeChar ch).length = len ∧
        String.utf8EncodeChar ch <+: memory s := by
  have hchar (i : Nat) : charAt (memory s) i = charAt s.bytes i := memory_getD s i
  have hsame : decodeUtf8Scalar (memory s) = decodeUtf8Scalar s.bytes := by
    rw [decodeUtf8Scalar, decodeUtf8Scalar, hchar, hchar, hchar, hchar]
  have hne : memory s ≠ [] := List.append_ne_nil_of_right_ne_nil _ (List.cons_ne_nil 0 [])
  refine ⟨_, decode_eq s, ?_⟩
  intro v len
  rw [← hsame]
  exact decodeUtf8Scalar_char hne v len

/-! ## A string in pieces -/

/-- A string in pieces: the characters whose encodings it has, and the bytes where it has none. -/
inductive Pieces : Bytes → List (Char ⊕ UInt8) → Prop where
  | nil : Pieces [] []
  | scalar {rest : Bytes} {ps : List (Char ⊕ UInt8)} (ch : Char) :
      Pieces rest ps → Pieces (String.utf8EncodeChar ch ++ rest) (.inl ch :: ps)
  | stray {b : UInt8} {rest : Bytes} {ps : List (Char ⊕ UInt8)} :
      (∀ ch : Char, ¬String.utf8EncodeChar ch <+: b :: rest) → Pieces rest ps →
        Pieces (b :: rest) (.inr b :: ps)

/-- What a terminal gets for a piece. -/
def shown : Char ⊕ UInt8 → Bytes
  | .inl ch =>
      if codepointIsDisplayControl ch.val then (String.utf8EncodeChar ch).flatMap escape
      else String.utf8EncodeChar ch
  | .inr b => escape b

/-- Text that is UTF-8, with nothing in it that a terminal acts on. -/
def SafeText (text : Bytes) : Prop :=
  ∃ l : List Char, text = l.flatMap String.utf8EncodeChar ∧ ∀ ch ∈ l, codepointIsDisplayControl ch.val = false

theorem encode_pos (ch : Char) : 0 < (String.utf8EncodeChar ch).length := by
  rw [String.length_utf8EncodeChar]
  exact ch.utf8Size_pos

theorem encode_append_ne_nil (ch : Char) (rest : Bytes) : String.utf8EncodeChar ch ++ rest ≠ [] := by
  intro hnil
  have hpos := encode_pos ch
  rw [(List.append_eq_nil_iff.mp hnil).1] at hpos
  exact absurd hpos (Nat.lt_irrefl 0)

/-! ## The pieces of a string -/

/-- An encoding in front of text is what the decoder finds there. -/
theorem decode_scalar (ch : Char) (rest : Bytes) :
    decodeUtf8Scalar (String.utf8EncodeChar ch ++ rest) = some (ch.val, (String.utf8EncodeChar ch).length) :=
  (decodeUtf8Scalar_char (encode_append_ne_nil ch rest) _ _).mpr ⟨ch, rfl, rfl, List.prefix_append _ _⟩

/-- Where there is none the decoder says so. -/
theorem decode_stray {b : UInt8} {rest : Bytes} (h : ∀ ch : Char, ¬String.utf8EncodeChar ch <+: b :: rest) :
    decodeUtf8Scalar (b :: rest) = none := by
  cases hr : decodeUtf8Scalar (b :: rest) with
  | none => rfl
  | some p =>
      obtain ⟨ch, -, -, hch⟩ := (decodeUtf8Scalar_char (List.cons_ne_nil b rest) p.1 p.2).mp hr
      exact absurd hch (h ch)

/-- **EVERY STRING** is in pieces. -/
theorem pieces_exists : ∀ (n : Nat) (bytes : Bytes), bytes.length ≤ n → ∃ ps, Pieces bytes ps := by
  intro n
  induction n with
  | zero =>
      intro bytes hn
      rw [List.eq_nil_of_length_eq_zero (Nat.le_zero.mp hn)]
      exact ⟨[], .nil⟩
  | succ n ih =>
      intro bytes hn
      cases bytes with
      | nil => exact ⟨[], .nil⟩
      | cons b rest =>
          by_cases hfound : ∃ ch : Char, String.utf8EncodeChar ch <+: b :: rest
          · obtain ⟨ch, rest', hrest⟩ := hfound
            have hpos := encode_pos ch
            have hlen : (String.utf8EncodeChar ch).length + rest'.length = rest.length + 1 := by
              rw [← List.length_append, hrest, List.length_cons]
            rw [List.length_cons] at hn
            obtain ⟨ps, hps⟩ := ih rest' (by omega)
            rw [← hrest]
            exact ⟨_, .scalar ch hps⟩
          · obtain ⟨ps, hps⟩ := ih rest (Nat.le_of_succ_le_succ hn)
            exact ⟨_, .stray (fun ch hch => hfound ⟨ch, hch⟩) hps⟩

/-- The first piece. -/
theorem Pieces.first {bytes : Bytes} {qs : List (Char ⊕ UInt8)} (h : Pieces bytes qs) :
    (bytes = [] ∧ qs = []) ∨
      (∃ ch rest ps, bytes = String.utf8EncodeChar ch ++ rest ∧ qs = .inl ch :: ps ∧ Pieces rest ps) ∨
      ∃ b rest ps, bytes = b :: rest ∧ (∀ ch : Char, ¬String.utf8EncodeChar ch <+: bytes) ∧
        qs = .inr b :: ps ∧ Pieces rest ps := by
  cases h with
  | nil => exact Or.inl ⟨rfl, rfl⟩
  | scalar ch h => exact Or.inr (Or.inl ⟨ch, _, _, rfl, rfl, h⟩)
  | stray hnone h => exact Or.inr (Or.inr ⟨_, _, _, rfl, hnone, rfl, h⟩)

/-- **IN ONE WAY ONLY**. -/
theorem Pieces.unique {bytes : Bytes} {ps qs : List (Char ⊕ UInt8)} (h : Pieces bytes ps)
    (hq : Pieces bytes qs) : qs = ps := by
  induction h generalizing qs with
  | nil =>
      rcases hq.first with ⟨-, h⟩ | ⟨ch, rest, ps, hnil, -⟩ | ⟨b, rest, ps, hnil, -⟩
      · exact h
      · exact absurd hnil.symm (encode_append_ne_nil ch rest)
      · exact absurd hnil.symm (List.cons_ne_nil b rest)
  | @scalar rest ps ch h ih =>
      rcases hq.first with ⟨hnil, -⟩ | ⟨other, rest', ps', hsplit, rfl, h'⟩ | ⟨b, rest', ps', -, hnone, -⟩
      · exact absurd hnil (encode_append_ne_nil ch rest)
      · have hsame := decode_scalar ch rest
        rw [hsplit, decode_scalar other rest', Option.some.injEq, Prod.mk.injEq] at hsame
        obtain rfl : other = ch := Char.val_inj.mp hsame.1
        obtain rfl := List.append_cancel_left hsplit
        rw [ih h']
      · exact absurd (List.prefix_append _ _) (hnone ch)
  | @stray b rest ps hnone h ih =>
      rcases hq.first with ⟨hnil, -⟩ | ⟨other, rest', ps', hsplit, -⟩ | ⟨b', rest', ps', hsplit, -, rfl, h'⟩
      · exact absurd hnil (List.cons_ne_nil b rest)
      · exact absurd (hsplit ▸ List.prefix_append _ _) (hnone other)
      · obtain ⟨rfl, rfl⟩ := List.cons.inj hsplit
        rw [ih h']

/-! ## The two loops -/

/-- Stepping over the rest of a scalar. -/
theorem unsafeTextFrom_skip (k : Nat) (l : Bytes) : unsafeTextFrom k l = pathHasUnsafeText (l.drop k) := by
  induction k generalizing l with
  | zero => rfl
  | succ k ih =>
      cases l with
      | nil => rfl
      | cons a l => exact ih l

theorem pathHasUnsafeText_scalar (ch : Char) (rest : Bytes) :
    pathHasUnsafeText (String.utf8EncodeChar ch ++ rest) =
      (codepointIsDisplayControl ch.val || pathHasUnsafeText rest) := by
  have hpos := encode_pos ch
  have hdecode := decode_scalar ch rest
  obtain ⟨b, tail, hfirst⟩ := List.exists_cons_of_length_pos hpos
  rw [hfirst] at hdecode ⊢
  rw [List.cons_append] at hdecode ⊢
  rw [pathHasUnsafeText, unsafeTextFrom, hdecode, List.length_cons]
  show (_ || unsafeTextFrom tail.length (tail ++ rest)) = _
  rw [unsafeTextFrom_skip, List.drop_left]

theorem pathHasUnsafeText_stray {b : UInt8} {rest : Bytes}
    (h : ∀ ch : Char, ¬String.utf8EncodeChar ch <+: b :: rest) : pathHasUnsafeText (b :: rest) = true := by
  rw [pathHasUnsafeText, unsafeTextFrom, decode_stray h]

/-- **A TURN** starts at a byte that is not the NUL. -/
theorem first_cell {bytes : Bytes} (hnul : (0 : UInt8) ∉ bytes) {b : UInt8} {rest : Bytes}
    (h : bytes = b :: rest) : cellAt (bytes ++ [0]) 0 = .ok b ∧ b ≠ 0 := by
  subst h
  refine ⟨rfl, ?_⟩
  rintro rfl
  exact hnul List.mem_cons_self

/-- Behind an encoding. -/
theorem drop_encode (ch : Char) (rest : Bytes) :
    (String.utf8EncodeChar ch ++ rest ++ [0]).drop (String.utf8EncodeChar ch).length = rest ++ [0] := by
  rw [List.append_assoc, List.drop_left]

/-- **THE PRINTER** shows the pieces one after the other. -/
theorem print_pieces {bytes : Bytes} {ps : List (Char ⊕ UInt8)} (h : Pieces bytes ps)
    (hnul : (0 : UInt8) ∉ bytes) {n : Nat} (hn : bytes.length < n) (out : Bytes) :
    loop printTurn n (bytes ++ [0], out) = .ok (out ++ ps.flatMap shown) := by
  obtain ⟨n, rfl⟩ := Nat.exists_eq_succ_of_ne_zero (Nat.ne_of_gt (Nat.zero_lt_of_lt hn))
  induction h generalizing n out with
  | nil =>
      rw [List.flatMap_nil, List.append_nil]
      exact loop_done rfl
  | @scalar rest ps ch h ih =>
      have hpos := encode_pos ch
      obtain ⟨b, tail, hfirst⟩ := List.exists_cons_of_ne_nil (encode_append_ne_nil ch rest)
      obtain ⟨hcell, hb⟩ := first_cell hnul hfirst
      have hdecode := decode_eq ⟨_, hnul⟩
      rw [memory, decode_scalar] at hdecode
      have hbytes : cellsAt (String.utf8EncodeChar ch ++ rest ++ [0]) 0 (String.utf8EncodeChar ch).length =
          .ok (String.utf8EncodeChar ch) := by
        rw [cellsAt_ok (by simp), List.drop_zero, List.append_assoc, List.take_left]
      have hturn : printTurn (String.utf8EncodeChar ch ++ rest ++ [0], out) =
          .ok (.next (rest ++ [0], out ++ shown (.inl ch))) := by
        rw [printTurn, hcell, ok_bind, if_pos hb, hdecode, ok_bind]
        show (cellsAt _ _ _ >>= fun _ => _) = _
        rw [hbytes, ok_bind, shown, drop_encode]
        by_cases hcontrol : codepointIsDisplayControl ch.val = true
        · rw [if_pos hcontrol, if_pos hcontrol]
          rfl
        · rw [if_neg hcontrol, if_neg hcontrol]
          rfl
      rw [List.length_append] at hn
      obtain ⟨n, rfl⟩ := Nat.exists_eq_succ_of_ne_zero (show n ≠ 0 by omega)
      rw [loop_next hturn, ih (fun hmem => hnul (List.mem_append_right _ hmem)) _ n (by omega),
        List.flatMap_cons, List.append_assoc]
  | @stray b rest ps hnone h ih =>
      obtain ⟨hcell, hb⟩ := first_cell hnul rfl
      have hdecode := decode_eq ⟨_, hnul⟩
      rw [memory, decode_stray hnone] at hdecode
      have hturn : printTurn (b :: rest ++ [0], out) = .ok (.next (rest ++ [0], out ++ shown (.inr b))) := by
        rw [printTurn, hcell, ok_bind, if_pos hb, hdecode]
        rfl
      rw [List.length_cons] at hn
      obtain ⟨n, rfl⟩ := Nat.exists_eq_succ_of_ne_zero (show n ≠ 0 by omega)
      rw [loop_next hturn, ih (fun hmem => hnul (List.mem_cons_of_mem _ hmem)) _ n (by omega),
        List.flatMap_cons, List.append_assoc]

/-- **THE CHECK** of the memory is the check of the text. -/
theorem unsafe_loop {bytes : Bytes} {ps : List (Char ⊕ UInt8)} (h : Pieces bytes ps)
    (hnul : (0 : UInt8) ∉ bytes) {n : Nat} (hn : bytes.length < n) :
    loop unsafeTurn n (bytes ++ [0]) = .ok (pathHasUnsafeText bytes) := by
  obtain ⟨n, rfl⟩ := Nat.exists_eq_succ_of_ne_zero (Nat.ne_of_gt (Nat.zero_lt_of_lt hn))
  induction h generalizing n with
  | nil => exact loop_done rfl
  | @scalar rest ps ch h ih =>
      have hpos := encode_pos ch
      obtain ⟨b, tail, hfirst⟩ := List.exists_cons_of_ne_nil (encode_append_ne_nil ch rest)
      obtain ⟨hcell, hb⟩ := first_cell hnul hfirst
      have hdecode := decode_eq ⟨_, hnul⟩
      rw [memory, decode_scalar] at hdecode
      rw [pathHasUnsafeText_scalar]
      by_cases hcontrol : codepointIsDisplayControl ch.val = true
      · have hturn : unsafeTurn (String.utf8EncodeChar ch ++ rest ++ [0]) = .ok (.done true) := by
          rw [unsafeTurn, hcell, ok_bind, if_pos hb, hdecode, ok_bind]
          exact if_pos hcontrol
        rw [loop_done hturn, hcontrol, Bool.true_or]
      · have hturn : unsafeTurn (String.utf8EncodeChar ch ++ rest ++ [0]) = .ok (.next (rest ++ [0])) := by
          rw [unsafeTurn, hcell, ok_bind, if_pos hb, hdecode, ok_bind, ← drop_encode ch rest]
          exact if_neg hcontrol
        rw [List.length_append] at hn
        obtain ⟨n, rfl⟩ := Nat.exists_eq_succ_of_ne_zero (show n ≠ 0 by omega)
        rw [loop_next hturn, ih (fun hmem => hnul (List.mem_append_right _ hmem)) n (by omega),
          Bool.eq_false_iff.mpr hcontrol, Bool.false_or]
  | @stray b rest ps hnone h ih =>
      obtain ⟨hcell, hb⟩ := first_cell hnul rfl
      have hdecode := decode_eq ⟨_, hnul⟩
      rw [memory, decode_stray hnone] at hdecode
      have hturn : unsafeTurn (b :: rest ++ [0]) = .ok (.done true) := by
        rw [unsafeTurn, hcell, ok_bind, if_pos hb, hdecode]
        rfl
      rw [loop_done hturn, pathHasUnsafeText_stray hnone]

/-! ## What the terminal gets -/

theorem SafeText.append {l l' : Bytes} (h : SafeText l) (h' : SafeText l') : SafeText (l ++ l') := by
  obtain ⟨cs, rfl, hcs⟩ := h
  obtain ⟨cs', rfl, hcs'⟩ := h'
  refine ⟨cs ++ cs', by rw [List.flatMap_append], ?_⟩
  intro ch hch
  rcases List.mem_append.mp hch with hch | hch
  · exact hcs ch hch
  · exact hcs' ch hch

theorem SafeText.flatMap {α : Type} {f : α → Bytes} {l : List α} (h : ∀ x ∈ l, SafeText (f x)) :
    SafeText (l.flatMap f) := by
  induction l with
  | nil => exact ⟨[], rfl, by simp⟩
  | cons x l ih =>
      rw [List.flatMap_cons]
      exact (h x List.mem_cons_self).append (ih fun y hy => h y (List.mem_cons_of_mem x hy))

/-- A byte of ASCII that is printed. -/
theorem SafeText.ascii {n : Nat} (h : 0x20 ≤ n ∧ n < 0x7F) : SafeText [UInt8.ofNat n] := by
  have hvalid : (UInt32.ofNat n).isValidChar := by
    refine Or.inl ?_
    rw [UInt32.toNat_ofNat']
    omega
  have hv : (UInt32.ofNat n).toNat = n := by
    rw [UInt32.toNat_ofNat']
    omega
  refine ⟨[⟨UInt32.ofNat n, hvalid⟩], ?_, ?_⟩
  · rw [List.flatMap_singleton, String.utf8EncodeChar]
    show _ = if (UInt32.ofNat n).toNat ≤ 0x7F then [UInt8.ofNat (UInt32.ofNat n).toNat] else _
    rw [hv, if_pos (show n ≤ 0x7F by omega)]
  · intro ch hmem
    rw [List.mem_singleton.mp hmem]
    have hall : ∀ n < 0x7F, 0x20 ≤ n → codepointIsDisplayControl (UInt32.ofNat n) = false := by decide
    exact hall n h.2 h.1

theorem hexDigit_safe {n : Nat} (h : n < 16) : SafeText [hexDigit n] := by
  rw [hexDigit]
  refine SafeText.ascii ?_
  by_cases hdigit : n < 10
  · rw [if_pos hdigit]
    omega
  · rw [if_neg hdigit]
    omega

/-- An escaped byte is text. -/
theorem escape_safe (b : UInt8) : SafeText (escape b) := by
  have hb : b.toNat < 256 := b.toNat_lt
  have hmark : SafeText ([0x5C] ++ [0x78]) :=
    (SafeText.ascii (n := 0x5C) (by decide)).append (SafeText.ascii (n := 0x78) (by decide))
  exact hmark.append ((hexDigit_safe (by omega)).append (hexDigit_safe (by omega)))

/-- The text of one character. -/
theorem SafeText.char {ch : Char} (h : codepointIsDisplayControl ch.val = false) :
    SafeText (String.utf8EncodeChar ch) := by
  refine ⟨[ch], (List.flatMap_singleton _ _).symm, ?_⟩
  intro ch' hmem
  rw [List.mem_singleton.mp hmem]
  exact h

/-- What a piece is shown as is text. -/
theorem shown_safe (p : Char ⊕ UInt8) : SafeText (shown p) := by
  cases p with
  | inr b => exact escape_safe b
  | inl ch =>
      rw [shown]
      by_cases hcontrol : codepointIsDisplayControl ch.val = true
      · rw [if_pos hcontrol]
        exact SafeText.flatMap fun b _ => escape_safe b
      · rw [if_neg hcontrol]
        exact SafeText.char (Bool.eq_false_iff.mpr hcontrol)

/-- **SAFE TEXT** is what the check lets through. -/
theorem pathHasUnsafeText_iff {bytes : Bytes} {ps : List (Char ⊕ UInt8)} (h : Pieces bytes ps) :
    pathHasUnsafeText bytes = true ↔ ¬SafeText bytes := by
  rw [← Bool.not_eq_false, not_iff_not]
  constructor
  · intro hsafe
    induction h with
    | nil => exact ⟨[], rfl, by simp⟩
    | scalar ch h ih =>
        rw [pathHasUnsafeText_scalar, Bool.or_eq_false_iff] at hsafe
        exact (SafeText.char hsafe.1).append (ih hsafe.2)
    | stray hnone h ih =>
        rw [pathHasUnsafeText_stray hnone] at hsafe
        cases hsafe
  · rintro ⟨l, rfl, hl⟩
    clear h
    induction l with
    | nil => rfl
    | cons ch l ih =>
        rw [List.flatMap_cons, pathHasUnsafeText_scalar, hl ch List.mem_cons_self, Bool.false_or]
        exact ih fun other hother => hl other (List.mem_cons_of_mem ch hother)

/-- **TERMINAL-SAFE TEXT**: the decoder accepts the encodings of characters and nothing else
    and stays in front of the end of the string; the printer writes text that a terminal
    does not act on, in which every other character stands as it is; and the check rejects
    the strings that are no such text. -/
theorem terminal_text_exact (s : CString) :
    (∃ r, zuptDecodeUtf8Scalar (memory s) = .ok r ∧ ∀ v len, r = some (v, len) ↔
      ∃ ch : Char, ch.val = v ∧ (String.utf8EncodeChar ch).length = len ∧
        String.utf8EncodeChar ch <+: memory s) ∧
    (∃ ps, Pieces s.bytes ps ∧ (∀ qs, Pieces s.bytes qs → qs = ps) ∧
      zuptPrintTerminalSafeText (memory s) = .ok (ps.flatMap shown) ∧ SafeText (ps.flatMap shown)) ∧
    zuptPathHasUnsafeText (some (memory s)) = .ok (pathHasUnsafeText s.bytes) ∧
    (pathHasUnsafeText s.bytes = true ↔ ¬SafeText s.bytes) ∧
    zuptPathHasUnsafeText none = .ok true := by
  obtain ⟨ps, hps⟩ := pieces_exists _ s.bytes (Nat.le_refl _)
  have hlen : s.bytes.length < (memory s).length := by
    rw [memory, List.length_append, List.length_singleton]
    exact Nat.lt_succ_self _
  refine ⟨decode_spec s, ⟨ps, hps, fun qs hqs => hps.unique hqs, ?_,
    SafeText.flatMap fun p _ => shown_safe p⟩, unsafe_loop hps s.nulFree hlen, pathHasUnsafeText_iff hps, rfl⟩
  exact (print_pieces hps s.nulFree hlen []).trans (by rw [List.nil_append])

end Zupt.Terminal
