import Zupt.VaptVupt.Bcj
import Mathlib.Data.Nat.Bitwise
import Mathlib.Data.Nat.ModEq

/-! # The branch filters are bijections

    Either direction of a filter undoes the other one, on any bytes.  The x86
    filter looks at bytes that it may have rewritten or will rewrite: what it
    decides by is whether a byte is a sign extension, and no rewriting that
    touches a byte which was looked at changes that. -/

namespace Zupt.VaptVupt

open Zupt.LittleEndian

/-! ## Operands -/

/-- Byte `j` of a number. -/
def lane (j n : Nat) : Nat := n / 2 ^ (8 * j) % 256

/-- A byte that extends a sign. -/
def SignByte (b : Nat) : Prop := b = 0 ∨ b = 255

instance (b : Nat) : Decidable (SignByte b) := inferInstanceAs (Decidable (_ ∨ _))

/-- A byte is part of the low bits. -/
theorem lane_mod (j n : Nat) {k : Nat} (hk : 8 * j + 8 ≤ k) : lane j (n % 2 ^ k) = lane j n := by
  obtain ⟨d, rfl⟩ := Nat.exists_eq_add_of_le hk
  have hpow : 2 ^ (8 * j + 8 + d) = 2 ^ (8 * j) * (256 * 2 ^ d) := by
    rw [Nat.pow_add, Nat.pow_add, Nat.mul_assoc]
  rw [lane, lane, hpow, Nat.mod_mul_right_div_self, Nat.mod_mul_right_mod]

theorem lane_congr {j a b k : Nat} (hk : 8 * j + 8 ≤ k) (h : a ≡ b [MOD 2 ^ k]) :
    lane j a = lane j b := by
  have hmod : a % 2 ^ k = b % 2 ^ k := h
  rw [← lane_mod j a hk, hmod, lane_mod j b hk]

/-- Turning over the low bits is subtracting them from all ones. -/
theorem xor_low_mod (k n : Nat) : (n ^^^ (2 ^ k - 1)) % 2 ^ k = 2 ^ k - 1 - n % 2 ^ k := by
  have hlt : n % 2 ^ k < 2 ^ k := Nat.mod_lt _ (Nat.two_pow_pos k)
  apply Nat.eq_of_testBit_eq
  intro i
  rw [Nat.testBit_mod_two_pow, Nat.testBit_xor, Nat.testBit_two_pow_sub_one, Nat.sub_sub,
    Nat.add_comm 1, Nat.testBit_two_pow_sub_succ hlt, Nat.testBit_mod_two_pow]
  by_cases hi : i < k
  · simp [hi]
  · simp [hi]

/-- Turning over bits respects the modulus. -/
theorem xor_low_congr (k : Nat) {m a b : Nat} (h : a ≡ b [MOD 2 ^ m]) :
    a ^^^ (2 ^ k - 1) ≡ b ^^^ (2 ^ k - 1) [MOD 2 ^ m] := by
  have hmod : a % 2 ^ m = b % 2 ^ m := h
  show (a ^^^ (2 ^ k - 1)) % 2 ^ m = (b ^^^ (2 ^ k - 1)) % 2 ^ m
  rw [Nat.xor_mod_two_pow, hmod, ← Nat.xor_mod_two_pow]

theorem xor_xor_low (k n : Nat) : n ^^^ (2 ^ k - 1) ^^^ (2 ^ k - 1) = n := by
  rw [Nat.xor_assoc, Nat.xor_self, Nat.xor_zero]

/-- The top byte of turned over bits is turned over. -/
theorem lane_complement (j : Nat) {x : Nat} (h : x < 2 ^ (8 * j + 8)) :
    lane j (2 ^ (8 * j + 8) - 1 - x) = 255 - lane j x := by
  have hpos : 0 < 2 ^ (8 * j) := Nat.two_pow_pos _
  have hpow : 2 ^ (8 * j + 8) = 2 ^ (8 * j) * 256 := Nat.pow_add ..
  have hsplit := Nat.div_add_mod x (2 ^ (8 * j))
  have hrem := Nat.mod_lt x hpos
  rw [hpow] at h ⊢
  rw [lane, lane]
  generalize 2 ^ (8 * j) = H at *
  have hq : x / H < 256 := Nat.div_lt_of_lt_mul h
  have hquot : (H * 256 - 1 - x) / H = 255 - x / H := by
    rw [Nat.div_eq_iff hpos]
    have hmul : (255 - x / H) * H + H * (x / H) = 255 * H := by
      rw [Nat.mul_comm H, ← Nat.add_mul, Nat.sub_add_cancel (by omega)]
    omega
  have hsmall : 255 - x / H < 256 := (Nat.sub_le 255 _).trans_lt (by decide)
  rw [hquot, Nat.mod_eq_of_lt hsmall, Nat.mod_eq_of_lt hq]

theorem lane_xor_low (j n : Nat) : lane j (n ^^^ (2 ^ (8 * j + 8) - 1)) = 255 - lane j n := by
  rw [← lane_mod j _ (Nat.le_refl _), xor_low_mod,
    lane_complement j (Nat.mod_lt _ (Nat.two_pow_pos _)), lane_mod j n (Nat.le_refl _)]

/-- What the conversion does about byte `j`, which was looked at before. -/
def convert (j v cur : Nat) : Nat :=
  if SignByte (lane j (v + cur)) then ((v + cur) ^^^ (2 ^ (8 * j + 8) - 1)) + cur else v + cur

/-- **A BYTE THAT WAS NO SIGN EXTENSION** is none after the conversion. -/
theorem convert_lane {j v : Nat} (h : ¬ SignByte (lane j v)) (cur : Nat) :
    ¬ SignByte (lane j (convert j v cur)) := by
  rw [convert]
  split
  · -- twice added and turned over in between, the low bits are those of `v` turned over
    have hlow : ((v + cur) ^^^ (2 ^ (8 * j + 8) - 1)) + cur ≡
        v ^^^ (2 ^ (8 * j + 8) - 1) [MOD 2 ^ (8 * j + 8)] := by
      have hleft : ((v + cur) ^^^ (2 ^ (8 * j + 8) - 1)) + cur ≡
          2 ^ (8 * j + 8) - 1 - (v + cur) % 2 ^ (8 * j + 8) + cur [MOD 2 ^ (8 * j + 8)] := by
        rw [← xor_low_mod]
        exact (Nat.mod_modEq _ _).symm.add_right cur
      have hright : v ^^^ (2 ^ (8 * j + 8) - 1) ≡
          2 ^ (8 * j + 8) - 1 - v % 2 ^ (8 * j + 8) [MOD 2 ^ (8 * j + 8)] := by
        rw [← xor_low_mod]
        exact (Nat.mod_modEq _ _).symm
      have hpos : 0 < 2 ^ (8 * j + 8) := Nat.two_pow_pos _
      generalize 2 ^ (8 * j + 8) = K at *
      refine (hleft.trans ?_).trans hright.symm
      have hsum : (v + cur) % K < K := Nat.mod_lt _ hpos
      have hv : v % K < K := Nat.mod_lt _ hpos
      apply Nat.ModEq.add_right_cancel' ((v + cur) % K)
      have hone : K - 1 - (v + cur) % K + cur + (v + cur) % K = K - 1 + cur := by omega
      have hback : K - 1 - v % K + (v + cur) ≡ K - 1 + cur [MOD K] := by
        have hstep : K - 1 - v % K + (v % K + cur) = K - 1 + cur := by omega
        calc K - 1 - v % K + (v + cur)
            ≡ K - 1 - v % K + (v % K + cur) [MOD K] :=
              ((Nat.mod_modEq v K).symm.add_right cur).add_left _
          _ ≡ K - 1 + cur [MOD K] := by rw [hstep]
      rw [hone]
      exact (hback.symm.trans ((Nat.mod_modEq (v + cur) K).symm.add_left _))
    rw [lane_congr (Nat.le_refl _) hlow, lane_xor_low]
    rintro (hzero | hfull)
    · exact h (Or.inr (by
        have hlt : lane j v < 256 := Nat.mod_lt _ (by decide)
        omega))
    · exact h (Or.inl (by omega))
  · assumption

/-- **THE CONVERSION IS UNDONE** by the one with the opposite distance, as far as
    the low bits say. -/
theorem convert_convert {j v w cur cur' m : Nat} (hm : 8 * j + 8 ≤ m)
    (h : ¬ SignByte (lane j v)) (hcur : cur + cur' ≡ 0 [MOD 2 ^ m])
    (hw : w ≡ convert j v cur [MOD 2 ^ m]) : convert j w cur' ≡ v [MOD 2 ^ m] := by
  have hcancel (x : Nat) : x + cur + cur' ≡ x [MOD 2 ^ m] := by
    rw [Nat.add_assoc]
    exact (hcur.add_left x)
  rw [convert] at hw
  by_cases hsign : SignByte (lane j (v + cur))
  · rw [if_pos hsign] at hw
    have hback : w + cur' ≡ (v + cur) ^^^ (2 ^ (8 * j + 8) - 1) [MOD 2 ^ m] :=
      (hw.add_right cur').trans (hcancel _)
    have hagain : SignByte (lane j (w + cur')) := by
      rw [lane_congr hm hback, lane_xor_low]
      rcases hsign with hzero | hfull
      · exact Or.inr (by rw [hzero])
      · exact Or.inl (by rw [hfull])
    rw [convert, if_pos hagain]
    have hturned := xor_low_congr (8 * j + 8) hback
    rw [xor_xor_low] at hturned
    exact (hturned.add_right cur').trans (hcancel v)
  · rw [if_neg hsign] at hw
    have hback : w + cur' ≡ v [MOD 2 ^ m] := (hw.add_right cur').trans (hcancel v)
    have hagain : ¬ SignByte (lane j (w + cur')) := by
      rw [lane_congr hm hback]
      exact h
    rw [convert, if_neg hagain]
    exact hback

/-! ## Words -/

/-- What a direction adds. -/
def bcjAdded (encoding : Bool) (cur : UInt32) : UInt32 := if encoding then cur else 0 - cur

theorem bcjAdded_opposite (encoding : Bool) (cur : UInt32) :
    (bcjAdded encoding cur).toNat + (bcjAdded (!encoding) cur).toNat ≡ 0 [MOD 2 ^ 32] := by
  have hlt := cur.toNat_lt
  have hneg : (0 - cur).toNat = (2 ^ 32 - cur.toNat) % 2 ^ 32 := by
    rw [UInt32.toNat_sub]
    rfl
  show _ % 2 ^ 32 = 0
  cases encoding with
  | true =>
      show (cur.toNat + (0 - cur).toNat) % 2 ^ 32 = 0
      rw [hneg]
      omega
  | false =>
      show ((0 - cur).toNat + cur.toNat) % 2 ^ 32 = 0
      rw [hneg]
      omega

/-- Addition and subtraction as one. -/
theorem bcj_add (encoding : Bool) (v cur : UInt32) :
    (if encoding then v + cur else v - cur) = v + bcjAdded encoding cur := by
  cases encoding with
  | true => rfl
  | false =>
      show v - cur = v + (0 - cur)
      rw [UInt32.sub_eq_add_neg, UInt32.sub_eq_add_neg, UInt32.zero_add]

theorem toNat_add_modEq (v c : UInt32) : (v + c).toNat ≡ v.toNat + c.toNat [MOD 2 ^ 32] := by
  rw [UInt32.toNat_add]
  exact Nat.mod_modEq _ _

theorem bcjTestMsb_iff (b : UInt8) : bcjTestMsb b = true ↔ SignByte b.toNat := by
  have hval (c : UInt8) : b = c ↔ b.toNat = c.toNat := UInt8.toNat_inj.symm
  simp only [bcjTestMsb, SignByte, Bool.or_eq_true, decide_eq_true_eq, hval]
  rfl

/-- The byte of a word that a mask selects. -/
theorem bcjTestMsb_lane {sh : UInt32} {j : Nat} (hsh : sh.toNat = 8 * j) (hj : j < 3) (v : UInt32) :
    bcjTestMsb (UInt8.ofNat ((v >>> sh) &&& 0xFF).toNat) = true ↔ SignByte (lane j v.toNat) := by
  have hbyte : (UInt8.ofNat ((v >>> sh) &&& 0xFF).toNat).toNat = lane j v.toNat := by
    have hmask : (0xFF : UInt32).toNat = 2 ^ 8 - 1 := rfl
    rw [UInt8.toNat_ofNat', UInt32.toNat_and, hmask, Nat.and_two_pow_sub_one_eq_mod,
      UInt32.toNat_shiftRight, hsh, Nat.mod_eq_of_lt (by omega : 8 * j < 32), Nat.shiftRight_eq_div_pow,
      Nat.mod_mod, lane]
  rw [bcjTestMsb_iff, hbyte]

/-- A mask with one bit set, and the byte it stands for. -/
def MaskAt (mask : UInt32) (j : Nat) : Prop := j < 3 ∧ mask = 1 <<< UInt32.ofNat j

/-- The shift and the low bits of a mask with one bit. -/
theorem MaskAt.shift {mask : UInt32} {j : Nat} (h : MaskAt mask j) :
    mask ≠ 0 ∧ ((mask &&& 6) <<< 2).toNat = 8 * j ∧
      (((0x100 : UInt32) <<< ((mask &&& 6) <<< 2)) - 1).toNat = 2 ^ (8 * j + 8) - 1 := by
  obtain ⟨hj, rfl⟩ := h
  have hcases : j = 0 ∨ j = 1 ∨ j = 2 := by omega
  rcases hcases with rfl | rfl | rfl
  · decide
  · decide
  · decide

/-- **THE CONVERSION OF A WORD** whose mask has one bit. -/
theorem bcjConvert_modEq {mask : UInt32} {j : Nat} (h : MaskAt mask j) (encoding : Bool)
    (v cur : UInt32) :
    (bcjConvert encoding v cur mask).toNat ≡
      convert j v.toNat (bcjAdded encoding cur).toNat [MOD 2 ^ 32] := by
  obtain ⟨hne, hsh, hlow⟩ := h.shift
  have hsum := toNat_add_modEq v (bcjAdded encoding cur)
  have hroom : 8 * j + 8 ≤ 32 := by
    have hj := h.1
    omega
  rw [bcjConvert, bcj_add]
  dsimp only
  rw [if_pos hne, bcj_add, convert]
  by_cases hsign : SignByte (lane j (v.toNat + (bcjAdded encoding cur).toNat))
  · have htest := (bcjTestMsb_lane hsh h.1 (v + bcjAdded encoding cur)).mpr (by
      rw [lane_congr hroom hsum]
      exact hsign)
    rw [if_pos htest, if_pos hsign]
    refine (toNat_add_modEq _ _).trans (Nat.ModEq.add_right _ ?_)
    rw [UInt32.toNat_xor, hlow]
    exact xor_low_congr _ hsum
  · have htest : ¬ bcjTestMsb (UInt8.ofNat (((v + bcjAdded encoding cur) >>>
        ((mask &&& 6) <<< 2)) &&& 0xFF).toNat) = true := by
      rw [bcjTestMsb_lane hsh h.1, lane_congr hroom hsum]
      exact hsign
    rw [if_neg htest, if_neg hsign]
    exact hsum

/-- Without recent opcodes a conversion is an addition. -/
theorem bcjConvert_zero (encoding : Bool) (v cur : UInt32) :
    (bcjConvert encoding v cur 0).toNat ≡ v.toNat + (bcjAdded encoding cur).toNat
      [MOD 2 ^ 32] := by
  rw [bcjConvert, bcj_add]
  exact toNat_add_modEq _ _

/-- When an operand may be converted: no opcode was seen just before, or one
    whose byte is no sign extension. -/
def Convertible (mask v : UInt32) : Prop :=
  mask = 0 ∨ ∃ j, MaskAt mask j ∧ ¬ SignByte (lane j v.toNat)

theorem modEq_25 {a b : Nat} (h : a ≡ b [MOD 2 ^ 32]) : a ≡ b [MOD 2 ^ 25] :=
  h.of_dvd (by decide)

/-- **THE OTHER DIRECTION** restores the 25 bits that are stored. -/
theorem bcjConvert_undone {mask s t : UInt32} (encoding : Bool) (cur : UInt32)
    (h : Convertible mask s)
    (ht : t.toNat ≡ (bcjConvert encoding s cur mask).toNat [MOD 2 ^ 25]) :
    (bcjConvert (!encoding) t cur mask).toNat ≡ s.toNat [MOD 2 ^ 25] := by
  have hcur := modEq_25 (bcjAdded_opposite encoding cur)
  rcases h with rfl | ⟨j, hmask, hsign⟩
  · have hw := ht.trans (modEq_25 (bcjConvert_zero encoding s cur))
    refine (modEq_25 (bcjConvert_zero (!encoding) t cur)).trans ((hw.add_right _).trans ?_)
    rw [Nat.add_assoc]
    exact hcur.add_left s.toNat
  · have hroom : 8 * j + 8 ≤ 25 := by
      have hj := hmask.1
      omega
    have hw := ht.trans (modEq_25 (bcjConvert_modEq hmask encoding s cur))
    exact (modEq_25 (bcjConvert_modEq hmask (!encoding) t cur)).trans
      (convert_convert hroom hsign hcur hw)

/-- The byte that was looked at is no sign extension afterwards either. -/
theorem bcjConvert_lane {mask v : UInt32} {j : Nat} (h : MaskAt mask j) (encoding : Bool)
    (cur : UInt32) (hsign : ¬ SignByte (lane j v.toNat)) :
    ¬ SignByte (lane j (bcjConvert encoding v cur mask).toNat) := by
  have hroom : 8 * j + 8 ≤ 32 := by
    have hj := h.1
    omega
  rw [lane_congr hroom (bcjConvert_modEq h encoding v cur)]
  exact convert_lane hsign _

/-! ## Operands in place -/

theorem charAt_set (data : Bytes) {p : Nat} (hp : p < data.length) (i : Nat) (b : UInt8) :
    charAt (data.set p b) i = if i = p then b else charAt data i := by
  rw [charAt, charAt, List.getD_eq_getElem?_getD, List.getD_eq_getElem?_getD, List.getElem?_set]
  by_cases hi : i = p
  · subst hi
    simp [hp]
  · rw [if_neg (Ne.symm hi), if_neg hi]

/-- The four bytes of an operand. -/
theorem bcjOperand_toNat (data : Bytes) (p : Nat) :
    (bcjOperand data p).toNat = (charAt data (p + 1)).toNat + 2 ^ 8 * (charAt data (p + 2)).toNat +
      2 ^ 16 * (charAt data (p + 3)).toNat + 2 ^ 24 * (charAt data (p + 4)).toNat := by
  have hbyte (b : UInt8) : (UInt32.ofNat b.toNat).toNat = b.toNat := by
    have hlt := b.toNat_lt
    rw [UInt32.toNat_ofNat']
    omega
  have hshift (b : UInt8) {k : UInt32} {n : Nat} (hk : k.toNat = n) (hn : n ≤ 24) :
      (UInt32.ofNat b.toNat <<< k).toNat = 2 ^ n * b.toNat := by
    have hlt := b.toNat_lt
    have hpow : 2 ^ n * b.toNat < 2 ^ 32 := by
      calc 2 ^ n * b.toNat < 2 ^ n * 2 ^ 8 := Nat.mul_lt_mul_of_pos_left hlt (Nat.two_pow_pos n)
        _ = 2 ^ (n + 8) := (Nat.pow_add ..).symm
        _ ≤ 2 ^ 32 := Nat.pow_le_pow_right (by decide) (by omega)
    rw [UInt32.toNat_shiftLeft, hbyte, hk, Nat.mod_eq_of_lt (by omega : n < 32), Nat.shiftLeft_eq,
      Nat.mul_comm, Nat.mod_eq_of_lt hpow]
  have h1 := (charAt data (p + 1)).toNat_lt
  have h2 := (charAt data (p + 2)).toNat_lt
  have h3 := (charAt data (p + 3)).toNat_lt
  -- each byte lies below what is already there
  have htop : 2 ^ 24 * (charAt data (p + 4)).toNat ||| 2 ^ 16 * (charAt data (p + 3)).toNat =
      2 ^ 16 * (2 ^ 8 * (charAt data (p + 4)).toNat + (charAt data (p + 3)).toNat) := by
    rw [← Nat.two_pow_add_eq_or_of_lt (by omega)]
    omega
  have hmid : 2 ^ 16 * (2 ^ 8 * (charAt data (p + 4)).toNat + (charAt data (p + 3)).toNat) |||
      2 ^ 8 * (charAt data (p + 2)).toNat =
      2 ^ 8 * (2 ^ 16 * (charAt data (p + 4)).toNat + 2 ^ 8 * (charAt data (p + 3)).toNat +
        (charAt data (p + 2)).toNat) := by
    rw [← Nat.two_pow_add_eq_or_of_lt (by omega)]
    omega
  rw [bcjOperand, UInt32.toNat_or, UInt32.toNat_or, UInt32.toNat_or,
    hshift _ (n := 24) rfl (by decide), hshift _ (n := 16) rfl (by decide),
    hshift _ (n := 8) rfl (by decide), hbyte, htop, hmid, ← Nat.two_pow_add_eq_or_of_lt h1]
  omega

/-- A byte of an operand. -/
theorem lane_bcjOperand (data : Bytes) (p : Nat) {j : Nat} (hj : j < 3) :
    lane j (bcjOperand data p).toNat = (charAt data (p + 1 + j)).toNat := by
  have h1 := (charAt data (p + 1)).toNat_lt
  have h2 := (charAt data (p + 2)).toNat_lt
  have h3 := (charAt data (p + 3)).toNat_lt
  have hcases : j = 0 ∨ j = 1 ∨ j = 2 := by omega
  rw [lane, bcjOperand_toNat]
  rcases hcases with rfl | rfl | rfl
  · show _ / 2 ^ 0 % 256 = (charAt data (p + 1)).toNat
    rw [Nat.pow_zero, Nat.div_one]
    omega
  · show _ / 2 ^ 8 % 256 = (charAt data (p + 2)).toNat
    omega
  · show _ / 2 ^ 16 % 256 = (charAt data (p + 3)).toNat
    omega

section Store

variable {data : Bytes} {p : Nat} (hp : p + 4 < data.length) (v : UInt32)
include hp

/-- Around the operand nothing changes. -/
theorem charAt_bcjStore_of_ne {i : Nat} (hi : i ≤ p ∨ p + 5 ≤ i) :
    charAt (bcjStore data p v) i = charAt data i := by
  rw [bcjStore, charAt_set _ (by simp; omega), if_neg (by omega), charAt_set _ (by simp; omega),
    if_neg (by omega), charAt_set _ (by simp; omega), if_neg (by omega), charAt_set _ (by omega),
    if_neg (by omega)]

/-- The low bytes are those of the word. -/
theorem charAt_bcjStore_lane {j : Nat} (hj : j < 3) :
    (charAt (bcjStore data p v) (p + 1 + j)).toNat = lane j v.toNat := by
  have hmask : (0xFF : UInt32).toNat = 2 ^ 8 - 1 := rfl
  have hcases : j = 0 ∨ j = 1 ∨ j = 2 := by omega
  rw [bcjStore, charAt_set _ (by simp; omega), if_neg (by omega), charAt_set _ (by simp; omega),
    charAt_set _ (by simp; omega), charAt_set _ (by omega), lane]
  rcases hcases with rfl | rfl | rfl
  · rw [if_neg (by omega), if_neg (by omega), if_pos rfl, UInt8.toNat_ofNat', UInt32.toNat_and,
      hmask, Nat.and_two_pow_sub_one_eq_mod, Nat.mod_mod]
    show _ = v.toNat / 2 ^ 0 % 256
    omega
  · rw [if_neg (by omega), if_pos rfl, UInt8.toNat_ofNat', UInt32.toNat_and, hmask,
      Nat.and_two_pow_sub_one_eq_mod, Nat.mod_mod, UInt32.toNat_shiftRight,
      Nat.shiftRight_eq_div_pow]
    rfl
  · rw [if_pos rfl, UInt8.toNat_ofNat', UInt32.toNat_and, hmask, Nat.and_two_pow_sub_one_eq_mod,
      Nat.mod_mod, UInt32.toNat_shiftRight, Nat.shiftRight_eq_div_pow]
    rfl

/-- The top byte extends bit 24. -/
theorem charAt_bcjStore_top :
    (charAt (bcjStore data p v) (p + 4)).toNat = if v.toNat / 2 ^ 24 % 2 = 1 then 255 else 0 := by
  have hbit : ((v >>> 24) &&& 1).toNat = v.toNat / 2 ^ 24 % 2 := by
    have hone : (1 : UInt32).toNat = 2 ^ 1 - 1 := rfl
    rw [UInt32.toNat_and, hone, Nat.and_two_pow_sub_one_eq_mod, UInt32.toNat_shiftRight,
      Nat.shiftRight_eq_div_pow]
    rfl
  rw [bcjStore, charAt_set _ (by simp; omega), if_pos rfl]
  by_cases hset : v.toNat / 2 ^ 24 % 2 = 1
  · have hword : (v >>> 24) &&& 1 = 1 := UInt32.toNat_inj.mp (hbit.trans hset)
    rw [hword, if_pos hset]
    rfl
  · have hword : (v >>> 24) &&& 1 = 0 := UInt32.toNat_inj.mp (hbit.trans (by
      show _ = 0
      omega))
    rw [hword, if_neg hset]
    rfl

/-- The operand is read back in its 25 bits. -/
theorem bcjOperand_bcjStore : (bcjOperand (bcjStore data p v) p).toNat ≡ v.toNat [MOD 2 ^ 25] := by
  have h0 := charAt_bcjStore_lane hp v (j := 0) (by decide)
  have h1 := charAt_bcjStore_lane hp v (j := 1) (by decide)
  have h2 := charAt_bcjStore_lane hp v (j := 2) (by decide)
  have h3 := charAt_bcjStore_top hp v
  rw [bcjOperand_toNat]
  rw [show p + 1 + 0 = p + 1 from rfl] at h0
  rw [show p + 1 + 1 = p + 2 from rfl] at h1
  rw [show p + 1 + 2 = p + 3 from rfl] at h2
  rw [h0, h1, h2, h3]
  show _ % 2 ^ 25 = _ % 2 ^ 25
  have hl0 : lane 0 v.toNat = v.toNat % 256 := by
    show v.toNat / 2 ^ 0 % 256 = _
    omega
  have hl1 : lane 1 v.toNat = v.toNat / 256 % 256 := rfl
  have hl2 : lane 2 v.toNat = v.toNat / 65536 % 256 := rfl
  rw [hl0, hl1, hl2]
  split
  · omega
  · omega

/-- An operand whose top byte extended a sign is restored from its 25 bits. -/
theorem bcjStore_restores {orig : Bytes} (hsign : SignByte (charAt orig (p + 4)).toNat)
    (hv : v.toNat ≡ (bcjOperand orig p).toNat [MOD 2 ^ 25]) {i : Nat} (hlo : p < i)
    (hhi : i < p + 5) : charAt (bcjStore data p v) i = charAt orig i := by
  apply UInt8.toNat_inj.mp
  have hcases : i = p + 4 ∨ ∃ j, j < 3 ∧ i = p + 1 + j := by
    by_cases htop : i = p + 4
    · exact Or.inl htop
    · exact Or.inr ⟨i - (p + 1), by omega, by omega⟩
  rcases hcases with rfl | ⟨j, hj, rfl⟩
  · have h1 := (charAt orig (p + 1)).toNat_lt
    have h2 := (charAt orig (p + 2)).toNat_lt
    have h3 := (charAt orig (p + 3)).toNat_lt
    have hmod : v.toNat % 2 ^ 25 = (bcjOperand orig p).toNat % 2 ^ 25 := hv
    rw [bcjOperand_toNat] at hmod
    rw [charAt_bcjStore_top hp v]
    rcases hsign with hzero | hfull
    · rw [hzero] at hmod ⊢
      rw [if_neg (by omega)]
    · rw [hfull] at hmod ⊢
      rw [if_pos (by omega)]
  · rw [charAt_bcjStore_lane hp v hj, lane_congr (by omega) hv, lane_bcjOperand orig p hj]

end Store

/-! ## Decisions -/

/-- What a turn of the x86 filter does: it ends, it moves past an opcode with a
    new mask, or it converts the operand of one under a mask. -/
inductive BcjTurn where
  | stop
  | skip (p : Nat) (mask : UInt32)
  | convert (p : Nat) (mask : UInt32)
  deriving DecidableEq, Repr

/-- Whether a mask keeps the opcode at `p` from being converted. -/
def bcjHeld (data : Bytes) (p : Nat) (mask : UInt32) : Prop :=
  mask ≠ 0 ∧ (4 < mask ∨ mask = 3 ∨
    bcjTestMsb (charAt data (p + (mask >>> 1).toNat + 1)))

instance (data : Bytes) (p : Nat) (mask : UInt32) : Decidable (bcjHeld data p mask) :=
  inferInstanceAs (Decidable (_ ∧ _))

/-- The decision of a turn, which does not depend on the direction. -/
def bcjDecide (data : Bytes) (limit pos : Nat) (mask : UInt32) : BcjTurn :=
  let p := bcjScan data (limit - pos) pos
  if limit ≤ p then .stop
  else
    let mask := bcjMask mask (p - pos)
    if p - pos ≤ 2 ∧ bcjHeld data p mask then .skip p ((mask >>> 1) ||| 4)
    else if bcjTestMsb (charAt data (p + 4)) then .convert p mask
    else .skip p ((mask >>> 1) ||| 4)

/-- The bytes after a conversion. -/
def bcjConverted (encoding : Bool) (ip : UInt32) (data : Bytes) (p : Nat) (mask : UInt32) : Bytes :=
  bcjStore data p (bcjConvert encoding (bcjOperand data p) (ip + UInt32.ofNat p) mask)

/-- The loop by its decisions. -/
theorem bcjX86Loop_succ (encoding : Bool) (ip : UInt32) (limit turns : Nat) (data : Bytes)
    (pos : Nat) (mask : UInt32) :
    bcjX86Loop encoding ip limit (turns + 1) data pos mask =
      match bcjDecide data limit pos mask with
      | .stop => data
      | .skip p mask => bcjX86Loop encoding ip limit turns data (p + 1) mask
      | .convert p mask =>
          bcjX86Loop encoding ip limit turns (bcjConverted encoding ip data p mask) (p + 5) 0 := by
  rw [bcjX86Loop, bcjDecide]
  dsimp only
  by_cases hstop : limit ≤ bcjScan data (limit - pos) pos
  · rw [if_pos hstop, if_pos hstop]
  rw [if_neg hstop, if_neg hstop]
  by_cases hheld : bcjScan data (limit - pos) pos - pos ≤ 2 ∧
      bcjHeld data (bcjScan data (limit - pos) pos)
        (bcjMask mask (bcjScan data (limit - pos) pos - pos))
  · rw [if_pos hheld]
    exact if_pos hheld
  · rw [if_neg hheld]
    refine (if_neg hheld).trans ?_
    by_cases hmsb : bcjTestMsb (charAt data (bcjScan data (limit - pos) pos + 4)) = true
    · rw [if_pos hmsb, if_pos hmsb]
      rfl
    · rw [if_neg hmsb, if_neg hmsb]

/-- The decisions of a run, from position to position. -/
def bcjX86Turns (encoding : Bool) (ip : UInt32) (limit : Nat) :
    (turns : Nat) → Bytes → (pos : Nat) → (mask : UInt32) → List BcjTurn
  | 0, _, _, _ => []
  | turns + 1, data, pos, mask =>
      bcjDecide data limit pos mask ::
        match bcjDecide data limit pos mask with
        | .stop => []
        | .skip p mask => bcjX86Turns encoding ip limit turns data (p + 1) mask
        | .convert p mask =>
            bcjX86Turns encoding ip limit turns (bcjConverted encoding ip data p mask) (p + 5) 0

theorem bcjScan_bounds (data : Bytes) (left pos : Nat) :
    pos ≤ bcjScan data left pos ∧ bcjScan data left pos ≤ pos + left := by
  induction left generalizing pos with
  | zero => exact ⟨Nat.le_refl _, Nat.le_refl _⟩
  | succ left ih =>
      rw [bcjScan]
      split
      · exact ⟨Nat.le_refl _, Nat.le_add_right _ _⟩
      · have hrest := ih (pos + 1)
        omega

/-- The scan reads up to the opcode it finds. -/
theorem bcjScan_congr {a b : Bytes} {left pos : Nat}
    (h : ∀ i, pos ≤ i → i ≤ bcjScan a left pos → charAt a i = charAt b i) :
    bcjScan b left pos = bcjScan a left pos := by
  induction left generalizing pos with
  | zero => rfl
  | succ left ih =>
      have hfirst : charAt a pos = charAt b pos := h pos (Nat.le_refl _) (bcjScan_bounds a _ _).1
      rw [bcjScan] at h
      rw [bcjScan, bcjScan, ← hfirst]
      by_cases hfound : charAt a pos &&& 0xFE = 0xE8
      · rw [if_pos hfound, if_pos hfound]
      · rw [if_neg hfound] at h
        rw [if_neg hfound, if_neg hfound]
        exact ih fun i hlo hhi => h i (by omega) hhi

/-- The bit of a mask for the opcode `3 - j` bytes before. -/
def Recent (mask : UInt32) (j : Nat) : Prop := (mask >>> UInt32.ofNat j) &&& 1 = 1

instance (mask : UInt32) (j : Nat) : Decidable (Recent mask j) :=
  inferInstanceAs (Decidable (_ = _))

/-- A property of masks of three bits, checked one by one. -/
theorem forall_mask {P : UInt32 → Prop} (h : ∀ k : Fin 8, P (UInt32.ofNat k)) {mask : UInt32}
    (hlt : mask < 8) : P mask := by
  have hval : mask.toNat < 8 := UInt32.lt_iff_toNat_lt.mp hlt
  have hmask := h ⟨mask.toNat, hval⟩
  rwa [UInt32.ofNat_toNat] at hmask

theorem bcjMask_lt {mask : UInt32} (h : mask < 8) (d : Nat) : bcjMask mask d < 8 := by
  rw [bcjMask]
  split
  · decide
  · have hd : d = 0 ∨ d = 1 ∨ d = 2 := by omega
    rcases hd with rfl | rfl | rfl
    · exact forall_mask (P := fun m => m >>> UInt32.ofNat 0 < 8) (by decide) h
    · exact forall_mask (P := fun m => m >>> UInt32.ofNat 1 < 8) (by decide) h
    · exact forall_mask (P := fun m => m >>> UInt32.ofNat 2 < 8) (by decide) h

theorem nextMask_lt {mask : UInt32} (h : mask < 8) : (mask >>> 1) ||| 4 < 8 :=
  forall_mask (P := fun m => (m >>> 1) ||| 4 < 8) (by decide) h

/-- The bits move with the position. -/
theorem recent_bcjMask {mask : UInt32} (h : mask < 8) {d j : Nat} (hd : d ≤ j) (hj : j < 3)
    (hbit : Recent mask j) : Recent (bcjMask mask d) (j - d) := by
  have hcases : (j = 0 ∧ d = 0) ∨ (j = 1 ∧ d = 0) ∨ (j = 1 ∧ d = 1) ∨ (j = 2 ∧ d = 0) ∨
      (j = 2 ∧ d = 1) ∨ (j = 2 ∧ d = 2) := by omega
  revert hbit
  rcases hcases with ⟨rfl, rfl⟩ | ⟨rfl, rfl⟩ | ⟨rfl, rfl⟩ | ⟨rfl, rfl⟩ | ⟨rfl, rfl⟩ | ⟨rfl, rfl⟩
  · exact forall_mask (P := fun m => Recent m 0 → Recent (bcjMask m 0) (0 - 0)) (by decide) h
  · exact forall_mask (P := fun m => Recent m 1 → Recent (bcjMask m 0) (1 - 0)) (by decide) h
  · exact forall_mask (P := fun m => Recent m 1 → Recent (bcjMask m 1) (1 - 1)) (by decide) h
  · exact forall_mask (P := fun m => Recent m 2 → Recent (bcjMask m 0) (2 - 0)) (by decide) h
  · exact forall_mask (P := fun m => Recent m 2 → Recent (bcjMask m 1) (2 - 1)) (by decide) h
  · exact forall_mask (P := fun m => Recent m 2 → Recent (bcjMask m 2) (2 - 2)) (by decide) h

theorem recent_next {mask : UInt32} (h : mask < 8) {j : Nat} (hj : j < 2)
    (hbit : Recent mask (j + 1)) : Recent ((mask >>> 1) ||| 4) j := by
  have hcases : j = 0 ∨ j = 1 := by omega
  revert hbit
  rcases hcases with rfl | rfl
  · exact forall_mask (P := fun m => Recent m 1 → Recent ((m >>> 1) ||| 4) 0) (by decide) h
  · exact forall_mask (P := fun m => Recent m 2 → Recent ((m >>> 1) ||| 4) 1) (by decide) h

theorem recent_last {mask : UInt32} (h : mask < 8) : Recent ((mask >>> 1) ||| 4) 2 :=
  forall_mask (P := fun m => Recent ((m >>> 1) ||| 4) 2) (by decide) h

/-- A mask that does not hold back by itself has at most one bit. -/
theorem maskAt_of_small {mask : UInt32} (h : mask < 8) (hne : mask ≠ 0)
    (hsmall : ¬ (4 < mask ∨ mask = 3)) : ∃ j, MaskAt mask j ∧ (mask >>> 1).toNat = j := by
  have hcases : mask = 1 ∨ mask = 2 ∨ mask = 4 := by
    revert hne hsmall
    exact forall_mask (P := fun m => m ≠ 0 → ¬ (4 < m ∨ m = 3) → m = 1 ∨ m = 2 ∨ m = 4)
      (by decide) h
  rcases hcases with rfl | rfl | rfl
  · exact ⟨0, ⟨by decide, rfl⟩, rfl⟩
  · exact ⟨1, ⟨by decide, rfl⟩, rfl⟩
  · exact ⟨2, ⟨by decide, rfl⟩, rfl⟩

/-- The one bit of such a mask is set, and no other. -/
theorem MaskAt.recent_iff {mask : UInt32} {j k : Nat} (h : MaskAt mask j) (hk : k < 3) :
    Recent mask k ↔ k = j := by
  obtain ⟨hj, rfl⟩ := h
  have hj' : j = 0 ∨ j = 1 ∨ j = 2 := by omega
  have hk' : k = 0 ∨ k = 1 ∨ k = 2 := by omega
  rcases hj' with rfl | rfl | rfl
  · rcases hk' with rfl | rfl | rfl <;> decide
  · rcases hk' with rfl | rfl | rfl <;> decide
  · rcases hk' with rfl | rfl | rfl <;> decide

/-! ## Runs -/

section Run

variable {encoding : Bool} {ip : UInt32} {limit pos p : Nat} {data : Bytes} {mask mask' : UInt32}

theorem bcjDecide_stop (h : bcjDecide data limit pos mask = .stop) :
    limit ≤ bcjScan data (limit - pos) pos := by
  rw [bcjDecide] at h
  dsimp only at h
  by_contra hlt
  rw [if_neg hlt] at h
  split at h
  · cases h
  split at h
  · cases h
  · cases h

/-- What is known where an opcode is moved past. -/
theorem bcjDecide_skip (h : bcjDecide data limit pos mask = .skip p mask') :
    bcjScan data (limit - pos) pos = p ∧ pos ≤ p ∧ p < limit ∧
      mask' = (bcjMask mask (p - pos) >>> 1) ||| 4 := by
  have hlo := (bcjScan_bounds data (limit - pos) pos).1
  rw [bcjDecide] at h
  dsimp only at h
  by_cases hstop : limit ≤ bcjScan data (limit - pos) pos
  · rw [if_pos hstop] at h
    cases h
  · rw [if_neg hstop] at h
    split at h
    · cases h
      exact ⟨rfl, hlo, not_le.mp hstop, rfl⟩
    split at h
    · cases h
    · cases h
      exact ⟨rfl, hlo, not_le.mp hstop, rfl⟩

/-- What is known where an operand is converted. -/
theorem bcjDecide_convert (h : bcjDecide data limit pos mask = .convert p mask') :
    bcjScan data (limit - pos) pos = p ∧ pos ≤ p ∧ p < limit ∧ mask' = bcjMask mask (p - pos) ∧
      (p - pos ≤ 2 → ¬ bcjHeld data p mask') ∧ SignByte (charAt data (p + 4)).toNat := by
  have hlo := (bcjScan_bounds data (limit - pos) pos).1
  rw [bcjDecide] at h
  dsimp only at h
  by_cases hstop : limit ≤ bcjScan data (limit - pos) pos
  · rw [if_pos hstop] at h
    cases h
  · rw [if_neg hstop] at h
    split at h
    · cases h
    rename_i hheld
    split at h
    · rename_i hmsb
      cases h
      exact ⟨rfl, hlo, not_le.mp hstop, rfl, fun hd hc => hheld ⟨hd, hc⟩,
        (bcjTestMsb_iff _).mp hmsb⟩
    · cases h

/-- A decision is made from the scan, the test of the mask and the top byte. -/
theorem bcjDecide_congr {a b : Bytes} (hscan : bcjScan b (limit - pos) pos = p)
    (hscan' : bcjScan a (limit - pos) pos = p)
    (hheld : p - pos ≤ 2 → (bcjHeld b p (bcjMask mask (p - pos)) ↔
      bcjHeld a p (bcjMask mask (p - pos))))
    (htop : SignByte (charAt b (p + 4)).toNat ↔ SignByte (charAt a (p + 4)).toNat) :
    bcjDecide b limit pos mask = bcjDecide a limit pos mask := by
  rw [← bcjTestMsb_iff, ← bcjTestMsb_iff] at htop
  rw [bcjDecide, bcjDecide, hscan, hscan']
  dsimp only
  by_cases hstop : limit ≤ p
  · rw [if_pos hstop, if_pos hstop]
  rw [if_neg hstop, if_neg hstop]
  by_cases hskip : p - pos ≤ 2 ∧ bcjHeld a p (bcjMask mask (p - pos))
  · rw [if_pos hskip, if_pos ⟨hskip.1, (hheld hskip.1).mpr hskip.2⟩]
  · rw [if_neg hskip, if_neg fun hc => hskip ⟨hc.1, (hheld hc.1).mp hc.2⟩]
    by_cases hmsb : bcjTestMsb (charAt a (p + 4)) = true
    · rw [if_pos hmsb, if_pos (htop.mpr hmsb)]
    · rw [if_neg hmsb, if_neg fun hc => hmsb (htop.mp hc)]

/-- The operand of an opcode that is not held back may be converted. -/
theorem convertible_of_decide (hmask : mask < 8)
    (h : bcjDecide data limit pos mask = .convert p mask') :
    mask' = 0 ∨ ∃ j, MaskAt mask' j ∧ (mask' >>> 1).toNat = j ∧
      ¬ SignByte (charAt data (p + 1 + j)).toNat := by
  obtain ⟨-, -, -, hm, hheld, -⟩ := bcjDecide_convert h
  by_cases hzero : mask' = 0
  · exact Or.inl hzero
  refine Or.inr ?_
  have hd : p - pos ≤ 2 := by
    by_contra hfar
    rw [bcjMask, if_pos (by omega)] at hm
    exact hzero hm
  have hfree := hheld hd
  have hlt : mask' < 8 := by
    rw [hm]
    exact bcjMask_lt hmask _
  have hsmall : ¬ (4 < mask' ∨ mask' = 3) := by
    rintro (hbig | hthree)
    · exact hfree ⟨hzero, Or.inl hbig⟩
    · exact hfree ⟨hzero, Or.inr (Or.inl hthree)⟩
  obtain ⟨j, hj, hbyte⟩ := maskAt_of_small hlt hzero hsmall
  refine ⟨j, hj, hbyte, ?_⟩
  intro hsign
  refine hfree ⟨hzero, Or.inr (Or.inr ?_)⟩
  rw [hbyte, bcjTestMsb_iff]
  have hpos : p + j + 1 = p + 1 + j := by omega
  rw [hpos]
  exact hsign

theorem bcjConverted_length (encoding : Bool) (ip : UInt32) (data : Bytes) (p : Nat)
    (mask : UInt32) : (bcjConverted encoding ip data p mask).length = data.length :=
  bcjStore_length _ _ _

/-- Up to its position a run changes nothing. -/
theorem bcjX86Loop_before (hlen : limit + 4 ≤ data.length) (turns : Nat) {i : Nat} (hi : i ≤ pos) :
    charAt (bcjX86Loop encoding ip limit turns data pos mask) i = charAt data i := by
  induction turns generalizing data pos mask with
  | zero => rfl
  | succ turns ih =>
      rw [bcjX86Loop_succ]
      cases hdec : bcjDecide data limit pos mask with
      | stop => rfl
      | skip p mask' =>
          obtain ⟨-, hlo, -, -⟩ := bcjDecide_skip hdec
          exact ih hlen (by omega)
      | convert p mask' =>
          obtain ⟨-, hlo, hlt, -⟩ := bcjDecide_convert hdec
          dsimp only
          rw [ih (by rw [bcjConverted_length]; exact hlen) (by omega), bcjConverted,
            charAt_bcjStore_of_ne (by omega) _ (by omega)]

/-- The stored operand is the same in any bytes. -/
theorem charAt_bcjStore_congr {a b : Bytes} (ha : p + 4 < a.length) (hb : p + 4 < b.length)
    (v : UInt32) {i : Nat} (hlo : p < i) (hhi : i < p + 5) :
    charAt (bcjStore a p v) i = charAt (bcjStore b p v) i := by
  apply UInt8.toNat_inj.mp
  by_cases htop : i = p + 4
  · rw [htop, charAt_bcjStore_top ha, charAt_bcjStore_top hb]
  · obtain ⟨j, hj, rfl⟩ : ∃ j, j < 3 ∧ i = p + 1 + j := ⟨i - (p + 1), by omega, by omega⟩
    rw [charAt_bcjStore_lane ha v hj, charAt_bcjStore_lane hb v hj]

theorem bcjOperand_congr {a b : Bytes} (h : ∀ i, p < i → charAt a i = charAt b i) :
    bcjOperand a p = bcjOperand b p := by
  rw [bcjOperand, bcjOperand, h _ (by omega), h _ (by omega), h _ (by omega), h _ (by omega)]

/-- **A RUN LOOKS AHEAD ONLY**: from its position on it does the same to bytes that
    are the same from there on. -/
theorem bcjX86Loop_congr (encoding : Bool) (ip : UInt32) {a b : Bytes} (ha : limit + 4 ≤ a.length) (hb : limit + 4 ≤ b.length)
    (turns : Nat) (mask : UInt32) (h : ∀ i, pos ≤ i → charAt a i = charAt b i) :
    (∀ i, pos ≤ i → charAt (bcjX86Loop encoding ip limit turns a pos mask) i =
      charAt (bcjX86Loop encoding ip limit turns b pos mask) i) ∧
    bcjX86Turns encoding ip limit turns a pos mask =
      bcjX86Turns encoding ip limit turns b pos mask := by
  induction turns generalizing a b pos mask with
  | zero => exact ⟨h, rfl⟩
  | succ turns ih =>
      have hscan : bcjScan b (limit - pos) pos = bcjScan a (limit - pos) pos :=
        bcjScan_congr fun i hlo _ => h i hlo
      have hlo := (bcjScan_bounds a (limit - pos) pos).1
      have hheld (m : UInt32) : bcjHeld b (bcjScan a (limit - pos) pos) m ↔
          bcjHeld a (bcjScan a (limit - pos) pos) m := by
        rw [bcjHeld, bcjHeld, h _ (by omega)]
      have hdec : bcjDecide b limit pos mask = bcjDecide a limit pos mask :=
        bcjDecide_congr hscan rfl (fun _ => hheld _) (by rw [h _ (by omega)])
      rw [bcjX86Loop_succ, bcjX86Loop_succ, bcjX86Turns, bcjX86Turns, hdec]
      cases hcase : bcjDecide a limit pos mask with
      | stop => exact ⟨h, rfl⟩
      | skip p mask' =>
          obtain ⟨-, hp, -, -⟩ := bcjDecide_skip hcase
          obtain ⟨hdata, hturns⟩ := ih ha hb mask' fun i (hi : p + 1 ≤ i) => h i (by omega)
          dsimp only
          refine ⟨?_, by rw [hturns]⟩
          intro i hi
          by_cases hnext : p + 1 ≤ i
          · exact hdata i hnext
          · rw [bcjX86Loop_before ha turns (by omega), bcjX86Loop_before hb turns (by omega)]
            exact h i hi
      | convert p mask' =>
          obtain ⟨-, hp, hlt, -⟩ := bcjDecide_convert hcase
          have hop : bcjOperand a p = bcjOperand b p := bcjOperand_congr fun i hi => h i (by omega)
          have hconv : ∀ i, pos ≤ i → charAt (bcjConverted encoding ip a p mask') i =
              charAt (bcjConverted encoding ip b p mask') i := by
            intro i hi
            rw [bcjConverted, bcjConverted, hop]
            by_cases hin : p < i ∧ i < p + 5
            · exact charAt_bcjStore_congr (by omega) (by omega) _ hin.1 hin.2
            · rw [charAt_bcjStore_of_ne (by omega) _ (by omega),
                charAt_bcjStore_of_ne (by omega) _ (by omega)]
              exact h i hi
          have ha' : limit + 4 ≤ (bcjConverted encoding ip a p mask').length := by
            rw [bcjConverted_length]
            exact ha
          have hb' : limit + 4 ≤ (bcjConverted encoding ip b p mask').length := by
            rw [bcjConverted_length]
            exact hb
          obtain ⟨hdata, hturns⟩ := ih ha' hb' 0 fun i (hi : p + 5 ≤ i) => hconv i (by omega)
          dsimp only
          refine ⟨?_, by rw [hturns]⟩
          intro i hi
          by_cases hnext : p + 5 ≤ i
          · exact hdata i hnext
          · rw [bcjX86Loop_before ha' turns (by omega), bcjX86Loop_before hb' turns (by omega)]
            exact hconv i hi

/-- What a conversion leaves at the byte that was looked at. -/
theorem bcjConverted_lane (hlen : p + 4 < data.length) {j : Nat} (hmask : MaskAt mask' j)
    (hsign : ¬ SignByte (charAt data (p + 1 + j)).toNat) :
    ¬ SignByte (charAt (bcjConverted encoding ip data p mask') (p + 1 + j)).toNat := by
  rw [bcjConverted, charAt_bcjStore_lane hlen _ hmask.1]
  refine bcjConvert_lane hmask encoding _ ?_
  rw [lane_bcjOperand data p hmask.1]
  exact hsign

/-- **SIGN BYTES BEHIND RECENT OPCODES** are what they were: an operand that
    covers one is converted only if it is no sign extension, and leaves none. -/
theorem bcjX86Loop_recent (hlen : limit + 4 ≤ data.length) (hmask : mask < 8) (turns : Nat)
    {j : Nat} (hj : j < 3) (hbit : Recent mask j) :
    SignByte (charAt (bcjX86Loop encoding ip limit turns data pos mask) (pos + 1 + j)).toNat ↔
      SignByte (charAt data (pos + 1 + j)).toNat := by
  induction turns generalizing data pos mask j with
  | zero => exact Iff.rfl
  | succ turns ih =>
      rw [bcjX86Loop_succ]
      cases hdec : bcjDecide data limit pos mask with
      | stop => exact Iff.rfl
      | skip p mask' =>
          obtain ⟨-, hlo, hlt, rfl⟩ := bcjDecide_skip hdec
          dsimp only
          by_cases hback : pos + 1 + j ≤ p + 1
          · rw [bcjX86Loop_before hlen turns hback]
          · -- the opcode is one further back now
            have hmoved := recent_bcjMask hmask (d := p - pos) (by omega) hj hbit
            obtain ⟨k, hk⟩ : ∃ k, j - (p - pos) = k + 1 := ⟨j - (p - pos) - 1, by omega⟩
            rw [hk] at hmoved
            have hplace : pos + 1 + j = p + 1 + 1 + k := by omega
            rw [hplace]
            exact ih hlen (nextMask_lt (bcjMask_lt hmask _)) (by omega)
              (recent_next (bcjMask_lt hmask _) (by omega) hmoved)
      | convert p mask' =>
          obtain ⟨-, hlo, hlt, hm, -, -⟩ := bcjDecide_convert hdec
          have hlen' : limit + 4 ≤ (bcjConverted encoding ip data p mask').length := by
            rw [bcjConverted_length]
            exact hlen
          dsimp only
          rw [bcjX86Loop_before hlen' turns (by omega)]
          by_cases hback : pos + 1 + j ≤ p
          · rw [bcjConverted, charAt_bcjStore_of_ne (by omega) _ (Or.inl hback)]
          · have hmoved := recent_bcjMask hmask (d := p - pos) (by omega) hj hbit
            rw [← hm] at hmoved
            have hplace : pos + 1 + j = p + 1 + (j - (p - pos)) := by omega
            rcases convertible_of_decide hmask hdec with rfl | ⟨k, hk, -, hsign⟩
            · have hnone : ∀ i < 3, ¬ Recent 0 i := by decide
              exact absurd hmoved (hnone _ (by omega))
            · obtain rfl := (hk.recent_iff (by omega)).mp hmoved
              rw [hplace]
              exact iff_of_false (bcjConverted_lane (by omega) hk hsign) hsign

/-- **THE DECISION STANDS** in what the run makes of the bytes. -/
theorem bcjDecide_result (encoding : Bool) (ip : UInt32) (pos : Nat) (hlen : limit + 4 ≤ data.length) (hmask : mask < 8) (turns : Nat) :
    bcjDecide (bcjX86Loop encoding ip limit (turns + 1) data pos mask) limit pos mask =
      bcjDecide data limit pos mask := by
  rw [bcjX86Loop_succ]
  cases hdec : bcjDecide data limit pos mask with
  | stop => exact hdec
  | skip p mask' =>
      obtain ⟨hscan, hlo, hlt, rfl⟩ := bcjDecide_skip hdec
      have hnext := bcjMask_lt hmask (p - pos)
      dsimp only
      rw [← hdec]
      refine bcjDecide_congr ?_ hscan ?_ ?_
      · refine (bcjScan_congr ?_).trans hscan
        intro i _ hi
        rw [hscan] at hi
        rw [bcjX86Loop_before hlen turns (by omega)]
      · intro hd
        rw [bcjHeld, bcjHeld]
        by_cases hsmall : bcjMask mask (p - pos) ≠ 0 ∧
            ¬ (4 < bcjMask mask (p - pos) ∨ bcjMask mask (p - pos) = 3)
        · -- one opcode before, whose last operand byte decides
          obtain ⟨j, hj, hbyte⟩ := maskAt_of_small hnext hsmall.1 hsmall.2
          have hplace : p + j + 1 = p + 1 + j := by omega
          rw [hbyte, bcjTestMsb_iff, bcjTestMsb_iff, hplace]
          have hsame : SignByte (charAt (bcjX86Loop encoding ip limit turns data (p + 1)
              ((bcjMask mask (p - pos) >>> 1) ||| 4)) (p + 1 + j)).toNat ↔
              SignByte (charAt data (p + 1 + j)).toNat := by
            cases j with
            | zero => rw [bcjX86Loop_before hlen turns (Nat.le_refl _)]
            | succ k =>
                have hbit := (hj.recent_iff hj.1).mpr rfl
                have hk : k < 2 := by
                  have hlt := hj.1
                  omega
                have hplace' : p + 1 + (k + 1) = p + 1 + 1 + k := by omega
                rw [hplace']
                exact bcjX86Loop_recent hlen (nextMask_lt hnext) turns (by omega)
                  (recent_next hnext hk hbit)
          rw [hsame]
        · -- the mask alone decides
          constructor
          · rintro ⟨hne, hall⟩
            have hbig := not_and_not_right.mp hsmall hne
            exact ⟨hne, hbig.elim Or.inl fun h => Or.inr (Or.inl h)⟩
          · rintro ⟨hne, hall⟩
            have hbig := not_and_not_right.mp hsmall hne
            exact ⟨hne, hbig.elim Or.inl fun h => Or.inr (Or.inl h)⟩
      · have hplace : p + 4 = p + 1 + 1 + 2 := by omega
        rw [hplace]
        exact bcjX86Loop_recent hlen (nextMask_lt hnext) turns (by decide) (recent_last hnext)
  | convert p mask' =>
      obtain ⟨hscan, hlo, hlt, rfl, hheld, htop⟩ := bcjDecide_convert hdec
      have hlen' : limit + 4 ≤
          (bcjConverted encoding ip data p (bcjMask mask (p - pos))).length := by
        rw [bcjConverted_length]
        exact hlen
      dsimp only
      rw [← hdec]
      refine bcjDecide_congr ?_ hscan ?_ ?_
      · refine (bcjScan_congr ?_).trans hscan
        intro i _ hi
        rw [hscan] at hi
        rw [bcjX86Loop_before hlen' turns (by omega), bcjConverted,
          charAt_bcjStore_of_ne (by omega) _ (by omega)]
      · intro hd
        refine iff_of_false ?_ (hheld hd)
        rcases convertible_of_decide hmask hdec with hzero | ⟨j, hj, hbyte, hsign⟩
        · exact fun h => h.1 hzero
        · rintro ⟨hne, hall⟩
          refine hheld hd ⟨hne, ?_⟩
          rcases hall with hbig | hthree | hmsb
          · exact Or.inl hbig
          · exact Or.inr (Or.inl hthree)
          · have hplace : p + j + 1 = p + 1 + j := by omega
            have hj3 := hj.1
            rw [hbyte, bcjTestMsb_iff, hplace, bcjX86Loop_before hlen' turns (by omega)] at hmsb
            exact absurd hmsb (bcjConverted_lane (by omega) hj hsign)
      · refine iff_of_true ?_ htop
        rw [bcjX86Loop_before hlen' turns (by omega), bcjConverted, charAt_bcjStore_top (by omega)]
        split
        · exact Or.inr rfl
        · exact Or.inl rfl

/-- **THE OTHER DIRECTION UNDOES A RUN**, with the same decisions. -/
theorem bcjX86Loop_undone (hlen : limit + 4 ≤ data.length) (hmask : mask < 8) (turns : Nat) :
    (∀ i, charAt (bcjX86Loop (!encoding) ip limit turns
      (bcjX86Loop encoding ip limit turns data pos mask) pos mask) i = charAt data i) ∧
    bcjX86Turns (!encoding) ip limit turns
        (bcjX86Loop encoding ip limit turns data pos mask) pos mask =
      bcjX86Turns encoding ip limit turns data pos mask := by
  induction turns generalizing data pos mask with
  | zero => exact ⟨fun _ => rfl, rfl⟩
  | succ turns ih =>
      have hagain := bcjDecide_result encoding ip pos hlen hmask turns
      rw [bcjX86Loop_succ (!encoding), bcjX86Turns, bcjX86Turns, hagain]
      rw [bcjX86Loop_succ encoding]
      cases hdec : bcjDecide data limit pos mask with
      | stop => exact ⟨fun _ => rfl, rfl⟩
      | skip p mask' =>
          obtain ⟨-, -, -, rfl⟩ := bcjDecide_skip hdec
          have hrest : (∀ i, charAt (bcjX86Loop (!encoding) ip limit turns
              (bcjX86Loop encoding ip limit turns data (p + 1) _) (p + 1) _) i = _) ∧ _ :=
            ih hlen (nextMask_lt (bcjMask_lt hmask (p - pos)))
          obtain ⟨hdata, hturns⟩ := hrest
          dsimp only
          exact ⟨hdata, by rw [hturns]⟩
      | convert p mask' =>
          obtain ⟨-, hlo, hlt, -, -, htop⟩ := bcjDecide_convert hdec
          have hlen' : limit + 4 ≤ (bcjConverted encoding ip data p mask').length := by
            rw [bcjConverted_length]
            exact hlen
          -- what the second pass finds behind the operand is what the first one left there
          have hrest : (∀ i, charAt (bcjX86Loop (!encoding) ip limit turns
                (bcjX86Loop encoding ip limit turns (bcjConverted encoding ip data p mask')
                  (p + 5) 0) (p + 5) 0) i = charAt (bcjConverted encoding ip data p mask') i) ∧ _ :=
            ih hlen' (by decide)
          dsimp only
          generalize hX : bcjX86Loop encoding ip limit turns
            (bcjConverted encoding ip data p mask') (p + 5) 0 = X at hrest ⊢
          obtain ⟨hdata, hturns⟩ := hrest
          have hXlen : limit + 4 ≤ X.length := by
            rw [← hX, bcjX86Loop_length]
            exact hlen'
          have hXbefore : ∀ i, i ≤ p + 5 →
              charAt X i = charAt (bcjConverted encoding ip data p mask') i := by
            intro i hi
            rw [← hX]
            exact bcjX86Loop_before hlen' turns hi
          have hop : (bcjOperand X p).toNat ≡ (bcjConvert encoding (bcjOperand data p)
              (ip + UInt32.ofNat p) mask').toNat [MOD 2 ^ 25] := by
            have hsame : bcjOperand X p = bcjOperand (bcjConverted encoding ip data p mask') p := by
              rw [bcjOperand, bcjOperand, hXbefore _ (by omega), hXbefore _ (by omega),
                hXbefore _ (by omega), hXbefore _ (by omega)]
            rw [hsame]
            exact bcjOperand_bcjStore (by omega) _
          have hconvertible : Convertible mask' (bcjOperand data p) := by
            rcases convertible_of_decide hmask hdec with hzero | ⟨j, hj, -, hsign⟩
            · exact Or.inl hzero
            · refine Or.inr ⟨j, hj, ?_⟩
              rw [lane_bcjOperand data p hj.1]
              exact hsign
          have hback := bcjConvert_undone encoding (ip + UInt32.ofNat p) hconvertible hop
          have hYlen : limit + 4 ≤ (bcjConverted (!encoding) ip X p mask').length := by
            rw [bcjConverted_length]
            exact hXlen
          obtain ⟨hY, hYturns⟩ := bcjX86Loop_congr (!encoding) ip hYlen hXlen turns 0
            fun i (hi : p + 5 ≤ i) => charAt_bcjStore_of_ne (by omega) _ (Or.inr hi)
          refine ⟨?_, by rw [hYturns, hturns]⟩
          intro i
          by_cases hbehind : p + 5 ≤ i
          · rw [hY i hbehind, hdata, bcjConverted, charAt_bcjStore_of_ne (by omega) _ (Or.inr hbehind)]
          · rw [bcjX86Loop_before hYlen turns (by omega), bcjConverted]
            by_cases hin : p < i
            · exact bcjStore_restores (by omega) _ htop hback hin (by omega)
            · rw [charAt_bcjStore_of_ne (by omega) _ (by omega), hXbefore i (by omega),
                bcjConverted, charAt_bcjStore_of_ne (by omega) _ (by omega)]

end Run

end Zupt.VaptVupt
