import Zupt.Basic

/-! # Little-endian integers

    Fixed-width little-endian bytes of a natural number and back, with the
    two round trips, and the 16-, 32- and 64-bit instances the on-disk format
    is written in.  Concatenations of fixed-width fields are taken apart with
    `append_inj_of_length`. -/

namespace Zupt.LittleEndian

/-- The `w` low bytes of `n`, least significant first. -/
def lePut : (w n : Nat) → Bytes
  | 0, _ => []
  | w + 1, n => UInt8.ofNat (n % 256) :: lePut w (n / 256)

/-- The number with these little-endian bytes. -/
def leGet : Bytes → Nat
  | [] => 0
  | b :: bs => b.toNat + 256 * leGet bs

@[simp] theorem lePut_length (w n : Nat) : (lePut w n).length = w := by
  induction w generalizing n with
  | zero => rfl
  | succ w ih =>
      show (lePut w (n / 256)).length + 1 = w + 1
      rw [ih]

/-- Reading back what was written keeps the low `w` bytes. -/
theorem leGet_lePut (w n : Nat) : leGet (lePut w n) = n % 256 ^ w := by
  induction w generalizing n with
  | zero => exact (Nat.mod_one n).symm
  | succ w ih =>
      show (UInt8.ofNat (n % 256)).toNat + 256 * leGet (lePut w (n / 256)) = _
      have hb : (UInt8.ofNat (n % 256)).toNat = n % 256 := by
        rw [UInt8.toNat_ofNat']
        omega
      rw [hb, ih, Nat.pow_succ, Nat.mul_comm (256 ^ w) 256, Nat.mod_mul]

theorem leGet_lt (b : Bytes) : leGet b < 256 ^ b.length := by
  induction b with
  | nil => exact Nat.one_pos
  | cons x b ih =>
      have hx : x.toNat < 256 := x.toNat_lt
      show x.toNat + 256 * leGet b < 256 ^ (b.length + 1)
      rw [Nat.pow_succ]
      omega

/-- Writing back what was read restores the bytes. -/
theorem lePut_leGet (b : Bytes) : lePut b.length (leGet b) = b := by
  induction b with
  | nil => rfl
  | cons x b ih =>
      have hx : x.toNat < 256 := x.toNat_lt
      show UInt8.ofNat ((x.toNat + 256 * leGet b) % 256)
        :: lePut b.length ((x.toNat + 256 * leGet b) / 256) = x :: b
      have h1 : (x.toNat + 256 * leGet b) % 256 = x.toNat := by omega
      have h2 : (x.toNat + 256 * leGet b) / 256 = leGet b := by omega
      rw [h1, h2, ih, UInt8.ofNat_toNat]

/-- `zupt_le16_put`. -/
def le16Put (v : UInt16) : Bytes := lePut 2 v.toNat

/-- `zupt_le32_put`. -/
def le32Put (v : UInt32) : Bytes := lePut 4 v.toNat

/-- `zupt_le64_put`. -/
def le64Put (v : UInt64) : Bytes := lePut 8 v.toNat

/-- `zupt_le16_get` of the first two bytes. -/
def le16Get (b : Bytes) : UInt16 := UInt16.ofNat (leGet (b.take 2))

/-- `zupt_le32_get` of the first four bytes. -/
def le32Get (b : Bytes) : UInt32 := UInt32.ofNat (leGet (b.take 4))

/-- `zupt_le64_get` of the first eight bytes. -/
def le64Get (b : Bytes) : UInt64 := UInt64.ofNat (leGet (b.take 8))

@[simp] theorem le16Put_length (v : UInt16) : (le16Put v).length = 2 := lePut_length 2 _

@[simp] theorem le32Put_length (v : UInt32) : (le32Put v).length = 4 := lePut_length 4 _

@[simp] theorem le64Put_length (v : UInt64) : (le64Put v).length = 8 := lePut_length 8 _

@[simp] theorem le16Get_le16Put (v : UInt16) (rest : Bytes) :
    le16Get (le16Put v ++ rest) = v := by
  have hv : v.toNat % 256 ^ 2 = v.toNat := Nat.mod_eq_of_lt v.toNat_lt
  rw [le16Get, List.take_left' (le16Put_length v), le16Put, leGet_lePut, hv,
    UInt16.ofNat_toNat]

@[simp] theorem le32Get_le32Put (v : UInt32) (rest : Bytes) :
    le32Get (le32Put v ++ rest) = v := by
  have hv : v.toNat % 256 ^ 4 = v.toNat := Nat.mod_eq_of_lt v.toNat_lt
  rw [le32Get, List.take_left' (le32Put_length v), le32Put, leGet_lePut, hv,
    UInt32.ofNat_toNat]

@[simp] theorem le64Get_le64Put (v : UInt64) (rest : Bytes) :
    le64Get (le64Put v ++ rest) = v := by
  have hv : v.toNat % 256 ^ 8 = v.toNat := Nat.mod_eq_of_lt v.toNat_lt
  rw [le64Get, List.take_left' (le64Put_length v), le64Put, leGet_lePut, hv,
    UInt64.ofNat_toNat]

/-- Writing back what was read restores the eight bytes. -/
theorem le64Put_le64Get {b : Bytes} (h : 8 ≤ b.length) : le64Put (le64Get b) = b.take 8 := by
  have hlen : (b.take 8).length = 8 := by
    rw [List.length_take]
    omega
  have hlt := leGet_lt (b.take 8)
  rw [hlen] at hlt
  have hput := lePut_leGet (b.take 8)
  rw [hlen] at hput
  rw [le64Put, le64Get, UInt64.toNat_ofNat_of_lt' hlt, hput]

theorem le16Put_injective : Function.Injective le16Put := by
  intro v w h
  have := congrArg le16Get h
  rwa [← List.append_nil (le16Put v), ← List.append_nil (le16Put w),
    le16Get_le16Put, le16Get_le16Put] at this

theorem le32Put_injective : Function.Injective le32Put := by
  intro v w h
  have := congrArg le32Get h
  rwa [← List.append_nil (le32Put v), ← List.append_nil (le32Put w),
    le32Get_le32Put, le32Get_le32Put] at this

theorem le64Put_injective : Function.Injective le64Put := by
  intro v w h
  have := congrArg le64Get h
  rwa [← List.append_nil (le64Put v), ← List.append_nil (le64Put w),
    le64Get_le64Put, le64Get_le64Put] at this

/-- Two concatenations whose last parts have one length are equal part by
    part. -/
theorem append_inj_of_length {a a' b b' : Bytes} (h : a ++ b = a' ++ b')
    (hlen : b.length = b'.length) : a = a' ∧ b = b' := by
  have htotal := congrArg List.length h
  rw [List.length_append, List.length_append] at htotal
  exact List.append_inj h (by omega)

end Zupt.LittleEndian
