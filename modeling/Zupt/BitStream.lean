import Zupt.LittleEndian
import Mathlib.Tactic.Ring
import Mathlib.Algebra.Order.Ring.Nat

/-! # Streams of bit fields

    Fields of a value and a width, one behind another with the first one lowest,
    are the bits of a number; the bytes of a stream are its little-endian bytes.
    A writer collects fields in an accumulator and hands out its low bytes, a
    reader loads bytes above what its accumulator holds and takes fields from
    below.  Both are described by what they have in hand, not by how they refill
    it. -/

namespace Zupt.BitStream

open Zupt.LittleEndian

/-! ## Fields -/

/-- The number that fields make up. -/
def pack : List (Nat × Nat) → Nat
  | [] => 0
  | (v, w) :: fields => v % 2 ^ w + 2 ^ w * pack fields

/-- The bits that fields take. -/
def width : List (Nat × Nat) → Nat
  | [] => 0
  | (_, w) :: fields => w + width fields

theorem width_append (fs gs : List (Nat × Nat)) : width (fs ++ gs) = width fs + width gs := by
  induction fs with
  | nil =>
      show width gs = 0 + width gs
      rw [Nat.zero_add]
  | cons f fs ih =>
      show f.2 + width (fs ++ gs) = f.2 + width fs + width gs
      rw [ih, Nat.add_assoc]

theorem pack_append (fs gs : List (Nat × Nat)) :
    pack (fs ++ gs) = pack fs + 2 ^ width fs * pack gs := by
  induction fs with
  | nil =>
      show pack gs = 0 + 2 ^ 0 * pack gs
      rw [Nat.zero_add, Nat.pow_zero, Nat.one_mul]
  | cons f fs ih =>
      show f.1 % 2 ^ f.2 + 2 ^ f.2 * pack (fs ++ gs) =
        f.1 % 2 ^ f.2 + 2 ^ f.2 * pack fs + 2 ^ (f.2 + width fs) * pack gs
      rw [ih, Nat.pow_add]
      ring

theorem pack_lt (fs : List (Nat × Nat)) : pack fs < 2 ^ width fs := by
  induction fs with
  | nil => exact Nat.one_pos
  | cons f fs ih =>
      show f.1 % 2 ^ f.2 + 2 ^ f.2 * pack fs < 2 ^ (f.2 + width fs)
      have hlow : f.1 % 2 ^ f.2 < 2 ^ f.2 := Nat.mod_lt _ (Nat.two_pow_pos _)
      calc f.1 % 2 ^ f.2 + 2 ^ f.2 * pack fs
          < 2 ^ f.2 + 2 ^ f.2 * pack fs := Nat.add_lt_add_right hlow _
        _ = 2 ^ f.2 * (pack fs + 1) := by ring
        _ ≤ 2 ^ f.2 * 2 ^ width fs := Nat.mul_le_mul_left _ ih
        _ = 2 ^ (f.2 + width fs) := (Nat.pow_add ..).symm

/-- Widths that are bounded add up to a bounded width. -/
theorem width_le {fs : List (Nat × Nat)} {k : Nat} (h : ∀ f ∈ fs, f.2 ≤ k) :
    width fs ≤ k * fs.length := by
  induction fs with
  | nil => exact Nat.zero_le _
  | cons f fs ih =>
      have hhead : f.2 ≤ k := h f (List.mem_cons_self ..)
      have htail := ih fun g hg => h g (List.mem_cons_of_mem f hg)
      show f.2 + width fs ≤ k * (fs.length + 1)
      rw [Nat.mul_succ]
      omega

/-! ## Bytes -/

/-- The bytes that `n` bits take. -/
def bytesFor (n : Nat) : Nat := (n + 7) / 8

/-- The bytes of a stream. -/
def packed (fs : List (Nat × Nat)) : Bytes := lePut (bytesFor (width fs)) (pack fs)

@[simp] theorem packed_length (fs : List (Nat × Nat)) :
    (packed fs).length = bytesFor (width fs) := lePut_length _ _

theorem pow_256 (k : Nat) : 256 ^ k = 2 ^ (8 * k) := by
  rw [Nat.pow_mul]

theorem leGet_append (a b : Bytes) : leGet (a ++ b) = leGet a + 256 ^ a.length * leGet b := by
  induction a with
  | nil =>
      show leGet b = 0 + 256 ^ 0 * leGet b
      rw [Nat.zero_add, Nat.pow_zero, Nat.one_mul]
  | cons x a ih =>
      show x.toNat + 256 * leGet (a ++ b) =
        x.toNat + 256 * leGet a + 256 ^ (a.length + 1) * leGet b
      rw [ih, Nat.pow_succ]
      ring

theorem leGet_packed (fs : List (Nat × Nat)) : leGet (packed fs) = pack fs := by
  rw [packed, leGet_lePut, pow_256]
  refine Nat.mod_eq_of_lt ((pack_lt fs).trans_le ?_)
  refine Nat.pow_le_pow_right Nat.two_pos ?_
  rw [bytesFor]
  omega

/-- Loading eight bytes and masking keeps the first `k` of them. -/
theorem leGet_take_eight {s : Bytes} {k : Nat} (hk : k ≤ 8) (hs : 8 ≤ s.length) :
    leGet (s.take 8) % 2 ^ (8 * k) = leGet (s.take k) := by
  have hsplit : s.take 8 = s.take k ++ (s.drop k).take (8 - k) := by
    rw [← List.take_add, Nat.add_sub_cancel' hk]
  have hlen : (s.take k).length = k := by
    rw [List.length_take]
    omega
  have hlt := leGet_lt (s.take k)
  rw [hlen, pow_256] at hlt
  rw [hsplit, leGet_append, hlen, pow_256, Nat.add_mul_mod_self_left, Nat.mod_eq_of_lt hlt]

/-! ## Writing -/

/-- A writer that handed out `out` and holds `n` bits `a` has written `fs`. -/
structure Written (a n : Nat) (out : Bytes) (fs : List (Nat × Nat)) : Prop where
  bound : a < 2 ^ n
  value : leGet out + 2 ^ (8 * out.length) * a = pack fs
  width : 8 * out.length + n = width fs

theorem written_nil : Written 0 0 [] [] := ⟨Nat.one_pos, rfl, rfl⟩

/-- A field goes on top of the accumulator. -/
theorem Written.add {a n : Nat} {out : Bytes} {fs : List (Nat × Nat)} (h : Written a n out fs)
    (v w : Nat) : Written (a + 2 ^ n * (v % 2 ^ w)) (n + w) out (fs ++ [(v, w)]) where
  bound := by
    have hv : v % 2 ^ w < 2 ^ w := Nat.mod_lt _ (Nat.two_pow_pos _)
    calc a + 2 ^ n * (v % 2 ^ w)
        < 2 ^ n + 2 ^ n * (v % 2 ^ w) := Nat.add_lt_add_right h.bound _
      _ = 2 ^ n * (v % 2 ^ w + 1) := by ring
      _ ≤ 2 ^ n * 2 ^ w := Nat.mul_le_mul_left _ hv
      _ = 2 ^ (n + w) := (Nat.pow_add ..).symm
  value := by
    rw [pack_append, ← h.value, ← h.width, Nat.pow_add]
    show _ = _ + _ * (v % 2 ^ w + 2 ^ w * 0)
    ring
  width := by
    rw [width_append, ← h.width]
    show _ = _ + (w + 0)
    omega

/-- The lowest byte of the accumulator is handed out. -/
theorem Written.byte {a n : Nat} {out : Bytes} {fs : List (Nat × Nat)} (h : Written a n out fs)
    (hn : 8 ≤ n) : Written (a / 256) (n - 8) (out ++ [UInt8.ofNat (a % 256)]) fs where
  bound := by
    have hpow : 2 ^ n = 256 * 2 ^ (n - 8) := by
      rw [show 256 = 2 ^ 8 from rfl, ← Nat.pow_add, Nat.add_sub_cancel' hn]
    have hbound := h.bound
    rw [hpow] at hbound
    exact Nat.div_lt_of_lt_mul hbound
  value := by
    have hbyte : (UInt8.ofNat (a % 256)).toNat = a % 256 := by
      rw [UInt8.toNat_ofNat']
      omega
    have hsplit : a % 256 + 256 * (a / 256) = a := Nat.mod_add_div a 256
    rw [leGet_append, List.length_append, ← h.value, pow_256, Nat.mul_add, Nat.pow_add]
    show leGet out + 2 ^ (8 * out.length) * ((UInt8.ofNat (a % 256)).toNat + 256 * 0) +
      2 ^ (8 * out.length) * 2 ^ (8 * 1) * (a / 256) = _
    rw [hbyte]
    calc leGet out + 2 ^ (8 * out.length) * (a % 256 + 256 * 0) +
          2 ^ (8 * out.length) * 2 ^ (8 * 1) * (a / 256)
        = leGet out + 2 ^ (8 * out.length) * (a % 256 + 256 * (a / 256)) := by ring
      _ = leGet out + 2 ^ (8 * out.length) * a := by rw [hsplit]
  width := by
    rw [List.length_append, ← h.width]
    show 8 * (out.length + 1) + (n - 8) = _
    omega

/-- **A FLUSHED STREAM** is the packed one: less than a byte was left, and it was
    handed out if it held bits. -/
theorem Written.finish {a n : Nat} {out : Bytes} {fs : List (Nat × Nat)} (h : Written a n out fs)
    (hn : n < 8) :
    (if 0 < n then out ++ [UInt8.ofNat (a % 256)] else out) = packed fs := by
  have hbound := h.bound
  have hvalue := h.value
  have hwidth := h.width
  by_cases hpos : 0 < n
  · rw [if_pos hpos]
    have hsmall : a < 256 := hbound.trans_le (Nat.pow_le_pow_right Nat.two_pos (by omega : n ≤ 8))
    have hbyte : (UInt8.ofNat (a % 256)).toNat = a := by
      rw [UInt8.toNat_ofNat']
      omega
    have hget : leGet (out ++ [UInt8.ofNat (a % 256)]) = pack fs := by
      rw [leGet_append, ← hvalue, pow_256]
      show _ + _ * ((UInt8.ofNat (a % 256)).toNat + 256 * 0) = _
      rw [hbyte, Nat.mul_zero, Nat.add_zero]
    have hlen : (out ++ [UInt8.ofNat (a % 256)]).length = bytesFor (BitStream.width fs) := by
      rw [List.length_append, bytesFor, ← hwidth]
      show out.length + 1 = _
      omega
    rw [packed, ← hget, ← hlen, lePut_leGet]
  · rw [if_neg hpos]
    have hzero : n = 0 := by omega
    subst hzero
    have ha : a = 0 := Nat.lt_one_iff.mp hbound
    have hget : leGet out = pack fs := by
      rw [← hvalue, ha, Nat.mul_zero, Nat.add_zero]
    have hlen : out.length = bytesFor (BitStream.width fs) := by
      rw [bytesFor, ← hwidth]
      omega
    rw [packed, ← hget, ← hlen, lePut_leGet]

/-- What was handed out are the first bytes of the packed stream. -/
theorem Written.out_eq {a n : Nat} {out : Bytes} {fs : List (Nat × Nat)} (h : Written a n out fs) :
    out = (packed fs).take out.length := by
  have hvalue := h.value
  have hwidth := h.width
  have hroom : out.length ≤ (packed fs).length := by
    rw [packed_length, bytesFor]
    omega
  have hlen : ((packed fs).take out.length).length = out.length := by
    rw [List.length_take, Nat.min_eq_left hroom]
  have hsplit : pack fs = leGet ((packed fs).take out.length) +
      256 ^ out.length * leGet ((packed fs).drop out.length) := by
    conv_lhs => rw [← leGet_packed, ← List.take_append_drop out.length (packed fs)]
    rw [leGet_append, hlen]
  rw [← pow_256, hsplit] at hvalue
  have hsame : leGet out = leGet ((packed fs).take out.length) := by
    have hmod := congrArg (· % 256 ^ out.length) hvalue
    have hfirst := leGet_lt ((packed fs).take out.length)
    rw [hlen] at hfirst
    simpa only [Nat.add_mul_mod_self_left, Nat.mod_eq_of_lt (leGet_lt out),
      Nat.mod_eq_of_lt hfirst] using hmod
  calc out = lePut out.length (leGet out) := (lePut_leGet out).symm
    _ = lePut ((packed fs).take out.length).length (leGet ((packed fs).take out.length)) := by
      rw [hlen, hsame]
    _ = (packed fs).take out.length := lePut_leGet _

/-! ## Reading -/

/-- A reader that holds `n` bits `a` in front of the bytes `s` has the `size`
    bits of `V` before it. -/
structure Holds (a n : Nat) (s : Bytes) (V size : Nat) : Prop where
  bound : a < 2 ^ n
  value : a + 2 ^ n * leGet s = V
  size : n + 8 * s.length = size

theorem holds_start (s : Bytes) : Holds 0 0 s (leGet s) (8 * s.length) where
  bound := Nat.one_pos
  value := by rw [Nat.pow_zero, Nat.one_mul, Nat.zero_add]
  size := Nat.zero_add _

/-- Bytes are loaded above the bits in hand. -/
theorem Holds.load {a n : Nat} {s : Bytes} {V size : Nat} (h : Holds a n s V size) {k : Nat}
    (hk : k ≤ s.length) :
    Holds (a + 2 ^ n * leGet (s.take k)) (n + 8 * k) (s.drop k) V size := by
  have hlen : (s.take k).length = k := by
    rw [List.length_take]
    omega
  have hlt := leGet_lt (s.take k)
  rw [hlen, pow_256] at hlt
  refine ⟨?_, ?_, ?_⟩
  · calc a + 2 ^ n * leGet (s.take k)
        < 2 ^ n + 2 ^ n * leGet (s.take k) := Nat.add_lt_add_right h.bound _
      _ = 2 ^ n * (leGet (s.take k) + 1) := by ring
      _ ≤ 2 ^ n * 2 ^ (8 * k) := Nat.mul_le_mul_left _ hlt
      _ = 2 ^ (n + 8 * k) := (Nat.pow_add ..).symm
  · have hsplit : leGet s = leGet (s.take k) + 2 ^ (8 * k) * leGet (s.drop k) := by
      conv_lhs => rw [← List.take_append_drop k s]
      rw [leGet_append, hlen, pow_256]
    rw [← h.value, hsplit, Nat.pow_add]
    ring
  · have hsize := h.size
    rw [List.length_drop]
    omega

/-- The accumulator after a load, as a shift and a disjunction compute it. -/
theorem or_shiftLeft {a n : Nat} (h : a < 2 ^ n) (x : Nat) : a ||| x <<< n = a + 2 ^ n * x := by
  rw [Nat.or_comm, ← Nat.shiftLeft_add_eq_or_of_lt h, Nat.shiftLeft_eq, Nat.add_comm, Nat.mul_comm]

/-- The bits in hand are the lowest ones. -/
theorem Holds.peek {a n : Nat} {s : Bytes} {V size w : Nat} (h : Holds a n s V size)
    (hw : w ≤ n ∨ s = []) : a % 2 ^ w = V % 2 ^ w := by
  have hvalue := h.value
  rcases hw with hw | rfl
  · have hpow : 2 ^ n = 2 ^ w * 2 ^ (n - w) := by
      rw [← Nat.pow_add, Nat.add_sub_cancel' hw]
    rw [← hvalue, hpow, Nat.mul_assoc, Nat.add_mul_mod_self_left]
  · rw [← hvalue, leGet, Nat.mul_zero, Nat.add_zero]

/-- **BITS IN HAND ARE TAKEN** from below. -/
theorem Holds.take {a n : Nat} {s : Bytes} {V size w : Nat} (h : Holds a n s V size)
    (hw : w ≤ n) : Holds (a / 2 ^ w) (n - w) s (V / 2 ^ w) (size - w) := by
  have hpow : 2 ^ n = 2 ^ w * 2 ^ (n - w) := by
    rw [← Nat.pow_add, Nat.add_sub_cancel' hw]
  have hbound := h.bound
  have hsize := h.size
  rw [hpow] at hbound
  refine ⟨Nat.div_lt_of_lt_mul hbound, ?_, by omega⟩
  rw [← h.value, hpow, Nat.mul_assoc, Nat.add_mul_div_left _ _ (Nat.two_pow_pos w)]

/-- The bits of `V` start with `fs`. -/
structure Starts (V size : Nat) (fs : List (Nat × Nat)) : Prop where
  value : ∃ rest, V = pack fs + 2 ^ width fs * rest
  enough : width fs ≤ size

/-- A packed stream starts with its fields, whatever lies behind it. -/
theorem starts_packed (fs : List (Nat × Nat)) (rest : Bytes) :
    Starts (leGet (packed fs ++ rest)) (8 * (packed fs ++ rest).length) fs where
  value := by
    obtain ⟨pad, hpad⟩ : ∃ pad, 8 * bytesFor (width fs) = width fs + pad :=
      ⟨8 * bytesFor (width fs) - width fs, by rw [bytesFor]; omega⟩
    refine ⟨2 ^ pad * leGet rest, ?_⟩
    rw [leGet_append, leGet_packed, packed_length, pow_256, hpad, Nat.pow_add]
    ring
  enough := by
    rw [List.length_append, packed_length, bytesFor]
    omega

/-- **THE FIRST FIELD** is what the lowest bits are. -/
theorem Starts.take {V size v w : Nat} {fs : List (Nat × Nat)} (h : Starts V size ((v, w) :: fs)) :
    V % 2 ^ w = v % 2 ^ w ∧ w ≤ size ∧ Starts (V / 2 ^ w) (size - w) fs := by
  obtain ⟨rest, hrest⟩ := h.value
  have henough : w + width fs ≤ size := h.enough
  have hsum : V = v % 2 ^ w + 2 ^ w * (pack fs + 2 ^ width fs * rest) := by
    rw [hrest]
    show v % 2 ^ w + 2 ^ w * pack fs + 2 ^ (w + width fs) * rest = _
    rw [Nat.pow_add]
    ring
  refine ⟨?_, by omega, ⟨rest, ?_⟩, by omega⟩
  · rw [hsum, Nat.add_mul_mod_self_left, Nat.mod_mod]
  · rw [hsum, Nat.add_mul_div_left _ _ (Nat.two_pow_pos w),
      Nat.div_eq_of_lt (Nat.mod_lt _ (Nat.two_pow_pos w)), Nat.zero_add]

end Zupt.BitStream
