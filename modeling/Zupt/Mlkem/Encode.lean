import Zupt.Mlkem.Vector

/-! # Encodings of ML-KEM

    Twelve bits a coefficient for keys, ten and four for what a ciphertext keeps, one for
    a message.  Each encoder is stated a second time on the integers modulo `q`, where
    nothing is reduced by hand. -/

namespace Zupt.Mlkem

/-! ## Encoders -/

/-- `(x % Q + Q) % Q`. -/
def residue (x : Int) : Checked Int := do
  let s ← int32 (x.tmod q + q)
  return s.tmod q

/-- Two coefficients of 12 bits, in three bytes. -/
def pack12 (t0 t1 : Nat) : Bytes :=
  [UInt8.ofNat t0, UInt8.ofNat (t0 >>> 8 ||| t1 <<< 4), UInt8.ofNat (t1 >>> 4)]

/-- Four coefficients of 10 bits, in five bytes. -/
def pack10 (t0 t1 t2 t3 : Nat) : Bytes :=
  [UInt8.ofNat t0, UInt8.ofNat (t0 >>> 8 ||| t1 <<< 2), UInt8.ofNat (t1 >>> 6 ||| t2 <<< 4),
    UInt8.ofNat (t2 >>> 4 ||| t3 <<< 6), UInt8.ofNat (t3 >>> 2)]

/-- Two coefficients of 4 bits, in one byte. -/
def pack4 (t0 t1 : Nat) : Bytes := [UInt8.ofNat (t0 ||| t1 <<< 4)]

/-- `poly_tobytes`. -/
def polyTobytes (a : Poly) : Checked Bytes :=
  rowLoop (fun i => do
    let s0 ← residue (a (2 * i))
    let t0 ← uint16 s0
    let s1 ← residue (a (2 * i + 1))
    let t1 ← uint16 s1
    return pack12 t0 t1) 128

/-- `((uint32_t)x * (1 << d) + Q/2) / Q`, cut to `d` bits behind a conversion. -/
def compressCoeff (convert : Int → Checked Nat) (d : Nat) (a : Int) : Checked Nat := do
  let s ← residue a
  let x ← int16 s
  let x ← uint32 x
  let u ← uint32 (x * 2 ^ d : Nat)
  let v ← uint32 (u + 3329 / 2 : Nat)
  let t ← convert (v / 3329 : Nat)
  return t &&& (2 ^ d - 1)

/-- `poly_compress` with `d == 10`. -/
def polyCompress10 (a : Poly) : Checked Bytes :=
  rowLoop (fun i => do
    let t0 ← compressCoeff uint16 10 (a (4 * i))
    let t1 ← compressCoeff uint16 10 (a (4 * i + 1))
    let t2 ← compressCoeff uint16 10 (a (4 * i + 2))
    let t3 ← compressCoeff uint16 10 (a (4 * i + 3))
    return pack10 t0 t1 t2 t3) 64

/-- `poly_compress` with `d == 4`. -/
def polyCompress4 (a : Poly) : Checked Bytes :=
  rowLoop (fun i => do
    let t0 ← compressCoeff uint8 4 (a (2 * i))
    let t1 ← compressCoeff uint8 4 (a (2 * i + 1))
    return pack4 t0 t1) 128

/-- `polyvec_tobytes`. -/
def polyvecTobytes (v : Polyvec) : Checked Bytes := rowLoop (fun i => polyTobytes (v i)) mlkemK

/-- `polyvec_compress`. -/
def polyvecCompress (v : Polyvec) : Checked Bytes := rowLoop (fun i => polyCompress10 (v i)) mlkemK

/-! ## Decoders -/

/-- The two coefficients of 12 bits in row `i`. -/
def unpack12 (a : Bytes) (i : Nat) : List Nat :=
  [byteAt a (3 * i) ||| (byteAt a (3 * i + 1) &&& 0x0F) <<< 8,
    byteAt a (3 * i + 1) >>> 4 ||| byteAt a (3 * i + 2) <<< 4]

/-- The four coefficients of 10 bits in row `i`. -/
def unpack10 (a : Bytes) (i : Nat) : List Nat :=
  [byteAt a (5 * i) ||| (byteAt a (5 * i + 1) &&& 3) <<< 8,
    byteAt a (5 * i + 1) >>> 2 ||| (byteAt a (5 * i + 2) &&& 0xF) <<< 6,
    byteAt a (5 * i + 2) >>> 4 ||| (byteAt a (5 * i + 3) &&& 0x3F) <<< 4,
    byteAt a (5 * i + 3) >>> 6 ||| byteAt a (5 * i + 4) <<< 2]

/-- The two coefficients of 4 bits in row `i`. -/
def unpack4 (a : Bytes) (i : Nat) : List Nat := [byteAt a i &&& 0xF, byteAt a i >>> 4]

/-- `poly_frombytes`. -/
def polyFrombytes (a : Bytes) : Checked Poly := do
  let l ← rowLoop (fun i => (unpack12 a i).mapM fun (t : Nat) => int16 t) 128
  return cells l

/-- `((uint32_t)t * Q + (1 << (d-1))) >> d`, as `int16_t`. -/
def decompressCoeff (d t : Nat) : Checked Int := do
  let u ← uint32 (t * 3329 : Nat)
  let v ← uint32 (u + 2 ^ (d - 1) : Nat)
  int16 (v >>> d : Nat)

/-- `poly_decompress` with `d == 10`. -/
def polyDecompress10 (a : Bytes) : Checked Poly := do
  let l ← rowLoop (fun i => (unpack10 a i).mapM fun t => decompressCoeff 10 (t &&& 0x3FF)) 64
  return cells l

/-- `poly_decompress` with `d == 4`. -/
def polyDecompress4 (a : Bytes) : Checked Poly := do
  let l ← rowLoop (fun i => (unpack4 a i).mapM fun t => decompressCoeff 4 t) 128
  return cells l

/-- `polyvec_frombytes`. -/
def polyvecFrombytes (a : Bytes) : Checked Polyvec :=
  fillLoop (fun i => polyFrombytes (a.drop (i * 384))) mlkemK

/-- `polyvec_decompress`. -/
def polyvecDecompress (a : Bytes) : Checked Polyvec :=
  fillLoop (fun i => polyDecompress10 (a.drop (i * 320))) mlkemK

/-! ## Messages -/

/-- `(m[i/8] >> (i%8)) & 1`. -/
def messageBit (m : Bytes) (i : Nat) : Nat := byteAt m (i / 8) >>> (i % 8) &&& 1

/-- The polynomial `mp` of a message. -/
def messagePoly (m : Bytes) : Checked Poly :=
  fillLoop (fun i => int16 (Int.land (-(messageBit m i)) ((q + 1) / 2))) 256

/-- The bit that a coefficient is closest to. -/
def decodeBit (a : Int) : Checked Nat := do
  let s ← residue a
  let x ← int16 s
  let x ← uint32 x
  let u ← uint32 (x * 2 : Nat)
  let v ← uint32 (u + 3329 / 2 : Nat)
  let t ← uint16 (v / 3329 : Nat)
  return t &&& 1

/-- The loop of `kpke_decrypt` over the bits of the message. -/
def messageLoop (w : Poly) : (n : Nat) → Checked (Nat → Nat)
  | 0 => .ok fun _ => 0
  | n + 1 => do
      let m ← messageLoop w n
      let t ← decodeBit (w n)
      let b ← uint8 (t <<< (n % 8) : Nat)
      return Function.update m (n / 8) (m (n / 8) ||| b)

/-- The message of a polynomial. -/
def messageBytes (w : Poly) : Checked Bytes := do
  let m ← messageLoop w 256
  return (List.range 32).map fun i => UInt8.ofNat (m i)

/-! ## Encoders, exactly -/

/-- `poly_tobytes` on the integers modulo `q`. -/
def polyTobytesExact (f : Nat → Zq) : Bytes :=
  (List.range 128).flatMap fun i => pack12 (f (2 * i)).val (f (2 * i + 1)).val

/-- The nearest multiple of `q / 2 ^ d`, by its number. -/
def compressExact (d : Nat) (x : Zq) : Nat := (x.val * 2 ^ d + 1664) / 3329 % 2 ^ d

def polyCompress10Exact (f : Nat → Zq) : Bytes :=
  (List.range 64).flatMap fun i => pack10 (compressExact 10 (f (4 * i)))
    (compressExact 10 (f (4 * i + 1))) (compressExact 10 (f (4 * i + 2)))
    (compressExact 10 (f (4 * i + 3)))

def polyCompress4Exact (f : Nat → Zq) : Bytes :=
  (List.range 128).flatMap fun i => pack4 (compressExact 4 (f (2 * i))) (compressExact 4 (f (2 * i + 1)))

def polyvecTobytesExact (f : Nat → Nat → Zq) : Bytes :=
  (List.range mlkemK).flatMap fun j => polyTobytesExact (f j)

def polyvecCompressExact (f : Nat → Nat → Zq) : Bytes :=
  (List.range mlkemK).flatMap fun j => polyCompress10Exact (f j)

/-- The remainder has the sign of the number. -/
theorem tmod_range (a : Int) :
    (-3329 < a.tmod q ∧ a.tmod q < 3329) ∧ ∃ k, a.tmod q = a - 3329 * k := by
  refine ⟨⟨?_, Int.tmod_lt_of_pos a (by decide)⟩, a.tdiv q, Int.tmod_def a q⟩
  have hneg := Int.tmod_lt_of_pos (-a) (b := q) (by decide)
  rw [Int.neg_tmod] at hneg
  show -q < a.tmod q
  omega

/-- **THE REPRESENTATIVE** from 0 to `Q - 1`. -/
theorem residue_eq (a : Int) : residue a = .ok ((a : Zq).val : Nat) := by
  obtain ⟨hrange, k, hk⟩ := tmod_range a
  have hpos : (a.tmod q + q).tmod q = (a.tmod q + q) % q :=
    Int.tmod_eq_emod_of_nonneg (by rw [q]; rw [q] at hrange; omega)
  have hmod : (a.tmod q + q).tmod q = a % 3329 := by
    rw [hpos, hk, q]
    omega
  have hbound : -2 ^ 31 ≤ a.tmod q + q ∧ a.tmod q + q < 2 ^ 31 := by
    show -2 ^ 31 ≤ a.tmod q + 3329 ∧ a.tmod q + 3329 < 2 ^ 31
    omega
  rw [residue, int32_ok hbound, ok_bind, hmod, ZMod.val_intCast]
  rfl

theorem val_lt (x : Zq) : x.val < 3329 := ZMod.val_lt x

theorem polyTobytes_eq {B : Int} {a : Poly} {f : Nat → Zq} (h : Rep B a f) :
    polyTobytes a = .ok (polyTobytesExact f) := by
  refine rowLoop_pure fun i hi => ?_
  have f0 := (h (2 * i) (by omega)).2
  have f1 := (h (2 * i + 1) (by omega)).2
  have hv0 := val_lt (f (2 * i))
  have hv1 := val_lt (f (2 * i + 1))
  rw [residue_eq, f0, ok_bind, uint16_ok (by omega), ok_bind, residue_eq, f1, ok_bind,
    uint16_ok (by omega)]
  rfl

/-- The conversion keeps what `d` bits and one more can hold. -/
theorem compressCoeff_eq {convert : Int → Checked Nat} {d : Nat} {a : Int} (hd : d ≤ 10)
    (hconvert : ∀ n : Nat, n ≤ 2 ^ d → convert n = .ok n) :
    compressCoeff convert d a = .ok (compressExact d a) := by
  have hv := val_lt (a : Zq)
  have hp : 2 ^ d ≤ 2 ^ 10 := Nat.pow_le_pow_right (by decide) hd
  have hmul : (a : Zq).val * 2 ^ d ≤ 3328 * 2 ^ d := Nat.mul_le_mul_right _ (by omega)
  have hle : ((a : Zq).val * 2 ^ d + 3329 / 2) / 3329 ≤ 2 ^ d := by omega
  rw [compressCoeff, residue_eq, ok_bind, int16_ok (by omega), ok_bind, uint32_ok (by omega),
    ok_bind, uint32_ok (by omega), ok_bind, uint32_ok (by omega), ok_bind, hconvert _ hle, ok_bind,
    Nat.and_two_pow_sub_one_eq_mod]
  rfl

theorem polyCompress10_eq {B : Int} {a : Poly} {f : Nat → Zq} (h : Rep B a f) :
    polyCompress10 a = .ok (polyCompress10Exact f) := by
  have hcoeff : ∀ i < 256, compressCoeff uint16 10 (a i) = .ok (compressExact 10 (f i)) := by
    intro i hi
    rw [compressCoeff_eq (by decide) fun n hn => uint16_ok (by omega), (h i hi).2]
  refine rowLoop_pure fun i hi => ?_
  rw [hcoeff _ (by omega), ok_bind, hcoeff _ (by omega), ok_bind, hcoeff _ (by omega), ok_bind,
    hcoeff _ (by omega)]
  rfl

theorem polyCompress4_eq {B : Int} {a : Poly} {f : Nat → Zq} (h : Rep B a f) :
    polyCompress4 a = .ok (polyCompress4Exact f) := by
  have hcoeff : ∀ i < 256, compressCoeff uint8 4 (a i) = .ok (compressExact 4 (f i)) := by
    intro i hi
    rw [compressCoeff_eq (by decide) fun n hn => uint8_ok (by omega), (h i hi).2]
  refine rowLoop_pure fun i hi => ?_
  rw [hcoeff _ (by omega), ok_bind, hcoeff _ (by omega)]
  rfl

theorem polyvecTobytes_eq {B : Int} {v : Polyvec} {f : Nat → Nat → Zq} (h : VecRep B v f) :
    polyvecTobytes v = .ok (polyvecTobytesExact f) :=
  rowLoop_pure fun j hj => polyTobytes_eq (h j hj)

theorem polyvecCompress_eq {B : Int} {v : Polyvec} {f : Nat → Nat → Zq} (h : VecRep B v f) :
    polyvecCompress v = .ok (polyvecCompressExact f) :=
  rowLoop_pure fun j hj => polyCompress10_eq (h j hj)

/-! ## Decoders, exactly -/

/-- The coefficients that rows of `w` hold. -/
def codes (w : Nat) (row : Nat → List Nat) (i : Nat) : Nat := (row (i / w)).getD (i % w) 0

/-- `poly_frombytes` on the integers modulo `q`. -/
def polyFrombytesExact (a : Bytes) (i : Nat) : Zq := codes 2 (unpack12 a) i

/-- The multiple of `q / 2 ^ d` of a number. -/
def decompressExact (d t : Nat) : Zq := ((t * 3329 + 2 ^ (d - 1)) / 2 ^ d : Nat)

def polyDecompress10Exact (a : Bytes) (i : Nat) : Zq := decompressExact 10 (codes 4 (unpack10 a) i % 1024)

def polyDecompress4Exact (a : Bytes) (i : Nat) : Zq := decompressExact 4 (codes 2 (unpack4 a) i)

def polyvecFrombytesExact (a : Bytes) (j : Nat) : Nat → Zq := polyFrombytesExact (a.drop (j * 384))

def polyvecDecompressExact (a : Bytes) (j : Nat) : Nat → Zq :=
  polyDecompress10Exact (a.drop (j * 320))

/-- **A DECODER** row by row: what it makes of the coefficients stands for `f`. -/
theorem rowDecode_rep (row : Nat → List Nat) (convert : Nat → Checked Int) {w n : Nat} (hw : 0 < w)
    (hn : w * n = 256) (hrow : ∀ i, (row i).length = w) {g : Nat → Int} {B : Int}
    {f : Nat → Zq} (hg : ∀ i < n, ∀ t ∈ row i, convert t = .ok (g t))
    (hf : ∀ i < 256, (-B ≤ g (codes w row i) ∧ g (codes w row i) ≤ B) ∧ (g (codes w row i) : Zq) = f i) :
    ∃ l, rowLoop (fun i => (row i).mapM convert) n = .ok l ∧ Rep B (cells l) f := by
  obtain ⟨l, hl, -, hall⟩ := rowLoop_all (g := fun i => (row i).mapM convert) (w := w) (d := 0)
    (P := fun i x => (-B ≤ x ∧ x ≤ B) ∧ (x : Zq) = f i) (n := n) fun i hi => by
      refine ⟨(row i).map g, mapM_ok (hg i hi), by rw [List.length_map, hrow], fun k hk => ?_⟩
      have hplace : (w * i + k) / w = i ∧ (w * i + k) % w = k := by
        rw [Nat.mul_add_div hw, Nat.div_eq_of_lt hk, Nat.mul_add_mod, Nat.mod_eq_of_lt hk]
        exact ⟨rfl, rfl⟩
      have hlt : w * i + k < 256 := by
        have hnext := Nat.mul_le_mul_left w (Nat.succ_le_of_lt hi)
        rw [hn, Nat.mul_succ] at hnext
        omega
      have hcell := hf (w * i + k) hlt
      rw [codes, hplace.1, hplace.2] at hcell
      have hget : ((row i).map g).getD k 0 = g ((row i).getD k 0) := by
        rw [List.getD_eq_getElem _ _ (by rw [List.length_map, hrow]; exact hk), List.getElem_map,
          List.getD_eq_getElem _ _ (by rw [hrow]; exact hk)]
      rw [hget]
      exact hcell
  rw [hn] at hall
  exact ⟨l, hl, hall⟩

/-- The coefficients of a row of 12 bits, in numbers. -/
theorem unpack12_eq (a : Bytes) (i : Nat) :
    unpack12 a i = [byteAt a (3 * i) + byteAt a (3 * i + 1) % 16 * 2 ^ 8,
      byteAt a (3 * i + 1) / 2 ^ 4 + byteAt a (3 * i + 2) * 2 ^ 4] := by
  have h0 := byteAt_lt a (3 * i)
  have h1 := byteAt_lt a (3 * i + 1)
  have hmask : byteAt a (3 * i + 1) &&& 0x0F = byteAt a (3 * i + 1) % 16 :=
    Nat.and_two_pow_sub_one_eq_mod _ 4
  rw [unpack12, hmask, or_shiftLeft_mul (k := 8) (by omega), Nat.shiftRight_eq_div_pow,
    or_shiftLeft_mul (k := 4) (by omega)]

theorem codes12_lt (a : Bytes) (i : Nat) : codes 2 (unpack12 a) i < 4096 := by
  rw [codes, unpack12_eq]
  have h0 := byteAt_lt a (3 * (i / 2))
  have h1 := byteAt_lt a (3 * (i / 2) + 1)
  have h2 := byteAt_lt a (3 * (i / 2) + 2)
  rcases Nat.mod_two_eq_zero_or_one i with he | ho
  · rw [he]
    show byteAt a (3 * (i / 2)) + byteAt a (3 * (i / 2) + 1) % 16 * 2 ^ 8 < 4096
    omega
  · rw [ho]
    show byteAt a (3 * (i / 2) + 1) / 2 ^ 4 + byteAt a (3 * (i / 2) + 2) * 2 ^ 4 < 4096
    omega

/-- A coefficient of a row is a coefficient of the sequence. -/
theorem mem_row {row : Nat → List Nat} {w : Nat} (hrow : ∀ i, (row i).length = w) {i t : Nat}
    (ht : t ∈ row i) : ∃ k < w, t = codes w row (w * i + k) := by
  obtain ⟨k, hk, rfl⟩ := List.mem_iff_getElem.mp ht
  rw [hrow] at hk
  refine ⟨k, hk, ?_⟩
  rw [codes, Nat.mul_add_div (by omega), Nat.div_eq_of_lt hk, Nat.mul_add_mod, Nat.mod_eq_of_lt hk,
    Nat.add_zero, List.getD_eq_getElem _ _ (by rw [hrow]; exact hk)]

/-- **KEYS** decode to coefficients that need not be reduced. -/
theorem polyFrombytes_rep (a : Bytes) :
    ∃ r, polyFrombytes a = .ok r ∧ Rep 4095 r (polyFrombytesExact a) := by
  obtain ⟨l, hl, hrep⟩ := rowDecode_rep (unpack12 a) (fun t => int16 t) (w := 2) (n := 128) (by decide)
    rfl (fun i => rfl) (g := fun t => (t : Int)) (B := 4095)
    (f := polyFrombytesExact a) (fun i hi t ht => by
      obtain ⟨k, -, rfl⟩ := mem_row (w := 2) (fun i => rfl) ht
      have hlt := codes12_lt a (2 * i + k)
      exact int16_ok (by omega)) fun i hi => by
      have hlt := codes12_lt a i
      exact ⟨by omega, by rw [Int.cast_natCast]; rfl⟩
  exact ⟨cells l, by rw [polyFrombytes, hl]; rfl, hrep⟩

theorem decompressCoeff_eq {d t : Nat} (hd : 0 < d) (hlarge : d ≤ 10) (ht : t < 2 ^ d) :
    decompressCoeff d t = .ok ((t * 3329 + 2 ^ (d - 1)) / 2 ^ d : Nat) ∧
      (t * 3329 + 2 ^ (d - 1)) / 2 ^ d ≤ 3329 := by
  have hp : 2 ^ d ≤ 2 ^ 10 := Nat.pow_le_pow_right (by decide) hlarge
  have hhalf : 2 ^ d = 2 * 2 ^ (d - 1) := by
    rw [← Nat.pow_succ', Nat.succ_eq_add_one, Nat.sub_add_cancel hd]
  have hle : (t * 3329 + 2 ^ (d - 1)) / 2 ^ d ≤ 3329 := by
    have hlt : t * 3329 + 2 ^ (d - 1) < 2 ^ d * 3330 := by omega
    have hdiv := Nat.div_lt_of_lt_mul hlt
    omega
  refine ⟨?_, hle⟩
  rw [decompressCoeff, uint32_ok (by omega), ok_bind, uint32_ok (by omega), ok_bind,
    Nat.shiftRight_eq_div_pow]
  generalize (t * 3329 + 2 ^ (d - 1)) / 2 ^ d = x at hle ⊢
  exact int16_ok (by omega)

theorem polyDecompress10_rep (a : Bytes) :
    ∃ r, polyDecompress10 a = .ok r ∧ Rep 3329 r (polyDecompress10Exact a) := by
  have hmask : ∀ t : Nat, t &&& 0x3FF = t % 1024 := fun t => Nat.and_two_pow_sub_one_eq_mod t 10
  obtain ⟨l, hl, hrep⟩ := rowDecode_rep (unpack10 a) (fun t => decompressCoeff 10 (t &&& 0x3FF)) (w := 4)
    (n := 64) (by decide) rfl (fun i => rfl)
    (g := fun t => ((t % 1024 * 3329 + 2 ^ 9) / 2 ^ 10 : Nat)) (B := 3329)
    (f := polyDecompress10Exact a) (fun i hi t ht => by
      rw [hmask]
      exact (decompressCoeff_eq (d := 10) (by decide) (by decide) (by omega)).1) fun i hi => by
      have hle := (decompressCoeff_eq (d := 10) (t := codes 4 (unpack10 a) i % 1024) (by decide)
        (by decide) (by omega)).2
      exact ⟨by omega, by rw [Int.cast_natCast]; rfl⟩
  exact ⟨cells l, by rw [polyDecompress10, hl]; rfl, hrep⟩

theorem codes4_lt (a : Bytes) (i : Nat) : codes 2 (unpack4 a) i < 16 := by
  have h0 := byteAt_lt a (i / 2)
  rw [codes]
  rcases Nat.mod_two_eq_zero_or_one i with he | ho
  · rw [he]
    show byteAt a (i / 2) &&& 0xF < 16
    exact Nat.and_lt_two_pow _ (n := 4) (by decide)
  · rw [ho]
    show byteAt a (i / 2) >>> 4 < 16
    rw [Nat.shiftRight_eq_div_pow]
    omega

theorem polyDecompress4_rep (a : Bytes) :
    ∃ r, polyDecompress4 a = .ok r ∧ Rep 3329 r (polyDecompress4Exact a) := by
  obtain ⟨l, hl, hrep⟩ := rowDecode_rep (unpack4 a) (fun t => decompressCoeff 4 t) (w := 2) (n := 128)
    (by decide) rfl (fun i => rfl)
    (g := fun t => ((t * 3329 + 2 ^ 3) / 2 ^ 4 : Nat)) (B := 3329) (f := polyDecompress4Exact a)
    (fun i hi t ht => by
      obtain ⟨k, -, rfl⟩ := mem_row (w := 2) (fun i => rfl) ht
      exact (decompressCoeff_eq (d := 4) (by decide) (by decide) (codes4_lt a _)).1) fun i hi => by
      have hle := (decompressCoeff_eq (d := 4) (by decide) (by decide) (codes4_lt a i)).2
      exact ⟨by omega, by rw [Int.cast_natCast]; rfl⟩
  exact ⟨cells l, by rw [polyDecompress4, hl]; rfl, hrep⟩

theorem polyvecFrombytes_rep (a : Bytes) :
    ∃ v, polyvecFrombytes a = .ok v ∧ VecRep 4095 v (polyvecFrombytesExact a) :=
  fillLoop_vecRep fun j _ => polyFrombytes_rep (a.drop (j * 384))

theorem polyvecDecompress_rep (a : Bytes) :
    ∃ v, polyvecDecompress a = .ok v ∧ VecRep 3329 v (polyvecDecompressExact a) :=
  fillLoop_vecRep fun j _ => polyDecompress10_rep (a.drop (j * 320))

/-! ## Messages, exactly -/

/-- The coefficient of a bit. -/
def messagePolyExact (m : Bytes) (i : Nat) : Zq := messageBit m i * 1665

/-- The bit of a coefficient. -/
def decodeExact (x : Zq) : Nat := (x.val * 2 + 1664) / 3329 % 2

/-- Eight bits from the lowest. -/
def bitsByte (t : Nat → Nat) : Nat := ∑ k ∈ Finset.range 8, t k * 2 ^ k

def messageBytesExact (f : Nat → Zq) : Bytes :=
  (List.range 32).map fun b => UInt8.ofNat (bitsByte fun k => decodeExact (f (8 * b + k)))

theorem messageBit_lt (m : Bytes) (i : Nat) : messageBit m i < 2 :=
  Nat.and_lt_two_pow _ (n := 1) (by decide)

/-- The mask of a bit keeps all of half of `Q`, or nothing. -/
theorem message_mask : ∀ b < 2, Int.land (-(b : Nat)) ((q + 1) / 2) = b * 1665 := by decide +kernel

theorem messagePoly_rep (m : Bytes) :
    ∃ r, messagePoly m = .ok r ∧ Rep 1665 r (messagePolyExact m) := by
  refine fillLoop_rep fun i _ => ?_
  have hbit := messageBit_lt m i
  rw [message_mask _ hbit, messagePolyExact]
  exact ⟨_, int16_ok (by omega), by omega, by rw [Int.cast_mul, Int.cast_natCast, Int.cast_ofNat]⟩

theorem decodeBit_eq (a : Int) : decodeBit a = .ok (decodeExact a) := by
  have hv := val_lt (a : Zq)
  rw [decodeBit, residue_eq, ok_bind, int16_ok (by omega), ok_bind, uint32_ok (by omega), ok_bind,
    uint32_ok (by omega), ok_bind, uint32_ok (by omega), ok_bind, uint16_ok (by omega), ok_bind,
    Nat.and_two_pow_sub_one_eq_mod _ 1]
  rfl

theorem decodeExact_lt (x : Zq) : decodeExact x < 2 := Nat.mod_lt _ (by decide)

/-- The first bits leave room for the next one. -/
theorem bits_lt {t : Nat → Nat} (ht : ∀ k, t k < 2) (n : Nat) :
    ∑ k ∈ Finset.range n, t k * 2 ^ k < 2 ^ n := by
  induction n with
  | zero => rw [Finset.sum_range_zero]; decide
  | succ n ih =>
      rw [Finset.sum_range_succ, Nat.pow_succ]
      have hnext : t n * 2 ^ n ≤ 1 * 2 ^ n := Nat.mul_le_mul_right _ (Nat.le_of_lt_succ (ht n))
      omega

/-- **THE BITS** that `n` turns have written into a byte. -/
theorem messageLoop_eq {w : Poly} {f : Nat → Zq} {n : Nat} (hf : ∀ i < n, (w i : Zq) = f i) :
    messageLoop w n = .ok fun b =>
      ∑ k ∈ Finset.range (min 8 (n - 8 * b)), decodeExact (f (8 * b + k)) * 2 ^ k := by
  induction n with
  | zero =>
      rw [messageLoop]
      congr 1
      funext b
      rw [Nat.zero_sub, Nat.min_zero, Finset.sum_range_zero]
  | succ n ih =>
      have hbit := decodeExact_lt (f n)
      have hpow : 2 ^ (n % 8) ≤ 2 ^ 7 := Nat.pow_le_pow_right (by decide) (by omega)
      have hmul : decodeExact (f n) * 2 ^ (n % 8) ≤ 1 * 2 ^ (n % 8) :=
        Nat.mul_le_mul_right _ (by omega)
      rw [messageLoop, ih fun i hi => hf i (Nat.lt_succ_of_lt hi), ok_bind, decodeBit_eq, ok_bind,
        hf n (Nat.lt_succ_self n), uint8_ok (by rw [Nat.shiftLeft_eq]; omega), ok_bind]
      refine congrArg Except.ok (funext fun b => ?_)
      by_cases hb : b = n / 8
      · -- the next bit of the byte that is being written
        have hbefore : min 8 (n - 8 * (n / 8)) = n % 8 := by omega
        have hafter : min 8 (n + 1 - 8 * (n / 8)) = n % 8 + 1 := by omega
        have hplace : 8 * (n / 8) + n % 8 = n := by omega
        rw [hb, Function.update_self]
        show (∑ k ∈ Finset.range (min 8 (n - 8 * (n / 8))), _) ||| _ = _
        rw [hbefore, hafter, Finset.sum_range_succ, hplace,
          or_shiftLeft_mul (bits_lt (fun k => decodeExact_lt _) _)]
      · have hsame : min 8 (n - 8 * b) = min 8 (n + 1 - 8 * b) := by omega
        rw [Function.update_of_ne hb, hsame]

theorem messageBytes_eq {B : Int} {w : Poly} {f : Nat → Zq} (h : Rep B w f) :
    messageBytes w = .ok (messageBytesExact f) := by
  rw [messageBytes, messageLoop_eq fun i hi => (h i hi).2, ok_bind]
  refine congrArg Except.ok (List.map_congr_left fun b hb => ?_)
  have hlt := List.mem_range.mp hb
  have hfull : min 8 (256 - 8 * b) = 8 := by omega
  show UInt8.ofNat (∑ k ∈ Finset.range (min 8 (256 - 8 * b)), _) = _
  rw [hfull, bitsByte]

end Zupt.Mlkem
