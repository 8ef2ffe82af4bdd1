import Zupt.Mlkem.Pke

/-! # What encoding and decoding keep

    Twelve bits keep a coefficient; ten and four keep the number that compression has
    made of it; one bit keeps a message, as long as less than a quarter of `q` is added
    to its coefficients. -/

namespace Zupt.Mlkem

/-! ## Twelve bits -/

/-- **TWELVE BITS** are enough for a coefficient. -/
theorem unpack12_pack12 {a : Bytes} {i t0 t1 : Nat} (h0 : t0 < 4096) (h1 : t1 < 4096)
    (hrow : ∀ k < 3, byteAt a (3 * i + k) = byteAt (pack12 t0 t1) k) : unpack12 a i = [t0, t1] := by
  have hb0 : byteAt a (3 * i) = t0 % 256 := (hrow 0 (by decide)).trans (toNat_byte _)
  have hb1 : byteAt a (3 * i + 1) = (t0 / 2 ^ 8 + t1 * 2 ^ 4) % 256 := by
    rw [hrow 1 (by decide), ← or_shiftLeft_mul (by omega), ← Nat.shiftRight_eq_div_pow]
    exact toNat_byte _
  have hb2 : byteAt a (3 * i + 2) = t1 / 2 ^ 4 % 256 := by
    rw [hrow 2 (by decide), ← Nat.shiftRight_eq_div_pow]
    exact toNat_byte _
  rw [unpack12_eq, hb0, hb1, hb2]
  refine congrArg₂ List.cons (by omega) (congrArg₂ List.cons (by omega) rfl)

theorem polyFrombytes_polyTobytes (f : Nat → Zq) {a : Bytes}
    (ha : ∀ i < 384, byteAt a i = byteAt (polyTobytesExact f) i) :
    ∀ i < 256, polyFrombytesExact a i = f i := by
  intro i hi
  have hrow : unpack12 a (i / 2) = [(f (2 * (i / 2))).val, (f (2 * (i / 2) + 1)).val] := by
    refine unpack12_pack12 ((val_lt _).trans (by decide)) ((val_lt _).trans (by decide)) fun k hk => ?_
    have hcell := byteAt_rows (w := 3) (h := fun i => pack12 (f (2 * i)).val (f (2 * i + 1)).val)
      (fun i => rfl) (show i / 2 < 128 by omega) hk []
    rw [ha _ (by omega), polyTobytesExact, ← List.append_nil (List.flatMap _ _), hcell]
  rw [polyFrombytesExact, codes, hrow]
  rcases Nat.mod_two_eq_zero_or_one i with he | ho
  · rw [he]
    show ((f (2 * (i / 2))).val : Zq) = f i
    rw [ZMod.natCast_zmod_val, show 2 * (i / 2) = i by omega]
  · rw [ho]
    show ((f (2 * (i / 2) + 1)).val : Zq) = f i
    rw [ZMod.natCast_zmod_val, show 2 * (i / 2) + 1 = i by omega]

/-! ## Ten bits -/

theorem unpack10_eq (a : Bytes) (i : Nat) :
    unpack10 a i = [byteAt a (5 * i) + byteAt a (5 * i + 1) % 4 * 2 ^ 8,
      byteAt a (5 * i + 1) / 2 ^ 2 + byteAt a (5 * i + 2) % 16 * 2 ^ 6,
      byteAt a (5 * i + 2) / 2 ^ 4 + byteAt a (5 * i + 3) % 64 * 2 ^ 4,
      byteAt a (5 * i + 3) / 2 ^ 6 + byteAt a (5 * i + 4) * 2 ^ 2] := by
  have h0 := byteAt_lt a (5 * i)
  have h1 := byteAt_lt a (5 * i + 1)
  have h2 := byteAt_lt a (5 * i + 2)
  have h3 := byteAt_lt a (5 * i + 3)
  have hmask2 : byteAt a (5 * i + 1) &&& 3 = byteAt a (5 * i + 1) % 4 :=
    Nat.and_two_pow_sub_one_eq_mod _ 2
  have hmask4 : byteAt a (5 * i + 2) &&& 0xF = byteAt a (5 * i + 2) % 16 :=
    Nat.and_two_pow_sub_one_eq_mod _ 4
  have hmask6 : byteAt a (5 * i + 3) &&& 0x3F = byteAt a (5 * i + 3) % 64 :=
    Nat.and_two_pow_sub_one_eq_mod _ 6
  rw [unpack10, hmask2, hmask4, hmask6, or_shiftLeft_mul (k := 8) (by omega), Nat.shiftRight_eq_div_pow,
    or_shiftLeft_mul (k := 6) (by omega), Nat.shiftRight_eq_div_pow, or_shiftLeft_mul (k := 4) (by omega),
    Nat.shiftRight_eq_div_pow, or_shiftLeft_mul (k := 2) (by omega)]

/-- **TEN BITS** are kept. -/
theorem unpack10_pack10 {a : Bytes} {i t0 t1 t2 t3 : Nat} (h0 : t0 < 1024) (h1 : t1 < 1024)
    (h2 : t2 < 1024) (h3 : t3 < 1024)
    (hrow : ∀ k < 5, byteAt a (5 * i + k) = byteAt (pack10 t0 t1 t2 t3) k) :
    unpack10 a i = [t0, t1, t2, t3] := by
  have hb0 : byteAt a (5 * i) = t0 % 256 := (hrow 0 (by decide)).trans (toNat_byte _)
  have hb1 : byteAt a (5 * i + 1) = (t0 / 2 ^ 8 + t1 * 2 ^ 2) % 256 := by
    rw [hrow 1 (by decide), ← or_shiftLeft_mul (by omega), ← Nat.shiftRight_eq_div_pow]
    exact toNat_byte _
  have hb2 : byteAt a (5 * i + 2) = (t1 / 2 ^ 6 + t2 * 2 ^ 4) % 256 := by
    rw [hrow 2 (by decide), ← or_shiftLeft_mul (by omega), ← Nat.shiftRight_eq_div_pow]
    exact toNat_byte _
  have hb3 : byteAt a (5 * i + 3) = (t2 / 2 ^ 4 + t3 * 2 ^ 6) % 256 := by
    rw [hrow 3 (by decide), ← or_shiftLeft_mul (by omega), ← Nat.shiftRight_eq_div_pow]
    exact toNat_byte _
  have hb4 : byteAt a (5 * i + 4) = t3 / 2 ^ 2 % 256 := by
    rw [hrow 4 (by decide), ← Nat.shiftRight_eq_div_pow]
    exact toNat_byte _
  rw [unpack10_eq, hb0, hb1, hb2, hb3, hb4]
  exact congrArg₂ List.cons (by omega) (congrArg₂ List.cons (by omega)
    (congrArg₂ List.cons (by omega) (congrArg₂ List.cons (by omega) rfl)))

theorem compressExact_lt (d : Nat) (x : Zq) : compressExact d x < 2 ^ d := Nat.mod_lt _ (Nat.two_pow_pos d)

/-- What compression makes of a coefficient. -/
def rounded (d : Nat) (x : Zq) : Zq := decompressExact d (compressExact d x)

theorem polyDecompress10_polyCompress10 (f : Nat → Zq) {a : Bytes}
    (ha : ∀ i < 320, byteAt a i = byteAt (polyCompress10Exact f) i) :
    ∀ i < 256, polyDecompress10Exact a i = rounded 10 (f i) := by
  intro i hi
  have hrow : unpack10 a (i / 4) = [compressExact 10 (f (4 * (i / 4))),
      compressExact 10 (f (4 * (i / 4) + 1)), compressExact 10 (f (4 * (i / 4) + 2)),
      compressExact 10 (f (4 * (i / 4) + 3))] := by
    refine unpack10_pack10 (compressExact_lt 10 _) (compressExact_lt 10 _) (compressExact_lt 10 _)
      (compressExact_lt 10 _) fun k hk => ?_
    have hcell := byteAt_rows (w := 5) (h := fun i => pack10 (compressExact 10 (f (4 * i)))
      (compressExact 10 (f (4 * i + 1))) (compressExact 10 (f (4 * i + 2)))
      (compressExact 10 (f (4 * i + 3)))) (fun i => rfl) (show i / 4 < 64 by omega) hk []
    rw [ha _ (by omega), polyCompress10Exact, ← List.append_nil (List.flatMap _ _), hcell]
  have hcode : codes 4 (unpack10 a) i = compressExact 10 (f i) := by
    have hplace : i % 4 = 0 ∨ i % 4 = 1 ∨ i % 4 = 2 ∨ i % 4 = 3 := by omega
    rw [codes, hrow]
    rcases hplace with h0 | h1 | h2 | h3
    · rw [h0]
      show compressExact 10 (f (4 * (i / 4))) = _
      rw [show 4 * (i / 4) = i by omega]
    · rw [h1]
      show compressExact 10 (f (4 * (i / 4) + 1)) = _
      rw [show 4 * (i / 4) + 1 = i by omega]
    · rw [h2]
      show compressExact 10 (f (4 * (i / 4) + 2)) = _
      rw [show 4 * (i / 4) + 2 = i by omega]
    · rw [h3]
      show compressExact 10 (f (4 * (i / 4) + 3)) = _
      rw [show 4 * (i / 4) + 3 = i by omega]
  have hlt : compressExact 10 (f i) < 1024 := compressExact_lt 10 (f i)
  rw [polyDecompress10Exact, hcode, Nat.mod_eq_of_lt hlt, rounded]

/-! ## Four bits -/

/-- **FOUR BITS** are kept. -/
theorem unpack4_pack4 {a : Bytes} {i t0 t1 : Nat} (h0 : t0 < 16) (h1 : t1 < 16)
    (hrow : byteAt a i = byteAt (pack4 t0 t1) 0) : unpack4 a i = [t0, t1] := by
  have hb : byteAt a i = t0 + t1 * 2 ^ 4 := by
    rw [hrow, ← or_shiftLeft_mul (by omega)]
    refine (toNat_byte _).trans (Nat.mod_eq_of_lt ?_)
    rw [or_shiftLeft_mul (by omega)]
    omega
  have hmask : byteAt a i &&& 0xF = byteAt a i % 16 := Nat.and_two_pow_sub_one_eq_mod _ 4
  rw [unpack4, hmask, Nat.shiftRight_eq_div_pow, hb]
  exact congrArg₂ List.cons (by omega) (congrArg₂ List.cons (by omega) rfl)

theorem polyDecompress4_polyCompress4 (f : Nat → Zq) {a : Bytes}
    (ha : ∀ i < 128, byteAt a i = byteAt (polyCompress4Exact f) i) :
    ∀ i < 256, polyDecompress4Exact a i = rounded 4 (f i) := by
  intro i hi
  have hrow : unpack4 a (i / 2) = [compressExact 4 (f (2 * (i / 2))),
      compressExact 4 (f (2 * (i / 2) + 1))] := by
    refine unpack4_pack4 (compressExact_lt 4 _) (compressExact_lt 4 _) ?_
    have hcell := byteAt_rows (w := 1) (k := 0) (h := fun i =>
      pack4 (compressExact 4 (f (2 * i))) (compressExact 4 (f (2 * i + 1)))) (fun i => rfl)
      (show i / 2 < 128 by omega) (by decide) []
    rw [Nat.one_mul, Nat.add_zero] at hcell
    rw [ha _ (by omega), polyCompress4Exact, ← List.append_nil (List.flatMap _ _), hcell]
  have hcode : codes 2 (unpack4 a) i = compressExact 4 (f i) := by
    rw [codes, hrow]
    rcases Nat.mod_two_eq_zero_or_one i with he | ho
    · rw [he]
      show compressExact 4 (f (2 * (i / 2))) = _
      rw [show 2 * (i / 2) = i by omega]
    · rw [ho]
      show compressExact 4 (f (2 * (i / 2) + 1)) = _
      rw [show 2 * (i / 2) + 1 = i by omega]
  rw [polyDecompress4Exact, hcode, rounded]

/-! ## Vectors -/

theorem polyTobytesExact_length (f : Nat → Zq) : (polyTobytesExact f).length = 384 :=
  flatMap_length (w := 3) (fun _ => rfl) 128

theorem polyCompress10Exact_length (f : Nat → Zq) : (polyCompress10Exact f).length = 320 :=
  flatMap_length (w := 5) (fun _ => rfl) 64

theorem polyCompress4Exact_length (f : Nat → Zq) : (polyCompress4Exact f).length = 128 :=
  flatMap_length (w := 1) (fun _ => rfl) 128

theorem polyvecTobytesExact_length (f : Nat → Nat → Zq) : (polyvecTobytesExact f).length = 1152 :=
  flatMap_length (w := 384) (fun j => polyTobytesExact_length (f j)) mlkemK

theorem polyvecCompressExact_length (f : Nat → Nat → Zq) : (polyvecCompressExact f).length = 960 :=
  flatMap_length (w := 320) (fun j => polyCompress10Exact_length (f j)) mlkemK

/-- **A VECTOR** of encoded coefficients decodes to them. -/
theorem polyvecFrombytes_polyvecTobytes (f : Nat → Nat → Zq) (tail : Bytes) {j : Nat} (hj : j < mlkemK) :
    ∀ i < 256, polyvecFrombytesExact (polyvecTobytesExact f ++ tail) j i = f j i := by
  refine polyFrombytes_polyTobytes (f j) fun i hi => ?_
  rw [byteAt_drop, Nat.mul_comm, polyvecTobytesExact,
    byteAt_rows (w := 384) (fun j => polyTobytesExact_length (f j)) hj hi]

theorem polyvecDecompress_polyvecCompress (f : Nat → Nat → Zq) (tail : Bytes) {j : Nat} (hj : j < mlkemK) :
    ∀ i < 256, polyvecDecompressExact (polyvecCompressExact f ++ tail) j i = rounded 10 (f j i) := by
  refine polyDecompress10_polyCompress10 (f j) fun i hi => ?_
  rw [byteAt_drop, Nat.mul_comm, polyvecCompressExact,
    byteAt_rows (w := 320) (fun j => polyCompress10Exact_length (f j)) hj hi]

/-! ## Messages -/

/-- How far a coefficient is from 0. -/
def distance (x : Zq) : Int := |x.valMinAbs|

/-- **A BIT** is decoded in spite of less than a quarter of `q`. -/
theorem decodeExact_noise {b : Nat} (hb : b < 2) {x : Zq} (hx : distance x < q / 4) :
    decodeExact (b * 1665 + x) = b := by
  have hrange : -832 < x.valMinAbs ∧ x.valMinAbs < 832 := abs_lt.mp hx
  have hcast : (b * 1665 + x : Zq) = ((b * 1665 + x.valMinAbs : Int) : Zq) := by
    rw [Int.cast_add, Int.cast_mul, Int.cast_natCast, Int.cast_ofNat, ZMod.coe_valMinAbs]
  have hval : (((b * 1665 + x : Zq)).val : Int) = (b * 1665 + x.valMinAbs) % 3329 := by
    rw [hcast, ZMod.val_intCast]
    rfl
  rw [decodeExact]
  generalize (b * 1665 + x : Zq).val = y at hval ⊢
  obtain rfl | rfl : b = 0 ∨ b = 1 := by omega
  · -- 0 to 831, or 2498 to 3328
    omega
  · -- 834 to 2496
    omega

/-- The bits of a byte are the byte. -/
theorem bitsByte_byte : ∀ x < 256, bitsByte (fun k => x >>> k &&& 1) = x := by decide +kernel

/-- **A MESSAGE** is decoded in spite of less than a quarter of `q` in every coefficient. -/
theorem messageBytes_noise {m : Bytes} (hm : m.length = 32) {f η : Nat → Zq}
    (hf : ∀ i < 256, f i = messagePolyExact m i + η i) (hη : ∀ i < 256, distance (η i) < q / 4) :
    messageBytesExact f = m := by
  have hbyte : ∀ b < 32, bitsByte (fun k => decodeExact (f (8 * b + k))) = byteAt m b := by
    intro b hb
    rw [← bitsByte_byte (byteAt m b) (byteAt_lt m b)]
    refine Finset.sum_congr rfl fun k hk => ?_
    have hlt := Finset.mem_range.mp hk
    have hbit : decodeExact (f (8 * b + k)) = messageBit m (8 * b + k) := by
      rw [hf _ (by omega), messagePolyExact]
      exact decodeExact_noise (messageBit_lt m _) (hη _ (by omega))
    show decodeExact (f (8 * b + k)) * 2 ^ k = (byteAt m b >>> k &&& 1) * 2 ^ k
    rw [hbit, messageBit, show (8 * b + k) / 8 = b by omega, show (8 * b + k) % 8 = k by omega]
  refine List.ext_getElem (by rw [messageBytesExact, List.length_map, List.length_range, hm])
    fun b h1 h2 => ?_
  have hb : b < 32 := by
    rw [hm] at h2
    exact h2
  refine UInt8.toNat_inj.mp ?_
  simp only [messageBytesExact, List.getElem_map, List.getElem_range]
  rw [hbyte b hb, toNat_byte, Nat.mod_eq_of_lt (byteAt_lt m b), byteAt, List.getD_eq_getElem _ _ h2]

end Zupt.Mlkem
