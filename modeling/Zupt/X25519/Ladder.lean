import Zupt.X25519.Store

/-! # The Montgomery ladder of X25519

    The function of RFC 7748 on a scalar and a u-coordinate, and the ladder of the code,
    which computes it on limbs: every step keeps the limbs within their bounds and does to
    the points they stand for what the step of the function does. -/

namespace Zupt.X25519

/-! ## RFC 7748 -/

/-- The two points of the ladder, in projective coordinates. -/
structure Points (α : Type) where
  x2 : α
  z2 : α
  x3 : α
  z3 : α

/-- `cswap`, on both coordinates. -/
def Points.swap {α : Type} (flag : Nat) (s : Points α) : Points α :=
  if flag = 1 then ⟨s.x3, s.z3, s.x2, s.z2⟩ else s

/-- The body of the loop of RFC 7748. -/
def rfcStep {K : Type} [CommRing K] (x1 : K) (s : Points K) : Points K :=
  let a := s.x2 + s.z2
  let aa := a ^ 2
  let b := s.x2 - s.z2
  let bb := b ^ 2
  let e := aa - bb
  let c := s.x3 + s.z3
  let d := s.x3 - s.z3
  let da := d * a
  let cb := c * b
  ⟨aa * bb, e * (aa + 121665 * e), (da + cb) ^ 2, x1 * (da - cb) ^ 2⟩

/-- The loop, with `n` bits of the scalar to go, and the value of `swap`. -/
def rfcLoop {K : Type} [CommRing K] (k : Nat) (x1 : K) : (n : Nat) → Points K × Nat → Points K × Nat
  | 0, s => s
  | n + 1, s =>
      let kt := k >>> n &&& 1
      rfcLoop k x1 n (rfcStep x1 (s.1.swap (s.2 ^^^ kt)), kt)

/-- The points behind the last swap. -/
def rfcPoints {K : Type} [CommRing K] (k : Nat) (u : K) : Points K :=
  let s := rfcLoop k u 255 (⟨1, 0, u, 1⟩, 0)
  s.1.swap s.2

/-- The function of RFC 7748 on a scalar and a u-coordinate. -/
def rfcLadder (k : Nat) (u : F) : F := (rfcPoints k u).x2 * (rfcPoints k u).z2 ^ (p - 2)

/-- The clamping of a scalar, which RFC 7748 and the code spell the same way. -/
def clamp (scalar : Bytes) : Bytes :=
  (((scalar.take 32).modify 0 (· &&& 248)).modify 31 (· &&& 127)).modify 31 (· ||| 64)

/-- `decodeScalar25519`. -/
def decodeScalar (scalar : Bytes) : Nat := bytesValue (clamp scalar) 32

/-- `decodeUCoordinate`: the last bit is masked. -/
def decodeU (point : Bytes) : Nat := bytesValue (point.modify 31 (· &&& 127)) 32

/-- X25519 of RFC 7748, on bytes. -/
def rfc7748 (scalar point : Bytes) : Bytes :=
  numberBytes (rfcLadder (decodeScalar scalar) (decodeU point)).val

/-! ## The code -/

/-- One step of the loop behind the swaps. -/
def ladderStep (b : Backend) (x1 : Fe) (s : Points Fe) : Checked (Points Fe) := do
  let a ← feAdd s.x2 s.z2
  let bFe ← feSub s.x2 s.z2
  let c ← feAdd s.x3 s.z3
  let d ← feSub s.x3 s.z3
  let da ← feMul b d a
  let cb ← feMul b c bFe
  let tmp0 ← feAdd da cb
  let x3 ← feMul b tmp0 tmp0
  let tmp1 ← feSub da cb
  let tmp1 ← feMul b tmp1 tmp1
  let z3 ← feMul b x1 tmp1
  let aa ← feMul b a a
  let bb ← feMul b bFe bFe
  let x2 ← feMul b aa bb
  let e2 ← feSub aa bb
  let tmp0 ← feMul b e2 (limbs 121666 0 0 0 0)
  let tmp0 ← feAdd bb tmp0
  let z2 ← feMul b e2 tmp0
  return ⟨x2, z2, x3, z3⟩

/-- `fe_cswap` on both coordinates. -/
def cswapPoints (flag : Nat) (s : Points Fe) : Points Fe :=
  ⟨(feCswap s.x2 s.x3 flag).1, (feCswap s.z2 s.z3 flag).1, (feCswap s.x2 s.x3 flag).2,
    (feCswap s.z2 s.z3 flag).2⟩

/-- The loop of `zupt_x25519`, with `n` bits to go. -/
def ladderLoop (b : Backend) (e : Bytes) (x1 : Fe) : (n : Nat) → Points Fe × Nat → Checked (Points Fe × Nat)
  | 0, s => .ok s
  | n + 1, s => do
      let bit := byteAt e (n / 8) >>> (n % 8) &&& 1
      let s' ← ladderStep b x1 (cswapPoints (s.2 ^^^ bit) s.1)
      ladderLoop b e x1 n (s', bit)

/-- `zupt_x25519`. -/
def zuptX25519 (b : Backend) (scalar point : Bytes) : Checked Bytes := do
  let x1 ← feFrombytes point
  let s ← ladderLoop b (clamp scalar) x1 255 (⟨limbs 1 0 0 0 0, limbs 0 0 0 0 0, x1, limbs 1 0 0 0 0⟩, 0)
  let s' := cswapPoints s.2 s.1
  let z2 ← feInv b s'.z2
  let x2 ← feMul b s'.x2 z2
  feTobytes x2

/-! ## The ladder computes the function -/

/-- **THE INVARIANT**: the limbs stand for the points, and the `z` may be subtracted. -/
structure PointsRep (s : Points Fe) (t : Points F) : Prop where
  x2 : Rep (2 ^ 52) s.x2 t.x2
  z2 : Rep small s.z2 t.z2
  x3 : Rep (2 ^ 52) s.x3 t.x3
  z3 : Rep small s.z3 t.z3

/-- The mask of a bit keeps all or nothing. -/
theorem swapBits_eq {flag a b : Nat} (ha : a < 2 ^ 64) (hb : b < 2 ^ 64) (hflag : flag < 2) :
    a ^^^ swapBits flag a b = (if flag = 1 then b else a) ∧
      b ^^^ swapBits flag a b = if flag = 1 then a else b := by
  obtain rfl | rfl : flag = 0 ∨ flag = 1 := by omega
  · have hmask : swapBits 0 a b = 0 := Nat.zero_and _
    rw [hmask, Nat.xor_zero, Nat.xor_zero]
    exact ⟨rfl, rfl⟩
  · have hmask : swapBits 1 a b = a ^^^ b := by
      rw [swapBits, show (2 ^ 64 - (1 &&& 1)) % 2 ^ 64 = 2 ^ 64 - 1 by decide, Nat.and_comm,
        Nat.and_two_pow_sub_one_eq_mod, Nat.mod_eq_of_lt (Nat.xor_lt_two_pow ha hb)]
    rw [hmask, ← Nat.xor_assoc, Nat.xor_self, Nat.zero_xor, Nat.xor_comm a b, ← Nat.xor_assoc,
      Nat.xor_self, Nat.zero_xor]
    exact ⟨rfl, rfl⟩

theorem feCswap_rep {f g : Fe} {x y : F} {B flag : Nat} (hf : Rep B f x) (hg : Rep B g y)
    (hB : B ≤ 2 ^ 64) (hflag : flag < 2) :
    Rep B (feCswap f g flag).1 (if flag = 1 then y else x) ∧
      Rep B (feCswap f g flag).2 (if flag = 1 then x else y) := by
  have hcell : ∀ i < 5, (feCswap f g flag).1 i = (if flag = 1 then g i else f i) ∧
      (feCswap f g flag).2 i = if flag = 1 then f i else g i := fun i hi =>
    swapBits_eq (lt_of_lt_of_le (hf.1 i hi) hB) (lt_of_lt_of_le (hg.1 i hi) hB) hflag
  by_cases hone : flag = 1
  · simp only [if_pos hone] at hcell ⊢
    refine ⟨⟨fun i hi => ?_, ?_⟩, ⟨fun i hi => ?_, ?_⟩⟩
    · rw [(hcell i hi).1]
      exact hg.1 i hi
    · rw [feVal_congr fun i hi => (hcell i hi).1, hg.2]
    · rw [(hcell i hi).2]
      exact hf.1 i hi
    · rw [feVal_congr fun i hi => (hcell i hi).2, hf.2]
  · simp only [if_neg hone] at hcell ⊢
    refine ⟨⟨fun i hi => ?_, ?_⟩, ⟨fun i hi => ?_, ?_⟩⟩
    · rw [(hcell i hi).1]
      exact hf.1 i hi
    · rw [feVal_congr fun i hi => (hcell i hi).1, hf.2]
    · rw [(hcell i hi).2]
      exact hg.1 i hi
    · rw [feVal_congr fun i hi => (hcell i hi).2, hg.2]

theorem cswapPoints_rep {s : Points Fe} {t : Points F} (h : PointsRep s t) {flag : Nat} (hflag : flag < 2) :
    PointsRep (cswapPoints flag s) (t.swap flag) := by
  obtain ⟨hx2, hx3⟩ := feCswap_rep h.x2 h.x3 (by decide) hflag
  obtain ⟨hz2, hz3⟩ := feCswap_rep h.z2 h.z3 (by decide) hflag
  rw [Points.swap]
  by_cases hone : flag = 1
  · rw [if_pos hone] at hx2 hx3 hz2 hz3 ⊢
    exact ⟨hx2, hz2, hx3, hz3⟩
  · rw [if_neg hone] at hx2 hx3 hz2 hz3 ⊢
    exact ⟨hx2, hz2, hx3, hz3⟩

/-- **ONE STEP** on limbs is one step of the function. -/
theorem ladderStep_rep (b : Backend) {x1 : Fe} {u : F} (hx1 : Rep (2 ^ 52) x1 u) {s : Points Fe}
    {t : Points F} (h : PointsRep s t) :
    ∃ s', ladderStep b x1 s = .ok s' ∧ PointsRep s' (rfcStep u t) := by
  have hsmall : small ≤ 2 ^ 52 := by decide
  have hout : 2 ^ 51 + 2 ^ 13 ≤ small := by decide
  have hconst : Rep (2 ^ 53) (limbs 121666 0 0 0 0) (121666 : F) :=
    rep_limbs (by decide) (by decide) (by decide) (by decide) (by decide) (by rw [feVal_limbs]; norm_num)
  obtain ⟨a, ea, ha⟩ := feAdd_rep h.x2 (h.z2.mono hsmall) (by decide)
  obtain ⟨bFe, eb, hb⟩ := feSub_rep h.x2 h.z2
  obtain ⟨c, ec, hc⟩ := feAdd_rep h.x3 (h.z3.mono hsmall) (by decide)
  obtain ⟨d, ed, hd⟩ := feSub_rep h.x3 h.z3
  obtain ⟨da, eda, hda⟩ := feMul_rep b hd (ha.mono (by decide))
  obtain ⟨cb, ecb, hcb⟩ := feMul_rep b (hc.mono (by decide)) hb
  obtain ⟨t0, et0, ht0⟩ := feAdd_rep hda hcb (by decide)
  obtain ⟨x3, ex3, hx3⟩ := feMul_rep b (ht0.mono (by decide)) (ht0.mono (by decide))
  obtain ⟨t1, et1, ht1⟩ := feSub_rep (hda.mono (by decide)) (hcb.mono hout)
  obtain ⟨t2, et2, ht2⟩ := feMul_rep b ht1 ht1
  obtain ⟨z3, ez3, hz3⟩ := feMul_rep b (hx1.mono (by decide)) (ht2.mono (by decide))
  obtain ⟨aa, eaa, haa⟩ := feMul_rep b (ha.mono (by decide)) (ha.mono (by decide))
  obtain ⟨bb, ebb, hbb⟩ := feMul_rep b hb hb
  obtain ⟨x2, ex2, hx2⟩ := feMul_rep b (haa.mono (by decide)) (hbb.mono (by decide))
  obtain ⟨e2, ee2, he2⟩ := feSub_rep (haa.mono (by decide)) (hbb.mono hout)
  obtain ⟨t3, et3, ht3⟩ := feMul_rep b he2 hconst
  obtain ⟨t4, et4, ht4⟩ := feAdd_rep hbb ht3 (by decide)
  obtain ⟨z2, ez2, hz2⟩ := feMul_rep b he2 (ht4.mono (by decide))
  refine ⟨⟨x2, z2, x3, z3⟩, ?_, ⟨?_, ?_, ?_, ?_⟩⟩
  · rw [ladderStep, ea, ok_bind, eb, ok_bind, ec, ok_bind, ed, ok_bind, eda, ok_bind, ecb, ok_bind, et0,
      ok_bind, ex3, ok_bind, et1, ok_bind, et2, ok_bind, ez3, ok_bind, eaa, ok_bind, ebb, ok_bind, ex2,
      ok_bind, ee2, ok_bind, et3, ok_bind, et4, ok_bind, ez2, ok_bind]
    rfl
  · have hvalue : (rfcStep u t).x2 = (t.x2 + t.z2) * (t.x2 + t.z2) * ((t.x2 - t.z2) * (t.x2 - t.z2)) := by
      show (t.x2 + t.z2) ^ 2 * (t.x2 - t.z2) ^ 2 = _
      ring
    rw [hvalue]
    exact hx2.mono (by decide)
  · -- `bb + 121666 e` is `aa + 121665 e`
    have hvalue : (rfcStep u t).z2 = ((t.x2 + t.z2) * (t.x2 + t.z2) - (t.x2 - t.z2) * (t.x2 - t.z2)) *
        ((t.x2 - t.z2) * (t.x2 - t.z2) +
          ((t.x2 + t.z2) * (t.x2 + t.z2) - (t.x2 - t.z2) * (t.x2 - t.z2)) * 121666) := by
      show ((t.x2 + t.z2) ^ 2 - (t.x2 - t.z2) ^ 2) * ((t.x2 + t.z2) ^ 2 +
        121665 * ((t.x2 + t.z2) ^ 2 - (t.x2 - t.z2) ^ 2)) = _
      ring
    rw [hvalue]
    exact hz2.mono hout
  · have hvalue : (rfcStep u t).x3 = ((t.x3 - t.z3) * (t.x2 + t.z2) + (t.x3 + t.z3) * (t.x2 - t.z2)) *
        ((t.x3 - t.z3) * (t.x2 + t.z2) + (t.x3 + t.z3) * (t.x2 - t.z2)) := by
      show ((t.x3 - t.z3) * (t.x2 + t.z2) + (t.x3 + t.z3) * (t.x2 - t.z2)) ^ 2 = _
      ring
    rw [hvalue]
    exact hx3.mono (by decide)
  · have hvalue : (rfcStep u t).z3 = u *
        (((t.x3 - t.z3) * (t.x2 + t.z2) - (t.x3 + t.z3) * (t.x2 - t.z2)) *
          ((t.x3 - t.z3) * (t.x2 + t.z2) - (t.x3 + t.z3) * (t.x2 - t.z2))) := by
      show u * ((t.x3 - t.z3) * (t.x2 + t.z2) - (t.x3 + t.z3) * (t.x2 - t.z2)) ^ 2 = _
      ring
    rw [hvalue]
    exact hz3.mono hout

/-! ## The bits of the scalar -/

/-- **A BIT** of a byte is a bit of the number. -/
theorem byteAt_bit (e : Bytes) {n : Nat} (hn : n < 256) :
    byteAt e (n / 8) >>> (n % 8) &&& 1 = bytesValue e 32 >>> n &&& 1 := by
  have hbyte : byteAt e (n / 8) = bytesValue e 32 / 2 ^ (8 * (n / 8)) % 2 ^ 8 := by
    have hdrop := bytesValue_drop e (show n / 8 + 1 + (31 - n / 8) = 32 by omega)
    rw [bytesValue, bytesValue, Nat.zero_add, Nat.mul_zero, pow_zero, Nat.mul_one, byteAt_drop,
      Nat.add_zero] at hdrop
    exact hdrop
  have hpow : 2 ^ 8 = 2 ^ (n % 8) * 2 ^ (8 - n % 8) := by
    rw [← pow_add, Nat.add_sub_cancel' (by omega)]
  have hdvd : 2 ∣ 2 ^ (8 - n % 8) := dvd_pow_self 2 (by omega)
  rw [Nat.and_one_is_mod, Nat.and_one_is_mod, hbyte, Nat.shiftRight_eq_div_pow,
    Nat.shiftRight_eq_div_pow, hpow, Nat.mod_mul_right_div_self, Nat.mod_mod_of_dvd _ hdvd,
    Nat.div_div_eq_div_mul, ← pow_add, Nat.div_add_mod]

/-- Two bits are equal or not. -/
theorem xor_bit_lt {s n : Nat} (k : Nat) (hs : s < 2) : s ^^^ (k >>> n &&& 1) < 2 := by
  have hbit : k >>> n &&& 1 < 2 := by
    rw [Nat.and_one_is_mod]
    exact Nat.mod_lt _ Nat.two_pos
  exact Nat.xor_lt_two_pow (n := 1) hs hbit

theorem bit_lt (k n : Nat) : k >>> n &&& 1 < 2 := by
  rw [Nat.and_one_is_mod]
  exact Nat.mod_lt _ Nat.two_pos

/-- **THE LOOP** on limbs is the loop of the function. -/
theorem ladderLoop_rep (b : Backend) (e : Bytes) {x1 : Fe} {u : F} (hx1 : Rep (2 ^ 52) x1 u) {n : Nat}
    (hn : n ≤ 255) {s : Points Fe} {t : Points F} {swap : Nat} (h : PointsRep s t) (hswap : swap < 2) :
    ∃ s', ladderLoop b e x1 n (s, swap) = .ok (s', (rfcLoop (bytesValue e 32) u n (t, swap)).2) ∧
      PointsRep s' (rfcLoop (bytesValue e 32) u n (t, swap)).1 ∧
        (rfcLoop (bytesValue e 32) u n (t, swap)).2 < 2 := by
  -- the points stand for those of the function, and the pending swap is the same
  induction n generalizing s t swap with
  | zero => exact ⟨s, rfl, h, hswap⟩
  | succ n ih =>
      have hflag := xor_bit_lt (n := n) (bytesValue e 32) hswap
      obtain ⟨s₁, e₁, h₁⟩ := ladderStep_rep b hx1 (cswapPoints_rep h hflag)
      obtain ⟨s₂, e₂, h₂, hlt⟩ := ih (by omega) h₁ (bit_lt (bytesValue e 32) n)
      refine ⟨s₂, ?_, h₂, hlt⟩
      rw [ladderLoop]
      dsimp only
      rw [byteAt_bit e (by omega), e₁, ok_bind, e₂]
      rfl

/-! ## The last bit of a u-coordinate -/

theorem byteAt_modify (s : Bytes) (f : UInt8 → UInt8) {i j : Nat} (h : j ≠ i) :
    byteAt (s.modify i f) j = byteAt s j := by
  rw [byteAt, byteAt, List.getD_eq_getElem?_getD, List.getD_eq_getElem?_getD,
    List.getElem?_modify]
  simp only [if_neg (Ne.symm h), id_map']

theorem byteAt_mask (s : Bytes) (i : Nat) : byteAt (s.modify i (· &&& 127)) i = byteAt s i % 2 ^ 7 := by
  rw [byteAt, byteAt, List.getD_eq_getElem?_getD, List.getD_eq_getElem?_getD, List.getElem?_modify_eq]
  cases s[i]? with
  | none => rfl
  | some c => exact (UInt8.toNat_and c 127).trans (Nat.and_two_pow_sub_one_eq_mod _ 7)

theorem bytesValue_congr {s s' : Bytes} {n : Nat} (h : ∀ i < n, byteAt s i = byteAt s' i) :
    bytesValue s n = bytesValue s' n := by
  induction n with
  | zero => rfl
  | succ n ih =>
      rw [bytesValue, bytesValue, ih fun i hi => h i (by omega), h n (by omega)]

/-- **MASKING** the last byte takes the number modulo `2 ^ 255`. -/
theorem decodeU_eq (point : Bytes) : decodeU point = bytesValue point 32 % 2 ^ 255 := by
  have hlow := bytesValue_lt point 31
  have hlast : ∀ s : Bytes, bytesValue s 32 = bytesValue s 31 + byteAt s 31 * 2 ^ (8 * 31) := fun s => rfl
  have hrest : bytesValue (point.modify 31 (· &&& 127)) 31 = bytesValue point 31 :=
    bytesValue_congr fun i hi => byteAt_modify point _ (by omega)
  rw [decodeU, hlast, hlast, hrest, byteAt_mask]
  omega

/-! ## The function -/

/-- **X25519** of the code is the function of RFC 7748. -/
theorem zuptX25519_eq (b : Backend) (scalar point : Bytes) :
    zuptX25519 b scalar point = .ok (rfc7748 scalar point) := by
  obtain ⟨x1, e1, h1⟩ := feFrombytes_rep point
  rw [← decodeU_eq] at h1
  have hone : Rep small (limbs 1 0 0 0 0) (1 : F) :=
    rep_limbs (by decide) (by decide) (by decide) (by decide) (by decide) (by rw [feVal_limbs]; norm_num)
  have hzero : Rep small (limbs 0 0 0 0 0) (0 : F) :=
    rep_limbs (by decide) (by decide) (by decide) (by decide) (by decide) (by rw [feVal_limbs]; norm_num)
  have hstart : PointsRep ⟨limbs 1 0 0 0 0, limbs 0 0 0 0 0, x1, limbs 1 0 0 0 0⟩
      ⟨1, 0, (decodeU point : F), 1⟩ := ⟨hone.mono (by decide), hzero, h1, hone⟩
  obtain ⟨s, es, hs, hlt⟩ := ladderLoop_rep b (clamp scalar) h1 (le_refl 255) hstart (by decide : 0 < 2)
  have hswapped := cswapPoints_rep hs hlt
  obtain ⟨z, ez, hz⟩ := feInv_rep b (hswapped.z2.mono (by decide))
  obtain ⟨x, ex, hx⟩ := feMul_rep b (hswapped.x2.mono (by decide)) (hz.mono (by decide))
  rw [zuptX25519, e1, ok_bind, es, ok_bind]
  dsimp only
  rw [ez, ok_bind, ex, ok_bind, feTobytes_eq (hx.mono (by decide))]
  rfl

/-! ## The canonical residue -/

theorem numberBytes_value (x : Nat) {n : Nat} (hn : n ≤ 32) :
    bytesValue (numberBytes x) n = x % 2 ^ (8 * n) := by
  induction n with
  | zero => exact (Nat.mod_one x).symm
  | succ n ih =>
      have hbyte : byteAt (numberBytes x) n = x / 2 ^ (8 * n) % 2 ^ 8 := by
        rw [byteAt, numberBytes, List.getD_eq_getElem?_getD, List.getElem?_map,
          List.getElem?_range (by omega)]
        rw [← Nat.shiftRight_eq_div_pow]
        exact toNat_byte _
      have hsplit : x % 2 ^ (8 * (n + 1)) = x % 2 ^ (8 * n) + 2 ^ (8 * n) * (x / 2 ^ (8 * n) % 2 ^ 8) := by
        rw [show 8 * (n + 1) = 8 * n + 8 by ring, pow_add, Nat.mod_mul]
      rw [bytesValue, ih (by omega), hbyte, hsplit, Nat.mul_comm (2 ^ (8 * n))]

/-- **THE BYTES OF LIMBS** are those of the residue in `[0, p)`. -/
theorem feTobytes_value {h : Fe} (hh : ∀ i < 5, h i < small) :
    ∃ out, feTobytes h = .ok out ∧ out.length = 32 ∧ bytesValue out 32 = feVal h % p := by
  have hlt : feVal h % p < 2 ^ (8 * 32) := lt_trans (Nat.mod_lt _ (by decide)) (by decide)
  refine ⟨_, feTobytes_eq ⟨hh, rfl⟩, ?_, ?_⟩
  · rw [numberBytes, List.length_map, List.length_range]
  · rw [numberBytes_value _ (le_refl 32), ZMod.val_natCast, Nat.mod_eq_of_lt hlt]

/-- What the field operations of a back-end do, each under the bounds its callers keep:
    nothing leaves its integer type, and the limbs stand for the right residue. -/
structure FieldExact (b : Backend) : Prop where
  add : ∀ f g x y A B, Rep A f x → Rep B g y → A + B ≤ 2 ^ 64 →
    ∃ h, feAdd f g = .ok h ∧ Rep (A + B) h (x + y)
  sub : ∀ f g x y, Rep (2 ^ 52) f x → Rep small g y → ∃ h, feSub f g = .ok h ∧ Rep (2 ^ 53) h (x - y)
  mul : ∀ f g x y, Rep (2 ^ 53) f x → Rep (2 ^ 53) g y →
    ∃ h, feMul b f g = .ok h ∧ Rep (2 ^ 51 + 2 ^ 13) h (x * y)
  inv : ∀ f x, Rep small f x → ∃ h, feInv b f = .ok h ∧ Rep small h (x ^ (p - 2))
  swap : ∀ f g x y flag, Rep (2 ^ 52) f x → Rep (2 ^ 52) g y → flag < 2 →
    Rep (2 ^ 52) (feCswap f g flag).1 (if flag = 1 then y else x) ∧
      Rep (2 ^ 52) (feCswap f g flag).2 (if flag = 1 then x else y)
  frombytes : ∀ s, ∃ h, feFrombytes s = .ok h ∧ Rep (2 ^ 52) h (bytesValue s 32 % 2 ^ 255 : Nat)
  tobytes : ∀ h, (∀ i < 5, h i < small) →
    ∃ out, feTobytes h = .ok out ∧ out.length = 32 ∧ bytesValue out 32 = feVal h % p

theorem fieldExact (b : Backend) : FieldExact b where
  add _ _ _ _ _ _ hf hg hAB := feAdd_rep hf hg hAB
  sub _ _ _ _ hf hg := feSub_rep hf hg
  mul _ _ _ _ hf hg := feMul_rep b hf hg
  inv _ _ hf := feInv_rep b hf
  swap _ _ _ _ _ hf hg hflag := feCswap_rep hf hg (by decide) hflag
  frombytes s := feFrombytes_rep s
  tobytes _ hh := feTobytes_value hh

/-- X25519 is exact on a back-end: so are its field operations, and the ladder computes the
    function of RFC 7748. -/
def Exact (b : Backend) : Prop :=
  FieldExact b ∧ ∀ scalar point, zuptX25519 b scalar point = .ok (rfc7748 scalar point)

/-- **X25519 IS EXACT**, with products of 128 bits and with pairs of words. -/
theorem x25519_exact : Exact native ∧ Exact portable :=
  ⟨⟨fieldExact native, zuptX25519_eq native⟩, ⟨fieldExact portable, zuptX25519_eq portable⟩⟩

end Zupt.X25519
