import Zupt.X25519.Field

/-! # Storing a field element

    `fe_tobytes` carries twice, finds out whether `p` is still to be taken off, and writes
    the limbs as four words: the bytes of the one residue below `p`. -/

namespace Zupt.X25519

/-- The bytes of a number below `2 ^ 256`, the lowest first. -/
def numberBytes (x : Nat) : Bytes := (List.range 32).map fun i => UInt8.ofNat (x >>> (8 * i))

/-- **A ROUND OF CARRIES** takes off what is above 255 bits. -/
theorem carryRound_eq {t : Fe} (ht : ∀ i < 5, t i < 2 ^ 53) :
    ∃ t' c, carryRound t = .ok t' ∧ feVal t' + c * p = feVal t ∧ c ≤ 4 ∧ t' 0 < 2 ^ 51 + 19 * c ∧
      (∀ i < 5, 0 < i → t' i < 2 ^ 51) ∧ ((∀ i < 5, 0 < i → t i < 2 ^ 51) → t 0 < 2 ^ 51 + 76 →
        t' 0 < 2 ^ 51) := by
  have h0 := ht 0 (by decide)
  have h1 := ht 1 (by decide)
  have h2 := ht 2 (by decide)
  have h3 := ht 3 (by decide)
  have h4 := ht 4 (by decide)
  obtain ⟨s1, hs1⟩ : ∃ s, s = t 1 + t 0 / 2 ^ 51 := ⟨_, rfl⟩
  obtain ⟨s2, hs2⟩ : ∃ s, s = t 2 + s1 / 2 ^ 51 := ⟨_, rfl⟩
  obtain ⟨s3, hs3⟩ : ∃ s, s = t 3 + s2 / 2 ^ 51 := ⟨_, rfl⟩
  obtain ⟨s4, hs4⟩ : ∃ s, s = t 4 + s3 / 2 ^ 51 := ⟨_, rfl⟩
  refine ⟨limbs (t 0 % 2 ^ 51 + s4 / 2 ^ 51 * 19) (s1 % 2 ^ 51) (s2 % 2 ^ 51) (s3 % 2 ^ 51)
    (s4 % 2 ^ 51), s4 / 2 ^ 51, ?_, ?_, by omega, ?_, ?_, ?_⟩
  · rw [carryRound, and_mask51]
    simp only [Nat.shiftRight_eq_div_pow]
    rw [← hs1, uint64_ok (by omega), ok_bind, ← hs2, uint64_ok (by omega), ok_bind, ← hs3,
      uint64_ok (by omega), ok_bind, ← hs4, uint64_ok (by omega), ok_bind, uint64_ok (by omega),
      ok_bind, uint64_ok (by omega), ok_bind]
    simp only [and_mask51]
    rfl
  · have hp := p_val
    have hmul : s4 / 2 ^ 51 * p + 19 * (s4 / 2 ^ 51) = s4 / 2 ^ 51 * 2 ^ 255 := by
      rw [← hp]
      ring
    rw [feVal_limbs, feVal]
    omega
  · show t 0 % 2 ^ 51 + s4 / 2 ^ 51 * 19 < _
    omega
  · intro i hi hpos
    have hplace : i = 1 ∨ i = 2 ∨ i = 3 ∨ i = 4 := by omega
    rcases hplace with rfl | rfl | rfl | rfl
    · exact Nat.mod_lt _ (Nat.two_pow_pos 51)
    · exact Nat.mod_lt _ (Nat.two_pow_pos 51)
    · exact Nat.mod_lt _ (Nat.two_pow_pos 51)
    · exact Nat.mod_lt _ (Nat.two_pow_pos 51)
  · -- a carry out of the top has come from the bottom, which is all but empty then
    intro hrest hfirst
    have g1 := hrest 1 (by decide) (by decide)
    have g2 := hrest 2 (by decide) (by decide)
    have g3 := hrest 3 (by decide) (by decide)
    have g4 := hrest 4 (by decide) (by decide)
    show t 0 % 2 ^ 51 + s4 / 2 ^ 51 * 19 < 2 ^ 51
    omega

/-- Limbs of 51 bits are those of their number. -/
theorem limbsOf_feVal {a b c d e : Nat} (ha : a < 2 ^ 51) (hb : b < 2 ^ 51) (hc : c < 2 ^ 51)
    (hd : d < 2 ^ 51) : limbsOf (feVal (limbs a b c d e)) = limbs a b c d e := by
  rw [feVal_limbs, limbsOf]
  have e0 : (a + b * 2 ^ 51 + c * 2 ^ 102 + d * 2 ^ 153 + e * 2 ^ 204) % 2 ^ 51 = a := by omega
  have e1 : (a + b * 2 ^ 51 + c * 2 ^ 102 + d * 2 ^ 153 + e * 2 ^ 204) / 2 ^ 51 % 2 ^ 51 = b := by omega
  have e2 : (a + b * 2 ^ 51 + c * 2 ^ 102 + d * 2 ^ 153 + e * 2 ^ 204) / 2 ^ 102 % 2 ^ 51 = c := by omega
  have e3 : (a + b * 2 ^ 51 + c * 2 ^ 102 + d * 2 ^ 153 + e * 2 ^ 204) / 2 ^ 153 % 2 ^ 51 = d := by omega
  have e4 : (a + b * 2 ^ 51 + c * 2 ^ 102 + d * 2 ^ 153 + e * 2 ^ 204) / 2 ^ 204 = e := by omega
  rw [e0, e1, e2, e3, e4]

/-- What a chain of carries carries out of the top. -/
theorem carry_chain {a b c d e r1 r2 r3 r4 : Nat} (h1 : r1 = b + a / 2 ^ 51) (h2 : r2 = c + r1 / 2 ^ 51)
    (h3 : r3 = d + r2 / 2 ^ 51) (h4 : r4 = e + r3 / 2 ^ 51) :
    r4 / 2 ^ 51 = feVal (limbs a b c d e) / 2 ^ 255 ∧
      feVal (limbs (a % 2 ^ 51) (r1 % 2 ^ 51) (r2 % 2 ^ 51) (r3 % 2 ^ 51) (r4 % 2 ^ 51)) =
        feVal (limbs a b c d e) % 2 ^ 255 := by
  have hsum : feVal (limbs a b c d e) = feVal (limbs (a % 2 ^ 51) (r1 % 2 ^ 51) (r2 % 2 ^ 51)
      (r3 % 2 ^ 51) (r4 % 2 ^ 51)) + 2 ^ 255 * (r4 / 2 ^ 51) := by
    rw [feVal_limbs, feVal_limbs]
    omega
  have hlt : feVal (limbs (a % 2 ^ 51) (r1 % 2 ^ 51) (r2 % 2 ^ 51) (r3 % 2 ^ 51) (r4 % 2 ^ 51)) <
      2 ^ 255 := by
    rw [feVal_limbs]
    omega
  rw [hsum, Nat.add_mul_div_left _ _ (Nat.two_pow_pos _), Nat.div_eq_of_lt hlt, Nat.zero_add,
    Nat.add_mul_mod_self_left, Nat.mod_eq_of_lt hlt]
  exact ⟨rfl, rfl⟩

/-- A number of 255 bits is taken modulo `p` by a carry out of the top. -/
theorem mod_p {x : Nat} (hx : x < 2 ^ 255) : (x + (x + 19) / 2 ^ 255 * 19) % 2 ^ 255 = x % p := by
  have hp := p_val
  by_cases hless : x < p
  · have hq : (x + 19) / 2 ^ 255 = 0 := Nat.div_eq_of_lt (by omega)
    rw [hq, Nat.zero_mul, Nat.add_zero, Nat.mod_eq_of_lt hx, Nat.mod_eq_of_lt hless]
  · have hq : (x + 19) / 2 ^ 255 = 1 := by omega
    rw [hq, Nat.one_mul, Nat.mod_eq_sub_mod (by omega), Nat.mod_eq_of_lt (by omega),
      Nat.mod_eq_sub_mod (by omega), Nat.mod_eq_of_lt (by omega)]
    omega

/-- **THE LAST SUBTRACTION** returns the limbs of the canonical residue. -/
theorem subtractP_eq {t : Fe} (ht : ∀ i < 5, t i < 2 ^ 51) :
    subtractP t = .ok (limbsOf (feVal t % p)) := by
  have h0 := ht 0 (by decide)
  have h1 := ht 1 (by decide)
  have h2 := ht 2 (by decide)
  have h3 := ht 3 (by decide)
  have h4 := ht 4 (by decide)
  have hval : feVal t = t 0 + t 1 * 2 ^ 51 + t 2 * 2 ^ 102 + t 3 * 2 ^ 153 + t 4 * 2 ^ 204 := rfl
  have hlt : feVal t < 2 ^ 255 := by omega
  -- the carries of the comparison
  obtain ⟨q1, hq1⟩ : ∃ s, s = t 1 + (t 0 + 19) / 2 ^ 51 := ⟨_, rfl⟩
  obtain ⟨q2, hq2⟩ : ∃ s, s = t 2 + q1 / 2 ^ 51 := ⟨_, rfl⟩
  obtain ⟨q3, hq3⟩ : ∃ s, s = t 3 + q2 / 2 ^ 51 := ⟨_, rfl⟩
  obtain ⟨q4, hq4⟩ : ∃ s, s = t 4 + q3 / 2 ^ 51 := ⟨_, rfl⟩
  have hq := (carry_chain hq1 hq2 hq3 hq4).1
  have hplus : feVal (limbs (t 0 + 19) (t 1) (t 2) (t 3) (t 4)) = feVal t + 19 := by
    rw [feVal_limbs, hval]
    omega
  rw [hplus] at hq
  have hqle : q4 / 2 ^ 51 ≤ 1 := by omega
  -- the carries of the sum
  obtain ⟨r0, hr0⟩ : ∃ s, s = t 0 + q4 / 2 ^ 51 * 19 := ⟨_, rfl⟩
  obtain ⟨r1, hr1⟩ : ∃ s, s = t 1 + r0 / 2 ^ 51 := ⟨_, rfl⟩
  obtain ⟨r2, hr2⟩ : ∃ s, s = t 2 + r1 / 2 ^ 51 := ⟨_, rfl⟩
  obtain ⟨r3, hr3⟩ : ∃ s, s = t 3 + r2 / 2 ^ 51 := ⟨_, rfl⟩
  obtain ⟨r4, hr4⟩ : ∃ s, s = t 4 + r3 / 2 ^ 51 := ⟨_, rfl⟩
  have hr := (carry_chain hr1 hr2 hr3 hr4).2
  have hsum : feVal (limbs r0 (t 1) (t 2) (t 3) (t 4)) = feVal t + (feVal t + 19) / 2 ^ 255 * 19 := by
    rw [feVal_limbs, hr0, hq]
    omega
  rw [hsum, mod_p hlt] at hr
  rw [← hr, limbsOf_feVal (Nat.mod_lt _ (Nat.two_pow_pos 51)) (Nat.mod_lt _ (Nat.two_pow_pos 51))
    (Nat.mod_lt _ (Nat.two_pow_pos 51)) (Nat.mod_lt _ (Nat.two_pow_pos 51)), subtractP]
  simp only [Nat.shiftRight_eq_div_pow]
  rw [uint64_ok (by omega), ok_bind, ← hq1, uint64_ok (by omega), ok_bind, ← hq2, uint64_ok (by omega),
    ok_bind, ← hq3, uint64_ok (by omega), ok_bind, ← hq4, uint64_ok (by omega), ok_bind,
    uint64_ok (by omega), ok_bind, ← hr0, uint64_ok (by omega), ok_bind, ← hr1, uint64_ok (by omega),
    ok_bind, ← hr2, uint64_ok (by omega), ok_bind, ← hr3, uint64_ok (by omega), ok_bind, ← hr4,
    uint64_ok (by omega), ok_bind]
  simp only [and_mask51]
  rfl

/-! ## Words -/

/-- What is shifted out at the top is dropped. -/
theorem joinWord_eq {low high k : Nat} (hlow : low < 2 ^ k) (hk : k ≤ 64) :
    joinWord low high k = low + high % 2 ^ (64 - k) * 2 ^ k := by
  have hshift : high <<< k % 2 ^ 64 = (high % 2 ^ (64 - k)) <<< k := by
    have hpow : 2 ^ 64 = 2 ^ (64 - k) * 2 ^ k := by rw [← pow_add, Nat.sub_add_cancel hk]
    rw [Nat.shiftLeft_eq, Nat.shiftLeft_eq, hpow, Nat.mul_mod_mul_right]
  rw [joinWord, hshift, or_shiftLeft_mul hlow]

/-- The bytes of a word are bytes of the number. -/
theorem wordBytes_eq (x k : Nat) :
    wordBytes (x / 2 ^ (64 * k) % 2 ^ 64) =
      (List.range 8).map fun j => UInt8.ofNat (x >>> (8 * (8 * k + j))) := by
  refine List.map_congr_left fun j hj => ?_
  have hlt := List.mem_range.mp hj
  have hpow : 2 ^ 64 = 2 ^ (8 * j) * 2 ^ (64 - 8 * j) := by rw [← pow_add, Nat.add_sub_cancel' (by omega)]
  have hdvd : 256 ∣ 2 ^ (64 - 8 * j) := pow_dvd_pow 2 (show 8 ≤ 64 - 8 * j by omega)
  refine UInt8.toNat_inj.mp ?_
  rw [toNat_byte, toNat_byte, Nat.shiftRight_eq_div_pow, Nat.shiftRight_eq_div_pow, hpow,
    Nat.mod_mul_right_div_self, Nat.mod_mod_of_dvd _ hdvd, Nat.div_div_eq_div_mul, ← pow_add,
    show 64 * k + 8 * j = 8 * (8 * k + j) by ring]

theorem numberBytes_words (x : Nat) :
    numberBytes x = wordBytes (x / 2 ^ (64 * 0) % 2 ^ 64) ++ (wordBytes (x / 2 ^ (64 * 1) % 2 ^ 64) ++
      (wordBytes (x / 2 ^ (64 * 2) % 2 ^ 64) ++ wordBytes (x / 2 ^ (64 * 3) % 2 ^ 64))) := by
  rw [wordBytes_eq, wordBytes_eq, wordBytes_eq, wordBytes_eq]
  rfl

/-- The words that the limbs of a number are put together to. -/
theorem limbsOf_words {y : Nat} (hy : y < 2 ^ 255) :
    joinWord (limbsOf y 0) (limbsOf y 1) 51 = y / 2 ^ (64 * 0) % 2 ^ 64 ∧
      joinWord (limbsOf y 1 >>> 13) (limbsOf y 2) 38 = y / 2 ^ (64 * 1) % 2 ^ 64 ∧
      joinWord (limbsOf y 2 >>> 26) (limbsOf y 3) 25 = y / 2 ^ (64 * 2) % 2 ^ 64 ∧
      joinWord (limbsOf y 3 >>> 39) (limbsOf y 4) 12 = y / 2 ^ (64 * 3) % 2 ^ 64 := by
  have l0 : limbsOf y 0 = y % 2 ^ 51 := rfl
  have l1 : limbsOf y 1 = y / 2 ^ 51 % 2 ^ 51 := rfl
  have l2 : limbsOf y 2 = y / 2 ^ 102 % 2 ^ 51 := rfl
  have l3 : limbsOf y 3 = y / 2 ^ 153 % 2 ^ 51 := rfl
  have l4 : limbsOf y 4 = y / 2 ^ 204 := rfl
  rw [l0, l1, l2, l3, l4, Nat.shiftRight_eq_div_pow, Nat.shiftRight_eq_div_pow,
    Nat.shiftRight_eq_div_pow, joinWord_eq (by omega) (by decide), joinWord_eq (by omega) (by decide),
    joinWord_eq (by omega) (by decide), joinWord_eq (by omega) (by decide)]
  refine ⟨by omega, by omega, by omega, by omega⟩

/-- **STORING** returns the bytes of the canonical residue. -/
theorem feTobytes_eq {h : Fe} {x : F} (hr : Rep small h x) : feTobytes h = .ok (numberBytes x.val) := by
  obtain ⟨t₁, c₁, e₁, v₁, hc₁, hfirst₁, hrest₁, -⟩ := carryRound_eq (t := h) fun i hi =>
    lt_trans (hr.1 i hi) (by decide)
  have hall₁ : ∀ i < 5, t₁ i < 2 ^ 53 := fun i hi => by
    by_cases hi0 : i = 0
    · rw [hi0]
      omega
    · have := hrest₁ i hi (Nat.pos_of_ne_zero hi0)
      omega
  obtain ⟨t₂, c₂, e₂, v₂, hc₂, -, hrest₂, hsettled⟩ := carryRound_eq hall₁
  have hfirst₂ := hsettled hrest₁ (by omega)
  have h1 := hrest₂ 1 (by decide) (by decide)
  have h2 := hrest₂ 2 (by decide) (by decide)
  have h3 := hrest₂ 3 (by decide) (by decide)
  have h4 := hrest₂ 4 (by decide) (by decide)
  -- nothing is left to carry
  have hcarry : t₂ 1 + t₂ 0 / 2 ^ 51 = t₂ 1 := by omega
  have hmask : t₂ 0 % 2 ^ 51 = t₂ 0 := Nat.mod_eq_of_lt hfirst₂
  have hlimbs : feVal (limbs (t₂ 0) (t₂ 1) (t₂ 2) (t₂ 3) (t₂ 4)) = feVal t₂ := rfl
  have hsub := subtractP_eq (t := limbs (t₂ 0) (t₂ 1) (t₂ 2) (t₂ 3) (t₂ 4)) fun i hi => by
    have hplace : i = 0 ∨ i = 1 ∨ i = 2 ∨ i = 3 ∨ i = 4 := by omega
    rcases hplace with rfl | rfl | rfl | rfl | rfl
    · exact hfirst₂
    · exact h1
    · exact h2
    · exact h3
    · exact h4
  have hvalue : feVal t₂ % p = x.val := by
    have hcast : (feVal t₂ : F) = x := by
      rw [← hr.2, ← v₁, ← v₂, Nat.cast_add, Nat.cast_add, Nat.cast_mul, Nat.cast_mul, ZMod.natCast_self,
        mul_zero, mul_zero, add_zero, add_zero]
    rw [← hcast, ZMod.val_natCast]
  rw [hlimbs, hvalue] at hsub
  have hx : x.val < 2 ^ 255 := lt_of_lt_of_le (ZMod.val_lt x) (by rw [← p_val]; exact Nat.le_add_right _ _)
  rw [feTobytes, e₁, ok_bind, e₂, ok_bind, Nat.shiftRight_eq_div_pow, hcarry, uint64_ok (by omega), ok_bind,
    and_mask51, hmask, hsub, ok_bind, numberBytes_words]
  obtain ⟨w0, w1, w2, w3⟩ := limbsOf_words hx
  rw [w0, w1, w2, w3]
  rfl

end Zupt.X25519
