import Zupt.Mlkem.Ntt

/-! # Products of ML-KEM

    `poly_basemul` multiplies two transforms block by block, with the factor that a
    Montgomery product leaves behind; `inv_ntt` multiplies by that factor's inverse. -/

namespace Zupt.Mlkem

open Polynomial Zupt.NttTree

/-! ## Base products -/

/-- The cells a loop over rows has written. -/
def cells (l : List Int) : Poly := fun i => l.getD i 0

/-- `basemul_pair`, with the two values it writes. -/
def basemulPair (a0 a1 b0 b1 zeta : Int) : Checked (Int × Int) := do
  let t ← fqmul a1 b1
  let x ← fqmul t zeta
  let y ← fqmul a0 b0
  let r0 ← int16 (x + y)
  let z ← fqmul a0 b1
  let w ← fqmul a1 b0
  let r1 ← int16 (z + w)
  return (r0, r1)

/-- The body of `poly_basemul`. -/
def basemulRow (a b : Poly) (i : Nat) : Checked (List Int) := do
  let p ← basemulPair (a (4 * i)) (a (4 * i + 1)) (b (4 * i)) (b (4 * i + 1)) (zetas (64 + i))
  let z ← int16 (-zetas (64 + i))
  let s ← basemulPair (a (4 * i + 2)) (a (4 * i + 3)) (b (4 * i + 2)) (b (4 * i + 3)) z
  return [p.1, p.2, s.1, s.2]

/-- `poly_basemul`. -/
def polyBasemul (a b : Poly) : Checked Poly := do
  let l ← rowLoop (basemulRow a b) 64
  return cells l

/-! ## The nodes of the tree -/

/-- What stands at a node: `X ^ 256 + 1` at the top. -/
def node (k : Nat) : Zq :=
  if k = 1 then -1 else if k % 2 = 0 then zeta (k / 2) else -zeta (k / 2)

/-- **THE TABLE**: each entry is a square root of what stands at its node. -/
theorem zeta_square : ∀ k < 128, 0 < k → zeta k * zeta k = node k := by decide

theorem zeta_roots : Roots zeta node 7 where
  square k hk hlt := zeta_square k hlt hk
  even k hk _ := by
    rw [node, if_neg (by omega), if_pos (by omega), Nat.mul_div_cancel_left k (by decide)]
  odd k hk _ := by
    rw [node, if_neg (by omega), if_neg (by omega), Nat.mul_add_div (by decide)]
    rfl

theorem node_top : node 1 = -1 := rfl

/-- The table backwards holds the inverses, up to sign. -/
theorem zeta_mirrored : ∀ s < 7, Mirrored zeta (2 ^ s) := by
  unfold Mirrored
  decide

/-! ## Base products, exactly -/

/-- The exact base product, with the factor of a Montgomery product. -/
def basemulExact (f g : Nat → Zq) (i : Nat) : Zq := montInv * baseProduct node 7 f g i

theorem basemulPair_rep {a0 a1 b0 b1 z A B M : Int} (ha0 : -A ≤ a0 ∧ a0 ≤ A) (ha1 : -A ≤ a1 ∧ a1 ≤ A)
    (hb0 : -B ≤ b0 ∧ b0 ≤ B) (hb1 : -B ≤ b1 ∧ b1 ≤ B) (hz : -3321 ≤ z ∧ z ≤ 3321)
    (hAB : A * B ≤ 2000000000) (hM : A * B + 109084672 < (M + 1) * 2 ^ 16) (hlow : 2100 ≤ M)
    (hhigh : M ≤ 6800) :
    ∃ r0 r1 : Int, basemulPair a0 a1 b0 b1 z = .ok (r0, r1) ∧
      ((-(2 * M) ≤ r0 ∧ r0 ≤ 2 * M) ∧
        (r0 : Zq) = montInv * ((a0 : Zq) * b0 + z * montInv * (a1 * b1))) ∧
      ((-(2 * M) ≤ r1 ∧ r1 ≤ 2 * M) ∧ (r1 : Zq) = montInv * ((a0 : Zq) * b1 + a1 * b0)) := by
  obtain ⟨e₁, h₁, c₁⟩ := fqmul_eq ha1 hb1 hAB hM
  obtain ⟨e₂, h₂, c₂⟩ := fqmul_eq h₁ hz (by omega) (M := M) (by omega)
  obtain ⟨e₃, h₃, c₃⟩ := fqmul_eq ha0 hb0 hAB hM
  obtain ⟨e₄, h₄, c₄⟩ := fqmul_eq ha0 hb1 hAB hM
  obtain ⟨e₅, h₅, c₅⟩ := fqmul_eq ha1 hb0 hAB hM
  refine ⟨montgomery (montgomery (a1 * b1) * z) + montgomery (a0 * b0),
    montgomery (a0 * b1) + montgomery (a1 * b0), ?_, ⟨⟨?_, ?_⟩, ?_⟩, ⟨?_, ?_⟩, ?_⟩
  · rw [basemulPair, e₁]
    show (fqmul (montgomery (a1 * b1)) z >>= fun x => _) = _
    rw [e₂, e₃]
    show (int16 (montgomery (montgomery (a1 * b1) * z) + montgomery (a0 * b0)) >>= fun r => _) = _
    rw [int16_ok (by omega), e₄, e₅]
    show (int16 (montgomery (a0 * b1) + montgomery (a1 * b0)) >>= fun r => _) = _
    rw [int16_ok (by omega)]
    rfl
  · omega
  · omega
  · rw [Int.cast_add, c₂, c₁, c₃]
    ring
  · omega
  · omega
  · rw [Int.cast_add, c₄, c₅]
    ring

/-- The factor of a block of a base product. -/
theorem node_pair (i : Nat) : node (128 + 2 * i) = zeta (64 + i) ∧ node (128 + (2 * i + 1)) = -zeta (64 + i) := by
  rw [node, if_neg (by omega), if_pos (by omega), node, if_neg (by omega), if_neg (by omega),
    show (128 + 2 * i) / 2 = 64 + i by omega, show (128 + (2 * i + 1)) / 2 = 64 + i by omega]
  exact ⟨rfl, rfl⟩

/-- **A BASE PRODUCT** of bounded transforms is exact, and bounded. -/
theorem polyBasemul_rep {a b : Poly} {f g : Nat → Zq} {A B M : Int} (ha : Rep A a f) (hb : Rep B b g)
    (hAB : A * B ≤ 2000000000) (hM : A * B + 109084672 < (M + 1) * 2 ^ 16) (hlow : 2100 ≤ M)
    (hhigh : M ≤ 6800) :
    ∃ r, polyBasemul a b = .ok r ∧ Rep (2 * M) r (basemulExact f g) := by
  have hrow : ∀ i < 64, ∃ x, basemulRow a b i = .ok x ∧ x.length = 4 ∧ ∀ k < 4,
      (-(2 * M) ≤ x.getD k 0 ∧ x.getD k 0 ≤ 2 * M) ∧ (x.getD k 0 : Zq) = basemulExact f g (4 * i + k) := by
    intro i hi
    obtain ⟨ha0, fa0⟩ := ha (4 * i) (by omega)
    obtain ⟨ha1, fa1⟩ := ha (4 * i + 1) (by omega)
    obtain ⟨ha2, fa2⟩ := ha (4 * i + 2) (by omega)
    obtain ⟨ha3, fa3⟩ := ha (4 * i + 3) (by omega)
    obtain ⟨hb0, gb0⟩ := hb (4 * i) (by omega)
    obtain ⟨hb1, gb1⟩ := hb (4 * i + 1) (by omega)
    obtain ⟨hb2, gb2⟩ := hb (4 * i + 2) (by omega)
    obtain ⟨hb3, gb3⟩ := hb (4 * i + 3) (by omega)
    have hz := zetas_range (64 + i)
    obtain ⟨r0, r1, e₁, ⟨h0, c0⟩, h1, c1⟩ := basemulPair_rep ha0 ha1 hb0 hb1 hz hAB hM hlow hhigh
    obtain ⟨r2, r3, e₂, ⟨h2, c2⟩, h3, c3⟩ := basemulPair_rep ha2 ha3 hb2 hb3
      (z := -zetas (64 + i)) (by omega) hAB hM hlow hhigh
    obtain ⟨hfirst, hsecond⟩ := node_pair i
    refine ⟨[r0, r1, r2, r3], ?_, rfl, fun k hk => ?_⟩
    · rw [basemulRow, e₁]
      show (int16 (-zetas (64 + i)) >>= fun z => _) = _
      rw [int16_ok (by omega)]
      show (basemulPair _ _ _ _ (-zetas (64 + i)) >>= fun s => _) = _
      rw [e₂]
      rfl
    · have hplace : k = 0 ∨ k = 1 ∨ k = 2 ∨ k = 3 := by omega
      rcases hplace with rfl | rfl | rfl | rfl
      · refine ⟨h0, ?_⟩
        show (r0 : Zq) = basemulExact f g (4 * i)
        rw [c0, basemulExact, baseProduct, if_pos (by omega), show 4 * i / 2 = 2 * i by omega, fa0, fa1,
          gb0, gb1, show (2 : Nat) ^ 7 = 128 from rfl, hfirst, zeta]
      · refine ⟨h1, ?_⟩
        show (r1 : Zq) = _
        rw [c1, basemulExact, baseProduct, if_neg (by omega), Nat.add_sub_cancel, fa0, fa1, gb0, gb1]
      · refine ⟨h2, ?_⟩
        show (r2 : Zq) = _
        rw [c2, basemulExact, baseProduct, if_pos (by omega),
          show (4 * i + 2) / 2 = 2 * i + 1 by omega, fa2, fa3, gb2, gb3,
          show (2 : Nat) ^ 7 = 128 from rfl, hsecond, zeta, Int.cast_neg]
        ring
      · refine ⟨h3, ?_⟩
        show (r3 : Zq) = _
        rw [c3, basemulExact, baseProduct, if_neg (by omega),
          show 4 * i + 3 - 1 = 4 * i + 2 by omega, fa2, fa3, gb2, gb3]
  obtain ⟨l, hl, -, hall⟩ := rowLoop_all (P := fun i x => (-(2 * M) ≤ x ∧ x ≤ 2 * M) ∧
    (x : Zq) = basemulExact f g i) (d := 0) hrow
  exact ⟨cells l, by rw [polyBasemul, hl]; rfl, hall⟩

/-! ## Products in the ring -/

/-- The polynomial of an array. -/
noncomputable def polyOf (f : Nat → Zq) : Zq[X] := blockPoly f 0 256

theorem polyOf_congr {f g : Nat → Zq} (h : Agree 256 f g) : polyOf f = polyOf g := by
  rw [polyOf, polyOf]
  exact blockPoly_congr h (Nat.le_of_eq (Nat.zero_add 256))

/-- Both are the same modulo `X ^ 256 + 1`. -/
def Congruent (p r : Zq[X]) : Prop := (X ^ 256 + 1 : Zq[X]) ∣ p - r

instance zqNontrivial : Nontrivial Zq := ⟨0, 1, by decide⟩

theorem cells_count : 2 ^ 7 * 2 = 256 := rfl

theorem top_modulus : (X ^ 256 - C (node 1) : Zq[X]) = X ^ 256 + 1 := by
  rw [node_top, C_neg, C_1, sub_neg_eq_add]

/-- What is left of the factors of both transforms. -/
theorem scale_eq : (1441 * montInv * 2 ^ 7 : Zq) = mont := by decide

/-- **THERE AND BACK** multiplies by `2 ^ 16`. -/
theorem invNttExact_nttExact (f : Nat → Zq) :
    Agree 256 (invNttExact (nttExact f)) fun i => mont * f i := by
  intro i hi
  have hback := backward_forward (w := zeta) (t := 7) (L := 2) (by decide) zeta_mirrored f i hi
  rw [invNttExact, nttExact, hback, ← scale_eq]
  ring

/-- **BACK AND THERE** as well. -/
theorem nttExact_invNttExact (f : Nat → Zq) :
    Agree 256 (nttExact (invNttExact f)) fun i => mont * f i := by
  intro i hi
  have hthere := forward_backward (w := zeta) (t := 7) (L := 2) (by decide) zeta_mirrored f i hi
  show forward zeta 7 2 (fun j => 1441 * montInv * backward zeta 7 2 f j) i = mont * f i
  rw [forward_smul, ← scale_eq]
  show 1441 * montInv * forward zeta 7 2 (backward zeta 7 2 f) i = _
  rw [hthere]
  ring

theorem nttExact_congr {f g : Nat → Zq} (h : Agree 256 f g) : Agree 256 (nttExact f) (nttExact g) :=
  forward_congr (w := zeta) (t := 7) (L := 2) (by decide) h

theorem invNttExact_congr {f g : Nat → Zq} (h : Agree 256 f g) :
    Agree 256 (invNttExact f) (invNttExact g) := by
  intro i hi
  rw [invNttExact, invNttExact, backward_congr (w := zeta) (t := 7) (L := 2) (by decide) h i hi]

/-- **BASE PRODUCTS ARE PRODUCTS**: of transforms they are the transform of a product
    in the ring, up to the factor that the transform back cancels. -/
theorem basemulExact_nttExact {f g r : Nat → Zq} (hr : Congruent (polyOf f * polyOf g) (polyOf r)) :
    Agree 256 (basemulExact (nttExact f) (nttExact g)) fun i => montInv * nttExact r i := by
  intro i hi
  have hprod := baseProduct_forward (t := 7) zeta_roots f g (r := r)
  rw [cells_count, top_modulus] at hprod
  rw [basemulExact, nttExact, nttExact, nttExact, hprod hr i hi]

/-- The product of two arrays in the ring. -/
theorem exists_product (f g : Nat → Zq) : ∃ r, Congruent (polyOf f * polyOf g) (polyOf r) := by
  obtain ⟨r, hr⟩ := exists_residue (N := 256) (by decide) (node 1) (polyOf f * polyOf g)
  rw [top_modulus] at hr
  exact ⟨r, hr⟩

theorem invNttExact_smul (a : Zq) (f : Nat → Zq) (i : Nat) :
    invNttExact (fun j => a * f j) i = a * invNttExact f i := by
  rw [invNttExact, backward_smul, invNttExact]
  ring

/-- **MULTIPLICATION BY TRANSFORMS** is multiplication in the ring. -/
theorem invNttExact_basemulExact (f g : Nat → Zq) :
    Congruent (polyOf (invNttExact (basemulExact (nttExact f) (nttExact g)))) (polyOf f * polyOf g) := by
  obtain ⟨r, hr⟩ := exists_product f g
  have hsame : Agree 256 (invNttExact (basemulExact (nttExact f) (nttExact g))) r := by
    intro i hi
    rw [invNttExact_congr (basemulExact_nttExact hr) i hi, invNttExact_smul,
      invNttExact_nttExact r i hi, ← mul_assoc, mul_comm montInv, mont_mul_montInv, one_mul]
  rw [polyOf_congr hsame, Congruent, ← dvd_neg, neg_sub]
  exact hr

/-- The polynomial that the cells of an array stand for. -/
noncomputable def polyOfCells (r : Poly) : Zq[X] := polyOf fun i => (r i : Zq)

theorem Rep.polyOfCells_eq {B : Int} {r : Poly} {f : Nat → Zq} (h : Rep B r f) :
    polyOfCells r = polyOf f := by
  rw [polyOfCells, polyOf_congr fun i hi => (h i hi).2]

/-- **THE TRANSFORM MULTIPLIES**: on all polynomials, the transforms, the base product
    and the transform back return, with a polynomial congruent to the product.  The
    transform back alone returns the factor `2 ^ 16`, which a base product cancels. -/
theorem ntt_multiplication (a b : Poly) (ha : ∀ i < 256, -3329 ≤ a i ∧ a i ≤ 3329)
    (hb : ∀ i < 256, -3329 ≤ b i ∧ b i ≤ 3329) :
    ∃ aHat bHat p r s, ntt a = .ok aHat ∧ ntt b = .ok bHat ∧ polyBasemul aHat bHat = .ok p ∧
      invNtt p = .ok r ∧ Congruent (polyOfCells r) (polyOfCells a * polyOfCells b) ∧
      invNtt aHat = .ok s ∧ ∀ i < 256, (s i : Zq) = mont * a i := by
  have hra : Rep 3329 a fun i => (a i : Zq) := fun i hi => ⟨ha i hi, rfl⟩
  have hrb : Rep 3329 b fun i => (b i : Zq) := fun i hi => ⟨hb i hi, rfl⟩
  obtain ⟨aHat, ea, hA, hpairs⟩ := ntt_rep hra
  obtain ⟨bHat, eb, hB, -⟩ := ntt_rep hrb
  obtain ⟨p, ep, hp⟩ := polyBasemul_rep hA hB (M := 6765) (by decide) (by decide) (by decide) (by decide)
  obtain ⟨r, er, hr⟩ := invNtt_rep (hp.mono (by decide))
  obtain ⟨s, es, hs⟩ := invNtt_paired ⟨fun i hi => (hA i hi).2, hpairs⟩
  refine ⟨aHat, bHat, p, r, s, ea, eb, ep, er, ?_, es, fun i hi => ?_⟩
  · rw [hr.polyOfCells_eq]
    exact invNttExact_basemulExact _ _
  · rw [(hs i hi).2, invNttExact_nttExact _ i hi]

/-- The theorem, run: on two polynomials with large and small coefficients. -/
theorem ntt_multiplication_run :
    ∃ aHat bHat p r s, ntt (fun i => i % 3329) = .ok aHat ∧ ntt (fun _ => -1) = .ok bHat ∧
      polyBasemul aHat bHat = .ok p ∧ invNtt p = .ok r ∧
      Congruent (polyOfCells r) (polyOfCells (fun i => i % 3329) * polyOfCells fun _ => -1) ∧
      invNtt aHat = .ok s ∧ ∀ i < 256, (s i : Zq) = mont * ((i % 3329 : Int) : Zq) :=
  ntt_multiplication (fun i => i % 3329) (fun _ => -1) (fun i hi => by omega) fun i _ => by omega

end Zupt.Mlkem
