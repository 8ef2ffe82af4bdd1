import Mathlib.RingTheory.AdjoinRoot
import Zupt.Mlkem.RoundTrip

/-! # The decryption noise

    In `Zq[X] / (X ^ 256 + 1)` the matrix drops out of what decryption subtracts, and what
    is left of a ciphertext is the message and the noise. -/

namespace Zupt.Mlkem

open Polynomial Finset Zupt.NttTree

/-! ## Arrays in the ring -/

/-- `Zq[X] / (X ^ 256 + 1)`. -/
abbrev Rq := AdjoinRoot (X ^ 256 + 1 : Zq[X])

/-- The element of an array of coefficients. -/
noncomputable def ringOf (f : Nat → Zq) : Rq := AdjoinRoot.mk _ (polyOf f)

/-- The element of an array of residues. -/
noncomputable def hatOf (f : Nat → Zq) : Rq := ringOf fun i => montInv * invNttExact f i

theorem ringOf_congr {f g : Nat → Zq} (h : Agree 256 f g) : ringOf f = ringOf g := by
  rw [ringOf, ringOf, polyOf_congr h]

theorem ringOf_add (f g : Nat → Zq) : ringOf (fun i => f i + g i) = ringOf f + ringOf g := by
  rw [ringOf, ringOf, ringOf, polyOf, polyOf, polyOf, blockPoly_add, map_add]

theorem ringOf_sub (f g : Nat → Zq) : ringOf (fun i => f i - g i) = ringOf f - ringOf g := by
  have hsum := ringOf_add (fun i => f i - g i) g
  rw [eq_sub_iff_add_eq, ← hsum]
  exact ringOf_congr fun i _ => sub_add_cancel (f i) (g i)

theorem ringOf_eq_iff {f g : Nat → Zq} : ringOf f = ringOf g ↔ Congruent (polyOf f) (polyOf g) := by
  rw [ringOf, ringOf, AdjoinRoot.mk_eq_mk, Congruent]

theorem ringOf_of_congruent {f : Nat → Zq} {p : Zq[X]} (h : Congruent (polyOf f) p) :
    ringOf f = AdjoinRoot.mk _ p := by
  rw [Congruent] at h
  rw [ringOf, AdjoinRoot.mk_eq_mk]
  exact h

/-- **AN ELEMENT** has one array of coefficients. -/
theorem agree_of_ringOf {f g : Nat → Zq} (h : ringOf f = ringOf g) : Agree 256 f g := by
  rw [ringOf_eq_iff, Congruent, ← top_modulus] at h
  intro i hi
  have hall := eq_of_residue (s := 0) (Nat.le_refl 256) (by decide) h i hi
  rw [Nat.zero_add] at hall
  exact hall

theorem hatOf_congr {f g : Nat → Zq} (h : Agree 256 f g) : hatOf f = hatOf g :=
  ringOf_congr fun i hi => by rw [invNttExact_congr h i hi]

theorem invNttExact_add (f g : Nat → Zq) (i : Nat) :
    invNttExact (fun j => f j + g j) i = invNttExact f i + invNttExact g i := by
  rw [invNttExact, backward_add, invNttExact, invNttExact, mul_add]

theorem hatOf_add (f g : Nat → Zq) : hatOf (fun i => f i + g i) = hatOf f + hatOf g := by
  rw [hatOf, hatOf, hatOf, ← ringOf_add]
  refine ringOf_congr fun i _ => ?_
  rw [invNttExact_add, mul_add]

theorem montInv_mul_mont (x : Zq) : montInv * (mont * x) = x := by
  rw [← mul_assoc, mul_comm montInv, mont_mul_montInv, one_mul]

theorem mont_mul_montInv_mul (x : Zq) : mont * (montInv * x) = x := by
  rw [← mul_assoc, mont_mul_montInv, one_mul]

/-- A transform stands for what has been transformed. -/
theorem hatOf_nttExact (f : Nat → Zq) : hatOf (nttExact f) = ringOf f :=
  ringOf_congr fun i hi => by rw [invNttExact_nttExact f i hi, montInv_mul_mont]

/-- Residues are the transform of their element. -/
theorem nttExact_hat (f : Nat → Zq) : Agree 256 (nttExact fun i => montInv * invNttExact f i) f := by
  intro i hi
  have hthere := nttExact_invNttExact f i hi
  have hscale : nttExact (fun j => montInv * invNttExact f j) i = montInv * nttExact (invNttExact f) i := by
    rw [nttExact, forward_smul]
    rfl
  rw [hscale, hthere, montInv_mul_mont]

/-- **A BASE PRODUCT** transformed back is the product. -/
theorem ringOf_basemul (f g : Nat → Zq) : ringOf (invNttExact (basemulExact f g)) = hatOf f * hatOf g := by
  have hsame : Agree 256 (basemulExact f g) (basemulExact
      (nttExact fun i => montInv * invNttExact f i) (nttExact fun i => montInv * invNttExact g i)) := by
    intro i hi
    rw [basemulExact, basemulExact, baseProduct_congr (n := 256) rfl (nttExact_hat f).symm
      (nttExact_hat g).symm i hi]
  rw [ringOf_congr (invNttExact_congr hsame), hatOf, hatOf, ringOf, ringOf, ringOf, ← map_mul,
    AdjoinRoot.mk_eq_mk]
  exact invNttExact_basemulExact _ _

theorem invNttExact_zero : invNttExact (fun _ => 0) = fun _ => 0 := by
  funext i
  have hzero := invNttExact_smul 0 (fun _ => 0) i
  simp only [zero_mul] at hzero
  exact hzero

theorem nttExact_zero : nttExact (fun _ => 0) = fun _ => 0 := by
  have hzero := forward_smul (w := zeta) (t := 7) (L := 2) 0 fun _ => 0
  simp only [zero_mul] at hzero
  exact hzero

theorem ringOf_invNtt_sum (F : Nat → Nat → Zq) (n : Nat) :
    ringOf (invNttExact fun i => ∑ j ∈ range n, F j i) = ∑ j ∈ range n, ringOf (invNttExact (F j)) := by
  induction n with
  | zero =>
      have hring := ringOf_sub (fun _ => 0) (fun _ => 0)
      simp only [sub_self] at hring
      simp only [sum_range_zero]
      rw [invNttExact_zero, hring]
  | succ n ih =>
      simp only [sum_range_succ]
      rw [← ih, ← ringOf_add]
      exact ringOf_congr fun i _ => invNttExact_add _ _ i

/-- **AN INNER PRODUCT** transformed back. -/
theorem ringOf_acc (f g : Nat → Nat → Zq) :
    ringOf (invNttExact (accExact f g)) = ∑ j ∈ range mlkemK, hatOf (f j) * hatOf (g j) := by
  have hsum := ringOf_invNtt_sum (fun j => basemulExact (f j) (g j)) mlkemK
  rw [show accExact f g = fun i => ∑ j ∈ range mlkemK, basemulExact (f j) (g j) i from rfl, hsum]
  exact sum_congr rfl fun j _ => ringOf_basemul (f j) (g j)

/-! ## The noise -/

/-- **THE MATRIX DROPS OUT**, in any commutative ring. -/
theorem matrix_drops_out {R : Type*} [CommRing R] (n : Nat) (a : Nat → Nat → R) (s e r e1 : Nat → R) :
    (∑ i ∈ range n, (∑ j ∈ range n, a i j * s j + e i) * r i) -
        ∑ i ∈ range n, s i * (∑ j ∈ range n, a j i * r j + e1 i) =
      ∑ i ∈ range n, e i * r i - ∑ i ∈ range n, s i * e1 i := by
  have hleft : ∑ i ∈ range n, (∑ j ∈ range n, a i j * s j) * r i =
      ∑ i ∈ range n, ∑ j ∈ range n, a i j * s j * r i := sum_congr rfl fun i _ => sum_mul _ _ _
  have hright : ∑ i ∈ range n, s i * ∑ j ∈ range n, a j i * r j =
      ∑ i ∈ range n, ∑ j ∈ range n, a i j * s j * r i := by
    rw [sum_comm]
    refine sum_congr rfl fun i _ => ?_
    rw [mul_sum]
    refine sum_congr rfl fun j _ => ?_
    ring
  simp only [add_mul, mul_add, sum_add_distrib]
  rw [hleft, hright]
  ring

/-- What compression adds to a coefficient. -/
def roundError (d : Nat) (f : Nat → Zq) (i : Nat) : Zq := rounded d (f i) - f i

/-- The noise, in any commutative ring. -/
def noiseIn {R : Type*} [CommRing R] (n : Nat) (s e r e1 cu : Nat → R) (e2 cv : R) : R :=
  e2 + cv + ∑ i ∈ range n, e i * r i - ∑ i ∈ range n, s i * (e1 i + cu i)

theorem map_noiseIn {R S : Type*} [CommRing R] [CommRing S] (φ : R →+* S) (n : Nat)
    (s e r e1 cu : Nat → R) (e2 cv : R) :
    φ (noiseIn n s e r e1 cu e2 cv) = noiseIn n (fun i => φ (s i)) (fun i => φ (e i))
      (fun i => φ (r i)) (fun i => φ (e1 i)) (fun i => φ (cu i)) (φ e2) (φ cv) := by
  rw [noiseIn, noiseIn]
  simp only [map_sub, map_add, map_sum, map_mul]

/-- The noise of sampled polynomials and rounding errors. -/
noncomputable def noisePoly (s e r e1 cu : Nat → Nat → Zq) (e2 cv : Nat → Zq) : Zq[X] :=
  noiseIn mlkemK (fun i => polyOf (s i)) (fun i => polyOf (e i)) (fun i => polyOf (r i))
    (fun i => polyOf (e1 i)) (fun i => polyOf (cu i)) (polyOf e2) (polyOf cv)

section Decryption

variable {a : Nat → Nat → Nat → Zq} {s e r e1 : Nat → Nat → Zq} {e2 mp : Nat → Zq}

theorem hatOf_public (i : Nat) :
    hatOf (publicExact a s e i) = ∑ j ∈ range mlkemK, hatOf (a i j) * ringOf (s j) + ringOf (e i) := by
  have hsplit : hatOf (publicExact a s e i) =
      hatOf (fun k => mont * accExact (a i) (vecNttExact s) k) + hatOf (nttExact (e i)) :=
    hatOf_add _ _
  have hscale : hatOf (fun k => mont * accExact (a i) (vecNttExact s) k) =
      ringOf (invNttExact (accExact (a i) (vecNttExact s))) := by
    refine ringOf_congr fun k _ => ?_
    rw [invNttExact_smul, montInv_mul_mont]
  rw [hsplit, hscale, ringOf_acc, hatOf_nttExact]
  refine congrArg (· + ringOf (e i)) (sum_congr rfl fun j _ => ?_)
  rw [vecNttExact, hatOf_nttExact]

theorem ringOf_uExact (i : Nat) :
    ringOf (uExact a r e1 i) = ∑ j ∈ range mlkemK, hatOf (a i j) * ringOf (r j) + ringOf (e1 i) := by
  have hsplit : ringOf (uExact a r e1 i) =
      ringOf (invNttExact (accExact (a i) (vecNttExact r))) + ringOf (e1 i) := ringOf_add _ _
  rw [hsplit, ringOf_acc]
  refine congrArg (· + ringOf (e1 i)) (sum_congr rfl fun j _ => ?_)
  rw [vecNttExact, hatOf_nttExact]

theorem ringOf_vExact (tHat : Nat → Nat → Zq) :
    ringOf (vExact tHat r e2 mp) =
      ∑ j ∈ range mlkemK, hatOf (tHat j) * ringOf (r j) + ringOf e2 + ringOf mp := by
  have hsplit : ringOf (vExact tHat r e2 mp) =
      ringOf (fun k => invNttExact (accExact tHat (vecNttExact r)) k + e2 k) + ringOf mp :=
    ringOf_add _ _
  rw [hsplit, ringOf_add, ringOf_acc]
  refine congrArg (· + ringOf e2 + ringOf mp) (sum_congr rfl fun j _ => ?_)
  rw [vecNttExact, hatOf_nttExact]

/-- **DECRYPTION** finds the message with the noise added. -/
theorem wExact_noise {sHat u' : Nat → Nat → Zq} {v' η : Nat → Zq}
    (hs : ∀ j < mlkemK, Agree 256 (sHat j) (nttExact (s j)))
    (hu : ∀ j < mlkemK, Agree 256 (u' j) fun i => rounded 10 (uExact (fun i j => a j i) r e1 j i))
    (hv : Agree 256 v' fun i => rounded 4 (vExact (publicExact a s e) r e2 mp i))
    (hη : Congruent (polyOf η) (noisePoly s e r e1
      (fun j => roundError 10 (uExact (fun i j => a j i) r e1 j)) e2
      (roundError 4 (vExact (publicExact a s e) r e2 mp)))) :
    Agree 256 (wExact sHat u' v') fun i => mp i + η i := by
  refine agree_of_ringOf ?_
  have hw : ringOf (wExact sHat u' v') =
      ringOf v' - ∑ j ∈ range mlkemK, ringOf (s j) * ringOf (u' j) := by
    have hsplit : ringOf (wExact sHat u' v') =
        ringOf v' - ringOf (invNttExact (accExact sHat (vecNttExact u'))) := ringOf_sub _ _
    rw [hsplit, ringOf_acc]
    refine congrArg (ringOf v' - ·) (sum_congr rfl fun j hj => ?_)
    rw [hatOf_congr (hs j (mem_range.mp hj)), hatOf_nttExact, vecNttExact, hatOf_nttExact]
  have hround : ∀ (d : Nat) (f : Nat → Zq),
      ringOf (fun i => rounded d (f i)) = ringOf f + ringOf (roundError d f) := fun d f => by
    rw [← ringOf_add]
    refine ringOf_congr fun i _ => ?_
    rw [roundError, add_sub_cancel]
  have hnoise : ringOf η = noiseIn mlkemK (fun i => ringOf (s i)) (fun i => ringOf (e i))
      (fun i => ringOf (r i)) (fun i => ringOf (e1 i))
      (fun i => ringOf (roundError 10 (uExact (fun i j => a j i) r e1 i))) (ringOf e2)
      (ringOf (roundError 4 (vExact (publicExact a s e) r e2 mp))) := by
    rw [ringOf_of_congruent hη]
    exact map_noiseIn _ mlkemK _ _ _ _ _ _ _
  rw [noiseIn] at hnoise
  have hpublic : ∑ j ∈ range mlkemK, hatOf (publicExact a s e j) * ringOf (r j) = ∑ i ∈ range mlkemK,
      (∑ j ∈ range mlkemK, hatOf (a i j) * ringOf (s j) + ringOf (e i)) * ringOf (r i) :=
    sum_congr rfl fun j _ => by rw [hatOf_public]
  have hsecret : ∑ j ∈ range mlkemK, ringOf (s j) * ringOf (u' j) = ∑ i ∈ range mlkemK,
      ringOf (s i) * (∑ j ∈ range mlkemK, hatOf (a j i) * ringOf (r j) + (ringOf (e1 i) +
        ringOf (roundError 10 (uExact (fun i j => a j i) r e1 i)))) := by
    refine sum_congr rfl fun j hj => ?_
    rw [ringOf_congr (hu j (mem_range.mp hj)), hround, ringOf_uExact, add_assoc]
  have hmatrix := matrix_drops_out mlkemK (fun i j => hatOf (a i j)) (fun j => ringOf (s j))
    (fun j => ringOf (e j)) (fun j => ringOf (r j)) fun i =>
      ringOf (e1 i) + ringOf (roundError 10 (uExact (fun i j => a j i) r e1 i))
  rw [hw, ringOf_congr hv, hround, ringOf_vExact, hpublic, hsecret, ringOf_add, hnoise]
  linear_combination hmatrix

end Decryption

end Zupt.Mlkem
