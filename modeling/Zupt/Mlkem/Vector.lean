import Zupt.Mlkem.Product

/-! # Vectors of ML-KEM

    Sums, reductions and inner products, on the polynomials of a vector of `MLKEM_K`. -/

namespace Zupt.Mlkem

open Finset

/-- `MLKEM_K`. -/
def mlkemK : Nat := 3

/-- `polyvec`. -/
abbrev Polyvec := Nat → Poly

/-- `poly_add`. -/
def polyAdd (a b : Poly) : Checked Poly := fillLoop (fun i => int16 (a i + b i)) 256

/-- `poly_sub`. -/
def polySub (a b : Poly) : Checked Poly := fillLoop (fun i => int16 (a i - b i)) 256

/-- `poly_reduce`. -/
def polyReduce (r : Poly) : Checked Poly := fillLoop (fun i => barrettReduce (r i)) 256

/-- `poly_tomont`. -/
def polyTomont (r : Poly) : Checked Poly := fillLoop (fun i => fqmul (r i) 1353) 256

/-- `polyvec_ntt`. -/
def polyvecNtt (pv : Polyvec) : Checked Polyvec := fillLoop (fun i => ntt (pv i)) mlkemK

/-- `polyvec_invntt`. -/
def polyvecInvntt (pv : Polyvec) : Checked Polyvec := fillLoop (fun i => invNtt (pv i)) mlkemK

/-- The loop of `polyvec_pointwise_acc`, with `n` turns to go. -/
def accLoop (a b : Polyvec) : (n i : Nat) → Poly → Checked Poly
  | 0, _, r => .ok r
  | n + 1, i, r => do
      let t ← polyBasemul (a i) (b i)
      let r ← polyAdd r t
      accLoop a b n (i + 1) r

/-- `polyvec_pointwise_acc`. -/
def polyvecPointwiseAcc (a b : Polyvec) : Checked Poly := do
  let r ← polyBasemul (a 0) (b 0)
  let r ← accLoop a b (mlkemK - 1) 1 r
  polyReduce r

/-! ## Coefficient by coefficient -/

theorem fillLoop_rep {g : Nat → Checked Int} {B : Int} {f : Nat → Zq}
    (h : ∀ i < 256, ∃ x : Int, g i = .ok x ∧ (-B ≤ x ∧ x ≤ B) ∧ (x : Zq) = f i) :
    ∃ r, fillLoop g 256 = .ok r ∧ Rep B r f :=
  fillLoop_all (P := fun i (x : Int) => (-B ≤ x ∧ x ≤ B) ∧ (x : Zq) = f i) h

theorem polyAdd_rep {a b : Poly} {f g : Nat → Zq} {A B : Int} (ha : Rep A a f) (hb : Rep B b g)
    (hAB : A + B ≤ 32767) : ∃ r, polyAdd a b = .ok r ∧ Rep (A + B) r fun i => f i + g i := by
  refine fillLoop_rep fun i hi => ?_
  obtain ⟨hx, hf⟩ := ha i hi
  obtain ⟨hy, hg⟩ := hb i hi
  exact ⟨_, int16_ok (by omega), by omega, by rw [Int.cast_add, hf, hg]⟩

theorem polySub_rep {a b : Poly} {f g : Nat → Zq} {A B : Int} (ha : Rep A a f) (hb : Rep B b g)
    (hAB : A + B ≤ 32767) : ∃ r, polySub a b = .ok r ∧ Rep (A + B) r fun i => f i - g i := by
  refine fillLoop_rep fun i hi => ?_
  obtain ⟨hx, hf⟩ := ha i hi
  obtain ⟨hy, hg⟩ := hb i hi
  exact ⟨_, int16_ok (by omega), by omega, by rw [Int.cast_sub, hf, hg]⟩

theorem polyReduce_rep {r : Poly} {f : Nat → Zq} (h : Rep 32767 r f) :
    ∃ r', polyReduce r = .ok r' ∧ Rep 1664 r' f := by
  refine fillLoop_rep fun i hi => ?_
  obtain ⟨hx, hf⟩ := h i hi
  exact ⟨_, barrettReduce_eq (by omega), barrett_range (by omega), by rw [cast_barrett, hf]⟩

/-- The constant of `poly_tomont`, reduced, is the factor. -/
theorem tomont_eq : (1353 * montInv : Zq) = mont := by decide

theorem polyTomont_rep {r : Poly} {f : Nat → Zq} (h : Rep 1664 r f) :
    ∃ r', polyTomont r = .ok r' ∧ Rep 1698 r' fun i => mont * f i := by
  refine fillLoop_rep fun i hi => ?_
  obtain ⟨hx, hf⟩ := h i hi
  obtain ⟨hmul, hrange, hcast⟩ := fqmul_eq hx (y := 1353) (B := 1353) (by decide) (by decide)
    (M := 1698) (by decide)
  refine ⟨_, hmul, hrange, ?_⟩
  rw [hcast, hf, Int.cast_ofNat, ← tomont_eq]
  ring

/-! ## Vectors -/

/-- The polynomials of a vector are within the bound, and stand for those of `f`. -/
def VecRep (B : Int) (v : Polyvec) (f : Nat → Nat → Zq) : Prop := ∀ j < mlkemK, Rep B (v j) (f j)

theorem fillLoop_vecRep {g : Nat → Checked Poly} {B : Int} {f : Nat → Nat → Zq}
    (h : ∀ j < mlkemK, ∃ r, g j = .ok r ∧ Rep B r (f j)) :
    ∃ v, fillLoop g mlkemK = .ok v ∧ VecRep B v f :=
  fillLoop_all (P := fun j r => Rep B r (f j)) h

theorem polyvecNtt_rep {v : Polyvec} {f : Nat → Nat → Zq} (h : VecRep 3329 v f) :
    ∃ v', polyvecNtt v = .ok v' ∧ VecRep 18283 v' fun j => nttExact (f j) := by
  refine fillLoop_vecRep fun j hj => ?_
  obtain ⟨r, hr, hrep, -⟩ := ntt_rep (h j hj)
  exact ⟨r, hr, hrep⟩

theorem polyvecInvntt_rep {v : Polyvec} {f : Nat → Nat → Zq} (h : VecRep 1664 v f) :
    ∃ v', polyvecInvntt v = .ok v' ∧ VecRep 1737 v' fun j => invNttExact (f j) :=
  fillLoop_vecRep fun j hj => invNtt_rep ((h j hj).mono (by decide))

/-- The exact inner product, with the factor of a Montgomery product. -/
def accExact (f g : Nat → Nat → Zq) (i : Nat) : Zq :=
  ∑ j ∈ range mlkemK, basemulExact (f j) (g j) i

section Acc

variable {a b : Polyvec} {f g : Nat → Nat → Zq}

theorem basemul_rep (ha : VecRep 4095 a f) (hb : VecRep 18283 b g) {j : Nat} (hj : j < mlkemK) :
    ∃ r, polyBasemul (a j) (b j) = .ok r ∧ Rep 5612 r (basemulExact (f j) (g j)) :=
  polyBasemul_rep (ha j hj) (hb j hj) (M := 2806) (by decide) (by decide) (by decide) (by decide)

/-- What one turn of the loop adds: `j` products are in the sum. -/
theorem accLoop_rep (ha : VecRep 4095 a f) (hb : VecRep 18283 b g) {n j : Nat} {r : Poly}
    (hn : j + n = mlkemK) (hr : Rep (5612 * j) r fun i => ∑ k ∈ range j, basemulExact (f k) (g k) i) :
    ∃ r', accLoop a b n j r = .ok r' ∧ Rep 16836 r' (accExact f g) := by
  induction n generalizing j r with
  | zero =>
      rw [Nat.add_zero] at hn
      rw [hn] at hr
      exact ⟨r, rfl, hr⟩
  | succ n ih =>
      have hj : j < 3 := by
        show j < mlkemK
        omega
      obtain ⟨t, ht, htrep⟩ := basemul_rep ha hb hj
      obtain ⟨s, hs, hsrep⟩ := polyAdd_rep hr htrep (by omega)
      have hsum : Rep (5612 * (j + 1 : Nat)) s fun i => ∑ k ∈ range (j + 1), basemulExact (f k) (g k) i :=
        (hsrep.mono (by omega)).congr fun i _ => (sum_range_succ _ j).symm
      obtain ⟨r', hr', hrep⟩ := ih (by omega) hsum
      refine ⟨r', ?_, hrep⟩
      rw [accLoop, ht, ok_bind, hs, ok_bind]
      exact hr'

/-- **THE INNER PRODUCT** of decoded polynomials and transforms is exact. -/
theorem polyvecPointwiseAcc_rep (ha : VecRep 4095 a f) (hb : VecRep 18283 b g) :
    ∃ r, polyvecPointwiseAcc a b = .ok r ∧ Rep 1664 r (accExact f g) := by
  obtain ⟨t, ht, htrep⟩ := basemul_rep ha hb (j := 0) (by decide)
  have hfirst : Rep (5612 * (1 : Nat)) t fun i => ∑ k ∈ range 1, basemulExact (f k) (g k) i :=
    (htrep.mono (by decide)).congr fun i _ =>
      (sum_range_one fun k => basemulExact (f k) (g k) i).symm
  obtain ⟨s, hs, hsrep⟩ := accLoop_rep ha hb (n := mlkemK - 1) (j := 1) rfl hfirst
  obtain ⟨r, hr, hrep⟩ := polyReduce_rep (hsrep.mono (by decide))
  refine ⟨r, ?_, hrep⟩
  rw [polyvecPointwiseAcc, ht, ok_bind, hs, ok_bind]
  exact hr

end Acc

end Zupt.Mlkem
