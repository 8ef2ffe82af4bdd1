import Zupt.Checked

/-! # The arithmetic of ML-KEM

    Coefficients are `int16_t`, products are `int`.  Every operation is checked: a
    value that does not fit its type is a fault, except in the conversions that are
    there to drop the upper bits.  What the operations compute is stated twice, as an
    integer with its bounds and as its class modulo `q`. -/

namespace Zupt.Mlkem

/-- `Q`. -/
def q : Int := 3329

/-- `QINV`. -/
def qinv : Int := -3327

/-- The integers modulo `q`. -/
abbrev Zq := ZMod 3329

/-- `(int16_t)x` where the upper bits are dropped. -/
def wrap16 (x : Int) : Int := x.bmod (2 ^ 16)

/-- `barrett_reduce`. -/
def barrettReduce (a : Int) : Checked Int := do
  let p ← int32 (20159 * a)
  let s ← int32 (p + 2 ^ 25)
  let t ← int16 (s / 2 ^ 26)
  let m ← int32 (t * q)
  int16 (a - m)

/-- `montgomery_reduce`. -/
def montgomeryReduce (a : Int) : Checked Int := do
  let p ← int32 (wrap16 a * qinv)
  let t := wrap16 p
  let m ← int32 (t * q)
  let d ← int32 (a - m)
  int16 (d / 2 ^ 16)

/-! ## What the reductions compute -/

/-- The integer behind `barrett_reduce`. -/
def barrett (a : Int) : Int := a - (20159 * a + 2 ^ 25) / 2 ^ 26 * q

/-- The integer behind `montgomery_reduce`. -/
def montgomery (a : Int) : Int := (a - wrap16 (wrap16 a * qinv) * q) / 2 ^ 16

/-- `2 ^ 16` modulo `q`, and its inverse. -/
def mont : Zq := 2 ^ 16

def montInv : Zq := 169

theorem mont_mul_montInv : mont * montInv = 1 := by decide

theorem wrap16_range (x : Int) : -2 ^ 15 ≤ wrap16 x ∧ wrap16 x < 2 ^ 15 := by
  have hlow := Int.le_bmod (x := x) (m := 2 ^ 16) (by decide)
  have hhigh := Int.bmod_lt (x := x) (m := 2 ^ 16) (by decide)
  rw [wrap16]
  omega

/-- What is dropped is a multiple of `2 ^ 16`. -/
theorem wrap16_eq (x : Int) : ∃ k, wrap16 x = x + 2 ^ 16 * k := by
  refine ⟨-((x + 2 ^ 15) / 2 ^ 16), ?_⟩
  rw [wrap16, Int.bmod_def]
  split
  · omega
  · omega

theorem barrett_range {a : Int} (h : -2 ^ 15 ≤ a ∧ a < 2 ^ 15) :
    -1664 ≤ barrett a ∧ barrett a ≤ 1664 := by
  rw [barrett, q]
  omega

/-- **BARRETT**: no operation overflows, on any `int16_t`. -/
theorem barrettReduce_eq {a : Int} (h : -2 ^ 15 ≤ a ∧ a < 2 ^ 15) :
    barrettReduce a = .ok (barrett a) := by
  have hrange := barrett_range h
  rw [barrett, q] at hrange
  have h1 : int32 (20159 * a) = .ok (20159 * a) := int32_ok (by omega)
  have h2 : int32 (20159 * a + 2 ^ 25) = .ok (20159 * a + 2 ^ 25) := int32_ok (by omega)
  have h3 : int16 ((20159 * a + 2 ^ 25) / 2 ^ 26) = .ok ((20159 * a + 2 ^ 25) / 2 ^ 26) :=
    int16_ok (by omega)
  have h4 : int32 ((20159 * a + 2 ^ 25) / 2 ^ 26 * q) = .ok ((20159 * a + 2 ^ 25) / 2 ^ 26 * q) :=
    int32_ok (by rw [q]; omega)
  have h5 : int16 (barrett a) = .ok (barrett a) := int16_ok (by rw [barrett, q]; omega)
  rw [barrettReduce, h1]
  show (int32 (20159 * a + 2 ^ 25) >>= fun s => _) = _
  rw [h2]
  show (int16 ((20159 * a + 2 ^ 25) / 2 ^ 26) >>= fun t => _) = _
  rw [h3]
  show (int32 ((20159 * a + 2 ^ 25) / 2 ^ 26 * q) >>= fun m => _) = _
  rw [h4]
  exact h5

theorem cast_q : ((q : Int) : Zq) = 0 := by decide

theorem cast_barrett (a : Int) : (barrett a : Zq) = a := by
  rw [barrett, Int.cast_sub, Int.cast_mul, cast_q, mul_zero, sub_zero]

/-- The upper half of the difference is exact: its lower half is 0. -/
theorem montgomery_mul (a : Int) :
    montgomery a * 2 ^ 16 = a - wrap16 (wrap16 a * qinv) * q := by
  obtain ⟨k, hk⟩ := wrap16_eq a
  obtain ⟨l, hl⟩ := wrap16_eq (wrap16 a * qinv)
  rw [montgomery, hl, hk, q, qinv]
  omega

/-- How far a Montgomery reduction is from 0. -/
theorem montgomery_range {a : Int} {B : Int} (h : -B ≤ a ∧ a ≤ B) :
    -(B + 109084672) ≤ montgomery a * 2 ^ 16 ∧ montgomery a * 2 ^ 16 ≤ B + 109084672 := by
  have ht := wrap16_range (wrap16 a * qinv)
  rw [montgomery_mul, q]
  omega

/-- **MONTGOMERY**: no operation overflows, on products of two coefficients. -/
theorem montgomeryReduce_eq {a : Int} (h : -2000000000 ≤ a ∧ a ≤ 2000000000) :
    montgomeryReduce a = .ok (montgomery a) := by
  have ha := wrap16_range a
  have ht := wrap16_range (wrap16 a * qinv)
  have hm := montgomery_mul a
  rw [q] at hm
  have h1 : int32 (wrap16 a * qinv) = .ok (wrap16 a * qinv) := int32_ok (by rw [qinv]; omega)
  have h2 : int32 (wrap16 (wrap16 a * qinv) * q) = .ok (wrap16 (wrap16 a * qinv) * q) :=
    int32_ok (by rw [q]; omega)
  have h3 : int32 (a - wrap16 (wrap16 a * qinv) * q) = .ok (a - wrap16 (wrap16 a * qinv) * q) :=
    int32_ok (by rw [q]; omega)
  have h4 : int16 (montgomery a) = .ok (montgomery a) := int16_ok (by omega)
  rw [montgomeryReduce, h1]
  show (int32 (wrap16 (wrap16 a * qinv) * q) >>= fun m => _) = _
  rw [h2]
  show (int32 (a - wrap16 (wrap16 a * qinv) * q) >>= fun d => _) = _
  rw [h3]
  exact h4

theorem cast_montgomery (a : Int) : (montgomery a : Zq) = a * montInv := by
  have hcast := congrArg (fun x : Int => (x : Zq)) (montgomery_mul a)
  simp only [Int.cast_mul, Int.cast_sub, Int.cast_pow, Int.cast_ofNat, cast_q, mul_zero, sub_zero]
    at hcast
  have hinv : (2 : Zq) ^ 16 * montInv = 1 := mont_mul_montInv
  calc (montgomery a : Zq) = montgomery a * ((2 : Zq) ^ 16 * montInv) := by rw [hinv, mul_one]
    _ = montgomery a * (2 : Zq) ^ 16 * montInv := (mul_assoc _ _ _).symm
    _ = a * montInv := by rw [hcast]

/-- A product of bounded factors. -/
theorem mul_range {x y A B : Int} (hx : -A ≤ x ∧ x ≤ A) (hy : -B ≤ y ∧ y ≤ B) :
    -(A * B) ≤ x * y ∧ x * y ≤ A * B := by
  have habs : |x * y| ≤ A * B := by
    rw [abs_mul]
    exact mul_le_mul (abs_le.mpr hx) (abs_le.mpr hy) (abs_nonneg y)
      ((abs_nonneg x).trans (abs_le.mpr hx))
  exact abs_le.mp habs

/-- `montgomery_reduce((int32_t)x * y)`. -/
def fqmul (x y : Int) : Checked Int := do
  let p ← int32 (x * y)
  montgomeryReduce p

/-- **A PRODUCT** of two coefficients does not overflow, and is small. -/
theorem fqmul_eq {x y A B : Int} (hx : -A ≤ x ∧ x ≤ A) (hy : -B ≤ y ∧ y ≤ B)
    (hAB : A * B ≤ 2000000000) {M : Int} (hM : A * B + 109084672 < (M + 1) * 2 ^ 16) :
    fqmul x y = .ok (montgomery (x * y)) ∧ (-M ≤ montgomery (x * y) ∧ montgomery (x * y) ≤ M) ∧
      (montgomery (x * y) : Zq) = x * y * montInv := by
  have hp := mul_range hx hy
  have hr := montgomery_range hp
  have h1 : int32 (x * y) = .ok (x * y) := int32_ok (by omega)
  refine ⟨?_, ⟨by omega, by omega⟩, by rw [cast_montgomery, Int.cast_mul]⟩
  rw [fqmul, h1]
  exact montgomeryReduce_eq (by omega)

end Zupt.Mlkem
