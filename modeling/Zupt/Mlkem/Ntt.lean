import Zupt.Mlkem.Arith
import Zupt.NttTree

/-! # The transforms of ML-KEM

    `ntt` and `inv_ntt` update an array in place, pair by pair.  A pass over the array
    is a layer of the tree of `Zupt.NttTree`, on coefficients that stay far inside
    `int16_t`: `Rep` says what an array stands for and how large it is. -/

namespace Zupt.Mlkem

open Zupt.NttTree

/-- `poly`: the cells of an array of 256. -/
abbrev Poly := Nat → Int

/-- The rows of `zetas`. -/
def zetaTable : List Int := [
  -1044, -758, -359, -1517, 1493, 1422, 287, 202,
  3158, 622, 1577, 182, 962, 2127, 1855, 1468,
  573, 2004, 264, 383, 2500, 1458, 1727, 3199,
  2648, 1017, 732, 608, 1787, 411, 3124, 1758,
  1223, 652, 2777, 1015, 2036, 1491, 3047, 1785,
  516, 3321, 3009, 2663, 1711, 2167, 126, 1469,
  2476, 3239, 3058, 830, 107, 1908, 3082, 2378,
  2931, 961, 1821, 2604, 448, 2264, 677, 2054,
  2226, 430, 555, 843, 2078, 871, 1550, 105,
  422, 587, 177, 3094, 3038, 2869, 1574, 1653,
  3083, 778, 1159, 3182, 2552, 1483, 2727, 1119,
  1739, 644, 2457, 349, 418, 329, 3173, 3254,
  817, 1097, 603, 610, 1322, 2044, 1864, 384,
  2114, 3193, 1218, 1994, 2455, 220, 2142, 1670,
  2144, 1799, 2051, 794, 1819, 2475, 2459, 478,
  3221, 3021, 996, 991, 958, 1869, 1522, 1628]

/-- `zetas`. -/
def zetas (k : Nat) : Int := zetaTable.getD k 0

/-! ## Passes -/

/-- `for (int j = start; j < start + len; j++)`, with `n` turns to go. -/
def blockLoop (step : Nat → Poly → Checked Poly) : (n j : Nat) → Poly → Checked Poly
  | 0, _, r => .ok r
  | n + 1, j, r => do
      let r ← step j r
      blockLoop step n (j + 1) r

/-- `for (int start = 0; start < 256; start += 2*len)`, with `n` turns to go; each
    takes the next zeta. -/
def layerLoop (step : Int → Nat → Nat → Poly → Checked Poly) (next : Nat → Nat) (len : Nat) :
    (n start k : Nat) → Poly → Checked (Poly × Nat)
  | 0, _, k, r => .ok (r, k)
  | n + 1, start, k, r => do
      let r ← blockLoop (step (zetas k) len) len start r
      layerLoop step next len n (start + 2 * len) (next k) r

/-- The loop over `len`. -/
def lenLoop (step : Int → Nat → Nat → Poly → Checked Poly) (next : Nat → Nat) :
    (lens : List Nat) → (k : Nat) → Poly → Checked Poly
  | [], _, r => .ok r
  | len :: lens, k, r => do
      let s ← layerLoop step next len (256 / (2 * len)) 0 k r
      lenLoop step next lens s.2 s.1

/-- The body of `ntt`. -/
def nttStep (zeta : Int) (len j : Nat) (r : Poly) : Checked Poly := do
  let t ← fqmul zeta (r (j + len))
  let hi ← int16 (r j - t)
  let lo ← int16 (r j + t)
  return Function.update (Function.update r (j + len) hi) j lo

/-- `ntt`. -/
def ntt (r : Poly) : Checked Poly := lenLoop nttStep (· + 1) [128, 64, 32, 16, 8, 4, 2] 1 r

/-- The body of `inv_ntt`. -/
def invNttStep (zeta : Int) (len j : Nat) (r : Poly) : Checked Poly := do
  let t := r j
  let s ← int16 (t + r (j + len))
  let lo ← barrettReduce s
  let d ← int32 (r (j + len) - t)
  let hi ← fqmul zeta d
  return Function.update (Function.update r (j + len) hi) j lo

/-- `inv_ntt`. -/
def invNtt (r : Poly) : Checked Poly := do
  let r ← lenLoop invNttStep (· - 1) [2, 4, 8, 16, 32, 64, 128] 127 r
  fillLoop (fun i => fqmul 1441 (r i)) 256

/-! ## A pass is a layer -/

/-- A step that changes a pair, where the two values fit. -/
def PairStep (fits : Int → Int → Prop) (step : Int → Nat → Nat → Poly → Checked Poly)
    (lo hi : Int → Int → Int → Int) : Prop :=
  ∀ (k len j : Nat) (r : Poly), 0 < len → fits (r j) (r (j + len)) →
    step (zetas k) len j r = .ok (Function.update
      (Function.update r (j + len) (hi (zetas k) (r j) (r (j + len)))) j
        (lo (zetas k) (r j) (r (j + len))))

section Pass

variable {fits : Int → Int → Prop} {step : Int → Nat → Nat → Poly → Checked Poly}
  {lo hi : Int → Int → Int → Int}

/-- Pairs of a block do not meet. -/
theorem blockLoop_eq (hstep : PairStep fits step lo hi) {len : Nat} (hlen : 0 < len) (k : Nat)
    {n j : Nat} {r : Poly} (hn : n ≤ len) (hr : ∀ i, j ≤ i → i < j + n → fits (r i) (r (i + len))) :
    blockLoop (step (zetas k) len) n j r = .ok fun i =>
      if j ≤ i ∧ i < j + n then lo (zetas k) (r i) (r (i + len))
      else if j + len ≤ i ∧ i < j + len + n then hi (zetas k) (r (i - len)) (r i)
      else r i := by
  induction n generalizing j r with
  | zero =>
      rw [blockLoop]
      congr 1
      funext i
      rw [if_neg (by omega), if_neg (by omega)]
  | succ n ih =>
      rw [blockLoop, hstep k len j r hlen (hr j (Nat.le_refl j) (by omega))]
      -- what is left of the block is as it was
      have hkeep : ∀ i, i ≠ j → i ≠ j + len → Function.update
          (Function.update r (j + len) (hi (zetas k) (r j) (r (j + len)))) j
            (lo (zetas k) (r j) (r (j + len))) i = r i := fun i h1 h2 => by
        rw [Function.update_of_ne h1, Function.update_of_ne h2]
      have hfirst : Function.update
          (Function.update r (j + len) (hi (zetas k) (r j) (r (j + len)))) j
            (lo (zetas k) (r j) (r (j + len))) j = lo (zetas k) (r j) (r (j + len)) :=
        Function.update_self _ _ _
      have hsecond : Function.update
          (Function.update r (j + len) (hi (zetas k) (r j) (r (j + len)))) j
            (lo (zetas k) (r j) (r (j + len))) (j + len) = hi (zetas k) (r j) (r (j + len)) := by
        rw [Function.update_of_ne (by omega), Function.update_self]
      generalize Function.update
        (Function.update r (j + len) (hi (zetas k) (r j) (r (j + len)))) j
          (lo (zetas k) (r j) (r (j + len))) = r' at hkeep hfirst hsecond ⊢
      show blockLoop (step (zetas k) len) n (j + 1) r' = _
      rw [ih (by omega) fun i h1 h2 => by
        rw [hkeep i (by omega) (by omega), hkeep (i + len) (by omega) (by omega)]
        exact hr i (by omega) (by omega)]
      congr 1
      funext i
      by_cases hlow : j + 1 ≤ i ∧ i < j + 1 + n
      · rw [if_pos hlow, if_pos (by omega), hkeep i (by omega) (by omega),
          hkeep (i + len) (by omega) (by omega)]
      rw [if_neg hlow]
      by_cases hhigh : j + 1 + len ≤ i ∧ i < j + 1 + len + n
      · rw [if_pos hhigh, if_neg (by omega), if_pos (by omega),
          hkeep (i - len) (by omega) (by omega), hkeep i (by omega) (by omega)]
      rw [if_neg hhigh]
      by_cases hfst : i = j
      · rw [hfst, hfirst, if_pos (by omega)]
      by_cases hsnd : i = j + len
      · rw [hsnd, hsecond, if_neg (by omega), if_pos (by omega), Nat.add_sub_cancel]
      rw [hkeep i hfst hsnd, if_neg (by omega), if_neg (by omega)]

/-- What a layer makes of an array, where block `b` takes the zeta of index `κ b`. -/
def layered (lo hi : Int → Int → Int → Int) (κ : Nat → Nat) (len : Nat) (r : Poly) (i : Nat) : Int :=
  if i % (2 * len) < len then lo (zetas (κ (i / (2 * len)))) (r i) (r (i + len))
  else hi (zetas (κ (i / (2 * len)))) (r (i - len)) (r i)

theorem layerLoop_eq (hstep : PairStep fits step lo hi) {len : Nat} (hlen : 0 < len)
    (next κ : Nat → Nat) (hκ : ∀ b, κ (b + 1) = next (κ b)) {n c : Nat} {r : Poly}
    (hr : ∀ i, c * (2 * len) ≤ i → i < (c + n) * (2 * len) → i % (2 * len) < len →
      fits (r i) (r (i + len))) :
    layerLoop step next len n (c * (2 * len)) (κ c) r = .ok (fun i =>
      if c * (2 * len) ≤ i ∧ i < (c + n) * (2 * len) then layered lo hi κ len r i else r i,
      κ (c + n)) := by
  induction n generalizing c r with
  | zero =>
      rw [layerLoop]
      refine congrArg Except.ok (Prod.ext (funext fun i => ?_) rfl)
      show r i = if c * (2 * len) ≤ i ∧ i < c * (2 * len) then layered lo hi κ len r i else r i
      rw [if_neg (by omega)]
  | succ n ih =>
      have hsucc : (c + 1) * (2 * len) = c * (2 * len) + 2 * len := by ring
      have hend : (c + (n + 1)) * (2 * len) = (c + 1 + n) * (2 * len) := by ring
      have hmono : (c + 1) * (2 * len) ≤ (c + 1 + n) * (2 * len) :=
        Nat.mul_le_mul_right _ (Nat.le_add_right _ _)
      rw [hend] at hr ⊢
      rw [layerLoop, blockLoop_eq hstep hlen (κ c) (Nat.le_refl len) fun i h1 h2 => by
        obtain ⟨o, rfl⟩ := Nat.exists_eq_add_of_le h1
        refine hr _ h1 (by omega) ?_
        rw [Nat.mul_comm, Nat.mul_add_mod, Nat.mod_eq_of_lt (by omega)]
        omega]
      show layerLoop step next len n (c * (2 * len) + 2 * len) (next (κ c)) _ = _
      rw [← hsucc, ← hκ]
      rw [ih fun i h1 h2 h3 => by
        rw [if_neg (by omega), if_neg (by omega), if_neg (by omega), if_neg (by omega)]
        exact hr i (by omega) (by omega) h3]
      refine congrArg Except.ok (Prod.ext (funext fun i => ?_) (by rw [Nat.add_right_comm]; rfl))
      dsimp only
      by_cases hlater : (c + 1) * (2 * len) ≤ i ∧ i < (c + 1 + n) * (2 * len)
      · -- a block behind the first one does not see it
        rw [if_pos hlater, if_pos (by omega), layered, layered]
        have hpos : 0 < 2 * len := by omega
        have hdiv := Nat.div_add_mod i (2 * len)
        have hblock : c + 1 ≤ i / (2 * len) := (Nat.le_div_iff_mul_le hpos).mpr hlater.1
        have hstart := Nat.mul_le_mul_left (2 * len) hblock
        rw [Nat.mul_comm (2 * len) (c + 1)] at hstart
        by_cases ho : i % (2 * len) < len
        · rw [if_pos ho, if_pos ho, if_neg (by omega), if_neg (by omega), if_neg (by omega),
            if_neg (by omega)]
        · rw [if_neg ho, if_neg ho, if_neg (by omega), if_neg (by omega), if_neg (by omega),
            if_neg (by omega)]
      rw [if_neg hlater]
      by_cases hhere : c * (2 * len) ≤ i ∧ i < (c + 1 + n) * (2 * len)
      · obtain ⟨o, rfl⟩ := Nat.exists_eq_add_of_le hhere.1
        have ho : o < 2 * len := by omega
        have hpos : 0 < 2 * len := by omega
        have hmod : (c * (2 * len) + o) % (2 * len) = o := by
          rw [Nat.mul_comm, Nat.mul_add_mod, Nat.mod_eq_of_lt ho]
        have hdiv : (c * (2 * len) + o) / (2 * len) = c := by
          rw [Nat.mul_comm, Nat.mul_add_div hpos, Nat.div_eq_of_lt ho, Nat.add_zero]
        rw [if_pos hhere, layered, hmod, hdiv]
        by_cases hlow : o < len
        · rw [if_pos (by omega), if_pos hlow]
        · rw [if_neg (by omega), if_pos (by omega), if_neg hlow]
      · rw [if_neg hhere, if_neg (by omega), if_neg (by omega)]

end Pass

/-! ## What an array stands for -/

/-- The 256 coefficients are within the bound, and stand for `f`. -/
def Rep (B : Int) (r : Poly) (f : Nat → Zq) : Prop :=
  ∀ i < 256, (-B ≤ r i ∧ r i ≤ B) ∧ (r i : Zq) = f i

theorem Rep.mono {B B' : Int} {r : Poly} {f : Nat → Zq} (h : Rep B r f) (hB : B ≤ B') : Rep B' r f :=
  fun i hi => ⟨⟨by have := (h i hi).1; omega, by have := (h i hi).1; omega⟩, (h i hi).2⟩

theorem Rep.congr {B : Int} {r : Poly} {f g : Nat → Zq} (h : Rep B r f) (hfg : Agree 256 f g) :
    Rep B r g := fun i hi => ⟨(h i hi).1, (h i hi).2.trans (hfg i hi)⟩

/-- The roots of the tree: `zetas` without the Montgomery factor. -/
def zeta (k : Nat) : Zq := zetas k * montInv

theorem zetas_range (k : Nat) : -3321 ≤ zetas k ∧ zetas k ≤ 3321 := by
  have hall : ∀ x ∈ zetaTable, -3321 ≤ x ∧ x ≤ 3321 := by decide +kernel
  rw [zetas, List.getD_eq_getElem?_getD]
  cases hk : zetaTable[k]? with
  | none => exact ⟨by decide, by decide⟩
  | some x => exact hall x (List.mem_of_getElem? hk)

/-! ## The forward transform -/

/-- The values of a butterfly. -/
def nttLo (z x y : Int) : Int := x + montgomery (z * y)

def nttHi (z x y : Int) : Int := x - montgomery (z * y)

/-- A butterfly takes what is within 20000. -/
def nttFits (x y : Int) : Prop := (-20000 ≤ x ∧ x ≤ 20000) ∧ -20000 ≤ y ∧ y ≤ 20000

theorem nttStep_pair : PairStep nttFits nttStep nttLo nttHi := by
  rintro k len j r hlen ⟨hx, hy⟩
  obtain ⟨hmul, ht, -⟩ := fqmul_eq (zetas_range k) hy (by decide) (M := 2677) (by decide)
  have hhi : int16 (nttHi (zetas k) (r j) (r (j + len))) = .ok _ :=
    int16_ok (by rw [nttHi]; omega)
  have hlo : int16 (nttLo (zetas k) (r j) (r (j + len))) = .ok _ :=
    int16_ok (by rw [nttLo]; omega)
  rw [nttStep, hmul]
  show (int16 (nttHi (zetas k) (r j) (r (j + len))) >>= fun hi => _) = _
  rw [hhi]
  show (int16 (nttLo (zetas k) (r j) (r (j + len))) >>= fun lo => _) = _
  rw [hlo]
  rfl

theorem two_len {m len : Nat} (hm : m * (2 * len) = 256) (hlen : 0 < len) : 256 / (2 * len) = m := by
  rw [← hm, Nat.mul_div_cancel _ (by omega)]

/-- **A LAYER** adds at most one reduced product to a coefficient, and takes it from the
    other one of the pair. -/
theorem nttLayer_rep (m len : Nat) {B : Int} (B' : Int) (hm : m * (2 * len) = 256) (hlen : 0 < len) {r : Poly}
    {f : Nat → Zq} (h : Rep B r f) (hB : B ≤ 20000)
    (hB' : 3321 * B + 109084672 < (B' - B + 1) * 2 ^ 16) :
    ∃ r', layerLoop nttStep (· + 1) len (256 / (2 * len)) 0 m r = .ok (r', 2 * m) ∧
      Rep B' r' (split zeta m len f) ∧ ∀ i < 256, i % (2 * len) < len →
        r' i + r' (i + len) = 2 * r i ∧ -(2 * (B' - B)) ≤ r' (i + len) - r' i ∧
          r' (i + len) - r' i ≤ 2 * (B' - B) := by
  have hnext : ∀ i < 256, i % (2 * len) < len → i + len < 256 := fun i hi hlow => by
    obtain ⟨-, hpair, -⟩ := index_split (m := m) hlen (by rw [hm]; exact hi)
    rw [← hm]
    exact (hpair hlow).1
  have hloop := layerLoop_eq nttStep_pair hlen (· + 1) (fun b => m + b)
    (fun b => rfl) (n := m) (c := 0) (r := r) (fun i _ hi hlow => by
      rw [Nat.zero_add, hm] at hi
      have hx := (h i hi).1
      have hy := (h _ (hnext i hi hlow)).1
      exact ⟨by omega, by omega⟩)
  rw [Nat.zero_mul, Nat.zero_add, hm] at hloop
  rw [two_len hm hlen]
  refine ⟨_, hloop.trans (by rw [two_mul]), fun i hi => ?_, fun i hi hlow => ?_⟩
  case refine_2 =>
    -- one is the sum and the other the difference of the same two values
    obtain ⟨-, hpair, -⟩ := index_split (m := m) hlen (by rw [hm]; exact hi)
    obtain ⟨-, hmod, hdiv⟩ := hpair hlow
    have hy := (h _ (hnext i hi hlow)).1
    obtain ⟨-, ht, -⟩ := fqmul_eq (zetas_range (m + i / (2 * len))) hy (by omega)
      (M := B' - B) (by omega)
    rw [if_pos ⟨Nat.zero_le i, hi⟩, if_pos ⟨Nat.zero_le _, hnext i hi hlow⟩, layered, if_pos hlow,
      layered, hmod, hdiv, if_neg (by omega), Nat.add_sub_cancel, nttLo, nttHi]
    omega
  obtain ⟨-, hlow, hhigh⟩ := index_split (m := m) hlen (by rw [hm]; exact hi)
  rw [if_pos ⟨Nat.zero_le i, hi⟩, layered, split]
  by_cases ho : i % (2 * len) < len
  · have hnext := (hlow ho).1
    rw [hm] at hnext
    obtain ⟨hx, hfx⟩ := h i hi
    obtain ⟨hy, hfy⟩ := h _ hnext
    obtain ⟨-, ht, hcast⟩ := fqmul_eq (zetas_range (m + i / (2 * len))) hy (by omega)
      (M := B' - B) (by omega)
    rw [if_pos ho, if_pos ho, nttLo, Int.cast_add, hcast, hfx, hfy, zeta]
    refine ⟨by omega, by ring⟩
  · obtain ⟨hx, hfx⟩ := h (i - len) (by omega)
    obtain ⟨hy, hfy⟩ := h i hi
    obtain ⟨-, ht, hcast⟩ := fqmul_eq (zetas_range (m + i / (2 * len))) hy (by omega)
      (M := B' - B) (by omega)
    rw [if_neg ho, if_neg ho, nttHi, Int.cast_sub, hcast, hfx, hfy, zeta]
    refine ⟨by omega, by ring⟩

/-- The exact transform. -/
def nttExact (f : Nat → Zq) : Nat → Zq := forward zeta 7 2 f

/-- An inverse butterfly takes what has its sum in `int16_t`. -/
def invFits (x y : Int) : Prop :=
  (-2 ^ 15 ≤ x + y ∧ x + y < 2 ^ 15) ∧ -32766 ≤ y - x ∧ y - x ≤ 32766

/-- **THE TRANSFORM** of coefficients up to `q` stays far inside `int16_t`, and is
    exact.  Its coefficients can be too large for the transform back, but the sums that
    this begins with are twice what the last layer has found. -/
theorem ntt_rep {r : Poly} {f : Nat → Zq} (h : Rep 3329 r f) :
    ∃ r', ntt r = .ok r' ∧ Rep 18283 r' (nttExact f) ∧
      ∀ i < 256, i % 4 < 2 → invFits (r' i) (r' (i + 2)) := by
  obtain ⟨r₁, e₁, h₁, -⟩ := nttLayer_rep 1 128 5162 rfl (by decide) h (by decide) (by decide)
  obtain ⟨r₂, e₂, h₂, -⟩ := nttLayer_rep 2 64 7088 rfl (by decide) h₁ (by decide) (by decide)
  obtain ⟨r₃, e₃, h₃, -⟩ := nttLayer_rep 4 32 9111 rfl (by decide) h₂ (by decide) (by decide)
  obtain ⟨r₄, e₄, h₄, -⟩ := nttLayer_rep 8 16 11237 rfl (by decide) h₃ (by decide) (by decide)
  obtain ⟨r₅, e₅, h₅, -⟩ := nttLayer_rep 16 8 13470 rfl (by decide) h₄ (by decide) (by decide)
  obtain ⟨r₆, e₆, h₆, -⟩ := nttLayer_rep 32 4 15817 rfl (by decide) h₅ (by decide) (by decide)
  obtain ⟨r₇, e₇, h₇, hpair⟩ := nttLayer_rep 64 2 18283 rfl (by decide) h₆ (by decide) (by decide)
  refine ⟨r₇, ?_, h₇, fun i hi hlow => ?_⟩
  case refine_2 =>
    obtain ⟨hsum, hdiff⟩ := hpair i hi hlow
    have hb := (h₆ i hi).1
    exact ⟨by omega, by omega⟩
  simp only [ntt, lenLoop, e₁, e₂, e₃, e₄, e₅, e₆, e₇, bind, Except.bind]

/-! ## The inverse transform -/

/-- The values of an inverse butterfly. -/
def invLo (_ x y : Int) : Int := barrett (x + y)

def invHi (z x y : Int) : Int := montgomery (z * (y - x))

theorem invNttStep_pair : PairStep invFits invNttStep invLo invHi := by
  rintro k len j r hlen ⟨hsum, hdiff⟩
  obtain ⟨hmul, -, -⟩ := fqmul_eq (zetas_range k) hdiff (by decide) (M := 3325) (by decide)
  have hs : int16 (r j + r (j + len)) = .ok _ := int16_ok (by omega)
  have hlo := barrettReduce_eq (a := r j + r (j + len)) (by omega)
  have hd : int32 (r (j + len) - r j) = .ok _ := int32_ok (by omega)
  rw [invNttStep, hs]
  show (barrettReduce (r j + r (j + len)) >>= fun lo => _) = _
  rw [hlo]
  show (int32 (r (j + len) - r j) >>= fun d => _) = _
  rw [hd]
  show (fqmul (zetas k) (r (j + len) - r j) >>= fun hi => _) = _
  rw [hmul]
  rfl

/-- The cells stand for `f`, and the pairs of a layer back fit. -/
def Paired (len : Nat) (r : Poly) (f : Nat → Zq) : Prop :=
  (∀ i < 256, (r i : Zq) = f i) ∧ ∀ i < 256, i % (2 * len) < len → invFits (r i) (r (i + len))

theorem Rep.paired {m len : Nat} (hm : m * (2 * len) = 256) (hlen : 0 < len) {r : Poly}
    {f : Nat → Zq} (h : Rep 16383 r f) : Paired len r f := by
  refine ⟨fun i hi => (h i hi).2, fun i hi hlow => ?_⟩
  obtain ⟨-, hpair, -⟩ := index_split (m := m) hlen (by rw [hm]; exact hi)
  have hx := (h i hi).1
  have hy := (h (i + len) (by rw [← hm]; exact (hpair hlow).1)).1
  exact ⟨by omega, by omega⟩

/-- **A LAYER BACK** reduces every coefficient. -/
theorem invLayer_rep (m len : Nat) (hm : m * (2 * len) = 256) (hlen : 0 < len) {r : Poly}
    {f : Nat → Zq} (h : Paired len r f) :
    ∃ r', layerLoop invNttStep (· - 1) len (256 / (2 * len)) 0 (2 * m - 1) r = .ok (r', m - 1) ∧
      Rep 3325 r' (merge zeta m len f) := by
  have hloop := layerLoop_eq invNttStep_pair hlen (· - 1) (fun b => 2 * m - 1 - b)
    (fun b => rfl) (n := m) (c := 0) (r := r) (fun i _ hi hlow => by
      rw [Nat.zero_add, hm] at hi
      exact h.2 i hi hlow)
  rw [Nat.zero_mul, Nat.zero_add, hm] at hloop
  rw [two_len hm hlen]
  refine ⟨_, hloop.trans (by rw [show 2 * m - 1 - m = m - 1 by omega]), fun i hi => ?_⟩
  obtain ⟨-, hlow, hhigh⟩ := index_split (m := m) hlen (by rw [hm]; exact hi)
  rw [if_pos ⟨Nat.zero_le i, hi⟩, layered, merge]
  by_cases ho : i % (2 * len) < len
  · have hnext := (hlow ho).1
    rw [hm] at hnext
    have hlo := barrett_range (h.2 i hi ho).1
    rw [if_pos ho, if_pos ho, invLo, cast_barrett, Int.cast_add, h.1 i hi, h.1 _ hnext]
    exact ⟨by omega, rfl⟩
  · obtain ⟨hle, hmod, -⟩ := hhigh ho
    have hmodlt := Nat.mod_lt i (show 0 < 2 * len by omega)
    have hdiff := (h.2 (i - len) (by omega) (by omega)).2
    rw [Nat.sub_add_cancel hle] at hdiff
    obtain ⟨-, ht, hcast⟩ := fqmul_eq (zetas_range (2 * m - 1 - i / (2 * len))) hdiff (by decide)
      (M := 3325) (by decide)
    rw [if_neg ho, if_neg ho, invHi, hcast, Int.cast_sub, h.1 i hi, h.1 (i - len) (by omega), zeta]
    exact ⟨ht, by ring⟩

/-- The exact transform back, with the factor of the last loop. -/
def invNttExact (f : Nat → Zq) (i : Nat) : Zq := 1441 * montInv * backward zeta 7 2 f i

/-- **THE TRANSFORM BACK** is exact where the first sums fit. -/
theorem invNtt_paired {r : Poly} {f : Nat → Zq} (h : Paired 2 r f) :
    ∃ r', invNtt r = .ok r' ∧ Rep 1737 r' (invNttExact f) := by
  obtain ⟨r₁, e₁, h₁⟩ := invLayer_rep 64 2 rfl (by decide) h
  obtain ⟨r₂, e₂, h₂⟩ := invLayer_rep 32 4 rfl (by decide)
    ((h₁.mono (by decide)).paired (m := 32) rfl (by decide))
  obtain ⟨r₃, e₃, h₃⟩ := invLayer_rep 16 8 rfl (by decide)
    ((h₂.mono (by decide)).paired (m := 16) rfl (by decide))
  obtain ⟨r₄, e₄, h₄⟩ := invLayer_rep 8 16 rfl (by decide)
    ((h₃.mono (by decide)).paired (m := 8) rfl (by decide))
  obtain ⟨r₅, e₅, h₅⟩ := invLayer_rep 4 32 rfl (by decide)
    ((h₄.mono (by decide)).paired (m := 4) rfl (by decide))
  obtain ⟨r₆, e₆, h₆⟩ := invLayer_rep 2 64 rfl (by decide)
    ((h₅.mono (by decide)).paired (m := 2) rfl (by decide))
  obtain ⟨r₇, e₇, h₇⟩ := invLayer_rep 1 128 rfl (by decide)
    ((h₆.mono (by decide)).paired (m := 1) rfl (by decide))
  have hscale : ∀ i < 256, ∃ x, fqmul 1441 (r₇ i) = .ok x ∧
      ((-1737 ≤ x ∧ x ≤ 1737) ∧ (x : Zq) = invNttExact f i) := by
    intro i hi
    obtain ⟨hb, hf⟩ := h₇ i hi
    obtain ⟨hmul, ht, hcast⟩ := fqmul_eq (x := 1441) (A := 1441) (by decide) hb (by decide)
      (M := 1737) (by decide)
    refine ⟨_, hmul, ht, ?_⟩
    rw [hcast, hf, invNttExact, Int.cast_ofNat]
    show 1441 * backward zeta 7 2 f i * montInv = _
    ring
  obtain ⟨r', hr', hall⟩ := fillLoop_all hscale
  refine ⟨r', ?_, hall⟩
  simp only [invNtt, lenLoop, e₁, e₂, e₃, e₄, e₅, e₆, e₇, bind, Except.bind]
  exact hr'

/-- In particular on coefficients within half of `int16_t`. -/
theorem invNtt_rep {r : Poly} {f : Nat → Zq} (h : Rep 16383 r f) :
    ∃ r', invNtt r = .ok r' ∧ Rep 1737 r' (invNttExact f) :=
  invNtt_paired (h.paired (m := 64) rfl (by decide))

end Zupt.Mlkem
