import Zupt.X25519.Backend

/-! # The field of X25519

    A field element is five limbs of 51 bits and a little more.  `Rep` says how large the
    limbs are and which residue modulo `2 ^ 255 - 19` they stand for; every operation has
    one lemma about it. -/

namespace Zupt.X25519

open Finset

/-! ## Limbs -/

/-- `fe`: five limbs. -/
abbrev Fe := Nat → Nat

/-- The limbs, one by one. -/
def limbs (a b c d e : Nat) : Fe := fun i => [a, b, c, d, e].getD i 0

/-- `2^255 - 19`. -/
def p : Nat := 2 ^ 255 - 19

/-- `GF(2^255 - 19)`. -/
abbrev F := ZMod p

/-- The number of five limbs. -/
def feVal (h : Fe) : Nat := h 0 + h 1 * 2 ^ 51 + h 2 * 2 ^ 102 + h 3 * 2 ^ 153 + h 4 * 2 ^ 204

/-- The loop that loads bytes from `start` on. -/
def loadLoop (s : Bytes) (start : Nat) : (n : Nat) → Checked Nat
  | 0 => .ok 0
  | n + 1 => do
      let lo ← loadLoop s start n
      let b ← uint64 (byteAt s (start + n) <<< (8 * n))
      return lo ||| b

/-- `(UINT64_C(1) << 51) - 1`. -/
def mask51 : Nat := 1 <<< 51 - 1

/-- `fe_frombytes`. -/
def feFrombytes (s : Bytes) : Checked Fe := do
  let l0 ← loadLoop s 0 8
  let l1 ← loadLoop s 6 8
  let l2 ← loadLoop s 12 8
  let l3 ← loadLoop s 19 8
  let l4 ← loadLoop s 25 7
  return limbs (l0 &&& mask51) (l1 >>> 3 &&& mask51) (l2 >>> 6 &&& mask51) (l3 >>> 1 &&& mask51)
    (l4 >>> 4 &&& mask51)

/-- `fe_add`. -/
def feAdd (f g : Fe) : Checked Fe := fillLoop (fun i => uint64 (f i + g i)) 5

/-- `two_p`. -/
def twoP : Fe := limbs (2 * (1 <<< 51 - 19)) (2 * (1 <<< 51 - 1)) (2 * (1 <<< 51 - 1))
  (2 * (1 <<< 51 - 1)) (2 * (1 <<< 51 - 1))

/-- `fe_sub`. -/
def feSub (f g : Fe) : Checked Fe :=
  fillLoop (fun i => do
    let s ← uint64 (f i + twoP i)
    usub s (g i)) 5

/-- `gi`: a limb whose product wraps around comes in at the bottom. -/
def mulFactor (g : Fe) (i j : Nat) : Checked Nat := if 5 ≤ i + j then uint64 (g j * 19) else .ok (g j)

/-- The body of the two loops of `fe_mul`. -/
def mulTurn (b : Backend) (f g : Fe) (i j : Nat) (t : Nat → b.Wide) : Checked (Nat → b.Wide) := do
  let gi ← mulFactor g i j
  let m ← b.mul (f i) gi
  let s ← b.add (t ((i + j) % 5)) m
  return Function.update t ((i + j) % 5) s

/-- The loop of `fe_mul` over the carries, written out. -/
def mulCarry (b : Backend) (t : Nat → b.Wide) : Checked Fe := do
  let c0 ← b.high (t 0)
  let t1 ← b.addWord (t 1) c0
  let c1 ← b.high t1
  let t2 ← b.addWord (t 2) c1
  let c2 ← b.high t2
  let t3 ← b.addWord (t 3) c2
  let c3 ← b.high t3
  let t4 ← b.addWord (t 4) c3
  let c4 ← b.high t4
  let m ← uint64 (c4 * 19)
  let h0 ← uint64 (b.low (t 0) + m)
  let h1 ← uint64 (b.low t1 + h0 >>> 51)
  return limbs (h0 &&& mask51) h1 (b.low t2) (b.low t3) (b.low t4)

/-- `fe_mul`. -/
def feMul (b : Backend) (f g : Fe) : Checked Fe := do
  let t ← turns (fun i t => turns (fun j t => mulTurn b f g i j t) 5 t) 5 fun _ => b.wide 0
  mulCarry b t

/-- One round of carries of `fe_tobytes`. -/
def carryRound (t : Fe) : Checked Fe := do
  let t1 ← uint64 (t 1 + t 0 >>> 51)
  let t2 ← uint64 (t 2 + t1 >>> 51)
  let t3 ← uint64 (t 3 + t2 >>> 51)
  let t4 ← uint64 (t 4 + t3 >>> 51)
  let m ← uint64 (t4 >>> 51 * 19)
  let t0 ← uint64 ((t 0 &&& mask51) + m)
  return limbs t0 (t1 &&& mask51) (t2 &&& mask51) (t3 &&& mask51) (t4 &&& mask51)

/-- The end of `fe_tobytes`, where `q` says whether the number is at least `p`. -/
def subtractP (t : Fe) : Checked Fe := do
  let q0 ← uint64 (t 0 + 19)
  let q1 ← uint64 (t 1 + q0 >>> 51)
  let q2 ← uint64 (t 2 + q1 >>> 51)
  let q3 ← uint64 (t 3 + q2 >>> 51)
  let q4 ← uint64 (t 4 + q3 >>> 51)
  let m ← uint64 (q4 >>> 51 * 19)
  let t0 ← uint64 (t 0 + m)
  let t1 ← uint64 (t 1 + t0 >>> 51)
  let t2 ← uint64 (t 2 + t1 >>> 51)
  let t3 ← uint64 (t 3 + t2 >>> 51)
  let t4 ← uint64 (t 4 + t3 >>> 51)
  return limbs (t0 &&& mask51) (t1 &&& mask51) (t2 &&& mask51) (t3 &&& mask51) (t4 &&& mask51)

/-- Eight bytes of a word; what is shifted out at the top is dropped. -/
def wordBytes (w : Nat) : Bytes := (List.range 8).map fun i => UInt8.ofNat (w >>> (8 * i))

/-- A limb behind another one, in a word. -/
def joinWord (low high k : Nat) : Nat := low ||| high <<< k % 2 ^ 64

/-- `fe_tobytes`. -/
def feTobytes (h : Fe) : Checked Bytes := do
  let t ← carryRound h
  let t ← carryRound t
  let t1 ← uint64 (t 1 + t 0 >>> 51)
  let t ← subtractP (limbs (t 0 &&& mask51) t1 (t 2) (t 3) (t 4))
  return wordBytes (joinWord (t 0) (t 1) 51) ++ (wordBytes (joinWord (t 1 >>> 13) (t 2) 38) ++
    (wordBytes (joinWord (t 2 >>> 26) (t 3) 25) ++ wordBytes (joinWord (t 3 >>> 39) (t 4) 12)))

/-- `mask & (a[i] ^ b[i])`. -/
def swapBits (flag a b : Nat) : Nat := (2 ^ 64 - (flag &&& 1)) % 2 ^ 64 &&& (a ^^^ b)

/-- `fe_cswap`. -/
def feCswap (a b : Fe) (flag : Nat) : Fe × Fe :=
  (fun i => a i ^^^ swapBits flag (a i) (b i), fun i => b i ^^^ swapBits flag (a i) (b i))

/-- `fe_sq_n`, with `n` squarings to go. -/
def feSqLoop (b : Backend) : (n : Nat) → Fe → Checked Fe
  | 0, h => .ok h
  | n + 1, h => do
      let h ← feMul b h h
      feSqLoop b n h

/-- `fe_sq_n`. -/
def feSqN (b : Backend) (f : Fe) (n : Nat) : Checked Fe := do
  let h ← feMul b f f
  feSqLoop b (n - 1) h

/-- `fe_inv`. -/
def feInv (b : Backend) (f : Fe) : Checked Fe := do
  let t0 ← feMul b f f
  let t1 ← feSqN b t0 2
  let t1 ← feMul b f t1
  let t0 ← feMul b t0 t1
  let t2 ← feMul b t0 t0
  let t1 ← feMul b t1 t2
  let t2 ← feSqN b t1 5
  let t1 ← feMul b t2 t1
  let t2 ← feSqN b t1 10
  let t2 ← feMul b t2 t1
  let t3 ← feSqN b t2 20
  let t2 ← feMul b t3 t2
  let t2 ← feSqN b t2 10
  let t1 ← feMul b t2 t1
  let t2 ← feSqN b t1 50
  let t2 ← feMul b t2 t1
  let t3 ← feSqN b t2 100
  let t2 ← feMul b t3 t2
  let t2 ← feSqN b t2 50
  let t1 ← feMul b t2 t1
  let t1 ← feSqN b t1 5
  feMul b t1 t0

/-! ## What limbs stand for -/

/-- The limbs are below the bound, and stand for `x`. -/
def Rep (B : Nat) (h : Fe) (x : F) : Prop := (∀ i < 5, h i < B) ∧ (feVal h : F) = x

theorem Rep.mono {B B' : Nat} {h : Fe} {x : F} (hr : Rep B h x) (hB : B ≤ B') : Rep B' h x :=
  ⟨fun i hi => lt_of_lt_of_le (hr.1 i hi) hB, hr.2⟩

theorem rep_limbs {a b c d e B : Nat} {x : F} (ha : a < B) (hb : b < B) (hc : c < B) (hd : d < B)
    (he : e < B) (hx : (feVal (limbs a b c d e) : F) = x) : Rep B (limbs a b c d e) x := by
  refine ⟨fun i hi => ?_, hx⟩
  have hplace : i = 0 ∨ i = 1 ∨ i = 2 ∨ i = 3 ∨ i = 4 := by omega
  rcases hplace with rfl | rfl | rfl | rfl | rfl
  · exact ha
  · exact hb
  · exact hc
  · exact hd
  · exact he

theorem feVal_limbs (a b c d e : Nat) :
    feVal (limbs a b c d e) = a + b * 2 ^ 51 + c * 2 ^ 102 + d * 2 ^ 153 + e * 2 ^ 204 := rfl

theorem feVal_congr {h h' : Fe} (hh : ∀ i < 5, h i = h' i) : feVal h = feVal h' := by
  rw [feVal, feVal, hh 0 (by decide), hh 1 (by decide), hh 2 (by decide), hh 3 (by decide),
    hh 4 (by decide)]

theorem p_val : p + 19 = 2 ^ 255 := by decide

instance pNeZero : NeZero p := ⟨by decide⟩

/-- Above 255 bits a number starts again at 19. -/
theorem cast_wrap (x : Nat) : ((x * 2 ^ 255 : Nat) : F) = ((19 * x : Nat) : F) := by
  rw [← p_val, Nat.mul_add, Nat.cast_add, Nat.cast_mul, ZMod.natCast_self, mul_zero, zero_add,
    Nat.mul_comm]

theorem and_mask51 (x : Nat) : x &&& mask51 = x % 2 ^ 51 := Nat.and_two_pow_sub_one_eq_mod x 51

/-! ## Sums and differences -/

theorem feAdd_rep {f g : Fe} {x y : F} {A B : Nat} (hf : Rep A f x) (hg : Rep B g y)
    (hAB : A + B ≤ 2 ^ 64) : ∃ h, feAdd f g = .ok h ∧ Rep (A + B) h (x + y) := by
  obtain ⟨h, hh, hall⟩ := fillLoop_all (P := fun i (v : Nat) => v = f i + g i) (n := 5)
    (g := fun i => uint64 (f i + g i)) fun i hi => by
      have h1 := hf.1 i hi
      have h2 := hg.1 i hi
      exact ⟨_, uint64_ok (by omega), rfl⟩
  refine ⟨h, hh, fun i hi => ?_, ?_⟩
  · have h1 := hf.1 i hi
    have h2 := hg.1 i hi
    rw [hall i hi]
    omega
  · have hval : feVal h = feVal f + feVal g := by
      rw [feVal_congr hall, feVal, feVal, feVal]
      ring
    rw [hval, Nat.cast_add, hf.2, hg.2]

/-- What may be subtracted: at most `two_p` in each limb. -/
def small : Nat := 2 ^ 52 - 37

theorem twoP_ge {i : Nat} (hi : i < 5) : small ≤ twoP i + 1 ∧ twoP i < 2 ^ 52 := by
  have hall : ∀ i < 5, small ≤ twoP i + 1 ∧ twoP i < 2 ^ 52 := by decide
  exact hall i hi

theorem feSub_rep {f g : Fe} {x y : F} (hf : Rep (2 ^ 52) f x) (hg : Rep small g y) :
    ∃ h, feSub f g = .ok h ∧ Rep (2 ^ 53) h (x - y) := by
  obtain ⟨h, hh, hall⟩ := fillLoop_all (P := fun i (v : Nat) => v + g i = f i + twoP i) (n := 5)
    (g := fun i => do
      let s ← uint64 (f i + twoP i)
      usub s (g i)) fun i hi => by
      have h1 := hf.1 i hi
      have h2 := hg.1 i hi
      have h3 := twoP_ge hi
      refine ⟨f i + twoP i - g i, ?_, by omega⟩
      rw [uint64_ok (by omega), ok_bind, usub_ok (by omega)]
  refine ⟨h, hh, fun i hi => ?_, ?_⟩
  · have h1 := hf.1 i hi
    have h3 := (twoP_ge hi).2
    have h4 := hall i hi
    omega
  · have hval : feVal h + feVal g = feVal f + 2 * p := by
      have htwo : feVal twoP = 2 * p := by decide
      have h0 := hall 0 (by decide)
      have h1 := hall 1 (by decide)
      have h2 := hall 2 (by decide)
      have h3 := hall 3 (by decide)
      have h4 := hall 4 (by decide)
      rw [← htwo, feVal, feVal, feVal, feVal]
      omega
    have hcast := congrArg (fun n : Nat => (n : F)) hval
    simp only [Nat.cast_add, Nat.cast_mul, ZMod.natCast_self, mul_zero, add_zero] at hcast
    rw [← hf.2, ← hg.2, ← hcast, add_sub_cancel_right]

/-! ## Products -/

/-- What a turn multiplies a limb with. -/
def factor (g : Fe) (i j : Nat) : Nat := if 5 ≤ i + j then g j * 19 else g j

/-- The product that row `i` adds to column `k`. -/
def term (f g : Fe) (i k : Nat) : Nat := f i * factor g i ((k + 5 - i) % 5)

/-- The products of the first `i` rows. -/
def column (f g : Fe) (i k : Nat) : Nat := ∑ i' ∈ range i, term f g i' k

section Products

variable {f g : Fe} {x y : F}

theorem factor_lt (hg : Rep (2 ^ 53) g y) {i j : Nat} (hj : j < 5) : factor g i j < 19 * 2 ^ 53 := by
  have hlt := hg.1 j hj
  rw [factor]
  by_cases hwrap : 5 ≤ i + j
  · rw [if_pos hwrap]
    omega
  · rw [if_neg hwrap]
    omega

theorem term_lt (hf : Rep (2 ^ 53) f x) (hg : Rep (2 ^ 53) g y) {i : Nat} (hi : i < 5) (k : Nat) :
    term f g i k < 2 ^ 53 * (19 * 2 ^ 53) :=
  Nat.mul_lt_mul'' (hf.1 i hi) (factor_lt hg (Nat.mod_lt _ (by decide)))

theorem column_le (hf : Rep (2 ^ 53) f x) (hg : Rep (2 ^ 53) g y) {i : Nat} (hi : i ≤ 5) (k : Nat) :
    column f g i k ≤ i * (2 ^ 53 * (19 * 2 ^ 53)) := by
  have hsum := sum_le_card_nsmul (range i) (fun i' => term f g i' k) (2 ^ 53 * (19 * 2 ^ 53))
    fun i' hi' => Nat.le_of_lt (term_lt hf hg (lt_of_lt_of_le (mem_range.mp hi') hi) k)
  rw [card_range, smul_eq_mul] at hsum
  exact hsum

/-- **ONE TURN** adds the product of row `i` to its column. -/
theorem mulTurn_eq (b : Backend) (hf : Rep (2 ^ 53) f x) (hg : Rep (2 ^ 53) g y) {i j : Nat} (hi : i < 5)
    (hj : j < 5) {t : Nat → b.Wide} (ht : ∀ k < 5, t k = b.wide
      (column f g i k + if (k + 5 - i) % 5 < j then term f g i k else 0)) :
    ∃ t', mulTurn b f g i j t = .ok t' ∧ ∀ k < 5, t' k = b.wide
      (column f g i k + if (k + 5 - i) % 5 < j + 1 then term f g i k else 0) := by
  have hfi := hf.1 i hi
  have hgj := hg.1 j hj
  have hfactor := factor_lt hg (i := i) hj
  have hplace : ((i + j) % 5 + 5 - i) % 5 = j := by omega
  have hterm : f i * factor g i j = term f g i ((i + j) % 5) := by rw [term, hplace]
  have hcolumn := column_le hf hg (Nat.le_of_lt hi) ((i + j) % 5)
  have hlarge := term_lt hf hg hi ((i + j) % 5)
  have hgi : mulFactor g i j = .ok (factor g i j) := by
    rw [mulFactor, factor]
    by_cases hwrap : 5 ≤ i + j
    · rw [if_pos hwrap, if_pos hwrap, uint64_ok (by omega)]
    · rw [if_neg hwrap, if_neg hwrap]
  have hbefore : t ((i + j) % 5) = b.wide (column f g i ((i + j) % 5)) := by
    rw [ht _ (by omega), hplace, if_neg (Nat.lt_irrefl j), Nat.add_zero]
  have hrows : i * (2 ^ 53 * (19 * 2 ^ 53)) ≤ 4 * (2 ^ 53 * (19 * 2 ^ 53)) :=
    Nat.mul_le_mul_right _ (by omega)
  refine ⟨Function.update t ((i + j) % 5)
    (b.wide (column f g i ((i + j) % 5) + term f g i ((i + j) % 5))), ?_, fun k hk => ?_⟩
  · rw [mulTurn, hgi, ok_bind, b.mul_eq _ _ (by omega) (by omega), ok_bind, hterm, hbefore,
      b.add_eq _ _ (by omega)]
    rfl
  · by_cases hcell : k = (i + j) % 5
    · rw [hcell, Function.update_self, hplace, if_pos (Nat.lt_succ_self j)]
    · have hother : (k + 5 - i) % 5 ≠ j := by omega
      rw [Function.update_of_ne hcell, ht k hk]
      by_cases hdone : (k + 5 - i) % 5 < j
      · rw [if_pos hdone, if_pos (by omega)]
      · rw [if_neg hdone, if_neg (by omega)]

/-- **ALL TURNS**: each column is the sum of its five products. -/
theorem mulTurns_eq (b : Backend) (hf : Rep (2 ^ 53) f x) (hg : Rep (2 ^ 53) g y) :
    ∃ t, turns (fun i t => turns (fun j t => mulTurn b f g i j t) 5 t) 5 (fun _ => b.wide 0) = .ok t ∧
      ∀ k < 5, t k = b.wide (column f g 5 k) := by
  refine turns_inv (P := fun i (t : Nat → b.Wide) => ∀ k < 5, t k = b.wide (column f g i k)) (fun k _ => rfl)
    fun i hi t ht => ?_
  obtain ⟨t', ht', hall⟩ := turns_inv (n := 5) (f := fun j t => mulTurn b f g i j t)
    (P := fun j (t : Nat → b.Wide) => ∀ k < 5, t k = b.wide
      (column f g i k + if (k + 5 - i) % 5 < j then term f g i k else 0)) (s := t)
    (fun k hk => by rw [ht k hk, if_neg (Nat.not_lt_zero _), Nat.add_zero])
    fun j hj t ht => mulTurn_eq b hf hg hi hj ht
  refine ⟨t', ht', fun k hk => ?_⟩
  rw [hall k hk, if_pos (Nat.mod_lt _ (by decide)), column, column, sum_range_succ]

/-- The columns, written out. -/
theorem columns_eq (f g : Fe) :
    column f g 5 0 = f 0 * g 0 + f 1 * (g 4 * 19) + f 2 * (g 3 * 19) + f 3 * (g 2 * 19) +
      f 4 * (g 1 * 19) ∧
    column f g 5 1 = f 0 * g 1 + f 1 * g 0 + f 2 * (g 4 * 19) + f 3 * (g 3 * 19) + f 4 * (g 2 * 19) ∧
    column f g 5 2 = f 0 * g 2 + f 1 * g 1 + f 2 * g 0 + f 3 * (g 4 * 19) + f 4 * (g 3 * 19) ∧
    column f g 5 3 = f 0 * g 3 + f 1 * g 2 + f 2 * g 1 + f 3 * g 0 + f 4 * (g 4 * 19) ∧
    column f g 5 4 = f 0 * g 4 + f 1 * g 3 + f 2 * g 2 + f 3 * g 1 + f 4 * g 0 := by
  simp only [column, sum_range_succ, sum_range_zero, Nat.zero_add]
  exact ⟨rfl, rfl, rfl, rfl, rfl⟩

/-- **THE COLUMNS** make up the product. -/
theorem columns_product (f g : Fe) :
    ((column f g 5 0 + column f g 5 1 * 2 ^ 51 + column f g 5 2 * 2 ^ 102 + column f g 5 3 * 2 ^ 153 +
      column f g 5 4 * 2 ^ 204 : Nat) : F) = feVal f * feVal g := by
  obtain ⟨h0, h1, h2, h3, h4⟩ := columns_eq f g
  -- the products of weight 255 and more, which come in at the bottom
  have hover : feVal f * feVal g + 19 * ((f 1 * g 4 + f 2 * g 3 + f 3 * g 2 + f 4 * g 1) +
      (f 2 * g 4 + f 3 * g 3 + f 4 * g 2) * 2 ^ 51 + (f 3 * g 4 + f 4 * g 3) * 2 ^ 102 +
        f 4 * g 4 * 2 ^ 153) =
      column f g 5 0 + column f g 5 1 * 2 ^ 51 + column f g 5 2 * 2 ^ 102 + column f g 5 3 * 2 ^ 153 +
        column f g 5 4 * 2 ^ 204 + ((f 1 * g 4 + f 2 * g 3 + f 3 * g 2 + f 4 * g 1) +
      (f 2 * g 4 + f 3 * g 3 + f 4 * g 2) * 2 ^ 51 + (f 3 * g 4 + f 4 * g 3) * 2 ^ 102 +
        f 4 * g 4 * 2 ^ 153) * 2 ^ 255 := by
    rw [h0, h1, h2, h3, h4, feVal, feVal]
    ring
  have hcast := congrArg (fun n : Nat => (n : F)) hover
  rw [Nat.cast_add, Nat.cast_add _ (_ * 2 ^ 255), cast_wrap, Nat.cast_mul] at hcast
  exact (add_right_cancel hcast).symm

/-- The bound of what a product returns. -/
theorem mulCarry_rep (b : Backend) {t : Nat → b.Wide} {c : Nat → Nat}
    (ht : ∀ k < 5, t k = b.wide (c k)) (hc : ∀ k < 5, c k < 2 ^ 114) (hlast : c 4 < 2 ^ 109) :
    ∃ h, mulCarry b t = .ok h ∧
      Rep (2 ^ 51 + 2 ^ 13) h ((c 0 + c 1 * 2 ^ 51 + c 2 * 2 ^ 102 + c 3 * 2 ^ 153 + c 4 * 2 ^ 204 : Nat) : F) := by
  have h0 := hc 0 (by decide)
  have h1 := hc 1 (by decide)
  have h2 := hc 2 (by decide)
  have h3 := hc 3 (by decide)
  have e0 := ht 0 (by decide)
  have e1 := ht 1 (by decide)
  have e2 := ht 2 (by decide)
  have e3 := ht 3 (by decide)
  have e4 := ht 4 (by decide)
  generalize c 0 = c0 at *
  generalize c 1 = c1 at *
  generalize c 2 = c2 at *
  generalize c 3 = c3 at *
  generalize c 4 = c4 at *
  -- the columns with the carries from below
  obtain ⟨s1, hs1⟩ : ∃ s, s = c1 + c0 / 2 ^ 51 := ⟨_, rfl⟩
  obtain ⟨s2, hs2⟩ : ∃ s, s = c2 + s1 / 2 ^ 51 := ⟨_, rfl⟩
  obtain ⟨s3, hs3⟩ : ∃ s, s = c3 + s2 / 2 ^ 51 := ⟨_, rfl⟩
  obtain ⟨s4, hs4⟩ : ∃ s, s = c4 + s3 / 2 ^ 51 := ⟨_, rfl⟩
  have b1 : s1 < 2 ^ 115 := by omega
  have b2 : s2 < 2 ^ 115 := by omega
  have b3 : s3 < 2 ^ 115 := by omega
  have b4 : s4 < 2 ^ 109 + 2 ^ 64 := by omega
  obtain ⟨low, hlow⟩ : ∃ l, l = c0 % 2 ^ 51 + s4 / 2 ^ 51 * 19 := ⟨_, rfl⟩
  have blow : low < 2 ^ 64 := by omega
  refine ⟨limbs (low % 2 ^ 51) (s1 % 2 ^ 51 + low / 2 ^ 51) (s2 % 2 ^ 51) (s3 % 2 ^ 51) (s4 % 2 ^ 51),
    ?_, ?_⟩
  · rw [mulCarry, e0, b.high_eq _ (by omega), ok_bind, e1, b.addWord_eq _ _ (by omega) (by omega), ← hs1,
      ok_bind, b.high_eq _ b1, ok_bind, e2, b.addWord_eq _ _ (by omega) (by omega), ← hs2, ok_bind,
      b.high_eq _ b2, ok_bind, e3, b.addWord_eq _ _ (by omega) (by omega), ← hs3, ok_bind,
      b.high_eq _ b3, ok_bind, e4, b.addWord_eq _ _ (by omega) (by omega), ← hs4, ok_bind,
      b.high_eq _ (by omega), ok_bind, uint64_ok (by omega), ok_bind, b.low_eq, ← hlow,
      uint64_ok blow, ok_bind, b.low_eq, Nat.shiftRight_eq_div_pow, uint64_ok (by omega), ok_bind,
      b.low_eq, b.low_eq, b.low_eq, and_mask51]
    rfl
  · refine rep_limbs (by omega) (by omega) (by omega) (by omega) (by omega) ?_
    have hval : feVal (limbs (low % 2 ^ 51) (s1 % 2 ^ 51 + low / 2 ^ 51) (s2 % 2 ^ 51) (s3 % 2 ^ 51)
        (s4 % 2 ^ 51)) + s4 / 2 ^ 51 * 2 ^ 255 =
        c0 + c1 * 2 ^ 51 + c2 * 2 ^ 102 + c3 * 2 ^ 153 + c4 * 2 ^ 204 + 19 * (s4 / 2 ^ 51) := by
      rw [feVal_limbs]
      omega
    have hcast := congrArg (fun n : Nat => (n : F)) hval
    rw [Nat.cast_add, Nat.cast_add _ (19 * (s4 / 2 ^ 51)), cast_wrap] at hcast
    exact add_right_cancel hcast

/-- **A PRODUCT** of sums and differences is exact, and small again. -/
theorem feMul_rep (b : Backend) {f g : Fe} {x y : F} (hf : Rep (2 ^ 53) f x) (hg : Rep (2 ^ 53) g y) :
    ∃ h, feMul b f g = .ok h ∧ Rep (2 ^ 51 + 2 ^ 13) h (x * y) := by
  obtain ⟨t, hturns, ht⟩ := mulTurns_eq b hf hg
  have hcolumn : ∀ k < 5, column f g 5 k < 2 ^ 114 := fun k _ => by
    have hle := column_le hf hg (Nat.le_refl 5) k
    omega
  have hlast : column f g 5 4 < 2 ^ 109 := by
    have hmul : ∀ i < 5, ∀ j < 5, f i * g j < 2 ^ 53 * 2 ^ 53 := fun i hi j hj =>
      Nat.mul_lt_mul'' (hf.1 i hi) (hg.1 j hj)
    have h0 := hmul 0 (by decide) 4 (by decide)
    have h1 := hmul 1 (by decide) 3 (by decide)
    have h2 := hmul 2 (by decide) 2 (by decide)
    have h3 := hmul 3 (by decide) 1 (by decide)
    have h4 := hmul 4 (by decide) 0 (by decide)
    rw [(columns_eq f g).2.2.2.2]
    omega
  obtain ⟨h, hcarry, hrep⟩ := mulCarry_rep b ht hcolumn hlast
  rw [columns_product, hf.2, hg.2] at hrep
  exact ⟨h, by rw [feMul, hturns, ok_bind, hcarry], hrep⟩

end Products

/-! ## Powers -/

/-- Limbs small enough to be subtracted. -/
abbrev Small (h : Fe) (x : F) : Prop := Rep small h x

theorem feMul_small (b : Backend) {f g : Fe} {x y : F} (hf : Small f x) (hg : Small g y) :
    ∃ h, feMul b f g = .ok h ∧ Small h (x * y) := by
  obtain ⟨h, hh, hrep⟩ := feMul_rep b (hf.mono (by decide)) (hg.mono (by decide))
  exact ⟨h, hh, hrep.mono (by decide)⟩

/-- A power of `x` times another one. -/
theorem feMul_pow (b : Backend) {f g : Fe} {x : F} {m n k : Nat} (hf : Small f (x ^ m))
    (hg : Small g (x ^ n)) (hk : m + n = k) : ∃ h, feMul b f g = .ok h ∧ Small h (x ^ k) := by
  rw [← hk, pow_add]
  exact feMul_small b hf hg

theorem feSqLoop_pow (b : Backend) {x : F} {n m : Nat} {h : Fe} (hh : Small h (x ^ m)) :
    ∃ h', feSqLoop b n h = .ok h' ∧ Small h' (x ^ (m * 2 ^ n)) := by
  induction n generalizing m h with
  | zero =>
      rw [pow_zero, Nat.mul_one]
      exact ⟨h, rfl, hh⟩
  | succ n ih =>
      obtain ⟨h₁, e₁, r₁⟩ := feMul_pow b hh hh rfl
      obtain ⟨h₂, e₂, r₂⟩ := ih r₁
      refine ⟨h₂, by rw [feSqLoop, e₁, ok_bind, e₂], ?_⟩
      rw [show m * 2 ^ (n + 1) = (m + m) * 2 ^ n by ring]
      exact r₂

/-- `n` squarings multiply the exponent. -/
theorem feSqN_pow (b : Backend) {x : F} {f : Fe} {m k : Nat} (hf : Small f (x ^ m)) (n : Nat) (hn : 0 < n)
    (hk : m * 2 ^ n = k) : ∃ h, feSqN b f n = .ok h ∧ Small h (x ^ k) := by
  obtain ⟨h₁, e₁, r₁⟩ := feMul_pow b hf hf rfl
  obtain ⟨h₂, e₂, r₂⟩ := feSqLoop_pow b (n := n - 1) r₁
  refine ⟨h₂, by rw [feSqN, e₁, ok_bind, e₂], ?_⟩
  have hpow : k = (m + m) * 2 ^ (n - 1) := by
    obtain ⟨l, rfl⟩ := Nat.exists_eq_succ_of_ne_zero (Nat.ne_of_gt hn)
    rw [← hk, Nat.succ_sub_one, Nat.pow_succ]
    ring
  rw [hpow]
  exact r₂

/-- **INVERSION** is the power of Fermat's theorem. -/
theorem feInv_rep (b : Backend) {f : Fe} {x : F} (hf : Small f x) :
    ∃ h, feInv b f = .ok h ∧ Small h (x ^ (p - 2)) := by
  have hx : Small f (x ^ 1) := by
    rw [pow_one]
    exact hf
  obtain ⟨t0, e0, r0⟩ := feMul_pow b hx hx (k := 2) rfl
  obtain ⟨t1, e1, r1⟩ := feSqN_pow b r0 2 (by decide) (k := 8) rfl
  obtain ⟨t2, e2, r2⟩ := feMul_pow b hx r1 (k := 9) rfl
  obtain ⟨t3, e3, r3⟩ := feMul_pow b r0 r2 (k := 11) rfl
  obtain ⟨t4, e4, r4⟩ := feMul_pow b r3 r3 (k := 22) rfl
  obtain ⟨t5, e5, r5⟩ := feMul_pow b r2 r4 (k := 2 ^ 5 - 1) rfl
  obtain ⟨t6, e6, r6⟩ := feSqN_pow b r5 5 (by decide) (k := 2 ^ 10 - 2 ^ 5) rfl
  obtain ⟨t7, e7, r7⟩ := feMul_pow b r6 r5 (k := 2 ^ 10 - 1) rfl
  obtain ⟨t8, e8, r8⟩ := feSqN_pow b r7 10 (by decide) (k := 2 ^ 20 - 2 ^ 10) rfl
  obtain ⟨t9, e9, r9⟩ := feMul_pow b r8 r7 (k := 2 ^ 20 - 1) rfl
  obtain ⟨t10, e10, r10⟩ := feSqN_pow b r9 20 (by decide) (k := 2 ^ 40 - 2 ^ 20) rfl
  obtain ⟨t11, e11, r11⟩ := feMul_pow b r10 r9 (k := 2 ^ 40 - 1) rfl
  obtain ⟨t12, e12, r12⟩ := feSqN_pow b r11 10 (by decide) (k := 2 ^ 50 - 2 ^ 10) rfl
  obtain ⟨t13, e13, r13⟩ := feMul_pow b r12 r7 (k := 2 ^ 50 - 1) rfl
  obtain ⟨t14, e14, r14⟩ := feSqN_pow b r13 50 (by decide) (k := 2 ^ 100 - 2 ^ 50) rfl
  obtain ⟨t15, e15, r15⟩ := feMul_pow b r14 r13 (k := 2 ^ 100 - 1) rfl
  obtain ⟨t16, e16, r16⟩ := feSqN_pow b r15 100 (by decide) (k := 2 ^ 200 - 2 ^ 100) rfl
  obtain ⟨t17, e17, r17⟩ := feMul_pow b r16 r15 (k := 2 ^ 200 - 1) rfl
  obtain ⟨t18, e18, r18⟩ := feSqN_pow b r17 50 (by decide) (k := 2 ^ 250 - 2 ^ 50) rfl
  obtain ⟨t19, e19, r19⟩ := feMul_pow b r18 r13 (k := 2 ^ 250 - 1) rfl
  obtain ⟨t20, e20, r20⟩ := feSqN_pow b r19 5 (by decide) (k := 2 ^ 255 - 2 ^ 5) rfl
  obtain ⟨t21, e21, r21⟩ := feMul_pow b r20 r3 (k := p - 2) rfl
  refine ⟨t21, ?_, r21⟩
  rw [feInv, e0, ok_bind, e1, ok_bind, e2, ok_bind, e3, ok_bind, e4, ok_bind, e5, ok_bind, e6, ok_bind,
    e7, ok_bind, e8, ok_bind, e9, ok_bind, e10, ok_bind, e11, ok_bind, e12, ok_bind, e13, ok_bind,
    e14, ok_bind, e15, ok_bind, e16, ok_bind, e17, ok_bind, e18, ok_bind, e19, ok_bind, e20, ok_bind,
    e21]

/-! ## Loading -/

/-- The number of the first `n` bytes, the lowest first. -/
def bytesValue (s : Bytes) : (n : Nat) → Nat
  | 0 => 0
  | n + 1 => bytesValue s n + byteAt s n * 2 ^ (8 * n)

theorem bytesValue_lt (s : Bytes) (n : Nat) : bytesValue s n < 2 ^ (8 * n) := by
  induction n with
  | zero => exact Nat.one_pos
  | succ n ih =>
      have hb := byteAt_lt s n
      have hmul : byteAt s n * 2 ^ (8 * n) ≤ 255 * 2 ^ (8 * n) := Nat.mul_le_mul_right _ (by omega)
      have hpow : 2 ^ (8 * (n + 1)) = 256 * 2 ^ (8 * n) := by
        rw [show 8 * (n + 1) = 8 + 8 * n by ring, pow_add]
        rfl
      rw [bytesValue]
      omega

/-- Bytes behind others. -/
theorem bytesValue_add (s : Bytes) (m n : Nat) :
    bytesValue s (m + n) = bytesValue s m + bytesValue (s.drop m) n * 2 ^ (8 * m) := by
  induction n with
  | zero => rw [Nat.add_zero, bytesValue, Nat.zero_mul, Nat.add_zero]
  | succ n ih =>
      rw [← Nat.add_assoc, bytesValue, ih, bytesValue, byteAt_drop, show 8 * (m + n) = 8 * n + 8 * m by ring,
        pow_add]
      ring

theorem loadLoop_eq (s : Bytes) (start : Nat) {n : Nat} (hn : n ≤ 8) :
    loadLoop s start n = .ok (bytesValue (s.drop start) n) := by
  induction n with
  | zero => rfl
  | succ n ih =>
      have hb := byteAt_lt s (start + n)
      have hpow : 2 ^ (8 * n) ≤ 2 ^ 56 := Nat.pow_le_pow_right (by decide) (by omega)
      have hmul : byteAt s (start + n) * 2 ^ (8 * n) ≤ 255 * 2 ^ 56 := Nat.mul_le_mul (by omega) hpow
      rw [loadLoop, ih (by omega), ok_bind, uint64_ok (by rw [Nat.shiftLeft_eq]; omega), ok_bind,
        bytesValue, byteAt_drop, ← or_shiftLeft_mul (bytesValue_lt _ n)]
      rfl

/-- A window of the number of 32 bytes. -/
theorem bytesValue_drop (s : Bytes) {start n rest : Nat} (h : start + n + rest = 32) :
    bytesValue (s.drop start) n = bytesValue s 32 / 2 ^ (8 * start) % 2 ^ (8 * n) := by
  have hlow := bytesValue_lt s start
  have hwindow := bytesValue_lt (s.drop start) n
  have hsplit : bytesValue s 32 = bytesValue s start + 2 ^ (8 * start) *
      (bytesValue (s.drop start) n + 2 ^ (8 * n) * bytesValue (s.drop (start + n)) rest) := by
    rw [← h, bytesValue_add, bytesValue_add s start n, Nat.mul_add 8 start n, pow_add]
    ring
  rw [hsplit, Nat.add_mul_div_left _ _ (Nat.two_pow_pos _), Nat.div_eq_of_lt hlow, Nat.zero_add,
    Nat.add_mul_mod_self_left, Nat.mod_eq_of_lt hwindow]

/-- The limbs of a number. -/
def limbsOf (x : Nat) : Fe :=
  limbs (x % 2 ^ 51) (x / 2 ^ 51 % 2 ^ 51) (x / 2 ^ 102 % 2 ^ 51) (x / 2 ^ 153 % 2 ^ 51) (x / 2 ^ 204)

theorem feVal_limbsOf (x : Nat) : feVal (limbsOf x) = x := by
  rw [limbsOf, feVal_limbs]
  omega

theorem feFrombytes_eq (s : Bytes) : feFrombytes s = .ok (limbsOf (bytesValue s 32 % 2 ^ 255)) := by
  have h0 : bytesValue (s.drop 0) 8 = _ := bytesValue_drop s (show 0 + 8 + 24 = 32 from rfl)
  have h1 : bytesValue (s.drop 6) 8 = _ := bytesValue_drop s (show 6 + 8 + 18 = 32 from rfl)
  have h2 : bytesValue (s.drop 12) 8 = _ := bytesValue_drop s (show 12 + 8 + 12 = 32 from rfl)
  have h3 : bytesValue (s.drop 19) 8 = _ := bytesValue_drop s (show 19 + 8 + 5 = 32 from rfl)
  have h4 : bytesValue (s.drop 25) 7 = _ := bytesValue_drop s (show 25 + 7 + 0 = 32 from rfl)
  have hlt := bytesValue_lt s 32
  rw [feFrombytes, loadLoop_eq s 0 (by decide), ok_bind, loadLoop_eq s 6 (by decide), ok_bind,
    loadLoop_eq s 12 (by decide), ok_bind, loadLoop_eq s 19 (by decide), ok_bind,
    loadLoop_eq s 25 (by decide), ok_bind, h0, h1, h2, h3, h4]
  generalize bytesValue s 32 = x at hlt ⊢
  simp only [and_mask51, Nat.shiftRight_eq_div_pow, limbsOf]
  have e0 : x / 2 ^ (8 * 0) % 2 ^ (8 * 8) % 2 ^ 51 = x % 2 ^ 255 % 2 ^ 51 := by omega
  have e1 : x / 2 ^ (8 * 6) % 2 ^ (8 * 8) / 2 ^ 3 % 2 ^ 51 = x % 2 ^ 255 / 2 ^ 51 % 2 ^ 51 := by omega
  have e2 : x / 2 ^ (8 * 12) % 2 ^ (8 * 8) / 2 ^ 6 % 2 ^ 51 = x % 2 ^ 255 / 2 ^ 102 % 2 ^ 51 := by omega
  have e3 : x / 2 ^ (8 * 19) % 2 ^ (8 * 8) / 2 ^ 1 % 2 ^ 51 = x % 2 ^ 255 / 2 ^ 153 % 2 ^ 51 := by omega
  -- the last mask drops the bit at 255
  have e4 : x / 2 ^ (8 * 25) % 2 ^ (8 * 7) / 2 ^ 4 % 2 ^ 51 = x % 2 ^ 255 / 2 ^ 204 := by omega
  rw [e0, e1, e2, e3, e4]
  rfl

/-- **LOADING** takes the lower 255 bits. -/
theorem feFrombytes_rep (s : Bytes) :
    ∃ h, feFrombytes s = .ok h ∧ Rep (2 ^ 52) h ((bytesValue s 32 % 2 ^ 255 : Nat) : F) := by
  refine ⟨_, feFrombytes_eq s, rep_limbs (by omega) (by omega) (by omega) (by omega) (by omega) ?_⟩
  show ((feVal (limbsOf (bytesValue s 32 % 2 ^ 255)) : Nat) : F) = _
  rw [feVal_limbsOf]

end Zupt.X25519
