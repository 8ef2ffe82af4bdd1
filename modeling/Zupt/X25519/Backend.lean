import Zupt.Checked

/-! # Products of 128 bits

    `fe_mul` is compiled in two ways: with a type of 128 bits, or with pairs of words
    that are multiplied in halves and added with a carry.  A back-end is the operations
    of one of them, together with what they compute. -/

namespace Zupt.X25519

/-- The operations of `fe_mul` on sums of products, and the numbers they stand for. -/
structure Backend where
  /-- The type of a sum. -/
  Wide : Type
  /-- `MUL64`. -/
  mul : Nat → Nat → Checked Wide
  /-- `t += p`. -/
  add : Wide → Wide → Checked Wide
  /-- `t += carry`. -/
  addWord : Wide → Nat → Checked Wide
  /-- `t & ((1 << 51) - 1)`. -/
  low : Wide → Nat
  /-- `t >> 51`. -/
  high : Wide → Checked Nat
  /-- The sum that stands for a number. -/
  wide : Nat → Wide
  mul_eq : ∀ a b, a < 2 ^ 64 → b < 2 ^ 64 → mul a b = .ok (wide (a * b))
  add_eq : ∀ x y, x + y < 2 ^ 128 → add (wide x) (wide y) = .ok (wide (x + y))
  addWord_eq : ∀ x c, c < 2 ^ 64 → x + c < 2 ^ 128 → addWord (wide x) c = .ok (wide (x + c))
  low_eq : ∀ x, low (wide x) = x % 2 ^ 51
  high_eq : ∀ x, x < 2 ^ 115 → high (wide x) = .ok (x / 2 ^ 51)

/-! ## With a type of 128 bits -/

/-- `unsigned __int128`. -/
def native : Backend where
  Wide := Nat
  mul a b := uint128 (a * b)
  add t p := uint128 (t + p)
  addWord t carry := uint128 (t + carry)
  low t := t % 2 ^ 64 &&& (1 <<< 51 - 1)
  high t := uint64 (t >>> 51)
  wide x := x
  mul_eq a b ha hb := uint128_ok (lt_of_lt_of_le (Nat.mul_lt_mul'' ha hb) (by decide))
  add_eq x y h := uint128_ok h
  addWord_eq x c _ h := uint128_ok h
  low_eq x := by
    rw [show 1 <<< 51 - 1 = 2 ^ 51 - 1 from rfl, Nat.and_two_pow_sub_one_eq_mod]
    omega
  high_eq x h := by
    rw [Nat.shiftRight_eq_div_pow]
    exact uint64_ok (by omega)

/-! ## With pairs of words -/

/-- `MUL64` in halves, with the lower and the upper word; `mid` may wrap around, and is
    tested for it. -/
def mulHalves (a b : Nat) : Checked (Nat × Nat) := do
  let a0 := a &&& 0xFFFFFFFF
  let a1 := a >>> 32
  let b0 := b &&& 0xFFFFFFFF
  let b1 := b >>> 32
  let m0 ← uint64 (a0 * b0)
  let m1 ← uint64 (a0 * b1)
  let m2 ← uint64 (a1 * b0)
  let m3 ← uint64 (a1 * b1)
  let mid ← uint64 (m1 + m0 >>> 32)
  let mid := (mid + m2) % 2 ^ 64
  let m3 ← if mid < m2 then uint64 (m3 + 1 <<< 32) else pure m3
  let lo := mid <<< 32 % 2 ^ 64 ||| (m0 &&& 0xFFFFFFFF)
  let hi ← uint64 (m3 + mid >>> 32)
  return (lo, hi)

/-- `t.lo += lo; if (t.lo < lo) t.hi++;` -/
def addLow (t : Nat × Nat) (lo : Nat) : Checked (Nat × Nat) := do
  let s := (t.1 + lo) % 2 ^ 64
  let hi ← if s < lo then uint64 (t.2 + 1) else pure t.2
  return (s, hi)

/-- `t += p` on pairs. -/
def addPair (t p : Nat × Nat) : Checked (Nat × Nat) := do
  let s ← addLow t p.1
  let hi ← uint64 (s.2 + p.2)
  return (s.1, hi)

/-- The two words of a number. -/
def words (x : Nat) : Nat × Nat := (x % 2 ^ 64, x / 2 ^ 64)

theorem addLow_eq {x lo : Nat} (hlo : lo < 2 ^ 64) (h : x + lo < 2 ^ 128) :
    addLow (words x) lo = .ok (words (x + lo)) := by
  rw [addLow, words, words]
  dsimp only
  by_cases hwrap : (x % 2 ^ 64 + lo) % 2 ^ 64 < lo
  · -- the sum has wrapped around
    rw [if_pos hwrap, uint64_ok (by omega), ok_bind]
    refine congrArg Except.ok (Prod.ext ?_ ?_)
    · show (x % 2 ^ 64 + lo) % 2 ^ 64 = (x + lo) % 2 ^ 64
      omega
    · show x / 2 ^ 64 + 1 = (x + lo) / 2 ^ 64
      omega
  · rw [if_neg hwrap]
    refine congrArg Except.ok (Prod.ext ?_ ?_)
    · show (x % 2 ^ 64 + lo) % 2 ^ 64 = (x + lo) % 2 ^ 64
      omega
    · show x / 2 ^ 64 = (x + lo) / 2 ^ 64
      omega

theorem addPair_eq {x y : Nat} (h : x + y < 2 ^ 128) :
    addPair (words x) (words y) = .ok (words (x + y)) := by
  have hlow : (words y).1 = y % 2 ^ 64 := rfl
  rw [addPair, hlow, addLow_eq (by omega) (by omega), ok_bind, words, words, words]
  dsimp only
  rw [uint64_ok (by omega), ok_bind]
  refine congrArg Except.ok (Prod.ext ?_ ?_)
  · show (x + y % 2 ^ 64) % 2 ^ 64 = (x + y) % 2 ^ 64
    omega
  · show (x + y % 2 ^ 64) / 2 ^ 64 + y / 2 ^ 64 = (x + y) / 2 ^ 64
    omega

/-- **MULTIPLICATION IN HALVES** is multiplication. -/
theorem mulHalves_eq {a b : Nat} (ha : a < 2 ^ 64) (hb : b < 2 ^ 64) :
    mulHalves a b = .ok (words (a * b)) := by
  have hmask : ∀ x : Nat, x &&& 0xFFFFFFFF = x % 2 ^ 32 := fun x => Nat.and_two_pow_sub_one_eq_mod x 32
  have hproduct : a * b = a % 2 ^ 32 * (b % 2 ^ 32) +
      2 ^ 32 * (a % 2 ^ 32 * (b / 2 ^ 32) + a / 2 ^ 32 * (b % 2 ^ 32)) +
        2 ^ 64 * (a / 2 ^ 32 * (b / 2 ^ 32)) := by
    conv_lhs => rw [← Nat.div_add_mod a (2 ^ 32), ← Nat.div_add_mod b (2 ^ 32)]
    ring
  have hhalf : ∀ x y : Nat, x < 2 ^ 32 → y < 2 ^ 32 → x * y ≤ (2 ^ 32 - 1) * (2 ^ 32 - 1) :=
    fun x y hx hy => Nat.mul_le_mul (Nat.le_sub_one_of_lt hx) (Nat.le_sub_one_of_lt hy)
  have h0 := hhalf (a % 2 ^ 32) (b % 2 ^ 32) (by omega) (by omega)
  have h1 := hhalf (a % 2 ^ 32) (b / 2 ^ 32) (by omega) (by omega)
  have h2 := hhalf (a / 2 ^ 32) (b % 2 ^ 32) (by omega) (by omega)
  have h3 := hhalf (a / 2 ^ 32) (b / 2 ^ 32) (by omega) (by omega)
  have hlarge : a * b < 2 ^ 128 := lt_of_lt_of_le (Nat.mul_lt_mul'' ha hb) (by decide)
  rw [mulHalves, hmask, hmask, Nat.shiftRight_eq_div_pow, Nat.shiftRight_eq_div_pow]
  generalize a * b = ab at hproduct hlarge ⊢
  generalize a % 2 ^ 32 * (b % 2 ^ 32) = m0 at hproduct h0 ⊢
  generalize a % 2 ^ 32 * (b / 2 ^ 32) = m1 at hproduct h1 ⊢
  generalize a / 2 ^ 32 * (b % 2 ^ 32) = m2 at hproduct h2 ⊢
  generalize a / 2 ^ 32 * (b / 2 ^ 32) = m3 at hproduct h3 ⊢
  dsimp only
  rw [uint64_ok (by omega), ok_bind, uint64_ok (by omega), ok_bind, uint64_ok (by omega), ok_bind,
    uint64_ok (by omega), ok_bind, Nat.shiftRight_eq_div_pow, uint64_ok (by omega), ok_bind, hmask]
  have hlow : ∀ mid, mid <<< 32 % 2 ^ 64 ||| m0 % 2 ^ 32 = mid % 2 ^ 32 * 2 ^ 32 + m0 % 2 ^ 32 := by
    intro mid
    have hshift : mid <<< 32 % 2 ^ 64 = (mid % 2 ^ 32) <<< 32 := by
      rw [Nat.shiftLeft_eq, Nat.shiftLeft_eq]
      omega
    rw [hshift, Nat.or_comm, or_shiftLeft_mul (by omega), Nat.add_comm]
  by_cases hwrap : (m1 + m0 / 2 ^ 32 + m2) % 2 ^ 64 < m2
  · rw [if_pos hwrap, uint64_ok (by rw [Nat.shiftLeft_eq]; omega), ok_bind, hlow,
      Nat.shiftRight_eq_div_pow, Nat.shiftLeft_eq, uint64_ok (by omega), ok_bind]
    refine congrArg Except.ok (Prod.ext ?_ ?_)
    · show (m1 + m0 / 2 ^ 32 + m2) % 2 ^ 64 % 2 ^ 32 * 2 ^ 32 + m0 % 2 ^ 32 = ab % 2 ^ 64
      omega
    · show m3 + 1 * 2 ^ 32 + (m1 + m0 / 2 ^ 32 + m2) % 2 ^ 64 / 2 ^ 32 = ab / 2 ^ 64
      omega
  · rw [if_neg hwrap]
    show (uint64 (m3 + ((m1 + m0 / 2 ^ 32 + m2) % 2 ^ 64) >>> 32) >>= fun hi => _) = _
    rw [hlow, Nat.shiftRight_eq_div_pow, uint64_ok (by omega), ok_bind]
    refine congrArg Except.ok (Prod.ext ?_ ?_)
    · show (m1 + m0 / 2 ^ 32 + m2) % 2 ^ 64 % 2 ^ 32 * 2 ^ 32 + m0 % 2 ^ 32 = ab % 2 ^ 64
      omega
    · show m3 + (m1 + m0 / 2 ^ 32 + m2) % 2 ^ 64 / 2 ^ 32 = ab / 2 ^ 64
      omega

/-- `struct { uint64_t lo, hi; }`. -/
def portable : Backend where
  Wide := Nat × Nat
  mul := mulHalves
  add := addPair
  addWord := addLow
  low t := t.1 &&& (1 <<< 51 - 1)
  high t := do
    let hi ← uint64 (t.2 <<< 13)
    return t.1 >>> 51 ||| hi
  wide := words
  mul_eq a b ha hb := mulHalves_eq ha hb
  add_eq x y h := addPair_eq h
  addWord_eq x c hc h := addLow_eq hc h
  low_eq x := by
    rw [show 1 <<< 51 - 1 = 2 ^ 51 - 1 from rfl, Nat.and_two_pow_sub_one_eq_mod, words]
    omega
  high_eq x h := by
    rw [words, Nat.shiftLeft_eq, uint64_ok (by omega), ok_bind, ← Nat.shiftLeft_eq,
      Nat.shiftRight_eq_div_pow, or_shiftLeft_mul (by omega)]
    refine congrArg Except.ok ?_
    omega

end Zupt.X25519
