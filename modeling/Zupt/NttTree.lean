import Mathlib.Algebra.Polynomial.Div
import Mathlib.Algebra.BigOperators.Intervals
import Mathlib.Tactic.Ring
import Mathlib.Tactic.LinearCombination

/-! # Transforms along a tree of square roots

    A polynomial modulo `X ^ (2 * L) - c * c` is known from its residues modulo
    `X ^ L - c` and `X ^ L + c`.  Along a binary tree of such square roots, numbered
    like a heap, a sequence of coefficients turns into a sequence of residues: each
    layer splits every block into two of half the length.

    `split` is one layer and `merge` the way back, up to a factor of two; `forward`
    and `backward` are whole transforms.  Sequences are functions of which only a
    front part matters. -/

namespace Zupt.NttTree

open Polynomial Finset

variable {K : Type*} [CommRing K]

/-! ## Layers -/

/-- One layer: `m` blocks of length `2 * L` become `2 * m` blocks of length `L`. -/
def split (w : Nat → K) (m L : Nat) (f : Nat → K) (i : Nat) : K :=
  if i % (2 * L) < L then f i + w (m + i / (2 * L)) * f (i + L)
  else f (i - L) - w (m + i / (2 * L)) * f i

/-- The way back, with the roots taken from the other end. -/
def merge (w : Nat → K) (m L : Nat) (f : Nat → K) (i : Nat) : K :=
  if i % (2 * L) < L then f i + f (i + L)
  else w (2 * m - 1 - i / (2 * L)) * (f i - f (i - L))

/-- `t` layers, from one block to `2 ^ t` blocks of length `L`. -/
def forward (w : Nat → K) : (t L : Nat) → (Nat → K) → Nat → K
  | 0, _, f => f
  | t + 1, L, f => split w (2 ^ t) L (forward w t (2 * L) f)

/-- `t` layers back. -/
def backward (w : Nat → K) : (t L : Nat) → (Nat → K) → Nat → K
  | 0, _, f => f
  | t + 1, L, f => backward w t (2 * L) (merge w (2 ^ t) L f)

/-- Both sequences begin with the same `n` values. -/
def Agree (n : Nat) (f g : Nat → K) : Prop := ∀ i < n, f i = g i

omit [CommRing K] in
theorem Agree.symm {n : Nat} {f g : Nat → K} (h : Agree n f g) : Agree n g f :=
  fun i hi => (h i hi).symm

omit [CommRing K] in
theorem Agree.trans {n : Nat} {f g k : Nat → K} (h : Agree n f g) (h' : Agree n g k) : Agree n f k :=
  fun i hi => (h i hi).trans (h' i hi)

/-- The place of an index in its block, and the other half of it. -/
theorem index_split {m L i : Nat} (hL : 0 < L) (hi : i < m * (2 * L)) :
    i / (2 * L) < m ∧
      (i % (2 * L) < L → i + L < m * (2 * L) ∧ (i + L) % (2 * L) = i % (2 * L) + L ∧
        (i + L) / (2 * L) = i / (2 * L)) ∧
      (¬ i % (2 * L) < L → L ≤ i ∧ (i - L) % (2 * L) = i % (2 * L) - L ∧
        (i - L) / (2 * L) = i / (2 * L)) := by
  have hpos : 0 < 2 * L := by omega
  have hdiv := Nat.div_add_mod i (2 * L)
  have hmod := Nat.mod_lt i hpos
  have hblock : i / (2 * L) < m := Nat.div_lt_of_lt_mul (by rw [Nat.mul_comm]; exact hi)
  generalize hb : i / (2 * L) = b at *
  generalize ho : i % (2 * L) = o at *
  have hend : 2 * L * (b + 1) ≤ 2 * L * m := Nat.mul_le_mul_left _ hblock
  have hm : m * (2 * L) = 2 * L * m := Nat.mul_comm _ _
  rw [Nat.mul_add, Nat.mul_one] at hend
  refine ⟨hblock, fun hlow => ?_, fun hhigh => ?_⟩
  · have hsum : i + L = (o + L) + 2 * L * b := by omega
    rw [hsum, Nat.add_mul_mod_self_left, Nat.mod_eq_of_lt (by omega),
      Nat.add_mul_div_left _ _ hpos, Nat.div_eq_of_lt (show o + L < 2 * L by omega), Nat.zero_add]
    exact ⟨by omega, rfl, rfl⟩
  · have hdiff : i - L = (o - L) + 2 * L * b := by omega
    rw [hdiff, Nat.add_mul_mod_self_left, Nat.mod_eq_of_lt (by omega),
      Nat.add_mul_div_left _ _ hpos, Nat.div_eq_of_lt (show o - L < 2 * L by omega), Nat.zero_add]
    exact ⟨by omega, rfl, rfl⟩

section Layers

variable {w : Nat → K} {m L : Nat}

theorem split_congr (hL : 0 < L) {f g : Nat → K} (h : Agree (m * (2 * L)) f g) :
    Agree (m * (2 * L)) (split w m L f) (split w m L g) := by
  intro i hi
  obtain ⟨-, hlow, hhigh⟩ := index_split hL hi
  rw [split, split]
  by_cases ho : i % (2 * L) < L
  · rw [if_pos ho, if_pos ho, h i hi, h _ (hlow ho).1]
  · rw [if_neg ho, if_neg ho, h i hi, h _ (lt_of_le_of_lt (Nat.sub_le _ _) hi)]

theorem merge_congr (hL : 0 < L) {f g : Nat → K} (h : Agree (m * (2 * L)) f g) :
    Agree (m * (2 * L)) (merge w m L f) (merge w m L g) := by
  intro i hi
  obtain ⟨-, hlow, hhigh⟩ := index_split hL hi
  rw [merge, merge]
  by_cases ho : i % (2 * L) < L
  · rw [if_pos ho, if_pos ho, h i hi, h _ (hlow ho).1]
  · rw [if_neg ho, if_neg ho, h i hi, h _ (lt_of_le_of_lt (Nat.sub_le _ _) hi)]

/-- The roots from the other end are the inverses, up to sign. -/
def Mirrored (w : Nat → K) (m : Nat) : Prop := ∀ b < m, w (2 * m - 1 - b) * w (m + b) = -1

/-- **ONE LAYER AND BACK** doubles. -/
theorem merge_split (hL : 0 < L) (hw : Mirrored w m) (f : Nat → K) :
    Agree (m * (2 * L)) (merge w m L (split w m L f)) fun i => 2 * f i := by
  intro i hi
  obtain ⟨hb, hlow, hhigh⟩ := index_split hL hi
  rw [merge]
  by_cases ho : i % (2 * L) < L
  · obtain ⟨-, hmod, hdiv⟩ := hlow ho
    rw [if_pos ho, split, if_pos ho, split, if_neg (by omega), hdiv, Nat.add_sub_cancel]
    ring
  · obtain ⟨hle, hmod, hdiv⟩ := hhigh ho
    have hpos : 0 < 2 * L := by omega
    have hlt := Nat.mod_lt i hpos
    rw [if_neg ho, split, if_neg ho, split, if_pos (by omega), hdiv, Nat.sub_add_cancel hle]
    linear_combination (-2 * f i) * hw _ hb

/-- **BACK AND ONE LAYER** doubles. -/
theorem split_merge (hL : 0 < L) (hw : Mirrored w m) (f : Nat → K) :
    Agree (m * (2 * L)) (split w m L (merge w m L f)) fun i => 2 * f i := by
  intro i hi
  obtain ⟨hb, hlow, hhigh⟩ := index_split hL hi
  rw [split]
  by_cases ho : i % (2 * L) < L
  · obtain ⟨-, hmod, hdiv⟩ := hlow ho
    rw [if_pos ho, merge, if_pos ho, merge, if_neg (by omega), hdiv, Nat.add_sub_cancel]
    linear_combination (f (i + L) - f i) * hw _ hb
  · obtain ⟨hle, hmod, hdiv⟩ := hhigh ho
    have hpos : 0 < 2 * L := by omega
    have hlt := Nat.mod_lt i hpos
    rw [if_neg ho, merge, if_pos (by omega), merge, if_neg ho, Nat.sub_add_cancel hle]
    linear_combination (f (i - L) - f i) * hw _ hb

theorem split_add (f g : Nat → K) (i : Nat) :
    split w m L (fun j => f j + g j) i = split w m L f i + split w m L g i := by
  rw [split, split, split]
  by_cases ho : i % (2 * L) < L
  · rw [if_pos ho, if_pos ho, if_pos ho]
    ring
  · rw [if_neg ho, if_neg ho, if_neg ho]
    ring

theorem split_smul (a : K) (f : Nat → K) (i : Nat) :
    split w m L (fun j => a * f j) i = a * split w m L f i := by
  rw [split, split]
  by_cases ho : i % (2 * L) < L
  · rw [if_pos ho, if_pos ho]
    ring
  · rw [if_neg ho, if_neg ho]
    ring

theorem merge_add (f g : Nat → K) (i : Nat) :
    merge w m L (fun j => f j + g j) i = merge w m L f i + merge w m L g i := by
  rw [merge, merge, merge]
  by_cases ho : i % (2 * L) < L
  · rw [if_pos ho, if_pos ho, if_pos ho]
    ring
  · rw [if_neg ho, if_neg ho, if_neg ho]
    ring

theorem merge_smul (a : K) (f : Nat → K) (i : Nat) :
    merge w m L (fun j => a * f j) i = a * merge w m L f i := by
  rw [merge, merge]
  by_cases ho : i % (2 * L) < L
  · rw [if_pos ho, if_pos ho]
    ring
  · rw [if_neg ho, if_neg ho]
    ring

end Layers

/-! ## Transforms -/

variable {w : Nat → K}

theorem forward_congr {t L : Nat} (hL : 0 < L) {f g : Nat → K} (h : Agree (2 ^ t * L) f g) :
    Agree (2 ^ t * L) (forward w t L f) (forward w t L g) := by
  induction t generalizing L with
  | zero => exact h
  | succ t ih =>
      have hlen : 2 ^ (t + 1) * L = 2 ^ t * (2 * L) := by ring
      rw [hlen] at h ⊢
      exact split_congr hL (ih (by omega) h)

theorem backward_congr {t L : Nat} (hL : 0 < L) {f g : Nat → K} (h : Agree (2 ^ t * L) f g) :
    Agree (2 ^ t * L) (backward w t L f) (backward w t L g) := by
  induction t generalizing L f g with
  | zero => exact h
  | succ t ih =>
      have hlen : 2 ^ (t + 1) * L = 2 ^ t * (2 * L) := by ring
      rw [hlen] at h ⊢
      exact ih (by omega) (merge_congr hL h)

theorem forward_add {t L : Nat} (f g : Nat → K) :
    forward w t L (fun j => f j + g j) = fun i => forward w t L f i + forward w t L g i := by
  induction t generalizing L with
  | zero => rfl
  | succ t ih =>
      funext i
      rw [forward, ih, split_add]
      rfl

theorem forward_smul {t L : Nat} (a : K) (f : Nat → K) :
    forward w t L (fun j => a * f j) = fun i => a * forward w t L f i := by
  induction t generalizing L with
  | zero => rfl
  | succ t ih =>
      funext i
      rw [forward, ih, split_smul]
      rfl

theorem backward_add {t L : Nat} (f g : Nat → K) :
    backward w t L (fun j => f j + g j) = fun i => backward w t L f i + backward w t L g i := by
  induction t generalizing L f g with
  | zero => rfl
  | succ t ih =>
      have hlayer : merge w (2 ^ t) L (fun j => f j + g j) =
          fun i => merge w (2 ^ t) L f i + merge w (2 ^ t) L g i := funext fun i => merge_add f g i
      rw [backward, hlayer, ih]
      rfl

theorem backward_smul {t L : Nat} (a : K) (f : Nat → K) :
    backward w t L (fun j => a * f j) = fun i => a * backward w t L f i := by
  induction t generalizing L f with
  | zero => rfl
  | succ t ih =>
      have hlayer : merge w (2 ^ t) L (fun j => a * f j) = fun i => a * merge w (2 ^ t) L f i :=
        funext fun i => merge_smul a f i
      rw [backward, hlayer, ih]
      rfl

/-- **THERE AND BACK** is multiplication by the number of blocks. -/
theorem backward_forward {t L : Nat} (hL : 0 < L) (hw : ∀ s < t, Mirrored w (2 ^ s)) (f : Nat → K) :
    Agree (2 ^ t * L) (backward w t L (forward w t L f)) fun i => 2 ^ t * f i := by
  induction t generalizing L with
  | zero =>
      intro i hi
      show f i = 2 ^ 0 * f i
      rw [pow_zero, one_mul]
  | succ t ih =>
      have hlen : 2 ^ (t + 1) * L = 2 ^ t * (2 * L) := by ring
      have hlayer := merge_split hL (hw t (Nat.lt_succ_self t)) (forward w t (2 * L) f)
      have hback := backward_congr (w := w) (t := t) (show 0 < 2 * L by omega) hlayer
      rw [backward_smul] at hback
      intro i hi
      rw [hlen] at hi
      have hrest := ih (show 0 < 2 * L by omega) (fun s hs => hw s (Nat.lt_succ_of_lt hs)) i hi
      rw [backward, forward, hback i hi]
      show 2 * backward w t (2 * L) (forward w t (2 * L) f) i = 2 ^ (t + 1) * f i
      rw [hrest]
      ring

/-- **BACK AND THERE** is the same. -/
theorem forward_backward {t L : Nat} (hL : 0 < L) (hw : ∀ s < t, Mirrored w (2 ^ s)) (f : Nat → K) :
    Agree (2 ^ t * L) (forward w t L (backward w t L f)) fun i => 2 ^ t * f i := by
  induction t generalizing L f with
  | zero =>
      intro i hi
      show f i = 2 ^ 0 * f i
      rw [pow_zero, one_mul]
  | succ t ih =>
      have hlen : 2 ^ (t + 1) * L = 2 ^ t * (2 * L) := by ring
      have hinner := ih (show 0 < 2 * L by omega) (fun s hs => hw s (Nat.lt_succ_of_lt hs))
        (merge w (2 ^ t) L f)
      have hlayer := split_congr (w := w) hL hinner
      intro i hi
      rw [hlen] at hi
      rw [forward, backward, hlayer i hi, split_smul,
        split_merge hL (hw t (Nat.lt_succ_self t)) f i hi]
      show 2 ^ t * (2 * f i) = 2 ^ (t + 1) * f i
      ring

/-! ## Residues -/

/-- The polynomial whose coefficients are the `n` values from `s` on. -/
noncomputable def blockPoly (f : Nat → K) (s n : Nat) : K[X] :=
  ∑ j ∈ range n, C (f (s + j)) * X ^ j

theorem blockPoly_congr {f g : Nat → K} {s n N : Nat} (h : Agree N f g) (hn : s + n ≤ N) :
    blockPoly f s n = blockPoly g s n := by
  refine sum_congr rfl fun j hj => ?_
  rw [h (s + j) (by have := mem_range.mp hj; omega)]

theorem blockPoly_add (f g : Nat → K) (s n : Nat) :
    blockPoly (fun i => f i + g i) s n = blockPoly f s n + blockPoly g s n := by
  rw [blockPoly, blockPoly, blockPoly, ← sum_add_distrib]
  refine sum_congr rfl fun j _ => ?_
  rw [C_add, add_mul]

theorem blockPoly_smul (a : K) (f : Nat → K) (s n : Nat) :
    blockPoly (fun i => a * f i) s n = C a * blockPoly f s n := by
  rw [blockPoly, blockPoly, mul_sum]
  refine sum_congr rfl fun j _ => ?_
  rw [C_mul, mul_assoc]

theorem blockPoly_coeff (f : Nat → K) (s n k : Nat) :
    (blockPoly f s n).coeff k = if k < n then f (s + k) else 0 := by
  rw [blockPoly, finsetSum_coeff]
  simp only [coeff_C_mul_X_pow]
  rw [sum_ite_eq]
  simp only [mem_range]

theorem blockPoly_degree_lt (f : Nat → K) (s n : Nat) : (blockPoly f s n).degree < n := by
  rw [degree_lt_iff_coeff_zero]
  intro k hk
  rw [blockPoly_coeff, if_neg (Nat.not_lt.mpr hk)]

/-- A block is its first half and its second. -/
theorem blockPoly_halves (f : Nat → K) (s L : Nat) :
    blockPoly f s (2 * L) = blockPoly f s L + X ^ L * blockPoly f (s + L) L := by
  rw [blockPoly, two_mul, sum_range_add, blockPoly, blockPoly, mul_sum]
  congr 1
  refine sum_congr rfl fun j _ => ?_
  rw [pow_add, Nat.add_assoc]
  ring

section Residues

variable {m L b : Nat}

/-- The index of a place in the first half of a block. -/
theorem first_half {j : Nat} (hj : j < L) :
    (b * (2 * L) + j) % (2 * L) = j ∧ (b * (2 * L) + j) / (2 * L) = b := by
  have hpos : 0 < 2 * L := by omega
  rw [Nat.mul_comm, Nat.mul_add_mod, Nat.mod_eq_of_lt (by omega), Nat.mul_add_div hpos,
    Nat.div_eq_of_lt (by omega), Nat.add_zero]
  exact ⟨rfl, rfl⟩

/-- The index of a place in the second half of a block. -/
theorem second_half {j : Nat} (hj : j < L) :
    (b * (2 * L) + L + j) % (2 * L) = L + j ∧ (b * (2 * L) + L + j) / (2 * L) = b := by
  have hpos : 0 < 2 * L := by omega
  rw [Nat.add_assoc, Nat.mul_comm, Nat.mul_add_mod, Nat.mod_eq_of_lt (by omega),
    Nat.mul_add_div hpos, Nat.div_eq_of_lt (by omega), Nat.add_zero]
  exact ⟨rfl, rfl⟩

theorem blockPoly_split_first (w : Nat → K) (f : Nat → K) :
    blockPoly (split w m L f) (b * (2 * L)) L =
      blockPoly f (b * (2 * L)) L + C (w (m + b)) * blockPoly f (b * (2 * L) + L) L := by
  rw [blockPoly, blockPoly, blockPoly, mul_sum, ← sum_add_distrib]
  refine sum_congr rfl fun j hj => ?_
  obtain ⟨hmod, hdiv⟩ := first_half (b := b) (mem_range.mp hj)
  rw [split, hmod, hdiv, if_pos (mem_range.mp hj), C_add, C_mul,
    show b * (2 * L) + j + L = b * (2 * L) + L + j by omega]
  ring

theorem blockPoly_split_second (w : Nat → K) (f : Nat → K) :
    blockPoly (split w m L f) (b * (2 * L) + L) L =
      blockPoly f (b * (2 * L)) L - C (w (m + b)) * blockPoly f (b * (2 * L) + L) L := by
  rw [blockPoly, blockPoly, blockPoly, mul_sum, ← sum_sub_distrib]
  refine sum_congr rfl fun j hj => ?_
  obtain ⟨hmod, hdiv⟩ := second_half (b := b) (mem_range.mp hj)
  rw [split, hmod, hdiv, if_neg (by omega), C_sub, C_mul,
    show b * (2 * L) + L + j - L = b * (2 * L) + j by omega]
  ring

/-- **THE FIRST CHILD** is the residue modulo `X ^ L - w`. -/
theorem split_first (w : Nat → K) (f : Nat → K) :
    X ^ L - C (w (m + b)) ∣
      blockPoly f (b * (2 * L)) (2 * L) - blockPoly (split w m L f) (b * (2 * L)) L := by
  refine ⟨blockPoly f (b * (2 * L) + L) L, ?_⟩
  rw [blockPoly_halves, blockPoly_split_first]
  ring

/-- **THE SECOND CHILD** is the residue modulo `X ^ L + w`. -/
theorem split_second (w : Nat → K) (f : Nat → K) :
    X ^ L - C (-w (m + b)) ∣
      blockPoly f (b * (2 * L)) (2 * L) - blockPoly (split w m L f) (b * (2 * L) + L) L := by
  refine ⟨blockPoly f (b * (2 * L) + L) L, ?_⟩
  rw [blockPoly_halves, blockPoly_split_second, C_neg]
  ring

end Residues

/-- What stands at the nodes of the tree: node `k` has the children `2 * k` and
    `2 * k + 1` with the two square roots. -/
structure Roots (w c : Nat → K) (t : Nat) : Prop where
  square : ∀ k, 0 < k → k < 2 ^ t → w k * w k = c k
  even : ∀ k, 0 < k → k < 2 ^ t → c (2 * k) = w k
  odd : ∀ k, 0 < k → k < 2 ^ t → c (2 * k + 1) = -w k

theorem Roots.mono {w c : Nat → K} {s t : Nat} (h : Roots w c t) (hs : s ≤ t) : Roots w c s where
  square := fun k hk hlt => h.square k hk (lt_of_lt_of_le hlt (Nat.pow_le_pow_right (by decide) hs))
  even := fun k hk hlt => h.even k hk (lt_of_lt_of_le hlt (Nat.pow_le_pow_right (by decide) hs))
  odd := fun k hk hlt => h.odd k hk (lt_of_lt_of_le hlt (Nat.pow_le_pow_right (by decide) hs))

/-- The modulus of a node is a multiple of those of its children. -/
theorem child_dvd {a c : K} (h : a * a = c) (L : Nat) :
    (X ^ L - C a : K[X]) ∣ X ^ (2 * L) - C c ∧ (X ^ L - C (-a) : K[X]) ∣ X ^ (2 * L) - C c := by
  have hfactor : (X ^ (2 * L) - C c : K[X]) = (X ^ L - C a) * (X ^ L - C (-a)) := by
    rw [← h, C_mul, C_neg]
    ring
  rw [hfactor]
  exact ⟨dvd_mul_right _ _, dvd_mul_left _ _⟩

/-- **THE TRANSFORM IS THE RESIDUES**: each block is congruent to the whole, modulo what
    stands at its node, and that divides what stands at the top. -/
theorem forward_residue {w c : Nat → K} {t L : Nat} (h : Roots w c t) (f : Nat → K) {b : Nat}
    (hb : b < 2 ^ t) :
    (X ^ L - C (c (2 ^ t + b)) : K[X]) ∣ X ^ (2 ^ t * L) - C (c 1) ∧
      X ^ L - C (c (2 ^ t + b)) ∣
        blockPoly f 0 (2 ^ t * L) - blockPoly (forward w t L f) (b * L) L := by
  induction t generalizing L b with
  | zero =>
      obtain rfl : b = 0 := by omega
      rw [pow_zero, one_mul, Nat.zero_mul]
      exact ⟨dvd_refl _, by rw [show forward w 0 L f = f from rfl, sub_self]; exact dvd_zero _⟩
  | succ t ih =>
      have hlen : 2 ^ (t + 1) * L = 2 ^ t * (2 * L) := by ring
      have hparent : b / 2 < 2 ^ t := by omega
      have hpos : 0 < 2 ^ t + b / 2 := Nat.add_pos_left (Nat.two_pow_pos t) _
      have hnode : 2 ^ t + b / 2 < 2 ^ (t + 1) := by omega
      have hroots := h.mono (Nat.le_succ t)
      obtain ⟨htop, hwhole⟩ := ih (L := 2 * L) hroots hparent
      obtain ⟨heven, hodd⟩ := child_dvd (h.square _ hpos hnode) L
      rw [hlen, forward]
      rcases Nat.mod_two_eq_zero_or_one b with h0 | h1
      · have hb2 : b = 2 * (b / 2) := by omega
        have hchild : c (2 ^ (t + 1) + b) = w (2 ^ t + b / 2) := by
          rw [← h.even _ hpos hnode, show 2 * (2 ^ t + b / 2) = 2 ^ (t + 1) + b by omega]
        have hplace : b * L = b / 2 * (2 * L) := by
          conv_lhs => rw [hb2]
          ring
        rw [hchild, hplace]
        refine ⟨heven.trans htop, ?_⟩
        have hstep := split_first (m := 2 ^ t) (L := L) (b := b / 2) w (forward w t (2 * L) f)
        have hsum := dvd_add (heven.trans hwhole) hstep
        rw [sub_add_sub_cancel] at hsum
        exact hsum
      · have hb2 : b = 2 * (b / 2) + 1 := by omega
        have hchild : c (2 ^ (t + 1) + b) = -w (2 ^ t + b / 2) := by
          rw [← h.odd _ hpos hnode, show 2 * (2 ^ t + b / 2) + 1 = 2 ^ (t + 1) + b by omega]
        have hplace : b * L = b / 2 * (2 * L) + L := by
          conv_lhs => rw [hb2]
          ring
        rw [hchild, hplace]
        refine ⟨hodd.trans htop, ?_⟩
        have hstep := split_second (m := 2 ^ t) (L := L) (b := b / 2) w (forward w t (2 * L) f)
        have hsum := dvd_add (hodd.trans hwhole) hstep
        rw [sub_add_sub_cancel] at hsum
        exact hsum

/-! ## Products -/

section Products

variable [Nontrivial K] {c : Nat → K} {t : Nat}

/-- Blocks of two are multiplied modulo `X ^ 2` minus what stands at their node. -/
def baseProduct (c : Nat → K) (t : Nat) (f g : Nat → K) (i : Nat) : K :=
  if i % 2 = 0 then f i * g i + c (2 ^ t + i / 2) * (f (i + 1) * g (i + 1))
  else f (i - 1) * g i + f i * g (i - 1)

omit [Nontrivial K] in
theorem baseProduct_congr {n : Nat} (hn : n % 2 = 0) {f f' g g' : Nat → K} (hf : Agree n f f')
    (hg : Agree n g g') : Agree n (baseProduct c t f g) (baseProduct c t f' g') := by
  intro i hi
  rw [baseProduct, baseProduct, hf i hi, hg i hi]
  by_cases he : i % 2 = 0
  · rw [if_pos he, if_pos he, hf (i + 1) (by omega), hg (i + 1) (by omega)]
  · rw [if_neg he, if_neg he, hf (i - 1) (by omega), hg (i - 1) (by omega)]

omit [Nontrivial K] in
theorem blockPoly_two (f : Nat → K) (s : Nat) : blockPoly f s 2 = C (f s) + C (f (s + 1)) * X := by
  rw [blockPoly, sum_range_succ, sum_range_one, pow_zero, pow_one, mul_one, Nat.add_zero]

omit [Nontrivial K] in
/-- A product of blocks is their base product, modulo the node. -/
theorem baseProduct_residue (f g : Nat → K) (b : Nat) :
    X ^ 2 - C (c (2 ^ t + b)) ∣
      blockPoly f (b * 2) 2 * blockPoly g (b * 2) 2 - blockPoly (baseProduct c t f g) (b * 2) 2 := by
  have hplace : b * 2 % 2 = 0 ∧ b * 2 / 2 = b := by omega
  have hnext : ¬ (b * 2 + 1) % 2 = 0 := by omega
  refine ⟨C (f (b * 2 + 1) * g (b * 2 + 1)), ?_⟩
  rw [blockPoly_two, blockPoly_two, blockPoly_two, baseProduct, if_pos hplace.1, hplace.2,
    baseProduct, if_neg hnext, Nat.add_sub_cancel]
  simp only [C_add, C_mul]
  ring

/-- A polynomial below the degree of a modulus is its only residue there. -/
theorem eq_of_residue {N n : Nat} {a : K} {f g : Nat → K} {s : Nat} (hn : n ≤ N) (hN : 0 < N)
    (h : X ^ N - C a ∣ blockPoly f s n - blockPoly g s n) : ∀ j < n, f (s + j) = g (s + j) := by
  have hzero : blockPoly f s n - blockPoly g s n = 0 := by
    by_contra hne
    refine (monic_X_pow_sub_C a (Nat.ne_of_gt hN)).not_dvd_of_degree_lt hne ?_ h
    rw [degree_X_pow_sub_C hN]
    have hdegree : ∀ k : Nat → K, (blockPoly k s n).degree < (N : WithBot Nat) := fun k =>
      lt_of_lt_of_le (blockPoly_degree_lt k s n) (by exact_mod_cast hn)
    exact lt_of_le_of_lt (degree_sub_le _ _) (max_lt (hdegree f) (hdegree g))
  intro j hj
  have hcoeff := congrArg (fun p : K[X] => p.coeff j) (sub_eq_zero.mp hzero)
  simp only [blockPoly_coeff, if_pos hj] at hcoeff
  exact hcoeff

/-- Every polynomial has a residue with coefficients of its own. -/
theorem exists_residue {N : Nat} (hN : 0 < N) (a : K) (p : K[X]) :
    ∃ r : Nat → K, X ^ N - C a ∣ p - blockPoly r 0 N := by
  have hmonic := monic_X_pow_sub_C a (Nat.ne_of_gt hN)
  have hdegree := degree_modByMonic_lt p hmonic
  rw [degree_X_pow_sub_C hN] at hdegree
  refine ⟨fun i => (p %ₘ (X ^ N - C a)).coeff i, p /ₘ (X ^ N - C a), ?_⟩
  have hsame : blockPoly (fun i => (p %ₘ (X ^ N - C a)).coeff i) 0 N = p %ₘ (X ^ N - C a) := by
    ext k
    rw [blockPoly_coeff]
    by_cases hk : k < N
    · rw [if_pos hk, Nat.zero_add]
    · rw [if_neg hk]
      exact (coeff_eq_zero_of_degree_lt (lt_of_lt_of_le hdegree (by
        exact_mod_cast Nat.not_lt.mp hk))).symm
  rw [hsame]
  have hdiv := modByMonic_add_div p (X ^ N - C a)
  linear_combination -hdiv

/-- **PRODUCTS BLOCK BY BLOCK**: the base product of two transforms is the transform of
    the product modulo the top. -/
theorem baseProduct_forward {w : Nat → K} (h : Roots w c t) (f g : Nat → K) {r : Nat → K}
    (hr : X ^ (2 ^ t * 2) - C (c 1) ∣
      blockPoly f 0 (2 ^ t * 2) * blockPoly g 0 (2 ^ t * 2) - blockPoly r 0 (2 ^ t * 2)) :
    Agree (2 ^ t * 2) (baseProduct c t (forward w t 2 f) (forward w t 2 g)) (forward w t 2 r) := by
  intro i hi
  have hb : i / 2 < 2 ^ t := by omega
  obtain ⟨htop, hf⟩ := forward_residue h f (L := 2) hb
  have hg := (forward_residue h g (L := 2) hb).2
  have hrr := (forward_residue h r (L := 2) hb).2
  have hbase := baseProduct_residue (c := c) (t := t) (forward w t 2 f) (forward w t 2 g) (i / 2)
  have hprod : X ^ 2 - C (c (2 ^ t + i / 2)) ∣
      blockPoly f 0 (2 ^ t * 2) * blockPoly g 0 (2 ^ t * 2) -
        blockPoly (forward w t 2 f) (i / 2 * 2) 2 * blockPoly (forward w t 2 g) (i / 2 * 2) 2 := by
    obtain ⟨u, hu⟩ := hf
    obtain ⟨v, hv⟩ := hg
    refine ⟨u * blockPoly g 0 (2 ^ t * 2) + blockPoly (forward w t 2 f) (i / 2 * 2) 2 * v, ?_⟩
    linear_combination blockPoly g 0 (2 ^ t * 2) * hu +
      blockPoly (forward w t 2 f) (i / 2 * 2) 2 * hv
  -- both are residues of the product
  have hsame : X ^ 2 - C (c (2 ^ t + i / 2)) ∣
      blockPoly (baseProduct c t (forward w t 2 f) (forward w t 2 g)) (i / 2 * 2) 2 -
        blockPoly (forward w t 2 r) (i / 2 * 2) 2 := by
    obtain ⟨u, hu⟩ := htop.trans hr
    obtain ⟨v, hv⟩ := hrr
    obtain ⟨x, hx⟩ := hprod
    obtain ⟨y, hy⟩ := hbase
    refine ⟨u + v - x - y, ?_⟩
    linear_combination hu + hv - hx - hy
  have hall := eq_of_residue (Nat.le_refl 2) (by decide) hsame
  rcases Nat.mod_two_eq_zero_or_one i with h0 | h1
  · have hplace : i / 2 * 2 + 0 = i := by omega
    have := hall 0 (by decide)
    rw [hplace] at this
    exact this
  · have hplace : i / 2 * 2 + 1 = i := by omega
    have := hall 1 (by decide)
    rw [hplace] at this
    exact this

end Products

end Zupt.NttTree
