import Mathlib.Data.Nat.Bitwise
import Mathlib.Tactic.Ring
import Mathlib.Algebra.Order.Ring.Nat

/-! # Canonical prefix codes

    A code given by the lengths of its words: the symbols of one length have
    consecutive words, in the order of the symbols, and the words of the next
    length begin where these end, doubled.  No word is a prefix of another one,
    and while the lengths meet Kraft's inequality every word fits its length.
    Written with its first bit lowest a word is turned around; then a prefix is
    a remainder. -/

namespace Zupt.Canonical

/-! ## Turning a word around -/

/-- The low `k` bits of `c`, turned around. -/
def rev : (k c : Nat) → Nat
  | 0, _ => 0
  | k + 1, c => 2 ^ k * (c % 2) + rev k (c / 2)

theorem rev_lt (k c : Nat) : rev k c < 2 ^ k := by
  induction k generalizing c with
  | zero => exact Nat.one_pos
  | succ k ih =>
      have hrest := ih (c / 2)
      have hbit : c % 2 < 2 := Nat.mod_lt _ Nat.two_pos
      rw [rev]
      calc 2 ^ k * (c % 2) + rev k (c / 2)
          < 2 ^ k * (c % 2) + 2 ^ k := Nat.add_lt_add_left hrest _
        _ = 2 ^ k * (c % 2 + 1) := by ring
        _ ≤ 2 ^ k * 2 := Nat.mul_le_mul_left _ hbit
        _ = 2 ^ (k + 1) := (Nat.pow_succ ..).symm

/-- The low bits of a turned word are the turned high bits. -/
theorem rev_mod (k d c : Nat) : rev (k + d) c % 2 ^ k = rev k (c / 2 ^ d) := by
  induction d generalizing c with
  | zero =>
      rw [Nat.add_zero, Nat.pow_zero, Nat.div_one]
      exact Nat.mod_eq_of_lt (rev_lt k c)
  | succ d ih =>
      have hpow : 2 ^ (k + d) = 2 ^ k * 2 ^ d := Nat.pow_add ..
      rw [← Nat.add_assoc, rev, hpow, Nat.mul_assoc, Nat.mul_add_mod, ih, Nat.div_div_eq_div_mul,
        Nat.pow_succ, Nat.mul_comm 2]

/-- A bit on top of a word is the lowest one of the turned word. -/
theorem rev_succ (k c : Nat) : rev (k + 1) c = 2 * rev k c + c / 2 ^ k % 2 := by
  induction k generalizing c with
  | zero =>
      rw [rev, rev, rev, Nat.pow_zero, Nat.div_one]
      omega
  | succ k ih =>
      rw [rev, ih (c / 2), rev, Nat.div_div_eq_div_mul, ← Nat.pow_succ', Nat.pow_succ 2 k]
      ring

/-- Turned words tell the words. -/
theorem rev_inj {k a b : Nat} (ha : a < 2 ^ k) (hb : b < 2 ^ k) (h : rev k a = rev k b) : a = b := by
  induction k generalizing a b with
  | zero => omega
  | succ k ih =>
      have hpow : 2 ^ (k + 1) = 2 ^ k * 2 := Nat.pow_succ ..
      have hboth : 2 ^ k * (a % 2) + rev k (a / 2) = 2 ^ k * (b % 2) + rev k (b / 2) := h
      have hlow : rev k (a / 2) = rev k (b / 2) := by
        have hmod := congrArg (· % 2 ^ k) hboth
        simpa only [Nat.mul_add_mod, Nat.mod_eq_of_lt (rev_lt k _)] using hmod
      have hbit : a % 2 = b % 2 := by
        rw [hlow] at hboth
        exact Nat.eq_of_mul_eq_mul_left (Nat.two_pow_pos k) (Nat.add_right_cancel hboth)
      have hrest := ih (by omega) (by omega) hlow
      omega

/-! ## Codes by their lengths -/

section Codes

variable (len : Nat → Nat) (n : Nat)

/-- How many of the first `i` symbols have a word of `l` bits. -/
def rank (l : Nat) : (i : Nat) → Nat
  | 0 => 0
  | i + 1 => rank l i + if len i = l then 1 else 0

/-- The first word of each length. -/
def first : (l : Nat) → Nat
  | 0 => 0
  | l + 1 => (first l + if l = 0 then 0 else rank len l n) * 2

/-- The word of a symbol. -/
def word (i : Nat) : Nat := first len n (len i) + rank len (len i) i

/-- What the words of the first `i` symbols take of `2 ^ top`. -/
def kraft (top : Nat) : (i : Nat) → Nat
  | 0 => 0
  | i + 1 => kraft top i + if len i = 0 then 0 else 2 ^ (top - len i)

variable {len n}

theorem rank_mono (l : Nat) {i j : Nat} (h : i ≤ j) : rank len l i ≤ rank len l j := by
  induction j with
  | zero =>
      obtain rfl : i = 0 := by omega
      exact Nat.le_refl _
  | succ j ih =>
      by_cases hsame : i = j + 1
      · rw [hsame]
      · rw [rank]
        exact Nat.le_add_right_of_le (ih (by omega))

/-- Without symbols of a length no rank rises. -/
theorem rank_eq_zero {l i : Nat} (h : ∀ j < i, len j ≠ l) : rank len l i = 0 := by
  induction i with
  | zero => rfl
  | succ i ih => rw [rank, ih fun j hj => h j (Nat.lt_succ_of_lt hj), if_neg (h i (Nat.lt_succ_self i))]

/-- The ranks of symbols of one length differ. -/
theorem rank_lt {i j : Nat} (h : i < j) : rank len (len i) i < rank len (len i) j := by
  have hstep : rank len (len i) (i + 1) = rank len (len i) i + 1 := by
    rw [rank, if_pos rfl]
  have hmono : rank len (len i) (i + 1) ≤ rank len (len i) j := rank_mono _ h
  omega

/-- The words of a length are within those counted for it. -/
theorem word_lt_next {i : Nat} (hi : i < n) : word len n i < first len n (len i) + rank len (len i) n :=
  Nat.add_lt_add_left (rank_lt hi) _

/-- The words of a longer length begin behind those of a shorter one. -/
theorem first_step {l : Nat} (hl : 0 < l) (d : Nat) :
    2 ^ (d + 1) * (first len n l + rank len l n) ≤ first len n (l + d + 1) := by
  induction d with
  | zero =>
      rw [Nat.add_zero, first, if_neg (by omega)]
      omega
  | succ d ih =>
      rw [← Nat.add_assoc, first, if_neg (by omega), Nat.pow_succ, Nat.mul_right_comm]
      exact Nat.mul_le_mul_right 2 (Nat.le_add_right_of_le ih)

/-- **NO WORD IS A PREFIX** of another one. -/
theorem word_prefix_free {i j : Nat} (hi : i < n) (hne : i ≠ j) (hpos : 0 < len i)
    (hle : len i ≤ len j) : word len n j / 2 ^ (len j - len i) ≠ word len n i := by
  by_cases hsame : len i = len j
  · rw [hsame, Nat.sub_self, Nat.pow_zero, Nat.div_one, word, word, hsame]
    intro h
    have hrank : rank len (len j) j = rank len (len j) i := Nat.add_left_cancel h
    rcases Nat.lt_or_gt_of_ne hne with hlt | hlt
    · have hrise : rank len (len i) i < rank len (len i) j := rank_lt hlt
      rw [hsame] at hrise
      omega
    · have hrise : rank len (len j) j < rank len (len j) i := rank_lt hlt
      omega
  · obtain ⟨d, hd⟩ := Nat.exists_eq_add_of_lt (show len i < len j by omega)
    have hsub : len j - len i = d + 1 := by omega
    have hstart : 2 ^ (d + 1) * (first len n (len i) + rank len (len i) n) ≤ word len n j := by
      rw [word, hd]
      exact Nat.le_add_right_of_le (first_step hpos d)
    have hquot : first len n (len i) + rank len (len i) n ≤ word len n j / 2 ^ (d + 1) :=
      (Nat.le_div_iff_mul_le (Nat.two_pow_pos _)).mpr (by rw [Nat.mul_comm]; exact hstart)
    have hbelow : word len n i < first len n (len i) + rank len (len i) n := word_lt_next hi
    rw [hsub]
    omega

/-- The words of at most `l` bits take what Kraft's sum counts for them. -/
def shortKraft (len : Nat → Nat) (n top : Nat) : (l : Nat) → Nat
  | 0 => 0
  | l + 1 => shortKraft len n top l + rank len (l + 1) n * 2 ^ (top - (l + 1))

theorem first_kraft {top l : Nat} (hl : l ≤ top) :
    (first len n l + if l = 0 then 0 else rank len l n) * 2 ^ (top - l) = shortKraft len n top l := by
  induction l with
  | zero => rw [if_pos rfl, Nat.add_zero, first, Nat.zero_mul, shortKraft]
  | succ l ih =>
      have hpow : 2 ^ (top - l) = 2 * 2 ^ (top - (l + 1)) := by
        have hsub : top - l = top - (l + 1) + 1 := by omega
        rw [hsub, Nat.pow_succ']
      have hprev := ih (by omega)
      rw [hpow, ← Nat.mul_assoc] at hprev
      rw [if_neg (Nat.succ_ne_zero l), shortKraft, ← hprev, Nat.add_mul]
      rfl

/-- One more symbol adds its share to the words of at most `l` bits. -/
theorem shortKraft_succ (top l : Nat) :
    shortKraft len (n + 1) top l =
      shortKraft len n top l + if 0 < len n ∧ len n ≤ l then 2 ^ (top - len n) else 0 := by
  induction l with
  | zero => rw [if_neg (by omega)]; rfl
  | succ l ih =>
      rw [shortKraft, shortKraft, ih, rank, Nat.add_mul]
      by_cases hsame : len n = l + 1
      · rw [if_pos hsame, if_neg (by omega), if_pos (by omega), hsame]
        ring
      · rw [if_neg hsame]
        by_cases hin : 0 < len n ∧ len n ≤ l
        · rw [if_pos hin, if_pos (by omega)]
          ring
        · rw [if_neg hin, if_neg (by omega)]
          ring

theorem shortKraft_le (top l : Nat) : shortKraft len n top l ≤ kraft len top n := by
  induction n with
  | zero =>
      induction l with
      | zero => exact Nat.le_refl _
      | succ l ih =>
          rw [shortKraft, rank, Nat.zero_mul, Nat.add_zero]
          exact ih
  | succ n ih =>
      rw [shortKraft_succ, kraft]
      by_cases hzero : len n = 0
      · rw [if_neg (by omega), if_pos hzero]
        exact ih
      · rw [if_neg hzero]
        by_cases hin : 0 < len n ∧ len n ≤ l
        · rw [if_pos hin]
          exact Nat.add_le_add_right ih _
        · rw [if_neg hin]
          exact Nat.add_le_add ih (Nat.zero_le _)

/-- **UNDER KRAFT'S INEQUALITY** the words of each length fit it. -/
theorem first_add_rank_le {top l : Nat} (hkraft : kraft len top n ≤ 2 ^ top) (hpos : 0 < l)
    (hl : l ≤ top) : first len n l + rank len l n ≤ 2 ^ l := by
  have hsum : (first len n l + if l = 0 then 0 else rank len l n) * 2 ^ (top - l) ≤ 2 ^ top := by
    rw [first_kraft hl]
    exact (shortKraft_le top l).trans hkraft
  have hpow : 2 ^ top = 2 ^ l * 2 ^ (top - l) := by
    rw [← Nat.pow_add, Nat.add_sub_cancel' hl]
  rw [if_neg (by omega), hpow] at hsum
  exact Nat.le_of_mul_le_mul_right hsum (Nat.two_pow_pos _)

theorem word_lt {top i : Nat} (hkraft : kraft len top n ≤ 2 ^ top) (hi : i < n) (hpos : 0 < len i)
    (htop : len i ≤ top) : word len n i < 2 ^ len i :=
  (word_lt_next hi).trans_le (first_add_rank_le hkraft hpos htop)

/-- **A TURNED WORD** is no remainder of the turned word of another symbol. -/
theorem rev_word_ne {top i j : Nat} (hkraft : kraft len top n ≤ 2 ^ top) (hi : i < n) (hj : j < n)
    (hne : i ≠ j) (hpos : 0 < len i) (hle : len i ≤ len j) (htop : len j ≤ top) :
    rev (len j) (word len n j) % 2 ^ len i ≠ rev (len i) (word len n i) := by
  have hsplit : len j = len i + (len j - len i) := by omega
  have hwordj := word_lt hkraft hj (by omega) htop
  have hdiv : word len n j / 2 ^ (len j - len i) < 2 ^ len i := by
    refine Nat.div_lt_of_lt_mul ?_
    rw [← Nat.pow_add, show len j - len i + len i = len j by omega]
    exact hwordj
  have hmod : rev (len j) (word len n j) % 2 ^ len i =
      rev (len i) (word len n j / 2 ^ (len j - len i)) := by
    have h := rev_mod (len i) (len j - len i) (word len n j)
    rw [← hsplit] at h
    exact h
  rw [hmod]
  intro h
  exact word_prefix_free hi hne hpos hle
    (rev_inj hdiv (word_lt hkraft hi hpos (hle.trans htop)) h)

/-- The word of a symbol as it is written, its first bit lowest. -/
def turned (len : Nat → Nat) (n i : Nat) : Nat := rev (len i) (word len n i)

theorem turned_lt (i : Nat) : turned len n i < 2 ^ len i := rev_lt _ _

/-- **NO WORD STARTS** what another one starts. -/
theorem turned_unique {top i j : Nat} (hshort : ∀ i < n, len i ≤ top)
    (hkraft : kraft len top n ≤ 2 ^ top) (hi : i < n) (hj : j < n) (hposi : 0 < len i)
    (hposj : 0 < len j) {V : Nat} (hVi : V % 2 ^ len i = turned len n i)
    (hVj : V % 2 ^ len j = turned len n j) : i = j := by
  by_contra hne
  rcases Nat.le_total (len i) (len j) with hle | hle
  · refine rev_word_ne hkraft hi hj hne hposi hle (hshort j hj) ?_
    show turned len n j % 2 ^ len i = turned len n i
    rw [← hVj, Nat.mod_mod_of_dvd _ (Nat.pow_dvd_pow 2 hle), hVi]
  · refine rev_word_ne hkraft hj hi (Ne.symm hne) hposj hle (hshort i hi) ?_
    show turned len n i % 2 ^ len j = turned len n j
    rw [← hVi, Nat.mod_mod_of_dvd _ (Nat.pow_dvd_pow 2 hle), hVj]

end Codes

/-! ## Tables by the bits of a word -/

/-- The entries that are filled for a turned word are those that it starts. -/
theorem filled_apply {α : Type} {len word : Nat} {v : α} {fill : Nat → Nat → α} {base : Nat → α}
    (hzero : fill 0 = base)
    (hsucc : ∀ j, fill (j + 1) = Function.update (fill j) (word + 2 ^ len * j) v)
    (hword : word < 2 ^ len) (count i : Nat) :
    fill count i = if i % 2 ^ len = word ∧ i / 2 ^ len < count then v else base i := by
  induction count with
  | zero => rw [hzero, if_neg fun h => Nat.not_lt_zero _ h.2]
  | succ j ih =>
      have hplace : i = word + 2 ^ len * j ↔ i % 2 ^ len = word ∧ i / 2 ^ len = j := by
        constructor
        · rintro rfl
          rw [Nat.add_mul_mod_self_left, Nat.mod_eq_of_lt hword,
            Nat.add_mul_div_left _ _ (Nat.two_pow_pos len), Nat.div_eq_of_lt hword, Nat.zero_add]
          exact ⟨rfl, rfl⟩
        · rintro ⟨rfl, rfl⟩
          exact (Nat.mod_add_div i (2 ^ len)).symm
      rw [hsucc]
      by_cases hsame : i = word + 2 ^ len * j
      · obtain ⟨hmod, hdiv⟩ := hplace.mp hsame
        rw [if_pos ⟨hmod, by omega⟩, hsame, Function.update_self]
      · have hother := mt hplace.mpr hsame
        rw [Function.update_of_ne hsame, ih]
        by_cases hin : i % 2 ^ len = word ∧ i / 2 ^ len < j
        · rw [if_pos hin, if_pos ⟨hin.1, by omega⟩]
        · rw [if_neg hin, if_neg (by omega)]

end Zupt.Canonical
