import Zupt.Canonical
import Mathlib.Algebra.BigOperators.Group.Finset.Basic
import Mathlib.Algebra.BigOperators.Ring.Finset
import Mathlib.Algebra.BigOperators.Intervals
import Mathlib.Algebra.BigOperators.Group.Finset.Piecewise
import Mathlib.Algebra.Order.Ring.Nat

/-! # Code lengths by counting

    Lengths handed to symbols in an order, and lengths as counts: how many symbols
    have a word of each length.  Kraft's sum of lengths that were handed out is
    that of the counts, so a limit on the lengths can be worked out on the counts
    alone. -/

namespace Zupt.Canonical

open Finset

/-! ## Sums over symbols -/

theorem kraft_eq_sum (len : Nat → Nat) (top n : Nat) :
    kraft len top n = ∑ i ∈ range n, if len i = 0 then 0 else 2 ^ (top - len i) := by
  induction n with
  | zero => rfl
  | succ n ih => rw [kraft, ih, sum_range_succ]

/-- What a length takes of `2 ^ top`; no length takes nothing. -/
def share (top l : Nat) : Nat := if l = 0 then 0 else 2 ^ (top - l)

@[simp] theorem share_zero (top : Nat) : share top 0 = 0 := rfl

theorem kraft_eq_share (len : Nat → Nat) (top n : Nat) :
    kraft len top n = ∑ i ∈ range n, share top (len i) := kraft_eq_sum len top n

/-- In finer units Kraft's sum is a multiple. -/
theorem kraft_scale {len : Nat → Nat} {top n : Nat} (k : Nat) (h : ∀ i < n, len i ≤ top) :
    kraft len (top + k) n = 2 ^ k * kraft len top n := by
  rw [kraft_eq_share, kraft_eq_share, mul_sum]
  refine sum_congr rfl fun i hi => ?_
  have hle := h i (mem_range.mp hi)
  rw [share, share]
  by_cases hzero : len i = 0
  · rw [if_pos hzero, if_pos hzero, Nat.mul_zero]
  · rw [if_neg hzero, if_neg hzero, ← Nat.pow_add]
    congr 1
    omega

/-- A code that is complete in finer units is complete. -/
theorem kraft_coarse {len : Nat → Nat} {top n k : Nat} (h : ∀ i < n, len i ≤ top)
    (hkraft : kraft len (top + k) n = 2 ^ (top + k)) : kraft len top n = 2 ^ top := by
  rw [kraft_scale k h, Nat.pow_add, Nat.mul_comm (2 ^ top)] at hkraft
  exact Nat.eq_of_mul_eq_mul_left (Nat.two_pow_pos k) hkraft

/-! ## Handing out lengths -/

/-- The lengths `vals` go to the symbols `syms`, one after another. -/
def give : (syms vals : List Nat) → (Nat → Nat) → (Nat → Nat)
  | s :: syms, v :: vals, len => give syms vals (Function.update len s v)
  | _, _, len => len

theorem give_of_notMem {syms : List Nat} {i : Nat} (h : i ∉ syms) (vals : List Nat)
    (len : Nat → Nat) : give syms vals len i = len i := by
  induction syms generalizing vals len with
  | nil => rfl
  | cons s syms ih =>
      obtain ⟨hne, hrest⟩ := not_or.mp (mt List.mem_cons.mpr h)
      cases vals with
      | nil => rfl
      | cons v vals => rw [give, ih hrest, Function.update_of_ne hne]

/-- A symbol in the order gets one of the lengths. -/
theorem give_mem {syms vals : List Nat} {i : Nat} (h : i ∈ syms) (hlen : syms.length ≤ vals.length)
    (len : Nat → Nat) : give syms vals len i ∈ vals := by
  induction syms generalizing vals len with
  | nil => cases h
  | cons s syms ih =>
      cases vals with
      | nil => exact absurd hlen (Nat.not_succ_le_zero _)
      | cons v vals =>
          rw [give]
          by_cases hrest : i ∈ syms
          · exact List.mem_cons_of_mem v (ih hrest (Nat.le_of_succ_le_succ hlen) _)
          · obtain rfl := (List.mem_cons.mp h).resolve_right hrest
            rw [give_of_notMem hrest, Function.update_self]
            exact List.mem_cons_self

/-- What the symbols had before does not count. -/
theorem give_congr {syms vals : List Nat} {a b : Nat → Nat} (hlen : syms.length ≤ vals.length)
    (h : ∀ i ∉ syms, a i = b i) : give syms vals a = give syms vals b := by
  induction syms generalizing vals a b with
  | nil => exact funext fun i => h i List.not_mem_nil
  | cons s syms ih =>
      cases vals with
      | nil => exact absurd hlen (Nat.not_succ_le_zero _)
      | cons v vals =>
          refine ih (Nat.le_of_succ_le_succ hlen) ?_
          intro i hi
          by_cases hs : i = s
          · rw [hs, Function.update_self, Function.update_self]
          · rw [Function.update_of_ne hs, Function.update_of_ne hs]
            exact h i fun hmem => (List.mem_cons.mp hmem).elim hs hi

/-- Two lists of symbols, one behind the other. -/
theorem give_append {a va : List Nat} (b vb : List Nat) (hlen : a.length = va.length)
    (len : Nat → Nat) : give (a ++ b) (va ++ vb) len = give b vb (give a va len) := by
  induction a generalizing va len with
  | nil =>
      obtain rfl := List.length_eq_zero_iff.mp hlen.symm
      rfl
  | cons s a ih =>
      cases va with
      | nil => cases hlen
      | cons v va => exact ih (Nat.succ.inj hlen) _

theorem sum_update (g len : Nat → Nat) {n s : Nat} (hs : s < n) (v : Nat) :
    ∑ i ∈ range n, g (Function.update len s v i) + g (len s) = ∑ i ∈ range n, g (len i) + g v := by
  have hmem : s ∈ range n := mem_range.mpr hs
  have hnew : ∑ i ∈ range n, g (Function.update len s v i) =
      g v + ∑ i ∈ range n \ {s}, g (len i) := by
    rw [← sum_update_of_mem hmem (fun i => g (len i)) (g v)]
    refine sum_congr rfl fun i _ => ?_
    by_cases hi : i = s
    · rw [hi, Function.update_self, Function.update_self]
    · rw [Function.update_of_ne hi, Function.update_of_ne hi]
  have hold := sum_eq_add_sum_sdiff_singleton_of_mem hmem fun i => g (len i)
  omega

/-- **A SUM** over all symbols changes by the lengths that are handed out. -/
theorem sum_give {g : Nat → Nat} {n : Nat} {syms vals : List Nat} (len : Nat → Nat)
    (hnodup : syms.Nodup) (hin : ∀ s ∈ syms, s < n) (hlen : vals.length = syms.length) :
    ∑ i ∈ range n, g (give syms vals len i) + (syms.map fun s => g (len s)).sum =
      ∑ i ∈ range n, g (len i) + (vals.map g).sum := by
  induction syms generalizing vals len with
  | nil =>
      obtain rfl := List.length_eq_zero_iff.mp hlen
      rfl
  | cons s syms ih =>
      cases vals with
      | nil => cases hlen
      | cons v vals =>
          obtain ⟨hs, hrest⟩ := List.nodup_cons.mp hnodup
          have hsum := ih (Function.update len s v) hrest
            (fun t ht => hin t (List.mem_cons_of_mem s ht)) (Nat.succ.inj hlen)
          have hsame : (syms.map fun t => g (Function.update len s v t)) = syms.map fun t => g (len t) := by
            refine List.map_congr_left fun t ht => ?_
            rw [Function.update_of_ne (ne_of_mem_of_not_mem ht hs)]
          have hfirst := sum_update g len (hin s List.mem_cons_self) v
          rw [hsame] at hsum
          rw [give, List.map_cons, List.map_cons, List.sum_cons, List.sum_cons]
          omega

/-- Kraft's sum of lengths that are handed out to symbols without any. -/
theorem kraft_give {top n : Nat} {syms vals : List Nat} {len : Nat → Nat} (hnodup : syms.Nodup)
    (hin : ∀ s ∈ syms, s < n) (hlen : vals.length = syms.length) (hnone : ∀ i ∉ syms, len i = 0) :
    kraft (give syms vals len) top n = (vals.map (share top)).sum := by
  have hfresh : give syms vals len = give syms vals fun _ => 0 := give_congr hlen.ge hnone
  have hsum := sum_give (g := share top) (fun _ => 0) hnodup hin hlen
  have hzero : (syms.map fun s => share top ((fun _ => 0) s)).sum = 0 := by
    simp
  rw [hzero] at hsum
  rw [hfresh, kraft_eq_share]
  simpa using hsum

/-! ## Counts of lengths -/

/-- The lengths from 1 to `d`, each by its count and weighed. -/
def weigh (w bl : Nat → Nat) : (d : Nat) → Nat
  | 0 => 0
  | d + 1 => weigh w bl d + bl (d + 1) * w (d + 1)

theorem weigh_congr {w bl bl' : Nat → Nat} {d : Nat} (h : ∀ k, 1 ≤ k → k ≤ d → bl k = bl' k) :
    weigh w bl d = weigh w bl' d := by
  induction d with
  | zero => rfl
  | succ d ih =>
      rw [weigh, weigh, ih fun k hk hd => h k hk (Nat.le_succ_of_le hd),
        h (d + 1) (Nat.succ_le_succ (Nat.zero_le d)) (Nat.le_refl _)]

/-- The lengths behind `d`, one by one. -/
theorem weigh_add (w bl : Nat → Nat) (d m : Nat) :
    weigh w bl (d + m) =
      weigh w bl d + ((List.range m).map fun k => bl (d + 1 + k) * w (d + 1 + k)).sum := by
  induction m with
  | zero => rfl
  | succ m ih =>
      rw [← Nat.add_assoc, weigh, ih, List.range_succ, List.map_append, List.sum_append,
        List.map_singleton, List.sum_singleton, Nat.add_assoc, Nat.add_right_comm d m 1]

/-- Changing one count. -/
theorem weigh_update (w bl : Nat → Nat) {d k : Nat} (hk : 1 ≤ k) (hd : k ≤ d) (x : Nat) :
    weigh w (Function.update bl k x) d + bl k * w k = weigh w bl d + x * w k := by
  induction d with
  | zero => omega
  | succ d ih =>
      rw [weigh, weigh]
      by_cases hsame : k = d + 1
      · have hrest : weigh w (Function.update bl k x) d = weigh w bl d := by
          refine weigh_congr fun j _ hj => ?_
          rw [Function.update_of_ne (by omega)]
        rw [hrest, ← hsame, Function.update_self]
        omega
      · have hprev := ih (by omega)
        rw [Function.update_of_ne (Ne.symm hsame)]
        omega

/-- Weights of at most `c`. -/
theorem weigh_le {w : Nat → Nat} (bl : Nat → Nat) {c d : Nat} (h : ∀ k, 1 ≤ k → k ≤ d → w k ≤ c) :
    weigh w bl d ≤ c * weigh (fun _ => 1) bl d := by
  induction d with
  | zero => exact Nat.zero_le _
  | succ d ih =>
      have hlast : bl (d + 1) * w (d + 1) ≤ bl (d + 1) * c :=
        Nat.mul_le_mul_left _ (h (d + 1) (by omega) (Nat.le_refl _))
      have hprev := ih fun k hk hd => h k hk (Nat.le_succ_of_le hd)
      rw [weigh, weigh, Nat.mul_one, Nat.mul_add, Nat.mul_comm c (bl (d + 1))]
      omega

theorem length_filter_range (p : Nat → Bool) (n : Nat) :
    ((List.range n).filter p).length = ∑ i ∈ range n, if p i then 1 else 0 := by
  induction n with
  | zero => rfl
  | succ n ih =>
      rw [List.range_succ, List.filter_append, List.length_append, ih, sum_range_succ,
        List.filter_singleton]
      cases p n with
      | true => rfl
      | false => rfl

/-- The weights of symbols with at most `d` bits, by the counts of the lengths. -/
theorem weigh_rank (w len : Nat → Nat) (d n : Nat) :
    weigh w (fun l => rank len l n) d =
      ∑ i ∈ range n, if 1 ≤ len i ∧ len i ≤ d then w (len i) else 0 := by
  induction n with
  | zero =>
      rw [range_zero, sum_empty]
      induction d with
      | zero => rfl
      | succ d ih =>
          rw [weigh, ih, rank, Nat.zero_mul, Nat.add_zero]
  | succ n ih =>
      rw [sum_range_succ, ← ih]
      clear ih
      induction d with
      | zero => rw [if_neg (by omega)]; rfl
      | succ d ih =>
          rw [weigh, weigh, ih, rank, Nat.add_mul]
          by_cases hsame : len n = d + 1
          · rw [if_pos hsame, if_neg (by omega), if_pos (by omega), hsame]
            omega
          · rw [if_neg hsame]
            by_cases hin : 1 ≤ len n ∧ len n ≤ d
            · rw [if_pos hin, if_pos (by omega)]
              omega
            · rw [if_neg hin, if_neg (by omega)]
              omega

/-- The lengths that counts stand for, shortest first. -/
def spread (bl : Nat → Nat) : (d : Nat) → List Nat
  | 0 => []
  | d + 1 => spread bl d ++ List.replicate (bl (d + 1)) (d + 1)

theorem spread_mem {bl : Nat → Nat} {d v : Nat} (h : v ∈ spread bl d) : 1 ≤ v ∧ v ≤ d := by
  induction d with
  | zero => cases h
  | succ d ih =>
      rw [spread, List.mem_append, List.mem_replicate] at h
      rcases h with h | ⟨-, rfl⟩
      · have hprev := ih h
        omega
      · omega

theorem sum_spread (w bl : Nat → Nat) (d : Nat) : ((spread bl d).map w).sum = weigh w bl d := by
  induction d with
  | zero => rfl
  | succ d ih =>
      rw [spread, List.map_append, List.sum_append, ih, List.map_replicate, List.sum_replicate, weigh,
        nsmul_eq_mul, Nat.cast_id]

theorem spread_length (bl : Nat → Nat) (d : Nat) : (spread bl d).length = weigh (fun _ => 1) bl d := by
  rw [← sum_spread, List.map_const', List.sum_replicate, nsmul_eq_mul, Nat.mul_one, Nat.cast_id]

section Spread

variable {top n : Nat} {syms : List Nat} {len bl : Nat → Nat}

/-- Lengths that are handed out by counts take of the space what the counts say. -/
theorem kraft_give_spread (hnodup : syms.Nodup) (hin : ∀ s ∈ syms, s < n)
    (hcount : weigh (fun _ => 1) bl top = syms.length) (hnone : ∀ i ∉ syms, len i = 0) :
    kraft (give syms (spread bl top) len) top n = weigh (fun d => 2 ^ (top - d)) bl top := by
  rw [kraft_give hnodup hin ((spread_length bl top).trans hcount) hnone, ← sum_spread]
  refine congrArg List.sum (List.map_congr_left fun v hv => ?_)
  rw [share, if_neg (Nat.ne_of_gt (spread_mem hv).1)]

/-- They go to the symbols, from 1 to the top. -/
theorem give_spread_mem (hcount : weigh (fun _ => 1) bl top = syms.length) {i : Nat} (hi : i ∈ syms) :
    1 ≤ give syms (spread bl top) len i ∧ give syms (spread bl top) len i ≤ top :=
  spread_mem (give_mem hi ((spread_length bl top).trans hcount).ge len)

end Spread

/-- The deepest occupied length of at most `d`. -/
def deepest (bl : Nat → Nat) : (d : Nat) → Option Nat
  | 0 => none
  | d + 1 => if 0 < bl (d + 1) then some (d + 1) else deepest bl d

theorem deepest_some {bl : Nat → Nat} {d k : Nat} (h : deepest bl d = some k) :
    1 ≤ k ∧ k ≤ d ∧ 0 < bl k ∧ ∀ j, k < j → j ≤ d → bl j = 0 := by
  induction d with
  | zero => cases h
  | succ d ih =>
      rw [deepest] at h
      by_cases hpos : 0 < bl (d + 1)
      · rw [if_pos hpos] at h
        obtain rfl := Option.some.inj h
        exact ⟨by omega, Nat.le_refl _, hpos, fun j hj hd => by omega⟩
      · rw [if_neg hpos] at h
        obtain ⟨hk, hd, hocc, hgap⟩ := ih h
        refine ⟨hk, by omega, hocc, ?_⟩
        intro j hj hjd
        by_cases hlast : j = d + 1
        · rw [hlast]
          omega
        · exact hgap j hj (by omega)

theorem deepest_none {bl : Nat → Nat} {d : Nat} (h : deepest bl d = none) :
    ∀ k, 1 ≤ k → k ≤ d → bl k = 0 := by
  induction d with
  | zero =>
      intro k hk hd
      omega
  | succ d ih =>
      rw [deepest] at h
      by_cases hpos : 0 < bl (d + 1)
      · rw [if_pos hpos] at h
        cases h
      · rw [if_neg hpos] at h
        intro k hk hd
        by_cases hlast : k = d + 1
        · rw [hlast]
          omega
        · exact ih h k hk (by omega)

/-- Counts of nothing weigh nothing. -/
theorem weigh_zero {w bl : Nat → Nat} {d : Nat} (h : ∀ k, 1 ≤ k → k ≤ d → bl k = 0) :
    weigh w bl d = 0 := by
  induction d with
  | zero => rfl
  | succ d ih =>
      rw [weigh, ih fun k hk hd => h k hk (Nat.le_succ_of_le hd),
        h (d + 1) (Nat.succ_le_succ (Nat.zero_le d)) (Nat.le_refl _), Nat.zero_mul]

end Zupt.Canonical
