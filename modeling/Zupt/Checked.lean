import Zupt.BitStream

/-! # Checked integers

    Code that computes with machine integers, where a value that does not fit its type is
    a fault; and the loops that fill an array, cell by cell or row by row. -/

namespace Zupt

/-- What keeps a computation from its result. -/
inductive Fault where
  /-- An integer that does not fit its type. -/
  | overflow
  /-- A loop has not come to its end in the turns it was given. -/
  | unfinished
  /-- An access outside of a buffer. -/
  | outside
  deriving DecidableEq

/-- A computation with checked integers. -/
abbrev Checked := Except Fault

/-- A computation goes on with the result of its first part. -/
theorem ok_bind {α β : Type} (x : α) (f : α → Checked β) : (Except.ok x >>= f) = f x := rfl

/-- A value of type `int16_t`. -/
def int16 (x : Int) : Checked Int :=
  if -2 ^ 15 ≤ x ∧ x < 2 ^ 15 then .ok x else .error .overflow

/-- A value of type `int32_t`. -/
def int32 (x : Int) : Checked Int :=
  if -2 ^ 31 ≤ x ∧ x < 2 ^ 31 then .ok x else .error .overflow

theorem int16_ok {x : Int} (h : -2 ^ 15 ≤ x ∧ x < 2 ^ 15) : int16 x = .ok x := if_pos h

theorem int32_ok {x : Int} (h : -2 ^ 31 ≤ x ∧ x < 2 ^ 31) : int32 x = .ok x := if_pos h

/-- A value of type `uint8_t`. -/
def uint8 (x : Int) : Checked Nat := if 0 ≤ x ∧ x < 2 ^ 8 then .ok x.toNat else .error .overflow

/-- A value of type `uint16_t`. -/
def uint16 (x : Int) : Checked Nat := if 0 ≤ x ∧ x < 2 ^ 16 then .ok x.toNat else .error .overflow

/-- A value of type `uint32_t`. -/
def uint32 (x : Int) : Checked Nat := if 0 ≤ x ∧ x < 2 ^ 32 then .ok x.toNat else .error .overflow

theorem uint8_ok {n : Nat} (h : n < 2 ^ 8) : uint8 n = .ok n := if_pos ⟨Int.natCast_nonneg n, by omega⟩

theorem uint16_ok {n : Nat} (h : n < 2 ^ 16) : uint16 n = .ok n := if_pos ⟨Int.natCast_nonneg n, by omega⟩

theorem uint32_ok {n : Nat} (h : n < 2 ^ 32) : uint32 n = .ok n := if_pos ⟨Int.natCast_nonneg n, by omega⟩

/-- A value of type `uint64_t`. -/
def uint64 (x : Nat) : Checked Nat := if x < 2 ^ 64 then .ok x else .error .overflow

/-- A value of type `unsigned __int128`. -/
def uint128 (x : Nat) : Checked Nat := if x < 2 ^ 128 then .ok x else .error .overflow

/-- A difference of two values of an unsigned type. -/
def usub (x y : Nat) : Checked Nat := if y ≤ x then .ok (x - y) else .error .overflow

theorem uint64_ok {x : Nat} (h : x < 2 ^ 64) : uint64 x = .ok x := if_pos h

theorem uint128_ok {x : Nat} (h : x < 2 ^ 128) : uint128 x = .ok x := if_pos h

theorem usub_ok {x y : Nat} (h : y ≤ x) : usub x y = .ok (x - y) := if_pos h

/-! ## Bytes -/

/-- `a[i]`. -/
def byteAt (a : Bytes) (i : Nat) : Nat := (a.getD i 0).toNat

theorem byteAt_lt (a : Bytes) (i : Nat) : byteAt a i < 256 := UInt8.toNat_lt _

theorem byteAt_drop (a : Bytes) (s i : Nat) : byteAt (a.drop s) i = byteAt a (s + i) := by
  rw [byteAt, byteAt, List.getD_eq_getElem?_getD, List.getD_eq_getElem?_getD, List.getElem?_drop]

/-- The byte of an integer. -/
theorem toNat_byte (n : Nat) : (UInt8.ofNat n).toNat = n % 256 := UInt8.toNat_ofNat'

/-- Two numbers without a common bit, side by side. -/
theorem or_shiftLeft_mul {x y k : Nat} (h : x < 2 ^ k) : x ||| y <<< k = x + y * 2 ^ k := by
  rw [BitStream.or_shiftLeft h, Nat.mul_comm]

/-! ## Loops over cells -/

/-- `r[i] = g(i)` for all `i`. -/
def fillLoop {α : Type} [Inhabited α] (g : Nat → Checked α) : (n : Nat) → Checked (Nat → α)
  | 0 => .ok fun _ => default
  | n + 1 => do
      let r ← fillLoop g n
      let x ← g n
      return Function.update r n x

/-- What a loop over all cells has filled in. -/
theorem fillLoop_all {α : Type} [Inhabited α] {g : Nat → Checked α} {P : Nat → α → Prop} {n : Nat}
    (h : ∀ i < n, ∃ x, g i = .ok x ∧ P i x) : ∃ r, fillLoop g n = .ok r ∧ ∀ i < n, P i (r i) := by
  induction n with
  | zero => exact ⟨_, rfl, fun i hi => absurd hi (Nat.not_lt_zero i)⟩
  | succ n ih =>
      obtain ⟨r, hr, hall⟩ := ih fun i hi => h i (Nat.lt_succ_of_lt hi)
      obtain ⟨x, hx, hP⟩ := h n (Nat.lt_succ_self n)
      refine ⟨Function.update r n x, by simp only [fillLoop, hr, hx, bind, Except.bind]; rfl, ?_⟩
      intro i hi
      by_cases hlast : i = n
      · rw [hlast, Function.update_self]
        exact hP
      · rw [Function.update_of_ne hlast]
        exact hall i (by omega)

/-- A loop that fails has failed in one of its turns. -/
theorem fillLoop_error {α : Type} [Inhabited α] {g : Nat → Checked α} {n : Nat} {x : Fault}
    (h : fillLoop g n = .error x) : ∃ i < n, g i = .error x := by
  induction n with
  | zero => cases h
  | succ n ih =>
      rw [fillLoop] at h
      cases hloop : fillLoop g n with
      | error y =>
          rw [hloop] at h
          cases h
          obtain ⟨i, hi, hx⟩ := ih hloop
          exact ⟨i, Nat.lt_succ_of_lt hi, hx⟩
      | ok r =>
          rw [hloop, ok_bind] at h
          cases hlast : g n with
          | error y =>
              rw [hlast] at h
              cases h
              exact ⟨n, Nat.lt_succ_self n, hlast⟩
          | ok x =>
              rw [hlast] at h
              cases h

/-- A loop that returns has returned in each of its turns. -/
theorem fillLoop_ok {α : Type} [Inhabited α] {g : Nat → Checked α} {n : Nat} {r : Nat → α}
    (h : fillLoop g n = .ok r) : ∀ i < n, g i = .ok (r i) := by
  induction n generalizing r with
  | zero => exact fun i hi => absurd hi (Nat.not_lt_zero i)
  | succ n ih =>
      rw [fillLoop] at h
      cases hloop : fillLoop g n with
      | error y =>
          rw [hloop] at h
          cases h
      | ok r' =>
          rw [hloop, ok_bind] at h
          cases hlast : g n with
          | error y =>
              rw [hlast] at h
              cases h
          | ok x =>
              rw [hlast] at h
              cases h
              intro i hi
              by_cases hn : i = n
              · rw [hn, Function.update_self, hlast]
              · rw [Function.update_of_ne hn]
                exact ih hloop i (by omega)

/-- `for (i = 0; i < n; i++)` over a state. -/
def turns {σ : Type} (step : Nat → σ → Checked σ) : (n : Nat) → σ → Checked σ
  | 0, s => .ok s
  | n + 1, s => do
      let s ← turns step n s
      step n s

/-- **THE LOOP RULE**: what holds before the loop and is kept by each turn. -/
theorem turns_inv {σ : Type} {f : Nat → σ → Checked σ} {P : Nat → σ → Prop} {n : Nat} {s : σ}
    (hstart : P 0 s) (hstep : ∀ i < n, ∀ s, P i s → ∃ s', f i s = .ok s' ∧ P (i + 1) s') :
    ∃ s', turns f n s = .ok s' ∧ P n s' := by
  induction n with
  | zero => exact ⟨s, rfl, hstart⟩
  | succ n ih =>
      obtain ⟨s₁, h₁, hP₁⟩ := ih fun i hi => hstep i (Nat.lt_succ_of_lt hi)
      obtain ⟨s₂, h₂, hP₂⟩ := hstep n (Nat.lt_succ_self n) s₁ hP₁
      exact ⟨s₂, by rw [turns, h₁, ok_bind, h₂], hP₂⟩

/-! ## Loops over rows -/

/-- A loop where each turn writes the next few cells. -/
def rowLoop {α : Type} (g : Nat → Checked (List α)) : (n : Nat) → Checked (List α)
  | 0 => .ok []
  | n + 1 => do
      let l ← rowLoop g n
      let x ← g n
      return l ++ x

/-- What a loop over rows of equal length has written. -/
theorem rowLoop_all {α : Type} {g : Nat → Checked (List α)} {P : Nat → α → Prop} {w n : Nat} {d : α}
    (h : ∀ i < n, ∃ x, g i = .ok x ∧ x.length = w ∧ ∀ k < w, P (w * i + k) (x.getD k d)) :
    ∃ l, rowLoop g n = .ok l ∧ l.length = w * n ∧ ∀ i < w * n, P i (l.getD i d) := by
  induction n with
  | zero => exact ⟨[], rfl, rfl, fun i hi => absurd hi (Nat.not_lt_zero i)⟩
  | succ n ih =>
      obtain ⟨l, hl, hlen, hall⟩ := ih fun i hi => h i (Nat.lt_succ_of_lt hi)
      obtain ⟨x, hx, hxlen, hP⟩ := h n (Nat.lt_succ_self n)
      have hsize : w * (n + 1) = w * n + w := Nat.mul_succ w n
      refine ⟨l ++ x, by simp only [rowLoop, hl, hx, bind, Except.bind]; rfl,
        by rw [List.length_append, hlen, hxlen, hsize], fun i hi => ?_⟩
      by_cases hbefore : i < w * n
      · rw [List.getD_append l x d i (by rw [hlen]; exact hbefore)]
        exact hall i hbefore
      · rw [List.getD_append_right l x d i (by rw [hlen]; omega), hlen]
        have hk := hP (i - w * n) (by omega)
        rw [Nat.add_sub_cancel' (by omega)] at hk
        exact hk

/-- A loop whose turns have no faults. -/
theorem rowLoop_pure {α : Type} {g : Nat → Checked (List α)} {h : Nat → List α} {n : Nat}
    (hg : ∀ i < n, g i = .ok (h i)) : rowLoop g n = .ok ((List.range n).flatMap h) := by
  induction n with
  | zero => rfl
  | succ n ih =>
      rw [rowLoop, ih fun i hi => hg i (Nat.lt_succ_of_lt hi), ok_bind, hg n (Nat.lt_succ_self n),
        ok_bind, List.range_succ, List.flatMap_append, List.flatMap_singleton]
      rfl

theorem mapM_ok {α β : Type} {f : α → Checked β} {g : α → β} {l : List α}
    (h : ∀ x ∈ l, f x = .ok (g x)) : l.mapM f = .ok (l.map g) := by
  induction l with
  | nil => rfl
  | cons x l ih =>
      rw [List.mapM_cons, h x (List.mem_cons_self ..), ok_bind,
        ih fun y hy => h y (List.mem_cons_of_mem _ hy)]
      rfl

theorem flatMap_length {α : Type} {h : Nat → List α} {w : Nat} (hw : ∀ i, (h i).length = w) (n : Nat) :
    ((List.range n).flatMap h).length = w * n := by
  induction n with
  | zero => rfl
  | succ n ih =>
      rw [List.range_succ, List.flatMap_append, List.flatMap_singleton, List.length_append, ih, hw,
        Nat.mul_succ]

/-- **A CELL** of rows of equal length, whatever follows them. -/
theorem flatMap_getD {α : Type} {h : Nat → List α} {w : Nat} (hw : ∀ i, (h i).length = w) {n i k : Nat}
    (hi : i < n) (hk : k < w) (tail : List α) (d : α) :
    ((List.range n).flatMap h ++ tail).getD (w * i + k) d = (h i).getD k d := by
  induction n generalizing tail with
  | zero => exact absurd hi (Nat.not_lt_zero i)
  | succ n ih =>
      rw [List.range_succ, List.flatMap_append, List.flatMap_singleton, List.append_assoc]
      by_cases hlast : i = n
      · have hlen := flatMap_length hw n
        rw [hlast, List.getD_append_right _ _ _ _ (by rw [hlen]; omega), hlen, Nat.add_sub_cancel_left,
          List.getD_append _ _ _ _ (by rw [hw]; exact hk)]
      · exact ih (by omega) _

/-- The bytes of a row. -/
theorem byteAt_rows {h : Nat → Bytes} {w : Nat} (hw : ∀ i, (h i).length = w) {n i k : Nat} (hi : i < n)
    (hk : k < w) (tail : Bytes) :
    byteAt ((List.range n).flatMap h ++ tail) (w * i + k) = byteAt (h i) k := by
  rw [byteAt, flatMap_getD hw hi hk, byteAt]

end Zupt
