import Zupt.Memory

/-! # Windows

    A buffer that is filled from the front and copied from behind, as the output
    of a dictionary coder: what was produced lies in front of a position, and a
    match repeats it from some distance back.

    Accesses are checked against the range they may touch.  The list that was
    produced is the meaning of the cells; a copy in pieces, or one that writes
    more than was asked for, means the same as the copy cell by cell, as long as
    no piece is longer than the distance. -/

namespace Zupt.Window

open Zupt.Memory

variable {α : Type}

/-- The cells an access may touch. -/
structure Bounds where
  lo : Nat
  hi : Nat

/-- The `n` cells from `pos` on may be touched. -/
def Bounds.Allows (b : Bounds) (pos n : Nat) : Prop := b.lo ≤ pos ∧ pos + n ≤ b.hi

instance (b : Bounds) (pos n : Nat) : Decidable (b.Allows pos n) :=
  inferInstanceAs (Decidable (_ ∧ _))

/-- Cells from outside into the buffer. -/
def store (b : Bounds) (m : Mem α) (pos : Nat) (xs : List α) : Option (Mem α) :=
  if b.Allows pos xs.length then some (write m pos xs) else none

/-- Cells of the buffer to another place of it, all read before any is
    written. -/
def copy (b : Bounds) (m : Mem α) (dst src n : Nat) : Option (Mem α) :=
  if b.Allows src n ∧ b.Allows dst n then some (write m dst (read m src n)) else none

/-- `n` cells from `off` back, one after another. -/
def copyCells (b : Bounds) (m : Mem α) (dst off : Nat) : (n : Nat) → Option (Mem α)
  | 0 => some m
  | n + 1 => (copyCells b m dst off n).bind fun m => copy b m (dst + n) (dst + n - off) 1

/-- The first `k * c` cells of a copy from `off` back, in pieces of `c`. -/
def copyPieces (b : Bounds) (m : Mem α) (dst off c : Nat) : (k : Nat) → Option (Mem α)
  | 0 => some m
  | k + 1 => (copyPieces b m dst off c k).bind fun m => copy b m (dst + k * c) (dst + k * c - off) c

/-- The first `k * c` cells of `xs` into the buffer, in pieces of `c`. -/
def storePieces (b : Bounds) (m : Mem α) (pos : Nat) (xs : List α) (c : Nat) :
    (k : Nat) → Option (Mem α)
  | 0 => some m
  | k + 1 => (storePieces b m pos xs c k).bind fun m =>
      store b m (pos + k * c) ((xs.drop (k * c)).take c)

/-- The same, one cell after another and nothing checked. -/
def byteLoop (m : Mem α) (dst off : Nat) : (n : Nat) → Mem α
  | 0 => m
  | n + 1 =>
      let m := byteLoop m dst off n
      Function.update m (dst + n) (m (dst + n - off))

/-! ## Repeating a list from behind -/

/-- `out` with `n` more cells, each the one `off` before it. -/
def extend (out : List α) (off : Nat) : (n : Nat) → List α
  | 0 => out
  | n + 1 =>
      let out := extend out off n
      out ++ (out.drop (out.length - off)).take 1

@[simp] theorem extend_zero (out : List α) (off : Nat) : extend out off 0 = out := rfl

theorem extend_succ (out : List α) (off n : Nat) :
    extend out off (n + 1) =
      extend out off n ++ ((extend out off n).drop ((extend out off n).length - off)).take 1 := rfl

theorem extend_add (out : List α) (off a b : Nat) :
    extend out off (a + b) = extend (extend out off a) off b := by
  induction b with
  | zero => rfl
  | succ b ih => rw [← Nat.add_assoc, extend_succ, extend_succ, ih]

/-- What was there stays in front. -/
theorem prefix_extend (out : List α) (off n : Nat) : out <+: extend out off n := by
  induction n with
  | zero => exact List.prefix_refl out
  | succ n ih =>
      rw [extend_succ]
      exact ih.trans (List.prefix_append _ _)

theorem length_extend {out : List α} {off : Nat} (hpos : 0 < off) (hle : off ≤ out.length)
    (n : Nat) : (extend out off n).length = out.length + n := by
  induction n with
  | zero => rfl
  | succ n ih =>
      rw [extend_succ, List.length_append, List.length_take, List.length_drop, ih]
      omega

/-- Within the distance a match is a plain piece of what was produced. -/
theorem extend_eq_append {out : List α} {off n : Nat} (hn : n ≤ off) (hle : off ≤ out.length) :
    extend out off n = out ++ (out.drop (out.length - off)).take n := by
  induction n with
  | zero => rw [List.take_zero, List.append_nil, extend_zero]
  | succ n ih =>
      have hlen : (out.drop (out.length - off)).length = off := by
        rw [List.length_drop]
        omega
      have hhave : ((out.drop (out.length - off)).take n).length = n := by
        rw [List.length_take, hlen]
        omega
      have hstart : out.length + n - off ≤ out.length := by omega
      rw [extend_succ, ih (by omega), List.append_assoc, List.length_append, hhave,
        List.drop_append_of_le_length hstart]
      congr 1
      have hpos : out.length + n - off = out.length - off + n := by omega
      rw [List.take_append_of_le_length (by rw [List.length_drop]; omega), hpos, ← List.drop_drop,
        List.take_add]

/-! ## What the cells mean -/

/-- The buffer `m` holds `out` from the front of its range on, and is otherwise
    as `m0` where it may not be touched. -/
structure Holds (b : Bounds) (m0 m : Mem α) (out : List α) : Prop where
  fits : b.lo + out.length ≤ b.hi
  reads : read m b.lo out.length = out
  frame : ∀ i, i < b.lo ∨ b.hi ≤ i → m i = m0 i

/-- An access that was allowed, after which the buffer holds `out`. -/
def Gives (b : Bounds) (m0 : Mem α) (r : Option (Mem α)) (out : List α) : Prop :=
  ∃ m, r = some m ∧ Holds b m0 m out

theorem Holds.gives {b : Bounds} {m0 m : Mem α} {out : List α} (h : Holds b m0 m out) :
    Gives b m0 (some m) out := ⟨m, rfl, h⟩

/-- One access after another. -/
theorem Gives.bind {b : Bounds} {m0 : Mem α} {r : Option (Mem α)} {mid out : List α}
    {f : Mem α → Option (Mem α)} (h : Gives b m0 r mid)
    (hf : ∀ m, Holds b m0 m mid → Gives b m0 (f m) out) : Gives b m0 (r.bind f) out := by
  obtain ⟨m, rfl, hm⟩ := h
  exact hf m hm

section Holds

variable {b : Bounds} {m0 m : Mem α} {out : List α}

/-- Cells behind what was produced: as many of them count as are wanted. -/
theorem Holds.store (h : Holds b m0 m out) {pos : Nat} (hpos : pos = b.lo + out.length)
    (xs : List α) (hroom : pos + xs.length ≤ b.hi) {n : Nat} (hn : n ≤ xs.length) :
    Gives b m0 (store b m pos xs) (out ++ xs.take n) := by
  subst hpos
  have hallows : b.Allows (b.lo + out.length) xs.length := ⟨Nat.le_add_right _ _, hroom⟩
  refine ⟨write m (b.lo + out.length) xs, if_pos hallows, ?_, ?_, ?_⟩
  · rw [List.length_append, List.length_take]
    omega
  · have hhave : (xs.take n).length = n := by rw [List.length_take]; omega
    rw [List.length_append, hhave, read_add, read_write_before m xs (Nat.le_refl _), h.reads]
    congr 1
    rw [← read_take _ _ _ _ hn, read_write]
  · intro i hi
    rw [← h.frame i hi]
    rcases hi with hlo | hhi
    · exact write_of_lt m xs (by omega)
    · exact write_of_ge m xs (by omega)

/-- All of the cells. -/
theorem Holds.store_all (h : Holds b m0 m out) {pos : Nat} (hpos : pos = b.lo + out.length)
    (xs : List α) (hroom : pos + xs.length ≤ b.hi) :
    Gives b m0 (Window.store b m pos xs) (out ++ xs) := by
  have hall := h.store hpos xs hroom (Nat.le_refl _)
  rw [List.take_length] at hall
  exact hall

/-- Cells from outside, in pieces. -/
theorem Holds.storePieces (h : Holds b m0 m out) {pos : Nat} (hpos : pos = b.lo + out.length)
    {xs : List α} {c k : Nat} (hk : k * c ≤ xs.length) (hroom : pos + k * c ≤ b.hi) :
    Gives b m0 (storePieces b m pos xs c k) (out ++ xs.take (k * c)) := by
  induction k with
  | zero =>
      rw [Nat.zero_mul, List.take_zero, List.append_nil]
      exact h.gives
  | succ k ih =>
      have hmul : (k + 1) * c = k * c + c := Nat.succ_mul k c
      rw [hmul] at hk hroom ⊢
      refine (ih (by omega) (by omega)).bind ?_
      intro m' hm'
      have hpiece : ((xs.drop (k * c)).take c).length = c := by
        rw [List.length_take, List.length_drop]
        omega
      have hdone : (xs.take (k * c)).length = k * c := by
        rw [List.length_take]
        omega
      rw [List.take_add, ← List.append_assoc]
      exact hm'.store_all (by rw [List.length_append, hdone, hpos, Nat.add_assoc]) _
        (by rw [hpiece]; omega)

/-- A copy from at least its length back: as many cells count as are wanted. -/
theorem Holds.copy (h : Holds b m0 m out) {pos src off c n : Nat} (hpos : pos = b.lo + out.length)
    (hsrc : src = pos - off) (hle : off ≤ out.length) (hc : c ≤ off) (hn : n ≤ c)
    (hroom : pos + c ≤ b.hi) : Gives b m0 (copy b m pos src c) (extend out off n) := by
  subst hpos
  subst hsrc
  have hsource : b.Allows (b.lo + out.length - off) c := by
    constructor <;> omega
  have htarget : b.Allows (b.lo + out.length) c := ⟨Nat.le_add_right _ _, hroom⟩
  have hsame : b.lo + out.length - off = b.lo + (out.length - off) := by omega
  have hcells : read m (b.lo + out.length - off) c = (out.drop (out.length - off)).take c := by
    rw [hsame, ← h.reads, read_length, read_drop _ _ _ _ (Nat.sub_le _ _),
      read_take _ _ _ _ (by omega)]
  obtain ⟨m', hm', hholds⟩ := h.store rfl (read m (b.lo + out.length - off) c)
    (by rw [read_length]; exact hroom) (n := n) (by rw [read_length]; exact hn)
  refine ⟨m', ?_, ?_⟩
  · rw [Window.copy, if_pos ⟨hsource, htarget⟩, ← hm', Window.store, read_length, if_pos htarget]
  · rw [extend_eq_append (by omega) hle]
    rw [hcells, List.take_take, Nat.min_eq_left hn] at hholds
    exact hholds

/-- **CELL BY CELL**: from any distance. -/
theorem Holds.copyCells (h : Holds b m0 m out) {pos off : Nat} (hpos : pos = b.lo + out.length)
    (hoff : 0 < off) (hle : off ≤ out.length) {n : Nat} (hroom : pos + n ≤ b.hi) :
    Gives b m0 (copyCells b m pos off n) (extend out off n) := by
  induction n with
  | zero => exact h.gives
  | succ n ih =>
      refine (ih (by omega)).bind ?_
      intro m' hm'
      have hlen : (extend out off n).length = out.length + n := length_extend hoff hle n
      rw [extend_add]
      exact hm'.copy (by rw [hlen, hpos, Nat.add_assoc]) rfl (by omega) hoff (Nat.le_refl 1)
        (by omega)

/-- **IN PIECES** no longer than the distance. -/
theorem Holds.copyPieces (h : Holds b m0 m out) {pos off c : Nat} (hpos : pos = b.lo + out.length)
    (hoff : 0 < off) (hle : off ≤ out.length) (hc : c ≤ off) {k : Nat}
    (hroom : pos + k * c ≤ b.hi) :
    Gives b m0 (copyPieces b m pos off c k) (extend out off (k * c)) := by
  induction k with
  | zero =>
      rw [Nat.zero_mul]
      exact h.gives
  | succ k ih =>
      have hmul : (k + 1) * c = k * c + c := Nat.succ_mul k c
      rw [hmul] at hroom ⊢
      refine (ih (by omega)).bind ?_
      intro m' hm'
      have hlen : (extend out off (k * c)).length = out.length + k * c := length_extend hoff hle _
      rw [extend_add]
      exact hm'.copy (by rw [hlen, hpos, Nat.add_assoc]) rfl (by omega) hc (Nat.le_refl c)
        (by omega)

/-- What a buffer holds, and what it may not touch, is all that is known of it. -/
theorem Holds.cells {m' : Mem α} (h : Holds b m0 m out) (h' : Holds b m0 m' out) {i : Nat}
    (hi : i < b.lo + out.length ∨ b.hi ≤ i) : m i = m' i := by
  by_cases hin : b.lo ≤ i ∧ i < b.lo + out.length
  · exact cell_of_read (h.reads.trans h'.reads.symm) hin.1 hin.2
  · rw [h.frame i (by omega), h'.frame i (by omega)]

/-- The source of a match, before anything was copied. -/
theorem holds_source (m : Mem α) {dst off hi : Nat} (hle : off ≤ dst) (hhi : dst ≤ hi) :
    Holds ⟨dst - off, hi⟩ m m (read m (dst - off) off) := by
  refine ⟨?_, by rw [read_length], fun _ _ => rfl⟩
  rw [read_length]
  show dst - off + off ≤ hi
  omega

/-- **THE BYTE LOOP** is the copy cell by cell, where that is allowed. -/
theorem copyCells_eq_byteLoop {c : Bounds} (m : Mem α) {dst off n : Nat} (hoff : off ≤ dst)
    (hlo : c.lo ≤ dst - off) (hhi : dst + n ≤ c.hi) :
    Window.copyCells c m dst off n = some (byteLoop m dst off n) := by
  induction n with
  | zero => rfl
  | succ n ih =>
      have hsource : c.Allows (dst + n - off) 1 := by constructor <;> omega
      have htarget : c.Allows (dst + n) 1 := by constructor <;> omega
      rw [Window.copyCells, ih (by omega), Option.bind_some, Window.copy, if_pos ⟨hsource, htarget⟩]
      rfl

/-! ## Ranges within ranges -/

/-- A range within a range. -/
def Bounds.Within (b c : Bounds) : Prop := c.lo ≤ b.lo ∧ b.hi ≤ c.hi

section Within

variable {c : Bounds} {m' : Mem α} {dst off n : Nat}

theorem Bounds.Within.copy (h : b.Within c) {src : Nat} (hcopy : copy b m dst src n = some m') :
    copy c m dst src n = some m' := by
  have hallows : ∀ pos, b.Allows pos n → c.Allows pos n := fun _ ha =>
    ⟨Nat.le_trans h.1 ha.1, Nat.le_trans ha.2 h.2⟩
  rw [Window.copy] at hcopy ⊢
  split at hcopy
  · rename_i hboth
    rw [if_pos ⟨hallows _ hboth.1, hallows _ hboth.2⟩]
    exact hcopy
  · cases hcopy

/-- One access after another is allowed as well. -/
theorem bind_within {x y : Option (Mem α)} {f g : Mem α → Option (Mem α)}
    (hx : ∀ m, x = some m → y = some m) (hf : ∀ m m', f m = some m' → g m = some m')
    (h : x.bind f = some m') : y.bind g = some m' := by
  obtain ⟨mid, hmid, hlast⟩ := Option.bind_eq_some_iff.mp h
  exact Option.bind_eq_some_iff.mpr ⟨mid, hx mid hmid, hf mid m' hlast⟩

theorem Bounds.Within.copyCells (h : b.Within c) (hcopy : copyCells b m dst off n = some m') :
    copyCells c m dst off n = some m' := by
  induction n generalizing m' with
  | zero => exact hcopy
  | succ n ih => exact bind_within (fun _ hmid => ih hmid) (fun _ _ hlast => h.copy hlast) hcopy

theorem Bounds.Within.copyPieces (h : b.Within c) {size k : Nat}
    (hcopy : copyPieces b m dst off size k = some m') : copyPieces c m dst off size k = some m' := by
  induction k generalizing m' with
  | zero => exact hcopy
  | succ k ih => exact bind_within (fun _ hmid => ih hmid) (fun _ _ hlast => h.copy hlast) hcopy

end Within

/-- The end of what a buffer holds, in a range that starts there. -/
theorem Holds.inner {front : List α} {c : Bounds} (h : Holds b m0 m (front ++ out))
    (hlo : c.lo = b.lo + front.length) (hhi : c.lo + out.length ≤ c.hi) : Holds c m m out := by
  refine ⟨hhi, ?_, fun _ _ => rfl⟩
  have hreads := h.reads
  rw [List.length_append, read_add, ← hlo] at hreads
  exact (List.append_inj hreads (read_length _ _ _)).2

/-- Work within a range that starts behind `front` leaves `front` alone. -/
theorem Holds.outer {m' : Mem α} {front out' : List α} {c : Bounds}
    (h : Holds b m0 m (front ++ out)) (h' : Holds c m m' out')
    (hlo : c.lo = b.lo + front.length) (hhi : c.hi ≤ b.hi) : Holds b m0 m' (front ++ out') := by
  have hfits := h'.fits
  have hreads := h.reads
  rw [List.length_append, read_add] at hreads
  have hfront := (List.append_inj hreads (read_length _ _ _)).1
  refine ⟨?_, ?_, ?_⟩
  · rw [List.length_append]
    omega
  · rw [List.length_append, read_add, ← hlo, h'.reads]
    congr 1
    rw [← hfront, read_length]
    exact read_congr fun i _ hi => h'.frame i (Or.inl (by omega))
  · intro i hi
    rw [h'.frame i (by omega)]
    exact h.frame i hi

end Holds

end Zupt.Window
