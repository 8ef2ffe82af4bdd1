import Mathlib.Data.List.Basic

/-! # Cells

    A buffer as the function from indices to cells.  Only what was written is
    known of it: everything else is whatever the function happens to be, as in
    storage that was never initialised. -/

namespace Zupt.Memory

variable {α : Type}

/-- The contents of a buffer. -/
abbrev Mem (α : Type) := Nat → α

/-- The `n` cells from `pos` on. -/
def read (m : Mem α) : (pos n : Nat) → List α
  | _, 0 => []
  | pos, n + 1 => m pos :: read m (pos + 1) n

/-- `memcpy` into the cells from `pos` on. -/
def write (m : Mem α) : (pos : Nat) → List α → Mem α
  | _, [] => m
  | pos, x :: xs => write (Function.update m pos x) (pos + 1) xs

@[simp] theorem read_zero (m : Mem α) (pos : Nat) : read m pos 0 = [] := rfl

theorem read_succ (m : Mem α) (pos n : Nat) :
    read m pos (n + 1) = m pos :: read m (pos + 1) n := rfl

@[simp] theorem read_length (m : Mem α) (pos n : Nat) : (read m pos n).length = n := by
  induction n generalizing pos with
  | zero => rfl
  | succ n ih => rw [read_succ, List.length_cons, ih]

/-- Two adjacent ranges read as one. -/
theorem read_add (m : Mem α) (pos a b : Nat) :
    read m pos (a + b) = read m pos a ++ read m (pos + a) b := by
  induction a generalizing pos with
  | zero =>
      rw [Nat.zero_add, read_zero, Nat.add_zero]
      rfl
  | succ a ih =>
      have hpos : pos + 1 + a = pos + (a + 1) := by omega
      rw [Nat.succ_add, read_succ, read_succ, ih, hpos]
      rfl

theorem read_take (m : Mem α) (pos n k : Nat) (h : k ≤ n) :
    (read m pos n).take k = read m pos k := by
  obtain ⟨j, rfl⟩ := Nat.exists_eq_add_of_le h
  rw [read_add, List.take_left' (read_length m pos k)]

theorem read_drop (m : Mem α) (pos n k : Nat) (h : k ≤ n) :
    (read m pos n).drop k = read m (pos + k) (n - k) := by
  obtain ⟨j, rfl⟩ := Nat.exists_eq_add_of_le h
  rw [read_add, List.drop_left' (read_length m pos k), Nat.add_sub_cancel_left]

/-- Ranges on which two buffers agree read the same. -/
theorem read_congr {m m' : Mem α} {pos n : Nat} (h : ∀ i, pos ≤ i → i < pos + n → m i = m' i) :
    read m pos n = read m' pos n := by
  induction n generalizing pos with
  | zero => rfl
  | succ n ih =>
      rw [read_succ, read_succ, h pos (Nat.le_refl _) (by omega),
        ih fun i hi hn => h i (by omega) (by omega)]

/-- Ranges that read the same agree cell by cell. -/
theorem cell_of_read {m m' : Mem α} {pos n : Nat} (h : read m pos n = read m' pos n) {i : Nat}
    (hlo : pos ≤ i) (hhi : i < pos + n) : m i = m' i := by
  induction n generalizing pos with
  | zero => omega
  | succ n ih =>
      rw [read_succ, read_succ] at h
      obtain ⟨hcell, hrest⟩ := List.cons.inj h
      by_cases hi : i = pos
      · rw [hi, hcell]
      · exact ih hrest (by omega) (by omega)

theorem write_of_lt (m : Mem α) {pos i : Nat} (xs : List α) (h : i < pos) :
    write m pos xs i = m i := by
  induction xs generalizing m pos with
  | nil => rfl
  | cons x xs ih =>
      have hne : i ≠ pos := by omega
      rw [write, ih _ (by omega), Function.update_of_ne hne]

theorem write_of_ge (m : Mem α) {pos i : Nat} (xs : List α) (h : pos + xs.length ≤ i) :
    write m pos xs i = m i := by
  induction xs generalizing m pos with
  | nil => rfl
  | cons x xs ih =>
      rw [List.length_cons] at h
      have hne : i ≠ pos := by omega
      rw [write, ih _ (by omega), Function.update_of_ne hne]

/-- What was written is read back. -/
@[simp] theorem read_write (m : Mem α) (pos : Nat) (xs : List α) :
    read (write m pos xs) pos xs.length = xs := by
  induction xs generalizing m pos with
  | nil => rfl
  | cons x xs ih =>
      rw [List.length_cons, read_succ, write, ih, write_of_lt _ _ (Nat.lt_succ_self pos),
        Function.update_self]

theorem read_write_self (m : Mem α) {pos n : Nat} {xs : List α} (h : xs.length = n) :
    read (write m pos xs) pos n = xs := by
  rw [← h, read_write]

/-- One cell of a range. -/
theorem getD_read (m : Mem α) {pos n i : Nat} (hi : i < n) (x : α) :
    (read m pos n).getD i x = m (pos + i) := by
  induction n generalizing pos i with
  | zero => omega
  | succ n ih =>
      rw [read_succ]
      cases i with
      | zero => rfl
      | succ i =>
          have hpos : pos + (i + 1) = pos + 1 + i := by omega
          rw [List.getD_cons_succ, ih (by omega), hpos]

/-- A cell of a range is written. -/
theorem read_update (m : Mem α) {pos n i : Nat} (hi : i < n) (x : α) :
    read (Function.update m (pos + i) x) pos n = (read m pos n).set i x := by
  induction n generalizing pos i with
  | zero => omega
  | succ n ih =>
      rw [read_succ, read_succ]
      cases i with
      | zero =>
          have hrest : read (Function.update m pos x) (pos + 1) n = read m (pos + 1) n :=
            read_congr fun j hj _ => Function.update_of_ne (by omega) x m
          rw [Nat.add_zero, Function.update_self, hrest]
          rfl
      | succ i =>
          have hpos : pos + (i + 1) = pos + 1 + i := by omega
          rw [List.set_cons_succ, hpos, ih (by omega), Function.update_of_ne (by omega)]

/-- What lies in front of the written range is as before. -/
theorem read_write_before (m : Mem α) {pos dst n : Nat} (xs : List α) (h : pos + n ≤ dst) :
    read (write m dst xs) pos n = read m pos n :=
  read_congr fun _ _ hi => write_of_lt m xs (by omega)

/-- What lies behind the written range is as before. -/
theorem read_write_behind (m : Mem α) {pos dst n : Nat} (xs : List α)
    (h : dst + xs.length ≤ pos) : read (write m dst xs) pos n = read m pos n :=
  read_congr fun _ hi _ => write_of_ge m xs (by omega)

/-- Writing right behind a range appends to it. -/
theorem read_write_append (m : Mem α) (pos n : Nat) (xs : List α) :
    read (write m (pos + n) xs) pos (n + xs.length) = read m pos n ++ xs := by
  rw [read_add, read_write_before m xs (Nat.le_refl _), read_write]

end Zupt.Memory
