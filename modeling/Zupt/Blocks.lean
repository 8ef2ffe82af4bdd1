import Mathlib.Data.List.Basic

/-! # Blocks

    A state that takes blocks of a fixed size, fed with pieces of any size: what does not
    fill a block waits for the pieces behind it.  The meaning is the feeding of one
    element after another, in which the pieces cannot be told apart; a machine that tops
    up what waits, takes whole blocks from the piece itself and keeps the rest does the
    same. -/

namespace Zupt.Blocks

variable {σ α : Type} (size : Nat) (f : σ → List α → σ)

/-- The state, and the elements that wait. -/
abbrev Fed (σ α : Type) := σ × List α

/-- One more element. -/
def feed (x : Fed σ α) (a : α) : Fed σ α :=
  if x.2.length + 1 = size then (f x.1 (x.2 ++ [a]), []) else (x.1, x.2 ++ [a])

/-- A piece. -/
def absorb (x : Fed σ α) (p : List α) : Fed σ α := p.foldl (feed size f) x

/-- The first `turns` blocks of a piece. -/
def blocks : (turns : Nat) → σ → List α → σ
  | 0, s, _ => s
  | turns + 1, s, p => blocks turns (f s (p.take size)) (p.drop size)

section Absorb

variable {size f} {s : σ} {rest p q : List α}

@[simp] theorem absorb_nil (x : Fed σ α) : absorb size f x [] = x := rfl

theorem absorb_cons (x : Fed σ α) (a : α) (p : List α) :
    absorb size f x (a :: p) = absorb size f (feed size f x a) p := rfl

/-- **THE PIECES DO NOT MATTER**. -/
theorem absorb_append (x : Fed σ α) (p q : List α) :
    absorb size f x (p ++ q) = absorb size f (absorb size f x p) q :=
  List.foldl_append

/-- A piece that does not fill the block waits. -/
theorem absorb_short (h : rest.length + p.length < size) :
    absorb size f (s, rest) p = (s, rest ++ p) := by
  induction p generalizing rest with
  | nil => rw [absorb_nil, List.append_nil]
  | cons a p ih =>
      rw [List.length_cons] at h
      have hwaits : feed size f (s, rest) a = (s, rest ++ [a]) := if_neg (by show ¬rest.length + 1 = size; omega)
      rw [absorb_cons, hwaits, ih (by rw [List.length_append, List.length_singleton]; omega),
        List.append_assoc, List.singleton_append]

/-- A piece that fills the block is taken. -/
theorem absorb_fill (hpos : 0 < p.length) (h : rest.length + p.length = size) :
    absorb size f (s, rest) p = (f s (rest ++ p), []) := by
  obtain ⟨q, a, rfl⟩ : ∃ q a, p = q ++ [a] :=
    ⟨p.dropLast, p.getLast (List.length_pos_iff.mp hpos), (List.dropLast_append_getLast _).symm⟩
  rw [List.length_append, List.length_singleton] at h
  have hwaits : absorb size f (s, rest) q = (s, rest ++ q) := absorb_short (by omega)
  have hfull : feed size f (s, rest ++ q) a = (f s (rest ++ q ++ [a]), []) := by
    refine if_pos ?_
    show (rest ++ q).length + 1 = size
    rw [List.length_append]
    omega
  rw [absorb_append, hwaits, absorb_cons, absorb_nil, hfull, List.append_assoc]

/-- Whole blocks. -/
theorem absorb_blocks (hsize : 0 < size) (turns : Nat) (h : p.length = size * turns) :
    absorb size f (s, []) p = (blocks size f turns s p, []) := by
  induction turns generalizing s p with
  | zero =>
      obtain rfl := List.length_eq_zero_iff.mp h
      rfl
  | succ turns ih =>
      rw [Nat.mul_succ] at h
      have htake : (p.take size).length = size := by
        rw [List.length_take]
        omega
      have hfill : absorb size f (s, []) (p.take size) = (f s ([] ++ p.take size), []) :=
        absorb_fill (by omega) (by rw [List.length_nil, htake, Nat.zero_add])
      rw [List.nil_append] at hfill
      rw [← List.take_append_drop size p, absorb_append, hfill,
        ih (by rw [List.length_drop]; omega), List.take_append_drop]
      rfl

/-- The first blocks of a piece do not see what stands behind them. -/
theorem blocks_append (turns : Nat) (h : size * turns ≤ p.length) :
    blocks size f turns s (p ++ q) = blocks size f turns s p := by
  induction turns generalizing s p with
  | zero => rfl
  | succ turns ih =>
      rw [Nat.mul_succ] at h
      rw [blocks, blocks, List.take_append_of_le_length (by omega),
        List.drop_append_of_le_length (by omega), ih (by rw [List.length_drop]; omega)]

/-- **IN BULK**: with nothing waiting, the whole blocks of a piece are taken and the
    rest of it waits. -/
theorem absorb_bulk (hsize : 0 < size) (s : σ) (p : List α) :
    absorb size f (s, []) p =
      (blocks size f (p.length / size) s p, p.drop (size * (p.length / size))) := by
  have hdiv := Nat.div_add_mod p.length size
  have hmod := Nat.mod_lt p.length hsize
  have htake : (p.take (size * (p.length / size))).length = size * (p.length / size) := by
    rw [List.length_take]
    omega
  have hblocks : blocks size f (p.length / size) s
      (p.take (size * (p.length / size)) ++ p.drop (size * (p.length / size))) =
        blocks size f (p.length / size) s (p.take (size * (p.length / size))) :=
    blocks_append _ (Nat.le_of_eq htake.symm)
  rw [List.take_append_drop] at hblocks
  have hsplit : absorb size f (s, []) p =
      absorb size f (absorb size f (s, []) (p.take (size * (p.length / size))))
        (p.drop (size * (p.length / size))) := by
    rw [← absorb_append, List.take_append_drop]
  rw [hsplit, absorb_blocks hsize _ htake, ← hblocks,
    absorb_short (by rw [List.length_nil, List.length_drop]; omega), List.nil_append]

/-- **TOPPED UP**: a piece that reaches the end of the block first completes it. -/
theorem absorb_top (hrest : rest.length < size) (h : size ≤ rest.length + p.length) :
    absorb size f (s, rest) p =
      absorb size f (f s (rest ++ p.take (size - rest.length)), [])
        (p.drop (size - rest.length)) := by
  have htake : (p.take (size - rest.length)).length = size - rest.length := by
    rw [List.length_take]
    omega
  have hfill : absorb size f (s, rest) (p.take (size - rest.length)) =
      (f s (rest ++ p.take (size - rest.length)), []) := absorb_fill (by omega) (by omega)
  rw [← hfill, ← absorb_append, List.take_append_drop]

end Absorb

end Zupt.Blocks
