import Zupt.Checked
import Zupt.Window

/-! # Accesses within bounds

    Code that reads and writes arrays of a known size, where an access outside of one is a
    fault; and loops that a turn may leave, where a loop without an end is a fault as
    well.  Code that computes a result has done neither. -/

namespace Zupt

open Memory Window

variable {α : Type}

/-! ## Accesses -/

/-- An access that is only allowed within bounds. -/
def inside : Option α → Checked α
  | some x => .ok x
  | none => .error .outside

/-- `l[i]`. -/
def cellAt (l : List α) (i : Nat) : Checked α := inside l[i]?

/-- `memcpy` of `n` cells of `l` from `pos` on. -/
def cellsAt (l : List α) (pos n : Nat) : Checked (List α) :=
  if pos + n ≤ l.length then .ok ((l.drop pos).take n) else .error .outside

theorem cellAt_ok {l : List α} {i : Nat} (hi : i < l.length) : cellAt l i = .ok l[i] := by
  rw [cellAt, List.getElem?_eq_getElem hi]
  rfl

theorem cellAt_getD {l : List α} {i : Nat} (d : α) (hi : i < l.length) : cellAt l i = .ok (l.getD i d) := by
  rw [cellAt_ok hi, List.getD_eq_getElem l d hi]

theorem cellsAt_ok {l : List α} {pos n : Nat} (h : pos + n ≤ l.length) :
    cellsAt l pos n = .ok ((l.drop pos).take n) := if_pos h

/-- The first cell of what is left. -/
theorem cellAt_drop {l rest : List α} {i : Nat} {x : α} (h : l.drop i = x :: rest) :
    cellAt l i = .ok x ∧ i < l.length ∧ l.drop (i + 1) = rest := by
  have hlt : i < l.length := by
    by_contra hle
    rw [List.drop_eq_nil_of_le (by omega)] at h
    cases h
  rw [List.drop_eq_getElem_cons hlt] at h
  obtain ⟨hx, hrest⟩ := List.cons.inj h
  exact ⟨by rw [cellAt_ok hlt, hx], hlt, hrest⟩

/-- What a checked access gives is what the window holds. -/
theorem Window.Gives.inside {b : Bounds} {m0 : Mem α} {r : Option (Mem α)} {out : List α}
    (h : Gives b m0 r out) : ∃ m, Zupt.inside r = .ok m ∧ Holds b m0 m out := by
  obtain ⟨m, rfl, hm⟩ := h
  exact ⟨m, rfl, hm⟩

/-- A window that holds something holds nothing as well. -/
theorem Window.Holds.nil {b : Bounds} {m0 m : Mem α} {out : List α} (h : Holds b m0 m out) :
    Holds b m0 m [] :=
  ⟨le_trans (Nat.add_le_add_left (Nat.zero_le _) _) h.fits, rfl, h.frame⟩

/-- `memcpy` of two bytes into a `uint16_t`, or the same put together by hand. -/
def wordAt (src : Bytes) (i : Nat) : Checked Nat := do
  let b0 ← cellAt src i
  let b1 ← cellAt src (i + 1)
  return b0.toNat ||| b1.toNat <<< 8

theorem wordAt_eq {src s : Bytes} {i : Nat} (hs : src.drop i = s) (hlen : 2 ≤ s.length) :
    wordAt src i = .ok (LittleEndian.leGet (s.take 2)) := by
  obtain ⟨b0, rest, hrest⟩ := List.exists_cons_of_length_pos (show 0 < s.length by omega)
  obtain ⟨b1, tail, htail⟩ := List.exists_cons_of_length_pos (show 0 < rest.length by
    rw [hrest, List.length_cons] at hlen
    omega)
  obtain ⟨hcell0, -, hdrop0⟩ := cellAt_drop (hs.trans hrest)
  obtain ⟨hcell1, -, -⟩ := cellAt_drop (hdrop0.trans htail)
  have hb : b0.toNat < 2 ^ 8 := b0.toNat_lt
  have hvalue : LittleEndian.leGet (s.take 2) = b0.toNat ||| b1.toNat <<< 8 := by
    rw [BitStream.or_shiftLeft hb, hrest, htail]
    show b0.toNat + 256 * (b1.toNat + 256 * 0) = _
    omega
  rw [wordAt, hcell0, ok_bind, hcell1, ok_bind, hvalue]
  rfl

/-! ## Arrays -/

/-- An array: how many cells it has, and what is in them. -/
structure Cells (α : Type) where
  size : Nat
  cell : Mem α

/-- An array behind `memset`. -/
def Cells.fresh (size : Nat) (x : α) : Cells α := ⟨size, fun _ => x⟩

/-- `a[i]`. -/
def Cells.get (a : Cells α) (i : Nat) : Checked α := if i < a.size then .ok (a.cell i) else .error .outside

/-- `a[i] = x`. -/
def Cells.set (a : Cells α) (i : Nat) (x : α) : Checked (Cells α) :=
  if i < a.size then .ok ⟨a.size, Function.update a.cell i x⟩ else .error .outside

@[simp] theorem Cells.get_ok {a : Cells α} {i : Nat} (h : i < a.size) : a.get i = .ok (a.cell i) := if_pos h

@[simp] theorem Cells.set_ok {a : Cells α} {i : Nat} (h : i < a.size) (x : α) :
    a.set i x = .ok ⟨a.size, Function.update a.cell i x⟩ := if_pos h

/-! ## Shifts -/

/-- The distance of a shift of 64 bits. -/
def shiftBy (n : Int) : Checked Nat := if 0 ≤ n ∧ n < 64 then .ok n.toNat else .error .overflow

theorem shiftBy_ok {n : Nat} (h : n < 64) : shiftBy n = .ok n := if_pos ⟨Int.natCast_nonneg n, by omega⟩

/-! ## Loops -/

/-- What a turn of a loop comes to: it goes on, or the loop is left. -/
inductive Turn (σ ρ : Type) where
  | next (s : σ)
  | done (r : ρ)

/-- A turn that goes on if there is something to go on with. -/
def Turn.orElse {σ ρ : Type} (r : ρ) : Option σ → Turn σ ρ
  | none => .done r
  | some s => .next s

/-- A loop of so many turns; one that is not left within them is a fault. -/
def loop {σ ρ : Type} (turn : σ → Checked (Turn σ ρ)) : (turns : Nat) → σ → Checked ρ
  | 0, _ => .error .unfinished
  | turns + 1, s => do
      match ← turn s with
      | .next s => loop turn turns s
      | .done r => return r

theorem loop_next {σ ρ : Type} {turn : σ → Checked (Turn σ ρ)} {n : Nat} {s s' : σ}
    (h : turn s = .ok (.next s')) : loop turn (n + 1) s = loop turn n s' := by
  rw [loop, h]
  rfl

theorem loop_done {σ ρ : Type} {turn : σ → Checked (Turn σ ρ)} {n : Nat} {s : σ} {r : ρ}
    (h : turn s = .ok (.done r)) : loop turn (n + 1) s = .ok r := by
  rw [loop, h]
  rfl

end Zupt
