import Zupt.VaptVupt.Ans
import Zupt.VaptVupt.AnsEncode
import Zupt.BitStream

/-! # The bit streams of the tANS coder

    A reader stands for the bits before it, wherever its refills happen to be, and
    a writer with room enough for the fields that were added to it.  So what was
    written field by field is read field by field, by reads that refill before
    they look and by reads behind a refill for more than one of them. -/

namespace Zupt.VaptVupt

open Zupt.LittleEndian Zupt.Memory Zupt.BitStream

/-! ## What is before a reader -/

/-- The `size` bits of `V` are before the reader, of a stream of `len` bytes. -/
structure AnsBr.Sees (r : AnsBr) (V size len : Nat) : Prop where
  count : 0 ≤ r.n ∧ r.n ≤ 64
  holds : Holds r.a r.n.toNat r.s V size
  place : r.p + r.s.length = len

/-- The reader holds `n` bits, or all there are. -/
def AnsBr.Ready (r : AnsBr) (n : Nat) : Prop := (n : Int) ≤ r.n ∨ r.s = []

theorem ansSees_init (src : Bytes) :
    (ansBrInit src).Sees (leGet src) (8 * src.length) src.length where
  count := ⟨Int.le_refl _, Int.natCast_nonneg 64⟩
  holds := holds_start src
  place := Nat.zero_add _

section Refill

variable {r : AnsBr} {V size len : Nat}

theorem ansBrFillTail_spec {s : Bytes} {a p : Nat} {n : Int}
    (h : (AnsBr.mk a n s p).Sees V size len) :
    (ansBrFillTail s a n p).Sees V size len ∧ (ansBrFillTail s a n p).Ready 57 := by
  induction s generalizing a n p with
  | nil => exact ⟨h, Or.inr rfl⟩
  | cons b s ih =>
      obtain ⟨hlow, hhigh⟩ := h.count
      dsimp only at hlow hhigh
      rw [ansBrFillTail]
      by_cases hroom : n ≤ 56
      · rw [if_pos hroom]
        have hload := h.holds.load (k := 1) (Nat.le_add_left 1 s.length)
        have hbyte : leGet ((b :: s).take 1) = b.toNat := Nat.add_zero _
        have hcount : (n + 8).toNat = n.toNat + 8 * 1 := by omega
        dsimp only at hload
        rw [hbyte, ← or_shiftLeft h.holds.bound, ← hcount] at hload
        refine ih ⟨⟨?_, ?_⟩, hload, ?_⟩
        · show 0 ≤ n + 8
          omega
        · show n + 8 ≤ 64
          omega
        · have hplace : p + (s.length + 1) = len := h.place
          show p + 1 + s.length = len
          omega
      · rw [if_neg hroom]
        exact ⟨h, Or.inl (by show (57 : Int) ≤ n; omega)⟩

/-- **A REFILL** changes nothing but where the bits are. -/
theorem ansBrFill_spec (h : r.Sees V size len) :
    (ansBrFill r).Sees V size len ∧ (ansBrFill r).Ready 57 := by
  obtain ⟨hlow, hhigh⟩ := h.count
  rw [ansBrFill]
  by_cases hroom : r.n ≤ 56
  · rw [if_pos hroom]
    by_cases hbulk : 8 ≤ r.s.length
    · rw [if_pos hbulk]
      generalize hwhole : (64 - r.n).toNat / 8 = k
      have hload := h.holds.load (show k ≤ r.s.length by omega)
      have hcount : (r.n + 8 * (k : Int)).toNat = r.n.toNat + 8 * k := by omega
      rw [← or_shiftLeft h.holds.bound, ← leGet_take_eight (by omega) hbulk] at hload
      refine ⟨⟨?_, ?_, ?_⟩, Or.inl ?_⟩
      · dsimp only
        omega
      · dsimp only
        rw [hcount]
        exact hload
      · have hplace := h.place
        show r.p + k + (r.s.drop k).length = len
        rw [List.length_drop]
        omega
      · dsimp only
        omega
    · rw [if_neg hbulk]
      exact ansBrFillTail_spec h
  · rw [if_neg hroom]
    exact ⟨h, Or.inl (by omega)⟩

theorem AnsBr.Ready.mono {n k : Nat} (h : r.Ready n) (hk : k ≤ n) : r.Ready k :=
  h.imp_left fun hn => by omega

/-- The test before a symbol leaves a reader that is ready. -/
theorem ansBrRefill_spec (h : r.Sees V size len) :
    (ansBrRefill r).Sees V size len ∧ (ansBrRefill r).Ready ansLog := by
  rw [ansBrRefill]
  by_cases hlow : r.n < ansLog
  · rw [if_pos hlow]
    obtain ⟨hsees, hready⟩ := ansBrFill_spec h
    exact ⟨hsees, hready.mono (by decide)⟩
  · rw [if_neg hlow]
    exact ⟨h, Or.inl (Int.not_lt.mp hlow)⟩

/-- Bits that are there are taken from below. -/
theorem ansBrTake_sees (h : r.Sees V size len) {n : Nat} (hready : r.Ready n) (hn : n ≤ size) :
    (ansBrTake r n).1 = V % 2 ^ n ∧ (ansBrTake r n).2.Sees (V / 2 ^ n) (size - n) len := by
  have hcount := h.count
  have hsize := h.holds.size
  have hhave : n ≤ r.n.toNat := by
    rcases hready with hbits | hs
    · omega
    · rw [hs, List.length_nil, Nat.mul_zero, Nat.add_zero] at hsize
      omega
  have hleft : (r.n - n).toNat = r.n.toNat - n := by omega
  refine ⟨h.holds.peek (Or.inl hhave), ⟨?_, ?_, h.place⟩⟩
  · show 0 ≤ r.n - n ∧ r.n - n ≤ 64
    omega
  · show Holds (r.a / 2 ^ n) (r.n - n).toNat r.s _ _
    rw [hleft]
    exact h.holds.take hhave

end Refill

/-! ## Fields before a reader -/

/-- Fields are before the reader, and `spare` bits behind them. -/
def AnsBr.Before (r : AnsBr) (fs : List (Nat × Nat)) (spare len : Nat) : Prop :=
  ∃ V, r.Sees V (width fs + spare) len ∧ Starts V (width fs + spare) fs

/-- The bits behind the fields of a stream, in its last byte. -/
def spareBits (fs : List (Nat × Nat)) : Nat := 8 * bytesFor (width fs) - width fs

theorem spareBits_lt (fs : List (Nat × Nat)) : spareBits fs < 8 := by
  rw [spareBits, bytesFor]
  omega

/-- The refilled reader of a packed stream. -/
theorem ansBefore_start (fs : List (Nat × Nat)) :
    (ansBrFill (ansBrInit (packed fs))).Before fs (spareBits fs) (packed fs).length := by
  have hstarts := starts_packed fs []
  rw [List.append_nil] at hstarts
  have hspare : width fs + spareBits fs = 8 * (packed fs).length := by
    rw [packed_length, spareBits, bytesFor]
    omega
  refine ⟨leGet (packed fs), ?_, ?_⟩
  · rw [hspare]
    exact (ansBrFill_spec (ansSees_init (packed fs))).1
  · rw [hspare]
    exact hstarts

section Fields

variable {r : AnsBr} {v w : Nat} {fs : List (Nat × Nat)} {spare len : Nat}

/-- A refill leaves what is before the reader. -/
theorem AnsBr.Before.fill (h : r.Before fs spare len) :
    (ansBrFill r).Before fs spare len ∧ (ansBrFill r).Ready 57 := by
  obtain ⟨V, hsees, hstarts⟩ := h
  obtain ⟨hfilled, hready⟩ := ansBrFill_spec hsees
  exact ⟨⟨V, hfilled, hstarts⟩, hready⟩

theorem AnsBr.Before.refill (h : r.Before fs spare len) :
    (ansBrRefill r).Before fs spare len ∧ (ansBrRefill r).Ready ansLog := by
  obtain ⟨V, hsees, hstarts⟩ := h
  obtain ⟨hfilled, hready⟩ := ansBrRefill_spec hsees
  exact ⟨⟨V, hfilled, hstarts⟩, hready⟩

/-- **A FIELD** is taken by a reader that is ready for it. -/
theorem AnsBr.Before.take (h : r.Before ((v, w) :: fs) spare len) (hready : r.Ready w) :
    (ansBrTake r w).1 = v % 2 ^ w ∧ (ansBrTake r w).2.Before fs spare len := by
  obtain ⟨V, hsees, hstarts⟩ := h
  obtain ⟨hlow, hthere, hrest⟩ := hstarts.take
  obtain ⟨hval, hnext⟩ := ansBrTake_sees hsees hready hthere
  have hsize : width ((v, w) :: fs) + spare - w = width fs + spare := by
    show w + width fs + spare - w = _
    omega
  rw [hsize] at hnext hrest
  exact ⟨hval.trans hlow, V / 2 ^ w, hnext, hrest⟩

/-- **A READ** refills where it must. -/
theorem AnsBr.Before.read (h : r.Before ((v, w) :: fs) spare len) (hw : w ≤ 57) :
    (ansBrRead r w).1 = v % 2 ^ w ∧ (ansBrRead r w).2.Before fs spare len := by
  rw [ansBrRead]
  by_cases hzero : w = 0
  · subst hzero
    rw [if_pos rfl]
    refine ⟨?_, ?_⟩
    · rw [Nat.pow_zero, Nat.mod_one]
    · obtain ⟨V, hsees, hstarts⟩ := h
      obtain ⟨-, -, hrest⟩ := hstarts.take
      have hsize : width ((v, 0) :: fs) = width fs := Nat.zero_add _
      rw [Nat.pow_zero, Nat.div_one, hsize, Nat.sub_zero] at hrest
      rw [hsize] at hsees
      exact ⟨V, hsees, hrest⟩
  · rw [if_neg hzero]
    by_cases hfew : r.n < w
    · rw [if_pos hfew]
      obtain ⟨hfilled, hready⟩ := h.fill
      exact hfilled.take (hready.mono hw)
    · rw [if_neg hfew]
      exact h.take (Or.inl (Int.not_lt.mp hfew))

/-- Behind the last field only the padding of the last byte is left. -/
theorem ansConsumed_done (h : r.Before [] spare len) (hspare : spare < 8) (start : Nat) :
    ansConsumed start r = start + len := by
  obtain ⟨V, hsees, -⟩ := h
  have hplace := hsees.place
  have hsize := hsees.holds.size
  have hcount := hsees.count
  rw [show width [] + spare = spare from Nat.zero_add _] at hsize
  rw [ansConsumed]
  dsimp only
  rw [if_neg (by omega)]
  omega

end Fields

/-! ## The writer -/

/-- The writer has written the fields, and less than a byte waits. -/
def AnsBw.Wrote (w : AnsBw) (fs : List (Nat × Nat)) : Prop := Written w.a w.n w.out fs ∧ w.n < 8

theorem ansWrote_init : AnsBw.init.Wrote [] := ⟨written_nil, Nat.succ_pos 7⟩

section Writer

variable {c : Nat} {w : AnsBw} {fs : List (Nat × Nat)}

/-- Whole bytes are handed out while there is room for them. -/
theorem AnsBw.drain_wrote {turns : Nat} (h : Written w.a w.n w.out fs) (hturns : turns = w.n / 8)
    (hroom : bytesFor (width fs) ≤ c) : (w.drain c 8 turns).Wrote fs := by
  induction turns generalizing w with
  | zero => exact ⟨h, by show w.n < 8; omega⟩
  | succ turns ih =>
      have hwidth := h.width
      rw [bytesFor] at hroom
      rw [AnsBw.drain, if_pos (by omega)]
      exact ih (h.byte (by omega)) (by show turns = (w.n - 8) / 8; omega)

/-- **A FIELD** is written behind the others. -/
theorem AnsBw.add_wrote (h : w.Wrote fs) {v nb : Nat}
    (hroom : bytesFor (width (fs ++ [(v, nb)])) ≤ c) : (w.add c v nb).Wrote (fs ++ [(v, nb)]) := by
  obtain ⟨hwritten, hfew⟩ := h
  have hadd := hwritten.add v nb
  rw [AnsBw.add]
  by_cases hzero : nb = 0
  · subst hzero
    rw [if_pos rfl]
    rw [Nat.pow_zero, Nat.mod_one, Nat.mul_zero, Nat.add_zero, Nat.add_zero] at hadd
    exact ⟨hadd, hfew⟩
  · rw [if_neg hzero]
    rw [← or_shiftLeft hwritten.bound] at hadd
    exact AnsBw.drain_wrote hadd rfl hroom

theorem bytesFor_mono {m n : Nat} (h : m ≤ n) : bytesFor m ≤ bytesFor n := by
  rw [bytesFor, bytesFor]
  omega

theorem addPairs_wrote (pairs : List (Nat × Nat)) (h : w.Wrote fs)
    (hroom : bytesFor (width (fs ++ pairs)) ≤ c) :
    (pairs.foldl (fun w p => AnsBw.add c w p.1 p.2) w).Wrote (fs ++ pairs) := by
  induction pairs generalizing w fs with
  | nil =>
      rw [List.append_nil]
      exact h
  | cons p pairs ih =>
      have hsplit : fs ++ p :: pairs = fs ++ [p] ++ pairs := by simp
      rw [hsplit] at hroom ⊢
      have hfirst : bytesFor (width (fs ++ [p])) ≤ c := by
        refine (bytesFor_mono ?_).trans hroom
        rw [width_append (fs ++ [p])]
        exact Nat.le_add_right _ _
      exact ih (AnsBw.add_wrote h hfirst) hroom

/-- **A FLUSH** hands out the bits that wait. -/
theorem AnsBw.flush_wrote (h : w.Wrote fs) (hroom : bytesFor (width fs) ≤ c) :
    w.flush c = packed fs := by
  obtain ⟨hwritten, hfew⟩ := h
  have hwidth := hwritten.width
  rw [← hwritten.finish hfew, AnsBw.flush]
  by_cases hpos : 0 < w.n
  · have hone : (w.n + 7) / 8 = 1 := by omega
    rw [bytesFor] at hroom
    rw [if_pos hpos, hone, AnsBw.drain, if_pos ⟨hpos, by omega⟩, AnsBw.drain]
  · have hnone : (w.n + 7) / 8 = 0 := by omega
    rw [if_neg hpos, hnone, AnsBw.drain]

/-- **THE STREAM OF PAIRS** is the packed one, where there is room for it. -/
theorem writePairs_packed {pairs : List (Nat × Nat)} (hroom : bytesFor (width pairs) ≤ c) :
    writePairs c pairs = packed pairs :=
  AnsBw.flush_wrote (addPairs_wrote pairs ansWrote_init hroom) hroom

end Writer

end Zupt.VaptVupt
