import Zupt.VaptVupt.Huffman
import Zupt.BitStream

/-! # The readers of the Huffman decoders

    A reader stands for the bits before it, wherever its refills happen to be: a
    symbol is decided by those bits alone.  From that the rounds that refill once
    for three symbols decode what the loop decodes that looks before each one. -/

namespace Zupt.VaptVupt

open Zupt.LittleEndian Zupt.Memory Zupt.BitStream

/-! ## What is before a reader -/

/-- The `size` bits of `V` are before the reader, of a stream of `len` bytes. -/
structure HuffBr.Sees (r : HuffBr) (V size len : Nat) : Prop where
  count : 0 ≤ r.nbits ∧ r.nbits ≤ 64
  holds : Holds r.bits r.nbits.toNat r.s V size
  place : r.pos + r.s.length = len

/-- A symbol can be read without a refill. -/
def HuffBr.Ready (r : HuffBr) : Prop := (huffMaxCodeLen : Int) ≤ r.nbits ∨ r.s = []

theorem sees_init (src : Bytes) :
    (huffBrInit src).Sees (leGet src) (8 * src.length) src.length where
  count := ⟨Int.le_refl _, Int.natCast_nonneg 64⟩
  holds := holds_start src
  place := Nat.zero_add _

section Refill

variable {r : HuffBr} {V size len : Nat}

theorem huffRefillTail_spec {s : Bytes} {bits pos : Nat} {nbits : Int}
    (h : (HuffBr.mk bits nbits s pos).Sees V size len) :
    (huffRefillTail s bits nbits pos).Sees V size len ∧
      (56 ≤ (huffRefillTail s bits nbits pos).nbits ∨ (huffRefillTail s bits nbits pos).s = []) := by
  induction s generalizing bits nbits pos with
  | nil => exact ⟨h, Or.inr rfl⟩
  | cons b s ih =>
      obtain ⟨hlow, hhigh⟩ := h.count
      dsimp only at hlow hhigh
      rw [huffRefillTail]
      by_cases hroom : nbits ≤ 56
      · rw [if_pos hroom]
        have hload := h.holds.load (k := 1) (Nat.le_add_left 1 s.length)
        have hbyte : leGet ((b :: s).take 1) = b.toNat := Nat.add_zero _
        have hcount : (nbits + 8).toNat = nbits.toNat + 8 * 1 := by omega
        dsimp only at hload
        rw [hbyte, ← or_shiftLeft h.holds.bound, ← hcount] at hload
        refine ih ⟨⟨?_, ?_⟩, hload, ?_⟩
        · show 0 ≤ nbits + 8
          omega
        · show nbits + 8 ≤ 64
          omega
        · have hplace : pos + (s.length + 1) = len := h.place
          show pos + 1 + s.length = len
          omega
      · rw [if_neg hroom]
        exact ⟨h, Or.inl (by show 56 ≤ nbits; omega)⟩

/-- **A REFILL** changes nothing but where the bits are. -/
theorem huffRefill_spec (h : r.Sees V size len) :
    (huffRefill r).Sees V size len ∧ (56 ≤ (huffRefill r).nbits ∨ (huffRefill r).s = []) := by
  rw [huffRefill]
  by_cases hbulk : 8 ≤ r.s.length
  · rw [if_pos hbulk]
    obtain ⟨hlow, hhigh⟩ := h.count
    generalize habsorbed : (63 - r.nbits).toNat / 8 = absorbed
    have hload := h.holds.load (show absorbed ≤ r.s.length by omega)
    have hcount : (r.nbits + absorbed * 8).toNat = r.nbits.toNat + 8 * absorbed := by omega
    rw [← or_shiftLeft h.holds.bound, ← leGet_take_eight (by omega) hbulk, Nat.mul_comm 8,
      Nat.mul_comm absorbed 8, ← Nat.mul_comm absorbed 8, ← Nat.mul_comm 8] at hload
    refine ⟨⟨?_, ?_, ?_⟩, Or.inl ?_⟩
    · dsimp only
      omega
    · dsimp only
      rw [hcount, Nat.mul_comm absorbed 8]
      exact hload
    · have hplace := h.place
      show r.pos + absorbed + (r.s.drop absorbed).length = len
      rw [List.length_drop]
      omega
    · dsimp only
      omega
  · rw [if_neg hbulk]
    exact huffRefillTail_spec h

/-- The test before a symbol leaves a reader that is ready. -/
theorem huffTopUp_spec (h : r.Sees V size len) :
    (if r.nbits < huffMaxCodeLen then huffRefill r else r).Sees V size len ∧
      (if r.nbits < huffMaxCodeLen then huffRefill r else r).Ready := by
  by_cases hlow : r.nbits < huffMaxCodeLen
  · rw [if_pos hlow]
    obtain ⟨hsees, hfull⟩ := huffRefill_spec h
    exact ⟨hsees, hfull.imp_left fun hbits => Int.le_trans (by decide) hbits⟩
  · rw [if_neg hlow]
    exact ⟨h, Or.inl (Int.not_lt.mp hlow)⟩

theorem huffConsume_sees (h : r.Sees V size len) {n : Nat} (hn : (n : Int) ≤ r.nbits) :
    (huffConsume r n).Sees (V / 2 ^ n) (size - n) len where
  count := by
    have hcount := h.count
    show 0 ≤ r.nbits - n ∧ r.nbits - n ≤ 64
    omega
  holds := by
    have htake := h.holds.take (show n ≤ r.nbits.toNat by omega)
    have hcount : (r.nbits - n).toNat = r.nbits.toNat - n := by omega
    show Holds (r.bits / 2 ^ n) (r.nbits - n).toNat r.s _ _
    rw [hcount]
    exact htake
  place := h.place

theorem huffPeek_sees (h : r.Sees V size len) (hready : r.Ready) {n : Nat}
    (hn : n ≤ huffMaxCodeLen) : huffPeek r n = V % 2 ^ n := by
  refine h.holds.peek (hready.imp_left fun hbits => ?_)
  omega

/-- Whether bits are there is a matter of the whole stream. -/
theorem enough_sees (h : r.Sees V size len) (hready : r.Ready) {n : Nat} (hn : n ≤ huffMaxCodeLen) :
    (n : Int) ≤ r.nbits ↔ n ≤ size := by
  have hsize := h.holds.size
  have hcount := h.count
  rcases hready with hbits | hs
  · omega
  · rw [hs, List.length_nil, Nat.mul_zero, Nat.add_zero] at hsize
    omega

end Refill

/-! ## Symbols by the bits before a reader -/

/-- The scan of the long codes. -/
def slowOf (dec : HuffTable) (V size : Nat) : (left s : Nat) → Option (UInt8 × Nat)
  | 0, _ => none
  | left + 1, s =>
      if dec.slow_len s ≤ size ∧ V % 2 ^ dec.slow_len s = dec.slow_code s then
        some (dec.slow_sym s, dec.slow_len s)
      else slowOf dec V size left (s + 1)

/-- The symbol that the bits start with, and how many of them it takes. -/
def symbolOf (dec : HuffTable) (V size : Nat) : Option (UInt8 × Nat) :=
  let entry := dec.table (V % 2 ^ huffDecodeBits)
  let len := (entry >>> 8) % 16
  if 0 < len then if size < len then none else some (UInt8.ofNat (entry % 256), len)
  else slowOf dec V size dec.slow_count 0

/-- The long codes are no longer than a code may be. -/
def HuffTable.Short (dec : HuffTable) : Prop := ∀ s < dec.slow_count, dec.slow_len s ≤ huffMaxCodeLen

section Symbols

variable {dec : HuffTable} {r : HuffBr} {V size len : Nat}

theorem slowScan_sees (hshort : dec.Short) (h : r.Sees V size len) (hready : r.Ready)
    {checked : Bool} (hchecked : checked = true ∨ (huffMaxCodeLen : Int) ≤ r.nbits) {left s : Nat}
    (hs : s + left = dec.slow_count) :
    slowScan checked dec r left s =
      (slowOf dec V size left s).map fun p => (p.1, huffConsume r p.2) := by
  induction left generalizing s with
  | zero => rfl
  | succ left ih =>
      have hlen := hshort s (by omega)
      have hthere : (checked → (dec.slow_len s : Int) ≤ r.nbits) ↔ dec.slow_len s ≤ size := by
        rw [← enough_sees h hready hlen]
        constructor
        · intro himp
          rcases hchecked with hc | hbits
          · exact himp hc
          · omega
        · exact fun hle _ => hle
      have hpeek := huffPeek_sees h hready hlen
      have hboth : (checked → (dec.slow_len s : Int) ≤ r.nbits) ∧
          huffPeek r (dec.slow_len s) = dec.slow_code s ↔
          dec.slow_len s ≤ size ∧ V % 2 ^ dec.slow_len s = dec.slow_code s := by
        rw [hthere, hpeek]
      rw [slowScan, slowOf, ih (by omega)]
      by_cases hmatch : dec.slow_len s ≤ size ∧ V % 2 ^ dec.slow_len s = dec.slow_code s
      · rw [if_pos (hboth.mpr hmatch), if_pos hmatch]
        rfl
      · rw [if_neg (mt hboth.mp hmatch), if_neg hmatch]

/-- **A SYMBOL** is decided by the bits before the reader, with the checks of the
    accumulator or behind a bulk refill. -/
theorem huffSymbol_sees (hshort : dec.Short) (h : r.Sees V size len) (hready : r.Ready)
    {checked : Bool} (hchecked : checked = true ∨ (huffMaxCodeLen : Int) ≤ r.nbits) :
    huffSymbol checked dec r =
      (symbolOf dec V size).map fun p => (p.1, huffConsume r p.2) := by
  have hlen : (dec.table (V % 2 ^ huffDecodeBits) >>> 8) % 16 ≤ huffMaxCodeLen :=
    Nat.le_of_lt_succ (Nat.mod_lt _ (by decide))
  rw [huffSymbol, symbolOf, huffPeek_sees h hready (by decide)]
  generalize dec.table (V % 2 ^ huffDecodeBits) = entry at hlen ⊢
  by_cases hfast : 0 < (entry >>> 8) % 16
  · have henough := enough_sees h hready hlen
    have hthere : checked = true ∧ r.nbits < ((entry >>> 8) % 16 : Nat) ↔ size < (entry >>> 8) % 16 := by
      constructor
      · rintro ⟨-, hless⟩
        omega
      · intro hless
        rcases hchecked with hc | hbits
        · exact ⟨hc, by omega⟩
        · omega
    rw [if_pos hfast, if_pos hfast]
    by_cases hless : size < (entry >>> 8) % 16
    · rw [if_pos (hthere.mpr hless), if_pos hless]
      rfl
    · rw [if_neg (mt hthere.mp hless), if_neg hless]
      rfl
  · rw [if_neg hfast, if_neg hfast, slowScan_sees hshort h hready hchecked (Nat.zero_add _)]

theorem slowOf_some (hshort : dec.Short) {left s : Nat} (hs : s + left = dec.slow_count)
    {y : UInt8} {l : Nat} (h : slowOf dec V size left s = some (y, l)) :
    l ≤ huffMaxCodeLen ∧ l ≤ size := by
  induction left generalizing s with
  | zero => cases h
  | succ left ih =>
      rw [slowOf] at h
      by_cases hmatch : dec.slow_len s ≤ size ∧ V % 2 ^ dec.slow_len s = dec.slow_code s
      · rw [if_pos hmatch] at h
        obtain ⟨-, rfl⟩ := Prod.mk.inj (Option.some.inj h)
        exact ⟨hshort s (by omega), hmatch.1⟩
      · rw [if_neg hmatch] at h
        exact ih (by omega) h

/-- A symbol takes bits that are there, and no more than a code may have. -/
theorem symbolOf_some (hshort : dec.Short) {y : UInt8} {l : Nat}
    (h : symbolOf dec V size = some (y, l)) : l ≤ huffMaxCodeLen ∧ l ≤ size := by
  rw [symbolOf] at h
  have hlen : (dec.table (V % 2 ^ huffDecodeBits) >>> 8) % 16 ≤ huffMaxCodeLen :=
    Nat.le_of_lt_succ (Nat.mod_lt _ (by decide))
  split at h
  · split at h
    · cases h
    · rename_i hless
      obtain ⟨-, rfl⟩ := Prod.mk.inj (Option.some.inj h)
      exact ⟨hlen, Nat.not_lt.mp hless⟩
  · exact slowOf_some hshort (Nat.zero_add _) h

end Symbols

end Zupt.VaptVupt
