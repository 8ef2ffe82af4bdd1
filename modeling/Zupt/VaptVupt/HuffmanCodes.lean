import Zupt.VaptVupt.HuffmanReader
import Zupt.VaptVupt.HuffmanLengths

/-! # Codes and decode tables

    The codes that `assign_canonical_codes` counts out are the words of the
    canonical code, and `reverse_bits` turns them around.  The decode table finds
    a short code by any bits that it starts, the scan finds a long one, and no two
    codes can be mistaken for each other. -/

namespace Zupt.VaptVupt

open Zupt.Canonical Zupt.Memory Zupt.BitStream

/-! ## `reverse_bits` -/

/-- With room in 16 bits the loop appends the turned code. -/
theorem reverseBits_eq {k c r : Nat} (h : (r + 1) * 2 ^ k ≤ 65536) :
    reverseBits k c r = r * 2 ^ k + rev k c := by
  induction k generalizing c r with
  | zero =>
      rw [reverseBits, rev]
      omega
  | succ k ih =>
      have hbit : c % 2 < 2 := Nat.mod_lt _ Nat.two_pos
      have hnext : r <<< 1 ||| c % 2 = 2 * r + c % 2 := by
        rw [Nat.shiftLeft_eq, Nat.mul_comm]
        exact (Nat.two_pow_add_eq_or_of_lt (i := 1) hbit r).symm
      have hpow : 2 ^ (k + 1) = 2 * 2 ^ k := Nat.pow_succ'
      rw [hpow] at h
      have hroom : (2 * r + c % 2 + 1) * 2 ^ k ≤ 65536 := by
        calc (2 * r + c % 2 + 1) * 2 ^ k ≤ (2 * r + 2) * 2 ^ k := Nat.mul_le_mul_right _ (by omega)
          _ = (r + 1) * (2 * 2 ^ k) := by ring
          _ ≤ 65536 := h
      have hsmall : 2 * r + c % 2 < 65536 := by
        have hone : 2 * r + c % 2 + 1 ≤ (2 * r + c % 2 + 1) * 2 ^ k :=
          Nat.le_mul_of_pos_right _ (Nat.two_pow_pos k)
        omega
      rw [reverseBits, hnext, Nat.mod_eq_of_lt hsmall, ih hroom, rev, hpow]
      ring

theorem reverseBits_rev {k : Nat} (hk : k ≤ huffMaxCodeLen) (c : Nat) :
    reverseBits k c 0 = rev k c := by
  have hpow : 2 ^ k ≤ 2 ^ 15 := Nat.pow_le_pow_right Nat.two_pos hk
  rw [reverseBits_eq (by omega), Nat.zero_mul, Nat.zero_add]

/-! ## Canonical codes -/

/-- Code lengths a decoder can meet that make up a prefix code. -/
structure PrefixLengths (lengths : CodeLengths) : Prop where
  short : ∀ i, lengths i ≤ huffMaxCodeLen
  kraft : kraft lengths huffMaxCodeLen 256 ≤ 2 ^ huffMaxCodeLen

theorem GoodLengths.prefixLengths {occurs : Nat → Prop} {lengths : CodeLengths}
    (h : GoodLengths occurs lengths) : PrefixLengths lengths := ⟨h.short, h.kraft⟩

section Codes

variable {lengths : CodeLengths}

theorem pow_le_cap {l : Nat} (hl : l ≤ huffMaxCodeLen) : 2 ^ l ≤ 32768 :=
  Nat.pow_le_pow_right Nat.two_pos hl

/-- No first code is cut to 16 bits. -/
theorem firstCode_eq (h : PrefixLengths lengths) {l : Nat} (hl : l ≤ huffMaxCodeLen) :
    firstCode lengths l = first lengths 256 l := by
  induction l with
  | zero => rfl
  | succ l ih =>
      rw [firstCode, first, ih (by omega)]
      have hfits := first_add_rank_le h.kraft (Nat.succ_pos l) hl
      rw [first] at hfits
      have hpow := pow_le_cap hl
      by_cases hzero : l = 0
      · have hnone : ∀ n, blCount lengths 0 n = 0 := by
          intro n
          induction n with
          | zero => rfl
          | succ n ih => rw [blCount, ih, if_neg (by omega)]
        rw [hzero, hnone, if_pos rfl]
        rfl
      · rw [if_neg hzero] at hfits ⊢
        rw [blCount_eq_rank lengths (by omega)]
        refine Nat.mod_eq_of_lt ?_
        omega

/-- **THE CODES** of the first symbols, and the next code of each length. -/
theorem canonicalCodes_spec (h : PrefixLengths lengths) {n : Nat} (hn : n ≤ 256) :
    (∀ i < n, 0 < lengths i → (canonicalCodes lengths n).1 i = word lengths 256 i) ∧
    ∀ l, 1 ≤ l → l ≤ huffMaxCodeLen →
      (canonicalCodes lengths n).2 l = first lengths 256 l + rank lengths l n := by
  induction n with
  | zero =>
      refine ⟨fun i hi => absurd hi (Nat.not_lt_zero i), ?_⟩
      intro l _ hl
      exact firstCode_eq h hl
  | succ n ih =>
      obtain ⟨hcodes, hnext⟩ := ih (by omega)
      rw [canonicalCodes]
      by_cases hpos : 0 < lengths n
      · have hword := hnext (lengths n) hpos (h.short n)
        have hfits := first_add_rank_le h.kraft hpos (h.short n)
        have hrise : rank lengths (lengths n) n < rank lengths (lengths n) 256 := rank_lt hn
        have hpow := pow_le_cap (h.short n)
        rw [if_pos hpos]
        dsimp only
        constructor
        · intro i hi hcoded
          by_cases hlast : i = n
          · rw [hlast, Function.update_self, hword, word]
          · rw [Function.update_of_ne hlast]
            exact hcodes i (by omega) hcoded
        · intro l hl hle
          rw [rank]
          by_cases hsame : l = lengths n
          · rw [hsame, Function.update_self, hword, if_pos rfl, Nat.mod_eq_of_lt (by omega),
              Nat.add_assoc]
          · rw [Function.update_of_ne hsame, if_neg (Ne.symm hsame), Nat.add_zero]
            exact hnext l hl hle
      · rw [if_neg hpos]
        dsimp only
        constructor
        · intro i hi hcoded
          have hlast : i ≠ n := by
            rintro rfl
            exact hpos hcoded
          rw [Function.update_of_ne hlast]
          exact hcodes i (by omega) hcoded
        · intro l hl hle
          rw [rank, if_neg (by omega), Nat.add_zero]
          exact hnext l hl hle

/-- What the tables of both sides hold for a symbol. -/
theorem reverseBits_code (h : PrefixLengths lengths) {i : Nat} (hi : i < 256)
    (hpos : 0 < lengths i) :
    reverseBits (lengths i) ((canonicalCodes lengths 256).1 i) 0 = turned lengths 256 i := by
  rw [reverseBits_rev (h.short i), (canonicalCodes_spec h (Nat.le_refl 256)).1 i hi hpos, turned]

end Codes

/-! ## The decode table -/

/-- The entries of a short code are those that it starts. -/
theorem fillFast_apply {rev len sym : Nat} (table : Mem Nat) (hrev : rev < 2 ^ len) (fill i : Nat) :
    fillFast rev len sym table fill i =
      if i % 2 ^ len = rev ∧ i / 2 ^ len < fill then sym ||| len <<< 8 else table i := by
  refine filled_apply rfl (fun j => ?_) hrev fill i
  rw [fillFast, or_shiftLeft hrev j]

/-- What the table holds of the first `n` symbols. -/
structure TableOf (lengths : CodeLengths) (n : Nat) (dec : HuffTable) : Prop where
  /-- The bits of a short code lead to its symbol. -/
  fast : ∀ i < n, 0 < lengths i → lengths i ≤ huffDecodeBits → ∀ x < 2 ^ huffDecodeBits,
    x % 2 ^ lengths i = turned lengths 256 i → dec.table x = i ||| lengths i <<< 8
  /-- Other bits lead nowhere. -/
  none : ∀ x < 2 ^ huffDecodeBits,
    (∀ i < n, 0 < lengths i → lengths i ≤ huffDecodeBits → x % 2 ^ lengths i ≠ turned lengths 256 i) →
      dec.table x = 0
  /-- A long code is listed. -/
  listed : ∀ i < n, huffDecodeBits < lengths i → ∃ s < dec.slow_count,
    dec.slow_code s = turned lengths 256 i ∧ dec.slow_len s = lengths i ∧ dec.slow_sym s = UInt8.ofNat i
  /-- And nothing else is. -/
  only : ∀ s < dec.slow_count, ∃ i < n, huffDecodeBits < lengths i ∧
    dec.slow_code s = turned lengths 256 i ∧ dec.slow_len s = lengths i ∧ dec.slow_sym s = UInt8.ofNat i

section Table

variable {lengths : CodeLengths}

theorem addCode_spec (h : PrefixLengths lengths) {n : Nat} (hn : n < 256) {dec : HuffTable}
    (htable : TableOf lengths n dec) :
    TableOf lengths (n + 1) (addCode dec n (lengths n)
      (reverseBits (lengths n) ((canonicalCodes lengths 256).1 n) 0)) := by
  have hbelow : ∀ {i}, i < n + 1 → i ≠ n → i < n := fun hi hne => by omega
  rw [addCode]
  by_cases hzero : lengths n = 0
  · rw [if_pos hzero]
    have hnot : ∀ {i}, 0 < lengths i → i ≠ n := by
      rintro i hpos rfl
      omega
    refine ⟨?_, ?_, ?_, ?_⟩
    · intro i hi hpos
      exact htable.fast i (hbelow hi (hnot hpos)) hpos
    · intro x hx hno
      exact htable.none x hx fun i hi => hno i (Nat.lt_succ_of_lt hi)
    · intro i hi hlong
      exact htable.listed i (hbelow hi (hnot (by omega))) hlong
    · intro s hs
      obtain ⟨i, hi, hrest⟩ := htable.only s hs
      exact ⟨i, Nat.lt_succ_of_lt hi, hrest⟩
  rw [if_neg hzero, reverseBits_code h hn (Nat.pos_of_ne_zero hzero)]
  by_cases hshort : lengths n ≤ huffDecodeBits
  · rw [if_pos hshort]
    -- an entry of this code is one within the table that the code starts
    have hfill : ∀ x < 2 ^ huffDecodeBits,
        fillFast (turned lengths 256 n) (lengths n) n dec.table (2 ^ (huffDecodeBits - lengths n)) x =
          if x % 2 ^ lengths n = turned lengths 256 n then n ||| lengths n <<< 8 else dec.table x := by
      intro x hx
      have hquot : x / 2 ^ lengths n < 2 ^ (huffDecodeBits - lengths n) := by
        refine Nat.div_lt_of_lt_mul ?_
        rw [← Nat.pow_add, Nat.add_sub_cancel' hshort]
        exact hx
      rw [fillFast_apply _ (turned_lt n)]
      by_cases hstarts : x % 2 ^ lengths n = turned lengths 256 n
      · rw [if_pos ⟨hstarts, hquot⟩, if_pos hstarts]
      · rw [if_neg fun hboth => hstarts hboth.1, if_neg hstarts]
    refine ⟨?_, ?_, ?_, ?_⟩
    · intro i hi hpos hle x hx hstarts
      dsimp only
      rw [hfill x hx]
      by_cases hlast : i = n
      · rw [hlast] at hstarts
        rw [if_pos hstarts, hlast]
      · rw [if_neg fun hn' => hlast (turned_unique (fun i _ => h.short i) h.kraft (by omega) hn hpos (Nat.pos_of_ne_zero hzero)
          hstarts hn')]
        exact htable.fast i (hbelow hi hlast) hpos hle x hx hstarts
    · intro x hx hno
      dsimp only
      rw [hfill x hx, if_neg (hno n (Nat.lt_succ_self n) (Nat.pos_of_ne_zero hzero) hshort)]
      exact htable.none x hx fun i hi => hno i (Nat.lt_succ_of_lt hi)
    · intro i hi hlong
      have hlast : i ≠ n := by
        rintro rfl
        omega
      exact htable.listed i (hbelow hi hlast) hlong
    · intro s hs
      obtain ⟨i, hi, hrest⟩ := htable.only s hs
      exact ⟨i, Nat.lt_succ_of_lt hi, hrest⟩
  · rw [if_neg hshort]
    refine ⟨?_, ?_, ?_, ?_⟩
    · intro i hi hpos hle
      have hlast : i ≠ n := by
        rintro rfl
        exact hshort hle
      exact htable.fast i (hbelow hi hlast) hpos hle
    · intro x hx hno
      exact htable.none x hx fun i hi => hno i (Nat.lt_succ_of_lt hi)
    · intro i hi hlong
      by_cases hlast : i = n
      · refine ⟨dec.slow_count, Nat.lt_succ_self _, ?_⟩
        rw [hlast]
        exact ⟨Function.update_self .., Function.update_self .., Function.update_self ..⟩
      · obtain ⟨s, hs, hcode, hlen, hsym⟩ := htable.listed i (hbelow hi hlast) hlong
        have hne : s ≠ dec.slow_count := Nat.ne_of_lt hs
        exact ⟨s, Nat.lt_succ_of_lt hs, (Function.update_of_ne hne ..).trans hcode,
          (Function.update_of_ne hne ..).trans hlen, (Function.update_of_ne hne ..).trans hsym⟩
    · intro s hs
      by_cases hlast : s = dec.slow_count
      · refine ⟨n, Nat.lt_succ_self n, Nat.not_le.mp hshort, ?_⟩
        rw [hlast]
        exact ⟨Function.update_self .., Function.update_self .., Function.update_self ..⟩
      · have hs' : s < dec.slow_count + 1 := hs
        obtain ⟨i, hi, hlong, hcode, hlen, hsym⟩ := htable.only s (by omega)
        exact ⟨i, Nat.lt_succ_of_lt hi, hlong, (Function.update_of_ne hlast ..).trans hcode,
          (Function.update_of_ne hlast ..).trans hlen, (Function.update_of_ne hlast ..).trans hsym⟩

/-- **THE DECODE TABLE** of a prefix code. -/
theorem buildDecTable_spec (h : PrefixLengths lengths) (workspace : HuffTable) :
    TableOf lengths 256 (buildDecTable lengths workspace) := by
  have hall : ∀ n ≤ 256, TableOf lengths n (addCodes lengths
      { workspace with
        table := fun i => if i < 2 ^ huffDecodeBits then 0 else workspace.table i
        slow_count := 0 } n) := by
    intro n
    induction n with
    | zero =>
        intro _
        refine ⟨?_, ?_, ?_, ?_⟩
        · intro i hi
          exact absurd hi (Nat.not_lt_zero i)
        · intro x hx _
          exact if_pos hx
        · intro i hi
          exact absurd hi (Nat.not_lt_zero i)
        · intro s hs
          exact absurd hs (Nat.not_lt_zero s)
    | succ n ih =>
        intro hn
        exact addCode_spec h hn (ih (by omega))
  exact hall 256 (Nat.le_refl _)

/-- No table lists a code that is longer than a code may be. -/
theorem buildDecTable_short (hshort : ∀ i, lengths i ≤ huffMaxCodeLen) (workspace : HuffTable) :
    (buildDecTable lengths workspace).Short := by
  have hall : ∀ (dec : HuffTable), dec.Short → ∀ n, (addCodes lengths dec n).Short := by
    intro dec hdec n
    induction n with
    | zero => exact hdec
    | succ n ih =>
        rw [addCodes, addCode]
        split
        · exact ih
        split
        · exact ih
        · intro s hs
          have hs' : s < (addCodes lengths dec n).slow_count + 1 := hs
          show Function.update (addCodes lengths dec n).slow_len _ _ s ≤ _
          by_cases hlast : s = (addCodes lengths dec n).slow_count
          · rw [hlast, Function.update_self]
            exact hshort n
          · rw [Function.update_of_ne hlast]
            exact ih s (by omega)
  exact hall _ (fun s hs => absurd hs (Nat.not_lt_zero s)) 256

end Table

/-! ## Symbols -/

section Symbols

variable {lengths : CodeLengths} {dec : HuffTable} {V size i : Nat}

/-- The scan finds what is listed and starts the bits, if nothing else does. -/
theorem slowOf_eq {s0 : Nat} (hsize : dec.slow_len s0 ≤ size)
    (hstarts : V % 2 ^ dec.slow_len s0 = dec.slow_code s0)
    (honly : ∀ s < dec.slow_count, V % 2 ^ dec.slow_len s = dec.slow_code s →
      dec.slow_sym s = dec.slow_sym s0 ∧ dec.slow_len s = dec.slow_len s0)
    {left s : Nat} (hs : s ≤ s0) (hs0 : s0 < s + left) (hcount : s + left = dec.slow_count) :
    slowOf dec V size left s = some (dec.slow_sym s0, dec.slow_len s0) := by
  induction left generalizing s with
  | zero => omega
  | succ left ih =>
      rw [slowOf]
      by_cases hmatch : dec.slow_len s ≤ size ∧ V % 2 ^ dec.slow_len s = dec.slow_code s
      · obtain ⟨hsym, hlen⟩ := honly s (by omega) hmatch.2
        rw [if_pos hmatch, hsym, hlen]
      · have hne : s ≠ s0 := by
          rintro rfl
          exact hmatch ⟨hsize, hstarts⟩
        rw [if_neg hmatch]
        exact ih (by omega) (by omega) (by omega)

/-- **THE SYMBOL** whose code starts the bits is what the table finds. -/
theorem symbolOf_code (h : PrefixLengths lengths) (htable : TableOf lengths 256 dec) (hi : i < 256)
    (hpos : 0 < lengths i) (hsize : lengths i ≤ size) (hstarts : V % 2 ^ lengths i = turned lengths 256 i) :
    symbolOf dec V size = some (UInt8.ofNat i, lengths i) := by
  have hx : V % 2 ^ huffDecodeBits < 2 ^ huffDecodeBits := Nat.mod_lt _ (Nat.two_pow_pos _)
  have hmod : ∀ {l}, l ≤ huffDecodeBits → V % 2 ^ huffDecodeBits % 2 ^ l = V % 2 ^ l :=
    fun hl => Nat.mod_mod_of_dvd _ (Nat.pow_dvd_pow 2 hl)
  rw [symbolOf]
  by_cases hshort : lengths i ≤ huffDecodeBits
  · have hle := h.short i
    rw [huffMaxCodeLen] at hle
    have hentry := htable.fast i hi hpos hshort _ hx (by rw [hmod hshort]; exact hstarts)
    have hsum : i ||| lengths i <<< 8 = i + 2 ^ 8 * lengths i := or_shiftLeft hi _
    have hlow : (i + 2 ^ 8 * lengths i) % 256 = i := by omega
    have hhigh : (i + 2 ^ 8 * lengths i) >>> 8 % 16 = lengths i := by
      rw [Nat.shiftRight_eq_div_pow]
      omega
    rw [hentry, hsum, hhigh, if_pos hpos, if_neg (Nat.not_lt.mpr hsize), hlow]
  · have hnone := htable.none _ hx fun j hj hposj hshortj hstartsj => by
      rw [hmod hshortj] at hstartsj
      have hsame := turned_unique (fun i _ => h.short i) h.kraft hi hj hpos hposj hstarts hstartsj
      rw [hsame] at hshort
      exact hshort hshortj
    rw [hnone]
    obtain ⟨s0, hs0, hcode, hlen, hsym⟩ := htable.listed i hi (Nat.not_le.mp hshort)
    have honly : ∀ s < dec.slow_count, V % 2 ^ dec.slow_len s = dec.slow_code s →
        dec.slow_sym s = dec.slow_sym s0 ∧ dec.slow_len s = dec.slow_len s0 := by
      intro s hs hmatch
      obtain ⟨j, hj, hlongj, hcodej, hlenj, hsymj⟩ := htable.only s hs
      rw [hlenj, hcodej] at hmatch
      have hsame := turned_unique (fun i _ => h.short i) h.kraft hi hj hpos (by omega) hstarts hmatch
      rw [hsymj, hlenj, hsym, hlen, hsame]
      exact ⟨rfl, rfl⟩
    have hscan : slowOf dec V size dec.slow_count 0 = some (dec.slow_sym s0, dec.slow_len s0) :=
      slowOf_eq (by rw [hlen]; exact hsize) (by rw [hlen, hcode]; exact hstarts) honly
        (Nat.zero_le s0) (by omega) (Nat.zero_add _)
    rw [hsym, hlen] at hscan
    exact hscan

end Symbols

end Zupt.VaptVupt
