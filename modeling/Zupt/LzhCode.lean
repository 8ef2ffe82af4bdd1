import Zupt.LzhTree
import Zupt.VaptVupt.HuffmanLengths
import Zupt.BitStream

/-! # The codes of Zupt-LZH

    The redistribution takes back exactly what the clamping took too much, so the
    lengths make up a prefix code, the codes are its words turned around, and the
    table of the decoder finds each symbol by any bits that its code starts. -/

namespace Zupt.Lzh

open Zupt.Canonical Zupt.VaptVupt Zupt.BitStream Finset

/-! ## Counts -/

section Counts

variable {dp : Nat → Nat} {ns : Nat}

theorem lengthCount_eq_rank (dp : Nat → Nat) (ns : Nat) {b : Nat} (hb : 1 ≤ b) :
    lengthCount dp ns b = rank dp b ns := blCount_eq_rank dp hb ns

theorem weigh_lengthCount (w : Nat → Nat) (dp : Nat → Nat) (ns : Nat) :
    weigh w (fun b => lengthCount dp ns b) maxCodelen =
      ∑ i ∈ range ns, if 1 ≤ dp i ∧ dp i ≤ maxCodelen then w (dp i) else 0 := by
  rw [← weigh_rank]
  exact weigh_congr fun b hb _ => lengthCount_eq_rank dp ns hb

/-- The counts make the same sum as the lengths. -/
theorem countsKraft_lengthCount (hshort : ∀ i < ns, dp i ≤ maxCodelen) :
    Lzh.countsKraft (fun b => lengthCount dp ns b) = kraft dp maxCodelen ns := by
  rw [Lzh.countsKraft, weigh_lengthCount, kraft_eq_sum]
  refine sum_congr rfl fun i hi => ?_
  have hle := hshort i (mem_range.mp hi)
  by_cases hzero : dp i = 0
  · rw [if_pos hzero, if_neg (by omega)]
  · rw [if_neg hzero, if_pos (by omega)]

/-- The symbols with a code. -/
def codedSyms (dp : Nat → Nat) (ns : Nat) : List Nat := (List.range ns).filter fun i => 0 < dp i

theorem mem_codedSyms {i : Nat} : i ∈ codedSyms dp ns ↔ i < ns ∧ 0 < dp i := by
  rw [codedSyms, List.mem_filter, List.mem_range, decide_eq_true_iff]

theorem codedSyms_length_le (dp : Nat → Nat) (ns : Nat) : (codedSyms dp ns).length ≤ ns := by
  refine (List.length_filter_le _ _).trans ?_
  rw [List.length_range]

theorem weigh_one_lengthCount (hshort : ∀ i < ns, dp i ≤ maxCodelen) :
    weigh (fun _ => 1) (fun b => lengthCount dp ns b) maxCodelen = (codedSyms dp ns).length := by
  rw [weigh_lengthCount, codedSyms, length_filter_range]
  refine sum_congr rfl fun i hi => ?_
  have hle := hshort i (mem_range.mp hi)
  by_cases hpos : 0 < dp i
  · rw [if_pos ⟨hpos, hle⟩, if_pos (decide_eq_true hpos)]
  · rw [if_neg fun h => hpos h.1, if_neg (by simpa using hpos)]

theorem lengthCount_deepest (dp : Nat → Nat) (ns : Nat) :
    lengthCount dp ns maxCodelen = ∑ i ∈ range ns, deep (dp i) := by
  rw [lengthCount_eq_rank dp ns (by decide)]
  induction ns with
  | zero => rfl
  | succ n ih => rw [rank, ih, sum_range_succ]; rfl

end Counts

/-! ## The redistribution -/

theorem weigh_splitCode (w : Nat → Nat) {lc : Nat → Nat} {b : Nat} (hb : 1 ≤ b) (hlow : b < maxCodelen)
    (hpos : 0 < lc b) (hdeep : 0 < lc maxCodelen) :
    weigh w (splitCode lc b) maxCodelen + w b + w maxCodelen =
      weigh w lc maxCodelen + 2 * w (b + 1) := by
  have htake := weigh_update w lc hb hlow.le (lc b - 1)
  have hsplit := weigh_update w (Function.update lc b (lc b - 1)) (Nat.le_add_left 1 b) hlow
    (Function.update lc b (lc b - 1) (b + 1) + 2)
  have hlast := weigh_update w (Function.update (Function.update lc b (lc b - 1)) (b + 1)
    (Function.update lc b (lc b - 1) (b + 1) + 2)) (show 1 ≤ maxCodelen by decide)
    (Nat.le_refl maxCodelen) (Function.update (Function.update lc b (lc b - 1)) (b + 1)
    (Function.update lc b (lc b - 1) (b + 1) + 2) maxCodelen - 1)
  have hthere : 0 < Function.update (Function.update lc b (lc b - 1)) (b + 1)
      (Function.update lc b (lc b - 1) (b + 1) + 2) maxCodelen := by
    by_cases hnext : maxCodelen = b + 1
    · rw [hnext, Function.update_self]
      exact Nat.succ_pos _
    · rw [Function.update_of_ne hnext, Function.update_of_ne (Nat.ne_of_gt hlow)]
      exact hdeep
  have hone : ∀ {x y : Nat}, 0 < x → (x - 1) * y + y = x * y := by
    intro x y hx
    rw [← Nat.succ_mul, Nat.succ_eq_add_one, Nat.sub_add_cancel hx]
  have hfirst := hone (y := w b) hpos
  have hthird := hone (y := w maxCodelen) hthere
  rw [Nat.add_mul] at hsplit
  rw [splitCode]
  omega

/-- **ONE TURN** keeps the number of symbols, takes one unit back and leaves as many
    of the deepest codes as are still needed. -/
theorem splitCode_spec {lc : Nat → Nat} {surplus : Nat}
    (htotal : weigh (fun _ => 1) lc maxCodelen ≤ 2 ^ maxCodelen)
    (hkraft : Lzh.countsKraft lc = 2 ^ maxCodelen + (surplus + 1)) (hdeep : surplus + 1 < lc maxCodelen) :
    ∃ b, deepest lc (maxCodelen - 1) = some b ∧
      weigh (fun _ => 1) (splitCode lc b) maxCodelen = weigh (fun _ => 1) lc maxCodelen ∧
      Lzh.countsKraft (splitCode lc b) = 2 ^ maxCodelen + surplus ∧
      surplus < splitCode lc b maxCodelen := by
  cases hfind : deepest lc (maxCodelen - 1) with
  | none =>
      -- all symbols at the deepest level do not fill the space
      have hzero := deepest_none hfind
      have hlast : ∀ w, weigh w lc maxCodelen = lc maxCodelen * w maxCodelen := by
        intro w
        show weigh w lc (maxCodelen - 1) + lc maxCodelen * w maxCodelen = _
        rw [weigh_zero hzero, Nat.zero_add]
      rw [Lzh.countsKraft, hlast, Nat.sub_self, Nat.pow_zero] at hkraft
      rw [hlast] at htotal
      omega
  | some b =>
      obtain ⟨hb, hlow, hpos, -⟩ := deepest_some hfind
      have hlow' : b < maxCodelen := by
        rw [maxCodelen] at hlow ⊢
        omega
      have hcount := weigh_splitCode (fun _ => 1) hb hlow' hpos (by omega)
      have hsum := weigh_splitCode (fun d => 2 ^ (maxCodelen - d)) hb hlow' hpos (by omega)
      have hpow : 2 ^ (maxCodelen - b) = 2 * 2 ^ (maxCodelen - (b + 1)) := by
        rw [← Nat.pow_succ']
        congr 1
        omega
      refine ⟨b, rfl, by omega, ?_, ?_⟩
      · rw [Lzh.countsKraft] at hkraft ⊢
        rw [hpow, Nat.sub_self, Nat.pow_zero] at hsum
        omega
      · rw [splitCode, Function.update_self]
        by_cases hnext : maxCodelen = b + 1
        · rw [hnext, Function.update_self, ← hnext, Function.update_of_ne (Nat.ne_of_gt hlow')]
          omega
        · rw [Function.update_of_ne hnext, Function.update_of_ne (Nat.ne_of_gt hlow')]
          omega

/-- **THE LOOP** fills the space exactly. -/
theorem splitLoop_spec {lc : Nat → Nat} {surplus : Nat}
    (htotal : weigh (fun _ => 1) lc maxCodelen ≤ 2 ^ maxCodelen)
    (hkraft : Lzh.countsKraft lc = 2 ^ maxCodelen + surplus)
    (hdeep : 0 < surplus → surplus < lc maxCodelen) :
    weigh (fun _ => 1) (splitLoop surplus lc) maxCodelen = weigh (fun _ => 1) lc maxCodelen ∧
      Lzh.countsKraft (splitLoop surplus lc) = 2 ^ maxCodelen := by
  induction surplus generalizing lc with
  | zero => exact ⟨rfl, hkraft⟩
  | succ surplus ih =>
      obtain ⟨b, hfind, hcount, hnext, hleft⟩ := splitCode_spec htotal hkraft (hdeep (Nat.succ_pos _))
      have hrest := ih (hcount.trans_le htotal) hnext fun _ => hleft
      rw [splitLoop, hfind]
      exact ⟨hrest.1.trans hcount, hrest.2⟩

/-! ## Lengths -/

/-- The lengths make up a prefix code of the symbols that occur. -/
structure GoodLens (freq : Nat → Nat) (ns : Nat) (dp : Nat → Nat) : Prop where
  short : ∀ i < ns, dp i ≤ maxCodelen
  coded : ∀ i < ns, 0 < dp i ↔ 0 < freq i
  kraft : kraft dp maxCodelen ns ≤ 2 ^ maxCodelen

section Lengths

variable {freq : Nat → Nat} {ns : Nat}

/-- The depths of the heap: of the symbols that occur, and with a surplus that the
    deepest leaves can make up for. -/
theorem heapDepths_clamped (hmany : 1 < (active freq ns).length) :
    (∀ i < ns, heapDepths freq ns i ≤ maxCodelen) ∧
    (∀ i, 0 < heapDepths freq ns i ↔ i ∈ active freq ns) ∧
    kraft (heapDepths freq ns) maxCodelen ns + (if lengthCount (heapDepths freq ns) ns maxCodelen = 0
      then 0 else 1) ≤ 2 ^ maxCodelen + lengthCount (heapDepths freq ns) ns maxCodelen := by
  obtain ⟨l, r, hperm, hdepths⟩ := heapDepths_spec hmany
  have hlen := (Tree.node l r).depths_length 0
  have hvals : ∀ v ∈ (Tree.node l r).depths 0, 1 ≤ v ∧ v ≤ maxCodelen := by
    intro v hv
    rcases List.mem_append.mp hv with hmem | hmem
    · have hin := Tree.depths_mem hmem
      rw [maxCodelen] at hin ⊢
      omega
    · have hin := Tree.depths_mem hmem
      rw [maxCodelen] at hin ⊢
      omega
  have hgiven : ∀ i ∈ (Tree.node l r).leaves,
      1 ≤ heapDepths freq ns i ∧ heapDepths freq ns i ≤ maxCodelen := by
    intro i hi
    rw [hdepths]
    exact hvals _ (give_mem hi hlen.ge _)
  have hnone : ∀ i ∉ (Tree.node l r).leaves, heapDepths freq ns i = 0 := by
    intro i hi
    rw [hdepths]
    exact give_of_notMem hi _ _
  refine ⟨?_, ?_, ?_⟩
  · intro i _
    by_cases hi : i ∈ (Tree.node l r).leaves
    · exact (hgiven i hi).2
    · rw [hnone i hi]
      exact Nat.zero_le _
  · intro i
    rw [← hperm.mem_iff]
    by_cases hi : i ∈ (Tree.node l r).leaves
    · exact iff_of_true (hgiven i hi).1 hi
    · rw [hnone i hi]
      exact iff_of_false (Nat.lt_irrefl 0) hi
  · have hnodup := hperm.nodup_iff.mpr (active_nodup freq ns)
    have hin : ∀ s ∈ (Tree.node l r).leaves, s < ns :=
      fun s hs => (mem_active.mp (hperm.mem_iff.mp hs)).1
    have hsum : kraft (heapDepths freq ns) maxCodelen ns =
        (((Tree.node l r).depths 0).map (share maxCodelen)).sum := by
      rw [hdepths]
      exact kraft_give hnodup hin hlen fun _ _ => rfl
    have hdeepest : lengthCount (heapDepths freq ns) ns maxCodelen =
        (((Tree.node l r).depths 0).map deep).sum := by
      have hgive := sum_give (g := deep) (fun _ => 0) hnodup hin hlen
      rw [lengthCount_deepest, hdepths]
      simpa [deep, maxCodelen] using hgive
    rw [hsum, hdeepest]
    exact (Tree.node l r).clamped (Nat.zero_le _)

/-- The surplus of the clamped depths, and what the deepest level can make up for. -/
theorem heapDepths_surplus (hmany : 1 < (active freq ns).length)
    (hover : 2 ^ maxCodelen < Lzh.countsKraft fun b => lengthCount (heapDepths freq ns) ns b) :
    Lzh.countsKraft (fun b => lengthCount (heapDepths freq ns) ns b) - 2 ^ maxCodelen <
      lengthCount (heapDepths freq ns) ns maxCodelen := by
  obtain ⟨hshort, -, hclamped⟩ := heapDepths_clamped hmany
  have hcounts := countsKraft_lengthCount hshort
  have hsurplus : lengthCount (heapDepths freq ns) ns maxCodelen ≠ 0 := by
    intro hzero
    rw [if_pos hzero] at hclamped
    omega
  rw [if_neg hsurplus] at hclamped
  omega

/-- The depths are of the symbols that occur. -/
theorem heapDepths_occurs (hmany : 1 < (active freq ns).length) :
    ∀ i < ns, 0 < heapDepths freq ns i ↔ 0 < freq i := by
  obtain ⟨-, hcoded, -⟩ := heapDepths_clamped hmany
  intro i hi
  rw [hcoded, mem_active]
  exact and_iff_right hi

/-- The number of the symbols with a depth is one that fits. -/
theorem heapDepths_total (hns : ns ≤ 2 ^ maxCodelen) (hmany : 1 < (active freq ns).length) :
    weigh (fun _ => 1) (fun b => lengthCount (heapDepths freq ns) ns b) maxCodelen ≤ 2 ^ maxCodelen := by
  obtain ⟨hshort, -, -⟩ := heapDepths_clamped hmany
  exact (weigh_one_lengthCount hshort).trans_le ((codedSyms_length_le _ ns).trans hns)

/-- **THE REDISTRIBUTION** fills the space exactly. -/
theorem redistribute_over (hns : ns ≤ 2 ^ maxCodelen) (hmany : 1 < (active freq ns).length)
    (hover : 2 ^ maxCodelen < Lzh.countsKraft fun b => lengthCount (heapDepths freq ns) ns b) :
    (∀ i < ns, redistribute true freq (heapDepths freq ns) ns i ≤ maxCodelen) ∧
    (∀ i < ns, 0 < redistribute true freq (heapDepths freq ns) ns i ↔ 0 < freq i) ∧
    kraft (redistribute true freq (heapDepths freq ns) ns) maxCodelen ns = 2 ^ maxCodelen := by
  have hsurplus := heapDepths_surplus hmany hover
  have hoccurs := heapDepths_occurs hmany
  have hfits := heapDepths_total hns hmany
  obtain ⟨hshort, hcoded, -⟩ := heapDepths_clamped hmany
  rw [redistribute]
  generalize heapDepths freq ns = dp at *
  have htotal := weigh_one_lengthCount hshort
  rw [if_pos hover, if_pos rfl]
  obtain ⟨hcount, hfull⟩ := splitLoop_spec hfits
    (Nat.add_sub_cancel' hover.le).symm fun _ => hsurplus
  generalize splitLoop _ _ = lc at hcount hfull ⊢
  have hperm : (sorted freq dp ns).Perm (codedSyms dp ns) := List.perm_insertionSort _ _
  have hmem : ∀ i, i ∈ sorted freq dp ns ↔ i < ns ∧ 0 < dp i :=
    fun i => hperm.mem_iff.trans mem_codedSyms
  have hsyms : weigh (fun _ => 1) lc maxCodelen = (sorted freq dp ns).length := by
    rw [hcount, htotal, hperm.length_eq]
  have hnone : ∀ i ∉ sorted freq dp ns, dp i = 0 := by
    intro i hi
    by_contra hpos
    have hin := (mem_active.mp ((hcoded i).mp (Nat.pos_of_ne_zero hpos))).1
    exact hi ((hmem i).mpr ⟨hin, Nat.pos_of_ne_zero hpos⟩)
  refine ⟨?_, ?_, ?_⟩
  · intro i _
    by_cases hi : i ∈ sorted freq dp ns
    · exact (give_spread_mem hsyms hi).2
    · rw [give_of_notMem hi, hnone i hi]
      exact Nat.zero_le _
  · intro i hi
    rw [← hoccurs i hi]
    by_cases hs : i ∈ sorted freq dp ns
    · exact iff_of_true (give_spread_mem hsyms hs).1 ((hmem i).mp hs).2
    · rw [give_of_notMem hs]
  · rw [kraft_give_spread (hperm.nodup_iff.mpr (List.nodup_range.filter _))
      (fun s hs => ((hmem s).mp hs).1) hsyms hnone]
    exact hfull

/-- **THE LENGTHS** of several symbols make up a prefix code, if the redistribution
    is not needed or has its list. -/
theorem redistribute_good {ok : Bool} (hns : ns ≤ 2 ^ maxCodelen) (hmany : 1 < (active freq ns).length)
    (hok : ok = true ∨ Lzh.countsKraft (fun b => lengthCount (heapDepths freq ns) ns b) ≤ 2 ^ maxCodelen) :
    GoodLens freq ns (redistribute ok freq (heapDepths freq ns) ns) := by
  by_cases hover : 2 ^ maxCodelen < Lzh.countsKraft fun b => lengthCount (heapDepths freq ns) ns b
  · obtain ⟨hshort, hcoded, hkraft⟩ := redistribute_over hns hmany hover
    rw [hok.resolve_right (Nat.not_le.mpr hover)]
    exact ⟨hshort, hcoded, hkraft.le⟩
  · have hshort := (heapDepths_clamped hmany).1
    have hcounts := countsKraft_lengthCount hshort
    rw [redistribute, if_neg hover]
    exact ⟨hshort, heapDepths_occurs hmany, hcounts ▸ Nat.not_lt.mp hover⟩

end Lengths

/-! ## Codes -/

/-- The loop over the bits of a code turns it around. -/
theorem turnBits_eq (c bits : Nat) {b : Nat} (hb : b ≤ bits) :
    turnBits c bits b = 2 ^ (bits - b) * rev b c := by
  induction b with
  | zero => rw [turnBits, rev, Nat.mul_zero]
  | succ b ih =>
      have hpow : 2 ^ (bits - b) = 2 ^ (bits - (b + 1)) * 2 := by
        rw [← Nat.pow_succ]
        congr 1
        omega
      have hplace : bits - 1 - b = bits - (b + 1) := by omega
      have hbit : (c / 2 ^ b) % 2 < 2 := Nat.mod_lt _ Nat.two_pos
      have hlow : ((c / 2 ^ b) % 2) <<< (bits - (b + 1)) < 2 ^ (bits - b) := by
        rw [Nat.shiftLeft_eq, hpow, Nat.mul_comm]
        exact Nat.mul_lt_mul_of_pos_left hbit (Nat.two_pow_pos _)
      have hhigh : 2 ^ (bits - b) * rev b c = rev b c <<< (bits - b) := by
        rw [Nat.shiftLeft_eq, Nat.mul_comm]
      rw [turnBits, ih (by omega), hplace, Nat.shiftRight_eq_div_pow, Nat.or_comm, hhigh,
        or_shiftLeft hlow, rev_succ, Nat.shiftLeft_eq, hpow]
      ring

theorem turnBits_rev (c b : Nat) : turnBits c b b = rev b c := by
  rw [turnBits_eq c b (Nat.le_refl b), Nat.sub_self, Nat.pow_zero, Nat.one_mul]

section Codes

variable {dp : Nat → Nat} {ns : Nat}

theorem nextCode_eq (dp : Nat → Nat) (ns b : Nat) : nextCode dp ns b = first dp ns b := by
  induction b with
  | zero => rfl
  | succ b ih =>
      rw [nextCode, first, ih]
      by_cases hzero : b = 0
      · have hnone : ∀ n, blCount dp 0 n = 0 := by
          intro n
          induction n with
          | zero => rfl
          | succ n ih => rw [blCount, ih, if_neg (by omega)]
        rw [hzero, lengthCount, hnone, if_pos rfl]
      · rw [if_neg hzero, lengthCount_eq_rank dp ns (by omega)]

/-- **THE CODES** that are counted out are the words of the canonical code. -/
theorem countCodes_spec (hshort : ∀ i < ns, dp i ≤ maxCodelen)
    (hkraft : kraft dp maxCodelen ns ≤ 2 ^ maxCodelen) {n : Nat} (hn : n ≤ ns) :
    (∀ i < n, 0 < dp i → (countCodes dp ns n).1 i = word dp ns i) ∧
    ∀ l, 1 ≤ l → (countCodes dp ns n).2 l = first dp ns l + rank dp l n := by
  induction n with
  | zero => exact ⟨fun i hi => absurd hi (Nat.not_lt_zero i), fun l _ => nextCode_eq dp ns l⟩
  | succ n ih =>
      obtain ⟨hcodes, hnext⟩ := ih (by omega)
      rw [countCodes]
      by_cases hpos : 0 < dp n
      · have hword := hnext (dp n) hpos
        have hfits := word_lt hkraft (Nat.lt_of_succ_le hn) hpos (hshort n (by omega))
        rw [word] at hfits
        have hpow : 2 ^ dp n ≤ 2 ^ 15 := Nat.pow_le_pow_right Nat.two_pos (hshort n (by omega))
        rw [if_pos hpos]
        dsimp only
        constructor
        · intro i hi hcoded
          by_cases hlast : i = n
          · rw [hlast, Function.update_self, hword, Nat.mod_eq_of_lt (by omega), word]
          · rw [Function.update_of_ne hlast]
            exact hcodes i (by omega) hcoded
        · intro l hl
          rw [rank]
          by_cases hsame : l = dp n
          · rw [hsame, Function.update_self, hword, if_pos rfl, Nat.add_assoc]
          · rw [Function.update_of_ne hsame, if_neg (Ne.symm hsame), Nat.add_zero]
            exact hnext l hl
      · rw [if_neg hpos]
        constructor
        · intro i hi hcoded
          have hlast : i ≠ n := by
            rintro rfl
            exact hpos hcoded
          exact hcodes i (by omega) hcoded
        · intro l hl
          rw [rank, if_neg (by omega), Nat.add_zero]
          exact hnext l hl

end Codes

/-- A code that can be written and read back: its words are turned words of a prefix
    code for the symbols that occur. -/
structure GoodCode (freq : Nat → Nat) (ns : Nat) (c : HCodes) : Prop
    extends GoodLens freq ns c.len where
  inside : ∀ i, ns ≤ i → c.len i = 0
  code : ∀ i < ns, 0 < c.len i → c.code i = turned c.len ns i

/-- What holds of any code, also of one that cannot be read back. -/
structure HCodes.Fits (c : HCodes) : Prop where
  short : ∀ i, c.len i ≤ maxCodelen
  below : ∀ i, c.code i < 2 ^ c.len i

/-- A histogram of one symbol needs no allocation, and one of several needs the list
    of the redistribution only where the depths were clamped too much. -/
def BuildAlloc.Enough (a : BuildAlloc) (freq : Nat → Nat) (ns : Nat) : Prop :=
  (active freq ns).length ≤ 1 ∨ ((a.l && a.r && a.hp) = true ∧ a.dp = true ∧ (a.sorted = true ∨
    Lzh.countsKraft (fun b => lengthCount (heapDepths freq ns) ns b) ≤ 2 ^ maxCodelen))

section Build

variable {a : BuildAlloc} {freq : Nat → Nat} {ns : Nat}

theorem huffBuild_many (hmany : 1 < (active freq ns).length) :
    huffBuild a freq ns =
      if a.l && a.r && a.hp then
        if a.dp then codesOf (redistribute a.sorted freq (heapDepths freq ns) ns) ns
        else ⟨fun _ => 0, fun _ => 0⟩
      else ⟨fun _ => 0, fun _ => 0⟩ := by
  rw [huffBuild]
  match active freq ns, hmany with
  | _ :: _ :: _, _ => rfl

theorem codesOf_good {dp : Nat → Nat} (h : GoodLens freq ns dp) : GoodCode freq ns (codesOf dp ns) := by
  have hsame : ∀ i < ns, (codesOf dp ns).len i = dp i := fun i hi => if_pos hi
  have hword : ∀ i < ns, word (codesOf dp ns).len ns i = word dp ns i ∧
      kraft (codesOf dp ns).len maxCodelen ns = kraft dp maxCodelen ns := by
    intro i hi
    have hrank : ∀ l n, n ≤ ns → rank (codesOf dp ns).len l n = rank dp l n := by
      intro l n hn
      induction n with
      | zero => rfl
      | succ n ih => rw [rank, rank, ih (by omega), hsame n (by omega)]
    have hfirst : ∀ l, first (codesOf dp ns).len ns l = first dp ns l := by
      intro l
      induction l with
      | zero => rfl
      | succ l ih => rw [first, first, ih, hrank l ns (Nat.le_refl _)]
    constructor
    · rw [word, word, hsame i hi, hfirst, hrank _ i hi.le]
    · rw [kraft_eq_share, kraft_eq_share]
      exact sum_congr rfl fun j hj => by rw [hsame j (mem_range.mp hj)]
  refine ⟨⟨?_, ?_, ?_⟩, ?_, ?_⟩
  · intro i hi
    rw [hsame i hi]
    exact h.short i hi
  · intro i hi
    rw [hsame i hi]
    exact h.coded i hi
  · by_cases hns : 0 < ns
    · rw [(hword 0 hns).2]
      exact h.kraft
    · obtain rfl : ns = 0 := by omega
      exact Nat.zero_le _
  · intro i hi
    exact if_neg (Nat.not_lt.mpr hi)
  · intro i hi hpos
    rw [hsame i hi] at hpos
    show (if i < ns ∧ 0 < dp i then _ else 0) = _
    rw [if_pos ⟨hi, hpos⟩, turnBits_rev, (countCodes_spec h.short h.kraft (Nat.le_refl ns)).1 i hi hpos,
      turned, hsame i hi, (hword i hi).1]

/-- **THE CODE** that `huff_build` makes can be read back, if it was not short of
    memory. -/
theorem huffBuild_good (hns : ns ≤ 2 ^ maxCodelen) (ha : a.Enough freq ns) :
    GoodCode freq ns (huffBuild a freq ns) := by
  by_cases hmany : 1 < (active freq ns).length
  · obtain ⟨htree, hdp, hsorted⟩ := ha.resolve_left (Nat.not_le.mpr hmany)
    rw [huffBuild_many hmany, if_pos htree, if_pos hdp]
    exact codesOf_good (redistribute_good hns hmany hsorted)
  · rw [huffBuild]
    cases hact : active freq ns with
    | nil =>
        have hnone : ∀ i < ns, ¬ 0 < freq i := by
          intro i hi hpos
          have hmem := mem_active.mpr ⟨hi, hpos⟩
          rw [hact] at hmem
          cases hmem
        refine ⟨⟨fun _ _ => Nat.zero_le _, fun i hi => ?_, ?_⟩, fun _ _ => rfl, fun i hi hpos => ?_⟩
        · exact iff_of_false (Nat.lt_irrefl 0) (hnone i hi)
        · dsimp only
          rw [kraft_eq_sum]
          simp
        · exact absurd hpos (Nat.lt_irrefl 0)
    | cons s rest =>
        rw [hact] at hmany
        obtain rfl : rest = [] := List.length_eq_zero_iff.mp (by rw [List.length_cons] at hmany; omega)
        have honly : ∀ i, i < ns ∧ 0 < freq i ↔ i = s := by
          intro i
          rw [← mem_active, hact, List.mem_singleton]
        have hs := ((honly s).mpr rfl).1
        have hsum : kraft (give [s] [1] fun _ => 0) maxCodelen ns = 2 ^ 14 :=
          kraft_give (List.nodup_singleton s) (by simpa using hs) rfl fun _ _ => rfl
        refine ⟨⟨fun i _ => ?_, fun i hi => ?_, hsum.le.trans (by decide)⟩, fun i hi => ?_,
          fun i hi hpos => ?_⟩
        · show Function.update (fun _ => 0) s 1 i ≤ _
          by_cases hi : i = s
          · rw [hi, Function.update_self]
            decide
          · rw [Function.update_of_ne hi]
            exact Nat.zero_le _
        · show 0 < Function.update (fun _ => 0) s 1 i ↔ _
          by_cases his : i = s
          · rw [his, Function.update_self]
            exact iff_of_true Nat.one_pos ((honly s).mpr rfl).2
          · rw [Function.update_of_ne his]
            exact iff_of_false (Nat.lt_irrefl 0) fun hpos => his ((honly i).mp ⟨hi, hpos⟩)
        · have his : i ≠ s := by
            rintro rfl
            exact Nat.not_le.mpr hs hi
          show Function.update (fun _ => 0) s 1 i = 0
          rw [Function.update_of_ne his]
        · -- the only word of one bit is 0
          dsimp only at hpos ⊢
          have his : i = s := by
            by_contra hne
            rw [Function.update_of_ne hne] at hpos
            exact Nat.lt_irrefl 0 hpos
          have hrank : rank (Function.update (fun _ => 0) s 1) 1 s = 0 := by
            refine rank_eq_zero fun j hj => ?_
            rw [Function.update_of_ne (Nat.ne_of_lt hj)]
            exact Nat.zero_ne_one
          rw [his, turned, word, Function.update_self, hrank]
          rfl

theorem codesOf_fits (dp : Nat → Nat) (ns : Nat) (hshort : ∀ i < ns, dp i ≤ maxCodelen) :
    (codesOf dp ns).Fits := by
  constructor
  · intro i
    show (if i < ns then dp i else 0) ≤ _
    split
    · rename_i hi
      exact hshort i hi
    · exact Nat.zero_le _
  · intro i
    show (if i < ns ∧ 0 < dp i then _ else 0) < 2 ^ (if i < ns then dp i else 0)
    split
    · rename_i hi
      rw [if_pos hi.1, turnBits_rev]
      exact rev_lt _ _
    · exact Nat.two_pow_pos _

/-- Short of memory or not, the code can be written. -/
theorem huffBuild_fits (hns : ns ≤ 2 ^ maxCodelen) : (huffBuild a freq ns).Fits := by
  have hempty : (HCodes.mk (fun _ => 0) fun _ => 0).Fits :=
    ⟨fun _ => Nat.zero_le _, fun _ => Nat.one_pos⟩
  by_cases hmany : 1 < (active freq ns).length
  · rw [huffBuild_many hmany]
    split
    · split
      · refine codesOf_fits _ _ ?_
        cases hok : a.sorted with
        | true => exact (redistribute_good hns hmany (Or.inl rfl)).short
        | false =>
            have hsame : redistribute false freq (heapDepths freq ns) ns = heapDepths freq ns := by
              rw [redistribute]
              split
              · rfl
              · rfl
            rw [hsame]
            exact (heapDepths_clamped hmany).1
      · exact hempty
    · exact hempty
  · have hgood : GoodCode freq ns (huffBuild a freq ns) :=
      huffBuild_good hns (Or.inl (Nat.not_lt.mp hmany))
    constructor
    · intro i
      by_cases hi : i < ns
      · exact hgood.short i hi
      · rw [hgood.inside i (Nat.not_lt.mp hi)]
        exact Nat.zero_le _
    · intro i
      rw [huffBuild]
      match active freq ns, hmany with
      | [], _ => exact Nat.one_pos
      | [_], _ => exact Nat.two_pow_pos _
      | _ :: _ :: _, hmany => exact absurd (by simp) hmany

end Build

/-! ## The decoder's table -/

/-- What the table holds of the first `n` symbols. -/
structure LutOf (lengths : Nat → Nat) (ns n : Nat) (lut : Nat → Option (Nat × Nat)) : Prop where
  /-- The bits of a code lead to its symbol. -/
  code : ∀ i < n, 0 < lengths i → ∀ x < 2 ^ maxCodelen, x % 2 ^ lengths i = turned lengths ns i →
    lut x = some (i, lengths i)
  /-- Other bits lead nowhere. -/
  none : ∀ x < 2 ^ maxCodelen,
    (∀ i < n, 0 < lengths i → x % 2 ^ lengths i ≠ turned lengths ns i) → lut x = none

theorem fillLut_apply {rev bits sym : Nat} (lut : Nat → Option (Nat × Nat)) (hrev : rev < 2 ^ bits)
    (fill x : Nat) :
    fillLut rev bits sym lut fill x =
      if x % 2 ^ bits = rev ∧ x / 2 ^ bits < fill then some (sym, bits) else lut x := by
  refine filled_apply rfl (fun j => ?_) hrev fill x
  rw [fillLut, or_shiftLeft hrev j]

/-- **THE TABLE** of a prefix code. -/
theorem huffLut_spec {lengths : Nat → Nat} {ns : Nat} (hshort : ∀ i < ns, lengths i ≤ maxCodelen)
    (hkraft : kraft lengths maxCodelen ns ≤ 2 ^ maxCodelen) :
    LutOf lengths ns ns (huffLut lengths ns) := by
  have hall : ∀ n ≤ ns, LutOf lengths ns n (lutOf lengths ns n) := by
    intro n
    induction n with
    | zero => exact fun _ => ⟨fun i hi => absurd hi (Nat.not_lt_zero i), fun _ _ _ => rfl⟩
    | succ n ih =>
        intro hn
        obtain ⟨hcode, hnone⟩ := ih (by omega)
        rw [lutOf]
        by_cases hzero : lengths n = 0
        · rw [if_pos (Or.inl hzero)]
          constructor
          · intro i hi hpos
            have hne : i ≠ n := by
              rintro rfl
              omega
            exact hcode i (by omega) hpos
          · intro x hx hno
            exact hnone x hx fun i hi => hno i (Nat.lt_succ_of_lt hi)
        · have hle := hshort n (by omega)
          have hturned : turnBits ((countCodes lengths ns ns).1 n) (lengths n) (lengths n) =
              turned lengths ns n := by
            rw [turnBits_rev, (countCodes_spec hshort hkraft (Nat.le_refl ns)).1 n (by omega) (by omega),
              turned]
          -- an entry of this code is one within the table that the code starts
          have hfill : ∀ x < 2 ^ maxCodelen, fillLut (turned lengths ns n) (lengths n) n
              (lutOf lengths ns n) (2 ^ (maxCodelen - lengths n)) x =
              if x % 2 ^ lengths n = turned lengths ns n then some (n, lengths n)
              else lutOf lengths ns n x := by
            intro x hx
            have hquot : x / 2 ^ lengths n < 2 ^ (maxCodelen - lengths n) := by
              refine Nat.div_lt_of_lt_mul ?_
              rw [← Nat.pow_add, Nat.add_sub_cancel' hle]
              exact hx
            rw [fillLut_apply _ (turned_lt n)]
            by_cases hstarts : x % 2 ^ lengths n = turned lengths ns n
            · rw [if_pos ⟨hstarts, hquot⟩, if_pos hstarts]
            · rw [if_neg fun hboth => hstarts hboth.1, if_neg hstarts]
          rw [if_neg (by omega), hturned]
          constructor
          · intro i hi hpos x hx hstarts
            rw [hfill x hx]
            by_cases hlast : i = n
            · rw [hlast] at hstarts
              rw [if_pos hstarts, hlast]
            · rw [if_neg fun hn' => hlast (turned_unique hshort hkraft (by omega) (by omega) hpos
                (Nat.pos_of_ne_zero hzero) hstarts hn')]
              exact hcode i (by omega) hpos x hx hstarts
          · intro x hx hno
            rw [hfill x hx, if_neg (hno n (Nat.lt_succ_self n) (Nat.pos_of_ne_zero hzero))]
            exact hnone x hx fun i hi => hno i (Nat.lt_succ_of_lt hi)
  exact hall ns (Nat.le_refl ns)

end Zupt.Lzh
