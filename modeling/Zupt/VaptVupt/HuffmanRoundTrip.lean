import Zupt.VaptVupt.HuffmanCodes
import Zupt.VaptVupt.HuffmanRounds

/-! # Huffman round trips

    A stream is the codes of its symbols, one behind another.  A reader in front
    of the codes of some bytes decodes these bytes, alone or as one of four lanes
    that take turns, and the header gives the decoders the lengths that the
    encoders made the codes from. -/

namespace Zupt.VaptVupt

open Zupt.LittleEndian Zupt.Canonical Zupt.Memory Zupt.BitStream

/-! ## The header -/

theorem maxSym_lt (lengths : CodeLengths) (n : Nat) : maxSym lengths (n + 1) ≤ n := by
  induction n with
  | zero =>
      rw [maxSym]
      split
      · exact Nat.le_refl 0
      · exact Nat.le_refl 0
  | succ n ih =>
      rw [maxSym]
      split
      · exact Nat.le_refl _
      · exact Nat.le_succ_of_le ih

/-- No symbol above the highest one has a code. -/
theorem le_maxSym {lengths : CodeLengths} {n i : Nat} (hi : i < n) (hpos : 0 < lengths i) :
    i ≤ maxSym lengths n := by
  induction n with
  | zero => exact absurd hi (Nat.not_lt_zero i)
  | succ n ih =>
      rw [maxSym]
      by_cases hlast : 0 < lengths n
      · rw [if_pos hlast]
        omega
      · rw [if_neg hlast]
        have hne : i ≠ n := by
          rintro rfl
          exact hlast hpos
        exact ih (by omega)

theorem charAt_map_range (x : UInt8) (f : Nat → UInt8) (rest : Bytes) {m k : Nat} (hk : k < m) :
    charAt (x :: (List.range m).map f ++ rest) (1 + k) = f k := by
  have hlen : k < ((List.range m).map f).length := by
    rw [List.length_map, List.length_range]
    exact hk
  rw [charAt, List.getD_eq_getElem?_getD, Nat.add_comm, List.cons_append, List.getElem?_cons_succ,
    List.getElem?_append_left hlen, List.getElem?_map, List.getElem?_range hk]
  rfl

/-- **THE HEADER** gives the lengths back. -/
theorem readHeader_writeHeader {lengths : CodeLengths} (hshort : ∀ i, lengths i ≤ huffMaxCodeLen)
    (hinside : ∀ i, 256 ≤ i → lengths i = 0) {cap : Nat} {hdr : Bytes}
    (h : writeHeader lengths cap = some hdr) (rest : Bytes) :
    readHeader (hdr ++ rest) = some (hdr.length, lengths) := by
  rw [writeHeader] at h
  dsimp only at h
  have hle : maxSym lengths 256 ≤ 255 := maxSym_lt lengths 255
  have habove : ∀ i, maxSym lengths 256 < i → lengths i = 0 := by
    intro i hi
    by_cases hin : i < 256
    · by_contra hne
      have hmax := le_maxSym hin (Nat.pos_of_ne_zero hne)
      omega
    · exact hinside i (by omega)
  generalize maxSym lengths 256 = m at h hle habove
  split at h
  · cases h
  obtain rfl := Option.some.inj h
  have hfirst : (UInt8.ofNat m).toNat = m := by
    rw [UInt8.toNat_ofNat']
    omega
  have hlow : ¬ (UInt8.ofNat m :: (List.range ((m + 2) / 2)).map (fun k =>
      UInt8.ofNat (lengths (2 * k) * 16 +
        (if 2 * k + 1 ≤ m then lengths (2 * k + 1) else 0) % 16)) ++ rest).length < 1 := by
    rw [List.cons_append, List.length_cons]
    omega
  rw [readHeader, if_neg hlow]
  dsimp only
  rw [show charAt (UInt8.ofNat m :: (List.range ((m + 2) / 2)).map (fun k =>
      UInt8.ofNat (lengths (2 * k) * 16 +
        (if 2 * k + 1 ≤ m then lengths (2 * k + 1) else 0) % 16)) ++ rest) 0 = UInt8.ofNat m from rfl,
    hfirst, if_neg (by
      rw [List.length_append, List.length_cons, List.length_map, List.length_range]
      omega)]
  refine congrArg some (Prod.ext ?_ (funext fun i => ?_))
  · show 1 + (m + 2) / 2 = (UInt8.ofNat m :: (List.range ((m + 2) / 2)).map _).length
    rw [List.length_cons, List.length_map, List.length_range, Nat.add_comm]
  · dsimp only
    by_cases hi : m < i
    · rw [if_pos hi, habove i hi]
    · rw [if_neg hi, charAt_map_range _ _ _ (show i / 2 < (m + 2) / 2 by omega)]
      have heven := hshort (2 * (i / 2))
      have hodd := hshort (2 * (i / 2) + 1)
      rw [huffMaxCodeLen] at heven hodd
      have hbyte : ∀ lo, (UInt8.ofNat (lengths (2 * (i / 2)) * 16 + lo % 16)).toNat =
          lengths (2 * (i / 2)) * 16 + lo % 16 := by
        intro lo
        rw [UInt8.toNat_ofNat']
        omega
      rw [hbyte]
      by_cases hparity : i % 2 = 0
      · rw [if_pos hparity]
        have hsame : 2 * (i / 2) = i := by omega
        rw [hsame]
        omega
      · rw [if_neg hparity]
        have hsame : 2 * (i / 2) + 1 = i := by omega
        rw [if_pos (by omega), hsame]
        rw [hsame] at hodd
        omega

theorem hasSym_of_pos {lengths : CodeLengths} {n i : Nat} (hi : i < n) (hpos : 0 < lengths i) :
    hasSym lengths n = true := by
  induction n with
  | zero => exact absurd hi (Nat.not_lt_zero i)
  | succ n ih =>
      rw [hasSym]
      by_cases hlast : i = n
      · rw [← hlast, decide_eq_true hpos, Bool.or_true]
      · rw [ih (by omega), Bool.true_or]

/-! ## The writer -/

/-- Unless it ran out of room the writer has written the fields. -/
def HuffBw.Wrote (w : HuffBw) (fs : List (Nat × Nat)) : Prop :=
  w.overflow = false → Written w.bits w.nbits w.out fs ∧ w.nbits < 8

theorem wrote_init : HuffBw.init.Wrote [] := fun _ => ⟨written_nil, Nat.succ_pos 7⟩

section Writer

variable {cap : Nat} {w : HuffBw} {fs : List (Nat × Nat)}

theorem HuffBw.drain_overflow (turns : Nat) (h : w.overflow = true) :
    (w.drain cap turns).overflow = true := by
  induction turns generalizing w with
  | zero => exact h
  | succ turns ih =>
      rw [HuffBw.drain]
      split
      · rfl
      · exact ih h

theorem HuffBw.drain_wrote {turns : Nat} (h : Written w.bits w.nbits w.out fs)
    (hturns : turns = w.nbits / 8) : (w.drain cap turns).Wrote fs := by
  induction turns generalizing w with
  | zero => exact fun _ => ⟨h, by show w.nbits < 8; omega⟩
  | succ turns ih =>
      rw [HuffBw.drain]
      split
      · exact nofun
      · exact ih (h.byte (by omega)) (by show turns = (w.nbits - 8) / 8; omega)

/-- **A FIELD** is written behind the others. -/
theorem HuffBw.add_wrote (h : w.Wrote fs) (val n : Nat) :
    (w.add cap val n).Wrote (fs ++ [(val, n)]) := by
  by_cases hover : w.overflow = true
  · intro hfine
    have hadd : (w.add cap val n).overflow = true := HuffBw.drain_overflow _ hover
    rw [hadd] at hfine
    cases hfine
  · obtain ⟨hwritten, -⟩ := h (Bool.not_eq_true _ ▸ hover)
    have hadd := hwritten.add val n
    rw [← or_shiftLeft hwritten.bound] at hadd
    exact HuffBw.drain_wrote hadd rfl

theorem encodeSymbols_wrote (enc : EncTable) (src : Bytes) (h : w.Wrote fs) :
    (encodeSymbols enc cap src w).Wrote
      (fs ++ src.map fun b => (enc.codes b.toNat, enc.lengths b.toNat)) := by
  induction src generalizing w fs with
  | nil =>
      rw [List.map_nil, List.append_nil]
      exact h
  | cons b src ih =>
      have hnext : (w.add cap (enc.codes b.toNat) (enc.lengths b.toNat)).Wrote
          (fs ++ [(enc.codes b.toNat, enc.lengths b.toNat)]) := HuffBw.add_wrote h _ _
      have hrest := ih hnext
      rw [List.append_assoc] at hrest
      exact hrest

/-- **A FLUSH** leaves the packed fields. -/
theorem HuffBw.flush_wrote (h : w.Wrote fs) {bits : Bytes} (hflush : w.flush cap = some bits) :
    bits = packed fs := by
  rw [HuffBw.flush] at hflush
  by_cases hover : w.overflow = true
  · rw [if_pos hover] at hflush
    cases hflush
  · rw [if_neg hover] at hflush
    obtain ⟨hwritten, hfew⟩ := h (Bool.not_eq_true _ ▸ hover)
    rw [← hwritten.finish hfew]
    by_cases hleft : 0 < w.nbits
    · rw [if_pos hleft] at hflush ⊢
      split at hflush
      · exact (Option.some.inj hflush).symm
      · cases hflush
    · rw [if_neg hleft] at hflush ⊢
      exact (Option.some.inj hflush).symm

end Writer

/-! ## The codes of a source -/

/-- The codes of bytes, as fields of a stream. -/
def codeFields (lengths : CodeLengths) (src : Bytes) : List (Nat × Nat) :=
  src.map fun b => (turned lengths 256 b.toNat, lengths b.toNat)

/-- Every byte has a code. -/
def Covers (lengths : CodeLengths) (src : Bytes) : Prop := ∀ b ∈ src, 0 < lengths b.toNat

section Fields

variable {lengths : CodeLengths}

/-- **A STREAM** holds the codes of its source. -/
theorem encodeSymbols_packed (h : PrefixLengths lengths) {src : Bytes} (hcover : Covers lengths src)
    {cap : Nat} {bits : Bytes}
    (hflush : (encodeSymbols (encTable lengths) cap src .init).flush cap = some bits) :
    bits = packed (codeFields lengths src) := by
  rw [HuffBw.flush_wrote (encodeSymbols_wrote (encTable lengths) src wrote_init) hflush,
    List.nil_append]
  refine congrArg packed (List.map_congr_left fun b hb => ?_)
  refine Prod.ext ?_ rfl
  show (if 0 < lengths b.toNat then _ else 0) = _
  rw [if_pos (hcover b hb), reverseBits_code h b.toNat_lt (hcover b hb)]

theorem packed_codeFields_pos {src : Bytes} (hne : src ≠ []) (hcover : Covers lengths src) :
    0 < (packed (codeFields lengths src)).length := by
  cases src with
  | nil => exact absurd rfl hne
  | cons b src =>
      have hpos := hcover b List.mem_cons_self
      rw [packed_length, bytesFor]
      show 0 < (lengths b.toNat + width (codeFields lengths src) + 7) / 8
      omega

end Fields

/-! ## Reading the codes -/

/-- Fields are before the reader, and `spare` bits behind them. -/
def HuffBr.Before (r : HuffBr) (fs : List (Nat × Nat)) (spare len : Nat) : Prop :=
  ∃ V, r.Sees V (width fs + spare) len ∧ Starts V (width fs + spare) fs

/-- The refilled reader of a packed stream. -/
theorem before_start (fs : List (Nat × Nat)) :
    (huffRefill (huffBrInit (packed fs))).Before fs (8 * bytesFor (width fs) - width fs)
      (packed fs).length := by
  have hstarts := starts_packed fs []
  rw [List.append_nil] at hstarts
  have hspare : width fs + (8 * bytesFor (width fs) - width fs) = 8 * (packed fs).length := by
    rw [packed_length, bytesFor]
    omega
  refine ⟨leGet (packed fs), ?_, ?_⟩
  · rw [hspare]
    exact (huffRefill_spec (sees_init (packed fs))).1
  · rw [hspare]
    exact hstarts

section Codes

variable {lengths : CodeLengths} {dec : HuffTable} {spare len : Nat}

/-- **A CODE** before the reader is decoded and taken. -/
theorem decOne_code (h : PrefixLengths lengths) (htable : TableOf lengths 256 dec)
    (hshort : dec.Short) {r : HuffBr} {b : UInt8} {src : Bytes} (hpos : 0 < lengths b.toNat)
    (hbefore : r.Before (codeFields lengths (b :: src)) spare len) :
    ∃ r', decOne dec r = some (b, r') ∧ r'.Before (codeFields lengths src) spare len := by
  obtain ⟨V, hsees, hstarts⟩ := hbefore
  obtain ⟨hsees', hready⟩ := huffTopUp_spec hsees
  obtain ⟨hlow, hthere, hrest⟩ := hstarts.take
  have hsize : width (codeFields lengths (b :: src)) + spare - lengths b.toNat =
      width (codeFields lengths src) + spare := by
    show lengths b.toNat + width (codeFields lengths src) + spare - _ = _
    omega
  rw [Nat.mod_eq_of_lt (turned_lt b.toNat)] at hlow
  have hsym := symbolOf_code h htable b.toNat_lt hpos hthere hlow
  rw [UInt8.ofNat_toNat] at hsym
  refine ⟨huffConsume (if r.nbits < huffMaxCodeLen then huffRefill r else r) (lengths b.toNat),
    ?_, V / 2 ^ lengths b.toNat, ?_, ?_⟩
  · rw [decOne, huffSymbol_sees hshort hsees' hready (Or.inl rfl), hsym]
    rfl
  · rw [← hsize]
    exact huffConsume_sees hsees' ((enough_sees hsees' hready (h.short _)).mpr hthere)
  · rw [← hsize]
    exact hrest

/-- **ONE STREAM** of codes is decoded to its source. -/
theorem huffLoop_code (h : PrefixLengths lengths) (htable : TableOf lengths 256 dec)
    (hshort : dec.Short) {src : Bytes} (hcover : Covers lengths src) {r : HuffBr}
    (hbefore : r.Before (codeFields lengths src) spare len) :
    ∃ r', huffLoop dec src.length r = some (src, r') ∧ r'.Before [] spare len := by
  induction src generalizing r with
  | nil => exact ⟨r, rfl, hbefore⟩
  | cons b src ih =>
      obtain ⟨r1, hone, hrest⟩ := decOne_code h htable hshort (hcover b List.mem_cons_self) hbefore
      obtain ⟨r', hloop, hdone⟩ := ih (fun c hc => hcover c (List.mem_cons_of_mem b hc)) hrest
      refine ⟨r', ?_, hdone⟩
      rw [List.length_cons, huffLoop, hone]
      dsimp only
      rw [hloop]

/-- Behind the last code only the padding of the last byte is left. -/
theorem huffConsumed_done {r : HuffBr} {hdr_sz : Nat} (hspare : spare < 8)
    (h : r.Before [] spare len) : huffConsumed hdr_sz r = hdr_sz + len := by
  obtain ⟨V, hsees, -⟩ := h
  have hplace := hsees.place
  have hsize := hsees.holds.size
  have hcount := hsees.count
  rw [show width [] + spare = spare from Nat.zero_add _] at hsize
  have hempty : r.s.length = 0 := by omega
  rw [huffConsumed]
  dsimp only
  rw [if_neg (by omega)]
  omega

/-! ## Lanes -/

/-- A lane is before the codes of every fourth byte, from its own place on. -/
structure HuffLanes.Before (l : HuffLanes) (lengths : CodeLengths) (src : Bytes) : Prop where
  r0 : ∃ spare len, l.r0.Before (codeFields lengths (strided 0 src)) spare len
  r1 : ∃ spare len, l.r1.Before (codeFields lengths (strided 1 src)) spare len
  r2 : ∃ spare len, l.r2.Before (codeFields lengths (strided 2 src)) spare len
  r3 : ∃ spare len, l.r3.Before (codeFields lengths (strided 3 src)) spare len

/-- **A QUAD** takes a symbol of each lane. -/
theorem quad_code (h : PrefixLengths lengths) (htable : TableOf lengths 256 dec)
    (hshort : dec.Short) {b0 b1 b2 b3 : UInt8} {src : Bytes}
    (hcover : Covers lengths (b0 :: b1 :: b2 :: b3 :: src)) {l : HuffLanes}
    (hbefore : l.Before lengths (b0 :: b1 :: b2 :: b3 :: src)) :
    ∃ l', l.quad (decOne dec) = some ([b0, b1, b2, b3], l') ∧ l'.Before lengths src := by
  obtain ⟨⟨p0, n0, h0⟩, ⟨p1, n1, h1⟩, ⟨p2, n2, h2⟩, ⟨p3, n3, h3⟩⟩ := hbefore
  obtain ⟨r0, hone0, hrest0⟩ := decOne_code h htable hshort (hcover b0 (by simp)) h0
  obtain ⟨r1, hone1, hrest1⟩ := decOne_code h htable hshort (hcover b1 (by simp)) h1
  obtain ⟨r2, hone2, hrest2⟩ := decOne_code h htable hshort (hcover b2 (by simp)) h2
  obtain ⟨r3, hone3, hrest3⟩ := decOne_code h htable hshort (hcover b3 (by simp)) h3
  refine ⟨⟨r0, r1, r2, r3⟩, ?_, ⟨_, _, hrest0⟩, ⟨_, _, hrest1⟩, ⟨_, _, hrest2⟩, ⟨_, _, hrest3⟩⟩
  rw [HuffLanes.quad, hone0, hone1, hone2, hone3]

theorem quads_code (h : PrefixLengths lengths) (htable : TableOf lengths 256 dec)
    (hshort : dec.Short) (n : Nat) {src : Bytes} (hcover : Covers lengths src)
    (hlong : 4 * n ≤ src.length) {l : HuffLanes} (hbefore : l.Before lengths src) :
    ∃ l', HuffLanes.quads (decOne dec) n l = some (src.take (4 * n), l') ∧
      l'.Before lengths (src.drop (4 * n)) := by
  induction n generalizing src l with
  | zero => exact ⟨l, rfl, hbefore⟩
  | succ n ih =>
      match src, hcover, hlong, hbefore with
      | b0 :: b1 :: b2 :: b3 :: src, hcover, hlong, hbefore =>
          obtain ⟨l1, hquad, hrest⟩ := quad_code h htable hshort hcover hbefore
          have hlong' : 4 * (n + 1) ≤ src.length + 4 := hlong
          obtain ⟨l', hquads, hdone⟩ :=
            ih (fun b hb => hcover b (by simp [hb])) (by omega) hrest
          refine ⟨l', ?_, hdone⟩
          rw [HuffLanes.quads, hquad]
          dsimp only
          rw [hquads]
          rfl
      | [], _, hlong, _ => exact absurd hlong (by simp)
      | [_], _, hlong, _ => exact absurd hlong (by simp; omega)
      | [_, _], _, hlong, _ => exact absurd hlong (by simp; omega)
      | [_, _, _], _, hlong, _ => exact absurd hlong (by simp; omega)

/-- The last symbols are in the first lanes. -/
theorem huffTail_code (h : PrefixLengths lengths) (htable : TableOf lengths 256 dec)
    (hshort : dec.Short) {src : Bytes} (hcover : Covers lengths src) (hfew : src.length < 4)
    {l : HuffLanes} (hbefore : l.Before lengths src) :
    huffTail dec src.length [l.r0, l.r1, l.r2, l.r3] = some src := by
  obtain ⟨⟨p0, n0, h0⟩, ⟨p1, n1, h1⟩, ⟨p2, n2, h2⟩, -⟩ := hbefore
  match src, hcover, hfew, h0, h1, h2 with
  | [], _, _, _, _, _ => rfl
  | [b0], hcover, _, h0, _, _ =>
      obtain ⟨r0, hone0, -⟩ := decOne_code h htable hshort (hcover b0 (by simp)) h0
      simp only [List.length_cons, List.length_nil, huffTail, hone0]
  | [b0, b1], hcover, _, h0, h1, _ =>
      obtain ⟨r0, hone0, -⟩ := decOne_code h htable hshort (hcover b0 (by simp)) h0
      obtain ⟨r1, hone1, -⟩ := decOne_code h htable hshort (hcover b1 (by simp)) h1
      simp only [List.length_cons, List.length_nil, huffTail, hone0, hone1]
  | [b0, b1, b2], hcover, _, h0, h1, h2 =>
      obtain ⟨r0, hone0, -⟩ := decOne_code h htable hshort (hcover b0 (by simp)) h0
      obtain ⟨r1, hone1, -⟩ := decOne_code h htable hshort (hcover b1 (by simp)) h1
      obtain ⟨r2, hone2, -⟩ := decOne_code h htable hshort (hcover b2 (by simp)) h2
      simp only [List.length_cons, List.length_nil, huffTail, hone0, hone1, hone2]
  | _ :: _ :: _ :: _ :: _, _, hfew, _, _, _ => exact absurd hfew (by simp)

/-- **FOUR STREAMS** of codes are decoded to their source. -/
theorem huffLanesChecked_code (h : PrefixLengths lengths) (htable : TableOf lengths 256 dec)
    (hshort : dec.Short) {src : Bytes} (hcover : Covers lengths src) {l : HuffLanes}
    (hbefore : l.Before lengths src) : huffLanesChecked dec src.length l = some src := by
  obtain ⟨l', hquads, hrest⟩ := quads_code h htable hshort (src.length / 4) hcover (by omega) hbefore
  have htail := huffTail_code h htable hshort
    (fun b hb => hcover b (List.mem_of_mem_drop hb)) (by rw [List.length_drop]; omega) hrest
  have hleft : (src.drop (4 * (src.length / 4))).length = src.length % 4 := by
    rw [List.length_drop]
    omega
  rw [hleft] at htail
  rw [huffLanesChecked, hquads]
  dsimp only
  rw [htail]
  dsimp only
  rw [List.take_append_drop]

end Codes

/-! ## The encoders -/

theorem histogram_eq {src : Bytes} (hlen : src.length < 2 ^ 32) (i : Nat) :
    histogram src i = src.count (UInt8.ofNat i) :=
  Nat.mod_eq_of_lt (List.count_le_length.trans_lt hlen)

/-- What occurs gets a code. -/
theorem GoodLengths.covers {src : Bytes} {lengths : CodeLengths}
    (h : GoodLengths (fun i => 0 < histogram src i) lengths) (hlen : src.length < 2 ^ 32) :
    Covers lengths src := by
  intro b hb
  refine (h.coded b.toNat b.toNat_lt).mpr ?_
  rw [histogram_eq hlen, UInt8.ofNat_toNat]
  exact List.count_pos_iff.mpr hb

theorem GoodLengths.hasSym {src : Bytes} {lengths : CodeLengths}
    (h : GoodLengths (fun i => 0 < histogram src i) lengths) (hlen : src.length < 2 ^ 32)
    (hne : src ≠ []) : hasSym lengths 256 = true := by
  obtain ⟨b, hb⟩ := List.exists_mem_of_ne_nil src hne
  exact hasSym_of_pos b.toNat_lt (h.covers hlen b hb)

section Encoders

variable {a : TreeAlloc} {src out : Bytes} {dst_cap : Nat}

/-- **WHAT `vvh_encode` LEAVES**: a header and the codes of the source. -/
theorem vvhEncode_ok (hne : src ≠ []) (hlen : src.length < 2 ^ 32)
    (ha : (occurring (histogram src)).length ≤ 2 ∨ a.all = true)
    (h : vvhEncode a src dst_cap = .ok out) :
    ∃ lengths hdr, GoodLengths (fun i => 0 < histogram src i) lengths ∧
      writeHeader lengths dst_cap = some hdr ∧ out = hdr ++ packed (codeFields lengths src) := by
  rw [vvhEncode, if_neg (mt List.length_eq_zero_iff.mp hne)] at h
  split at h
  · cases h
  rename_i lengths hbuild
  have hgood := buildCodeLengths_good ha hbuild
  split at h
  · cases h
  rename_i hdr hhdr
  dsimp only at h
  split at h
  · cases h
  rename_i bits hflush
  split at h
  · cases h
  · refine ⟨lengths, hdr, hgood, hhdr, ?_⟩
    rw [← Except.ok.inj h, encodeSymbols_packed hgood.prefixLengths (hgood.covers hlen) hflush]

/-- **A STREAM OF `vvh_encode`** is decoded to its source. -/
theorem vvhDecode_vvhEncode (hne : src ≠ []) (hlen : src.length < 2 ^ 32)
    (ha : (occurring (histogram src)).length ≤ 2 ∨ a.all = true)
    (h : vvhEncode a src dst_cap = .ok out) (workspace : HuffTable) {cap : Nat}
    (hcap : src.length ≤ cap) :
    vvhDecode workspace out cap src.length = .ok (src, out.length) := by
  obtain ⟨lengths, hdr, hgood, hhdr, rfl⟩ := vvhEncode_ok hne hlen ha h
  have hcover := hgood.covers hlen
  have htable := buildDecTable_spec hgood.prefixLengths workspace
  have hshort := buildDecTable_short hgood.short workspace
  obtain ⟨r', hloop, hdone⟩ := huffLoop_code hgood.prefixLengths htable hshort hcover
    (before_start (codeFields lengths src))
  have hspare : 8 * bytesFor (width (codeFields lengths src)) - width (codeFields lengths src) < 8 := by
    rw [bytesFor]
    omega
  rw [vvhDecode, vvhDecodeWith, if_neg (mt List.length_eq_zero_iff.mp hne),
    if_neg (Nat.not_lt.mpr hcap), readHeader_writeHeader hgood.short hgood.inside hhdr]
  dsimp only
  rw [if_pos (hgood.hasSym hlen hne), vvhDecodeBody, List.drop_left, hloop]
  dsimp only
  rw [huffConsumed_done hspare hdone, List.length_append]

/-- The streams from one of them on are those of the source, each symbol of which
    has a code. -/
theorem encodeStreams_ok {lengths : CodeLengths} (hlens : PrefixLengths lengths)
    {left s cur_off : Nat} {streams : List Bytes}
    (h : encodeStreams (encTable lengths) src dst_cap left s cur_off = .ok streams) :
    streams = (List.range' s left).map (fun k => packed (codeFields lengths (strided k src))) ∧
      ∀ k, s ≤ k → k < s + left → Covers lengths (strided k src) := by
  induction left generalizing s cur_off streams with
  | zero =>
      obtain rfl := Except.ok.inj h
      refine ⟨rfl, ?_⟩
      intro k hlow hhigh
      omega
  | succ left ih =>
      rw [encodeStreams] at h
      split at h
      · cases h
      split at h
      · cases h
      rename_i hcodes
      have hcover : Covers lengths (strided s src) := by
        intro b hb
        by_contra hzero
        exact hcodes ⟨b, hb, Nat.eq_zero_of_not_pos hzero⟩
      dsimp only at h
      split at h
      · cases h
      rename_i bits hflush
      split at h
      · cases h
      · rename_i rest hrest
        obtain ⟨hstreams, hcovers⟩ := ih hrest
        obtain rfl := Except.ok.inj h
        constructor
        · rw [hstreams, encodeSymbols_packed hlens hcover hflush]
          rfl
        · intro k hlow hhigh
          by_cases hfirst : k = s
          · rw [hfirst]
            exact hcover
          · exact hcovers k (by omega) (by omega)

/-- The stream of the bytes from place `k` on. -/
def laneOf (lengths : CodeLengths) (src : Bytes) (k : Nat) : Bytes :=
  packed (codeFields lengths (strided k src))

/-- **WHAT `vvh_encode4` LEAVES**: a header, three sizes and four streams.  Without
    the workspace of the tree it leaves nothing, for it looks at each code. -/
theorem vvhEncode4_ok (hlen : src.length < 2 ^ 32) (h : vvhEncode4 a src dst_cap = .ok out) :
    minLiterals4 ≤ src.length ∧
    ∃ lengths hdr, GoodLengths (fun i => 0 < histogram src i) lengths ∧
      writeHeader lengths dst_cap = some hdr ∧
      (∀ k, 1 ≤ k → k < 4 → (laneOf lengths src k).length < 2 ^ 24) ∧
      out = hdr ++ (lePut 3 (laneOf lengths src 1).length ++ (lePut 3 (laneOf lengths src 2).length ++
        (lePut 3 (laneOf lengths src 3).length ++ (laneOf lengths src 0 ++ (laneOf lengths src 1 ++
        (laneOf lengths src 2 ++ laneOf lengths src 3)))))) := by
  rw [vvhEncode4] at h
  split at h
  · cases h
  rename_i hmany
  split at h
  · cases h
  split at h
  · cases h
  rename_i lengths hbuild
  split at h
  · cases h
  rename_i hdr hhdr
  split at h
  · cases h
  split at h
  · cases h
  rename_i streams hstreams
  split at h
  · cases h
  rename_i hsizes
  dsimp only at h
  split at h
  · cases h
  obtain rfl := Except.ok.inj h
  have hmin : minLiterals4 ≤ src.length := Nat.not_lt.mp hmany
  have hgood : GoodLengths (fun i => 0 < histogram src i) lengths := by
    by_cases ha : (occurring (histogram src)).length ≤ 2 ∨ a.all = true
    · exact buildCodeLengths_good ha hbuild
    · -- the first symbol has no code, which the loop over the first stream sees
      obtain ⟨hfew, hall⟩ := not_or.mp ha
      rw [buildCodeLengths_failed hfew (Bool.not_eq_true _ ▸ hall)] at hbuild
      obtain rfl := Option.some.inj hbuild
      have hnone : PrefixLengths fun _ => 0 := ⟨fun _ => Nat.zero_le _, by
        rw [kraft_eq_sum]
        simp⟩
      obtain ⟨-, hcovers⟩ := encodeStreams_ok hnone hstreams
      match src, hmin, hcovers with
      | b :: src, _, hcovers =>
          exact absurd (hcovers 0 (Nat.le_refl 0) (by omega) b List.mem_cons_self) (Nat.lt_irrefl 0)
      | [], hmin, _ => exact absurd hmin (by decide)
  obtain ⟨rfl, -⟩ := encodeStreams_ok hgood.prefixLengths hstreams
  refine ⟨hmin, lengths, hdr, hgood, hhdr, ?_, ?_⟩
  · intro k hlow hhigh
    have hsmall : ¬ 0xFFFFFF < (laneOf lengths src k).length := by
      intro hbig
      refine hsizes ⟨laneOf lengths src k, ?_, hbig⟩
      show laneOf lengths src k ∈ [laneOf lengths src 1, laneOf lengths src 2, laneOf lengths src 3]
      obtain rfl | rfl | rfl : k = 1 ∨ k = 2 ∨ k = 3 := by omega
      all_goals simp
    omega
  · show hdr ++ (lePut 3 (laneOf lengths src 1).length ++ (lePut 3 (laneOf lengths src 2).length ++
      (lePut 3 (laneOf lengths src 3).length ++ []))) ++ (laneOf lengths src 0 ++
      (laneOf lengths src 1 ++ (laneOf lengths src 2 ++ (laneOf lengths src 3 ++ [])))) = _
    simp only [List.append_nil, List.append_assoc]

theorem u24At_lePut {pre : Bytes} {n : Nat} (hn : n < 2 ^ 24) (rest : Bytes) {pos : Nat}
    (hpos : pos = pre.length) : u24At (pre ++ (lePut 3 n ++ rest)) pos = n := by
  have htake : ((lePut 3 n) ++ rest).take 3 = lePut 3 n :=
    List.take_left' (lePut_length 3 n)
  rw [u24At, hpos, List.drop_left, htake, leGet_lePut]
  exact Nat.mod_eq_of_lt hn

/-- The lane of a part of the streams. -/
theorem take_drop_middle (pre mid rest : Bytes) :
    ((pre ++ (mid ++ rest)).drop pre.length).take mid.length = mid := by
  rw [List.drop_left, List.take_left]

theorem strided_ne_nil (k : Nat) (src : Bytes) (hk : k < src.length) : strided k src ≠ [] := by
  induction src generalizing k with
  | nil => exact absurd hk (Nat.not_lt_zero k)
  | cons b src ih =>
      cases k with
      | zero => exact List.cons_ne_nil _ _
      | succ k => exact ih k (Nat.lt_of_succ_lt_succ hk)

theorem mem_of_mem_strided {b : UInt8} {k : Nat} {src : Bytes} (h : b ∈ strided k src) : b ∈ src := by
  induction src generalizing k with
  | nil =>
      cases k with
      | zero => cases h
      | succ k => cases h
  | cons c src ih =>
      cases k with
      | zero =>
          rcases List.mem_cons.mp h with rfl | hrest
          · exact List.mem_cons_self
          · exact List.mem_cons_of_mem c (ih hrest)
      | succ k => exact List.mem_cons_of_mem c (ih h)

/-- **A STREAM OF `vvh_encode4`** is decoded to its source. -/
theorem vvhDecode4_vvhEncode4 (hlen : src.length < 2 ^ 32)
    (h : vvhEncode4 a src dst_cap = .ok out) (workspace : HuffTable) {cap : Nat}
    (hcap : src.length ≤ cap) :
    vvhDecode4 workspace out cap src.length = .ok (src, out.length) := by
  obtain ⟨hmin, lengths, hdr, hgood, hhdr, hsizes, rfl⟩ := vvhEncode4_ok hlen h
  have hmany : 1024 ≤ src.length := hmin
  have hcover := hgood.covers hlen
  have htable := buildDecTable_spec hgood.prefixLengths workspace
  have hshort := buildDecTable_short hgood.short workspace
  have hpos : ∀ k, k < 4 → 0 < (laneOf lengths src k).length := by
    intro k hk
    refine packed_codeFields_pos (strided_ne_nil k src (by omega)) ?_
    exact fun b hb => hcover b (mem_of_mem_strided hb)
  have h0 := hpos 0 (by omega)
  have h1 := hpos 1 (by omega)
  have h2 := hpos 2 (by omega)
  have h3 := hpos 3 (by omega)
  have hne : src ≠ [] := by
    rintro rfl
    exact absurd hmany (by decide)
  have hstart : ∀ k, ∃ spare len,
      (huffRefill (huffBrInit (laneOf lengths src k))).Before (codeFields lengths (strided k src))
        spare len :=
    fun k => ⟨_, _, before_start (codeFields lengths (strided k src))⟩
  generalize hp0 : laneOf lengths src 0 = p0 at h0 ⊢
  generalize hp1 : laneOf lengths src 1 = p1 at h1 ⊢
  generalize hp2 : laneOf lengths src 2 = p2 at h2 ⊢
  generalize hp3 : laneOf lengths src 3 = p3 at h3 ⊢
  have hlanes : HuffLanes.Before ⟨huffRefill (huffBrInit p0), huffRefill (huffBrInit p1),
      huffRefill (huffBrInit p2), huffRefill (huffBrInit p3)⟩ lengths src := by
    rw [← hp0, ← hp1, ← hp2, ← hp3]
    exact ⟨hstart 0, hstart 1, hstart 2, hstart 3⟩
  have hself : ∀ r : HuffBr, (∃ spare len fs, r.Before fs spare len) → r.Like r := by
    rintro r ⟨spare, len, fs, V, hsees, -⟩
    exact HuffBr.Like.refl_of_sees hsees
  have hloop : huffLanesLoop (buildDecTable lengths workspace) src.length
      ⟨huffRefill (huffBrInit p0), huffRefill (huffBrInit p1), huffRefill (huffBrInit p2),
        huffRefill (huffBrInit p3)⟩ = some src := by
    rw [huffLanesLoop_eq_checked hshort, huffLanesChecked_code hgood.prefixLengths htable hshort
      hcover hlanes]
    obtain ⟨⟨_, _, b0⟩, ⟨_, _, b1⟩, ⟨_, _, b2⟩, ⟨_, _, b3⟩⟩ := hlanes
    exact ⟨hself _ ⟨_, _, _, b0⟩, hself _ ⟨_, _, _, b1⟩, hself _ ⟨_, _, _, b2⟩,
      hself _ ⟨_, _, _, b3⟩⟩
  have hs1 : p1.length < 2 ^ 24 := hp1 ▸ hsizes 1 (by omega) (by omega)
  have hs2 : p2.length < 2 ^ 24 := hp2 ▸ hsizes 2 (by omega) (by omega)
  have hs3 : p3.length < 2 ^ 24 := hp3 ▸ hsizes 3 (by omega) (by omega)
  generalize hout : hdr ++ (lePut 3 p1.length ++ (lePut 3 p2.length ++ (lePut 3 p3.length ++
    (p0 ++ (p1 ++ (p2 ++ p3)))))) = out
  have hu1 : u24At out hdr.length = p1.length := by
    rw [← hout]
    exact u24At_lePut hs1 _ rfl
  have hu2 : u24At out (hdr.length + 3) = p2.length := by
    rw [← hout, ← List.append_assoc]
    refine u24At_lePut hs2 _ ?_
    rw [List.length_append, lePut_length]
  have hu3 : u24At out (hdr.length + 6) = p3.length := by
    rw [← hout, ← List.append_assoc, ← List.append_assoc]
    refine u24At_lePut hs3 _ ?_
    rw [List.length_append, List.length_append, lePut_length, lePut_length]
  have hstreams : out.drop (hdr.length + 9) = p0 ++ (p1 ++ (p2 ++ p3)) := by
    rw [← hout, ← List.append_assoc, ← List.append_assoc, ← List.append_assoc]
    refine List.drop_left' ?_
    rw [List.length_append, List.length_append, List.length_append, lePut_length, lePut_length,
      lePut_length]
  have hlength : out.length = hdr.length + 9 + (p0.length + (p1.length + (p2.length + p3.length))) := by
    rw [← hout]
    simp only [List.length_append, lePut_length]
    omega
  have hread : readHeader out = some (hdr.length, lengths) := by
    rw [← hout]
    exact readHeader_writeHeader hgood.short hgood.inside hhdr _
  have hs0 : p0.length + (p1.length + (p2.length + p3.length)) - p1.length - p2.length - p3.length =
      p0.length := by omega
  have hd0 : ((p0 ++ (p1 ++ (p2 ++ p3))).drop 0).take p0.length = p0 := List.take_left
  have hd1 : ((p0 ++ (p1 ++ (p2 ++ p3))).drop p0.length).take p1.length = p1 :=
    take_drop_middle _ _ _
  have hd2 : ((p0 ++ (p1 ++ (p2 ++ p3))).drop (p0.length + p1.length)).take p2.length = p2 := by
    rw [← List.append_assoc, ← List.length_append]
    exact take_drop_middle _ _ _
  have hd3 : ((p0 ++ (p1 ++ (p2 ++ p3))).drop (p0.length + p1.length + p2.length)).take p3.length =
      p3 := by
    rw [← List.append_assoc, ← List.append_assoc, ← List.length_append, ← List.length_append,
      List.drop_left, List.take_length]
  rw [vvhDecode4, vvhDecodeWith, if_neg (mt List.length_eq_zero_iff.mp hne),
    if_neg (Nat.not_lt.mpr hcap), hread]
  dsimp only
  rw [if_pos (hgood.hasSym hlen hne), vvhDecode4Body, if_neg (by omega)]
  dsimp only
  rw [hu1, hu2, hu3, hstreams]
  simp only [List.length_append]
  rw [if_neg (by omega), if_neg (by omega), hs0, hd0, hd1, hd2, hd3, hloop]
  dsimp only
  refine congrArg Except.ok (Prod.ext rfl ?_)
  show hdr.length + 9 + p0.length + p1.length + p2.length + p3.length = out.length
  omega

end Encoders

end Zupt.VaptVupt
