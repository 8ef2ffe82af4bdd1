import Zupt.LzhRoundTrip
import Zupt.VaptVupt.HuffmanRoundTrip

/-! # Encoders that are short of memory

    Both Huffman builders are void helpers that come back early where an allocation
    fails, with all lengths 0.  The encoder of four streams looks at each code; the
    one of a single stream and Zupt-LZH do not, and hand out a block that cannot be
    decoded. -/

namespace Zupt.VaptVupt

open Zupt.LittleEndian Zupt.Canonical

section Single

variable {a : TreeAlloc} {src : Bytes} {dst_cap : Nat}

/-- No more symbols occur than there are bytes. -/
theorem occurring_length_le_source (src : Bytes) : (occurring (histogram src)).length ≤ src.length := by
  rw [occurring, List.length_map]
  have hinj : ∀ i ∈ (List.range 256).filter (fun i => 0 < histogram src i),
      ∀ j ∈ (List.range 256).filter (fun i => 0 < histogram src i),
        UInt8.ofNat i = UInt8.ofNat j → i = j := by
    intro i hi j hj heq
    have hi' := List.mem_range.mp (List.mem_filter.mp hi).1
    have hj' := List.mem_range.mp (List.mem_filter.mp hj).1
    have hnat := congrArg UInt8.toNat heq
    rwa [UInt8.toNat_ofNat', UInt8.toNat_ofNat', Nat.mod_eq_of_lt hi', Nat.mod_eq_of_lt hj'] at hnat
  have hnodup := List.Nodup.map_on hinj (List.nodup_range.filter fun i => 0 < histogram src i)
  rw [← List.length_map UInt8.ofNat]
  refine (hnodup.subperm fun b hb => ?_).length_le
  obtain ⟨i, hi, rfl⟩ := List.mem_map.mp hb
  have hpos : 0 < histogram src i := of_decide_eq_true (List.mem_filter.mp hi).2
  refine List.count_pos_iff.mp (Nat.pos_of_ne_zero fun hzero => ?_)
  rw [histogram, hzero] at hpos
  exact Nat.lt_irrefl 0 hpos

/-- Symbols without codes leave nothing behind. -/
theorem encodeSymbols_none (cap : Nat) (src : Bytes) :
    encodeSymbols (encTable fun _ => 0) cap src .init = .init := by
  induction src with
  | nil => rfl
  | cons b src ih =>
      have hadd : HuffBw.init.add cap ((encTable fun _ => 0).codes b.toNat) 0 = HuffBw.init := by
        have hcode : (encTable fun _ => 0).codes b.toNat = 0 := rfl
        rw [hcode]
        rfl
      rw [encodeSymbols]
      show encodeSymbols _ cap src (HuffBw.init.add cap _ 0) = _
      rw [hadd]
      exact ih

theorem maxSym_none (n : Nat) : maxSym (fun _ => 0) n = 0 := by
  induction n with
  | zero => rfl
  | succ n ih =>
      rw [maxSym, if_neg (Nat.lt_irrefl 0)]
      exact ih

/-- **SHORT OF MEMORY**, three symbols and more become two bytes. -/
theorem vvhEncode_failed (hmany : ¬ (occurring (histogram src)).length ≤ 2) (ha : a.all = false)
    (hcap : 2 ≤ dst_cap) : vvhEncode a src dst_cap = .ok [0, 0] := by
  have hlen := occurring_length_le_source src
  have hhdr : writeHeader (fun _ => 0) dst_cap = some [0, 0] := by
    rw [writeHeader, maxSym_none]
    exact if_neg (Nat.not_lt.mpr hcap)
  rw [vvhEncode, if_neg (by omega), buildCodeLengths_failed hmany ha]
  dsimp only
  rw [hhdr]
  dsimp only
  rw [encodeSymbols_none]
  exact if_neg (by
    show ¬ src.length ≤ 2
    omega)

theorem hasSym_none {lengths : CodeLengths} (h : ∀ i, lengths i = 0) (n : Nat) :
    hasSym lengths n = false := by
  induction n with
  | zero => rfl
  | succ n ih =>
      rw [hasSym, ih, h n]
      rfl

/-- The decoder finds no code in them. -/
theorem vvhDecode_failed (workspace : HuffTable) {n : Nat} (hn : n ≠ 0) :
    vvhDecode workspace [0, 0] n n = .error .corrupt := by
  rw [vvhDecode, vvhDecodeWith, if_neg hn, if_neg (Nat.lt_irrefl n)]
  have hread : readHeader [0, 0] = some (2, fun i => if 0 < i then 0 else if i % 2 = 0 then
      (charAt [0, 0] (1 + i / 2)).toNat / 16 else (charAt [0, 0] (1 + i / 2)).toNat % 16) := rfl
  rw [hread]
  dsimp only
  rw [hasSym_none (fun i => ?_)]
  · exact if_neg Bool.false_ne_true
  · cases i with
    | zero => rfl
    | succ i => exact if_pos (Nat.succ_pos i)

/-- **A SINGLE STREAM** is decoded to its source exactly where the memory was there
    or not needed. -/
theorem vvhEncode_silent_iff (workspace : HuffTable) (hlen : src.length < 2 ^ 32) :
    (∀ out, vvhEncode a src dst_cap = .ok out →
        vvhDecode workspace out src.length src.length = .ok (src, out.length)) ↔
      (occurring (histogram src)).length ≤ 2 ∨ a.all = true ∨ dst_cap < 2 := by
  constructor
  · intro h
    by_cases hfew : (occurring (histogram src)).length ≤ 2
    · exact Or.inl hfew
    by_cases hall : a.all = true
    · exact Or.inr (Or.inl hall)
    refine Or.inr (Or.inr (Nat.not_le.mp fun hcap => ?_))
    have hne : src.length ≠ 0 := by
      have hle := occurring_length_le_source src
      omega
    have hdec := h _ (vvhEncode_failed hfew (Bool.not_eq_true _ ▸ hall) hcap)
    rw [vvhDecode_failed workspace hne] at hdec
    cases hdec
  · intro h out hout
    by_cases hne : src = []
    · subst hne
      obtain rfl := Except.ok.inj hout
      rfl
    by_cases ha : (occurring (histogram src)).length ≤ 2 ∨ a.all = true
    · exact vvhDecode_vvhEncode hne hlen ha hout workspace (Nat.le_refl _)
    · -- two bytes are the least that a header takes
      obtain ⟨hfew, hall⟩ := not_or.mp ha
      have hcap : dst_cap < 2 := (h.resolve_left hfew).resolve_left hall
      rw [vvhEncode, if_neg (mt List.length_eq_zero_iff.mp hne),
        buildCodeLengths_failed hfew (Bool.not_eq_true _ ▸ hall)] at hout
      dsimp only at hout
      rw [writeHeader, maxSym_none, if_pos hcap] at hout
      cases hout

end Single

end Zupt.VaptVupt

namespace Zupt.Lzh

open Zupt.LittleEndian Zupt.Window Zupt.Canonical Zupt.BitStream Zupt.VaptVupt

/-! ## A code without a tree -/

/-- The workspace of the tree was needed and not there. -/
def BuildAlloc.NoTree (a : BuildAlloc) (freq : Nat → Nat) (ns : Nat) : Prop :=
  1 < (active freq ns).length ∧ (a.l && a.r && a.hp && a.dp) = false

section Build

variable {a : BuildAlloc} {freq : Nat → Nat} {ns : Nat}

/-- **WITHOUT A TREE** no symbol has a code. -/
theorem huffBuild_noTree (h : a.NoTree freq ns) :
    huffBuild a freq ns = ⟨fun _ => 0, fun _ => 0⟩ := by
  obtain ⟨hmany, hfail⟩ := h
  rw [huffBuild_many hmany]
  by_cases hnodes : (a.l && a.r && a.hp) = true
  · rw [if_pos hnodes]
    rw [hnodes, Bool.true_and] at hfail
    rw [hfail]
    exact if_neg Bool.false_ne_true
  · exact if_neg hnodes

theorem huffBuild_inside (a : BuildAlloc) (freq : Nat → Nat) {i : Nat} (hi : ns ≤ i) :
    (huffBuild a freq ns).len i = 0 := by
  by_cases hmany : 1 < (active freq ns).length
  · rw [huffBuild_many hmany]
    split
    · split
      · exact if_neg (Nat.not_lt.mpr hi)
      · rfl
    · rfl
  · rw [huffBuild]
    rcases hact : active freq ns with _ | ⟨s, _ | ⟨s', rest⟩⟩
    · rfl
    · have hs : s < ns := (mem_active.mp (hact ▸ List.mem_singleton_self s)).1
      show Function.update (fun _ => 0) s 1 i = 0
      rw [Function.update_of_ne (by omega)]
    · rw [hact] at hmany
      exact absurd (by simp) hmany

end Build

/-- The entries of the table are of symbols with a code. -/
theorem fillLut_entry {rev bits sym fill x : Nat} {lut : Nat → Option (Nat × Nat)} {e : Nat × Nat}
    (h : fillLut rev bits sym lut fill x = some e) : e = (sym, bits) ∨ lut x = some e := by
  induction fill with
  | zero => exact Or.inr h
  | succ j ih =>
      rw [fillLut] at h
      by_cases hx : x = rev ||| j <<< bits
      · rw [hx, Function.update_self] at h
        exact Or.inl (Option.some.inj h).symm
      · rw [Function.update_of_ne hx] at h
        exact ih h

theorem huffLut_coded {lengths : Nat → Nat} {ns x : Nat} {e : Nat × Nat}
    (h : huffLut lengths ns x = some e) : 0 < lengths e.1 := by
  have hall : ∀ n, lutOf lengths ns n x = some e → 0 < lengths e.1 := by
    intro n
    induction n with
    | zero => nofun
    | succ n ih =>
        intro hn
        rw [lutOf] at hn
        split at hn
        · exact ih hn
        · rename_i hbits
          rcases fillLut_entry hn with rfl | hold
          · exact Nat.pos_of_ne_zero fun hzero => hbits (Or.inl hzero)
          · exact ih hold
  exact hall ns h

section Unpack

variable {c : Codes} {ll_lut d_lut : Nat → Option (Nat × Nat)} {out_cap : Nat}

/-- With a code for the end of the block alone, nothing is decoded. -/
theorem unpackLoop_only_eob (hll : ∀ x e, ll_lut x = some e → e.1 = 256) (turns : Nat) (r : BitRd)
    (out : Bytes) : unpackLoop ll_lut d_lut out_cap turns r out = out := by
  cases turns with
  | zero => rfl
  | succ turns =>
      have hstop : unpackTurn ll_lut d_lut out_cap r out = none := by
        cases hdec : huffDec r ll_lut with
        | none => rw [unpackTurn, hdec]
        | some e =>
            obtain ⟨sym, r'⟩ := e
            have hsym : sym = 256 := by
              rw [huffDec] at hdec
              dsimp only at hdec
              split at hdec
              · cases hdec
              · rename_i heq
                obtain ⟨rfl, -⟩ := Prod.mk.inj (Option.some.inj hdec)
                exact hll _ _ heq
            rw [hsym] at hdec
            exact unpackTurn_eob hdec
      rw [unpackLoop, hstop]

theorem readMatch_none (hd : ∀ x, d_lut x = none) (li : Nat) (r : BitRd) :
    readMatch d_lut li r = none := by
  rw [readMatch]
  dsimp only
  rw [huffDec]
  dsimp only
  rw [hd]

/-- Without a code for distances, the decoder stops in front of a match. -/
theorem unpackLoop_stops {src : Bytes} (hcap : src.length ≤ out_cap) {freq : Nat → Nat}
    (hgood : GoodCode freq c.ll_cnt c.ll) (hll : LutOf c.ll.len c.ll_cnt c.ll_cnt ll_lut)
    (hd : ∀ x, d_lut x = none) {ip last : Nat} {syms : List LzSym} (h : Covers src ip syms last)
    (hhas : ∀ sym ∈ syms, sym.litlen < c.ll_cnt ∧ 0 < c.ll.len sym.litlen)
    (hmatch : ∃ sym ∈ syms, 257 ≤ sym.litlen) {turns : Nat} (hturns : syms.length < turns) {r : BitRd}
    {spare : Nat} (hbefore : r.Before ((syms ++ [eob]).flatMap (symFields c)) spare) :
    ∃ stop, unpackLoop ll_lut d_lut out_cap turns r (src.take ip) = src.take stop ∧
      stop + 3 ≤ last := by
  induction h generalizing turns r with
  | nil =>
      obtain ⟨sym, hsym, -⟩ := hmatch
      cases hsym
  | @lit ip last syms hip hrest ih =>
      cases turns with
      | zero => exact absurd hturns (Nat.not_lt_zero _)
      | succ turns =>
          have hbyte := (charAt src ip).toNat_lt
          rw [List.cons_append, List.flatMap_cons] at hbefore
          have hlit : c.Has (literal (charAt src ip)) := by
            refine ⟨hhas _ List.mem_cons_self, fun hlong => ?_⟩
            have hlow : 257 ≤ (charAt src ip).toNat := hlong
            omega
          obtain ⟨r', hstep, hnext⟩ := unpackLoop_literal hcap hgood hll hip hlit turns hbefore
          have hturns' : syms.length + 1 < turns + 1 := hturns
          rw [hstep]
          refine ih (fun s hs => hhas s (List.mem_cons_of_mem _ hs)) ?_ (by omega) hnext
          obtain ⟨sym, hsym, hlong⟩ := hmatch
          rcases List.mem_cons.mp hsym with rfl | hmem
          · have hlow : 257 ≤ (charAt src ip).toNat := hlong
            omega
          · exact ⟨sym, hmem, hlong⟩
  | @copy ip last syms m hm hrest ih =>
      cases turns with
      | zero => exact absurd hturns (Nat.not_lt_zero _)
      | succ turns =>
          have hlow := hm.low
          have hcount := hrest.length_le
          obtain ⟨hin, hpos⟩ := hhas _ List.mem_cons_self
          obtain ⟨hcode, -⟩ := lenToCode_spec hm.low hm.high
          rw [List.cons_append, List.flatMap_cons, symFields, List.append_assoc] at hbefore
          obtain ⟨r', hdec, -⟩ := code_before hgood hll hin hpos hbefore
          have hstop : unpackTurn ll_lut d_lut out_cap r (src.take ip) = none := by
            have hsym : (matchSym m).litlen = 257 + lastBase lenBase m.len lenCodes := rfl
            rw [lenCodes] at hcode hsym
            rw [unpackTurn, hdec]
            dsimp only
            rw [hsym, if_neg (by rw [maxLitlen]; omega), if_neg (by omega), if_neg (by omega),
              if_neg (by rw [lenCodes]; omega), readMatch_none hd]
          refine ⟨ip, ?_, by omega⟩
          rw [unpackLoop, hstop]

end Unpack

section Runs

variable {dc : Nat} {enc src : Bytes}

theorem Rle.length_pos (h : Rle enc src) (hne : enc ≠ []) : 0 < src.length := by
  cases h with
  | nil => exact absurd rfl hne
  | zero => exact Nat.succ_pos _
  | @run c enc src hc _ =>
      have hc' : 0 < c.toNat := Nat.pos_of_ne_zero fun hzero => hc (UInt8.toNat_inj.mp hzero)
      rw [List.length_append, List.length_replicate]
      omega
  | lit => exact Nat.succ_pos _

/-- A zero without its count is decoded as one zero. -/
theorem rleDecode_lone {out : Bytes} (hroom : out.length < dc) :
    rleDecode dc [0] out = some (out ++ [0]) := if_pos hroom

/-- **A STREAM OF RUNS** that ends two bytes early stands for fewer bytes. -/
theorem Rle.decode_short (h : Rle enc src) {p q : Bytes} (hsplit : enc = p ++ q) (hq : 2 ≤ q.length)
    {out : Bytes} (hroom : out.length + src.length ≤ dc) :
    ∃ more, rleDecode dc p out = some (out ++ more) ∧ more.length < src.length := by
  have hempty : ∀ {out : Bytes}, rleDecode dc [] out = some (out ++ []) := by
    intro out
    rw [rleDecode, List.append_nil]
  have hmore : ∀ {s : Bytes}, s.length = q.length - 1 → s ≠ [] := by
    rintro s hs rfl
    rw [List.length_nil] at hs
    omega
  induction h generalizing p out with
  | nil =>
      obtain ⟨-, rfl⟩ := List.append_eq_nil_iff.mp hsplit.symm
      exact absurd hq (by decide)
  | @zero enc src hrest ih =>
      rcases p with _ | ⟨mark, _ | ⟨count, p⟩⟩
      · exact ⟨[], hempty, Nat.succ_pos _⟩
      · obtain ⟨rfl, hlast⟩ := List.cons.inj hsplit
        have hq' : _ :: enc = q := hlast
        have hpos := hrest.length_pos (hmore (by rw [← hq']; rfl))
        rw [List.length_cons] at hroom
        exact ⟨[0], rleDecode_lone (by omega), Nat.succ_lt_succ hpos⟩
      · obtain ⟨rfl, htail⟩ := List.cons.inj hsplit
        have hcount : _ :: enc = _ :: (p ++ q) := htail
        obtain ⟨rfl, hrest'⟩ := List.cons.inj hcount
        rw [List.length_cons] at hroom
        obtain ⟨more, hdec, hless⟩ := ih hrest'
          (show (out ++ [0]).length + src.length ≤ dc by
            rw [List.length_append, List.length_singleton]
            omega)
        refine ⟨0 :: more, ?_, Nat.succ_lt_succ hless⟩
        rw [rleDecode, if_pos (by omega), if_pos rfl, if_pos rfl, hdec, List.append_assoc]
        rfl
  | @run c enc src hc hrest ih =>
      have hc' : 0 < c.toNat := Nat.pos_of_ne_zero fun hzero => hc (UInt8.toNat_inj.mp hzero)
      rw [List.length_append, List.length_replicate] at hroom ⊢
      rcases p with _ | ⟨mark, _ | ⟨count, p⟩⟩
      · exact ⟨[], hempty, by rw [List.length_nil]; omega⟩
      · obtain ⟨rfl, hlast⟩ := List.cons.inj hsplit
        have hq' : _ :: enc = q := hlast
        have hpos := hrest.length_pos (hmore (by rw [← hq']; rfl))
        refine ⟨[0], rleDecode_lone (by omega), ?_⟩
        rw [List.length_singleton]
        omega
      · obtain ⟨rfl, htail⟩ := List.cons.inj hsplit
        have hcount : _ :: enc = _ :: (p ++ q) := htail
        obtain ⟨rfl, hrest'⟩ := List.cons.inj hcount
        obtain ⟨more, hdec, hless⟩ := ih hrest'
          (show (out ++ List.replicate c.toNat 0).length + src.length ≤ dc by
            rw [List.length_append, List.length_replicate]
            omega)
        refine ⟨List.replicate c.toNat 0 ++ more, ?_, ?_⟩
        · rw [rleDecode, if_pos (by omega), if_pos rfl, if_neg hc, if_neg (by omega), hdec,
            List.append_assoc]
        · rw [List.length_append, List.length_replicate]
          omega
  | @lit b enc src hb hrest ih =>
      rcases p with _ | ⟨mark, p⟩
      · exact ⟨[], hempty, Nat.succ_pos _⟩
      · obtain ⟨rfl, hrest'⟩ := List.cons.inj hsplit
        rw [List.length_cons] at hroom
        obtain ⟨more, hdec, hless⟩ := ih hrest'
          (show (out ++ [b]).length + src.length ≤ dc by
            rw [List.length_append, List.length_singleton]
            omega)
        refine ⟨b :: more, ?_, Nat.succ_lt_succ hless⟩
        rw [rleDecode_lit hb (by omega), hdec, List.append_assoc]
        rfl

end Runs

/-! ## Blocks without a tree -/

section Block

variable {a : Alloc} {ua : UnpackAlloc} {src : Bytes} {level : Int}

/-- What the decoder makes of a complete block. -/
theorem lzhDecompress_encoding (a : Alloc) (level : Int) (hua : ua.Enough (rlePrepare a.rle_buf src).2)
    (dlen : Nat) :
    lzhDecompress ua (encoding a src level) dlen =
      unpackStream (rlePrepare a.rle_buf src).2
        (huffLut (codesFor a src level).ll.len (codesFor a src level).ll_cnt)
        (huffLut (codesFor a src level).d.len (codesFor a src level).d_cnt) dlen
        (packed (blockFields a src level)) := by
  refine lzhDecompress_header (buildCodes_header a _) ?_ ?_ hua _ _ _
  · intro i hi
    have hi' : llCount (parseOf a.rle_buf src level) ≤ i := hi
    have hlow := low_lt_llCount (parseOf a.rle_buf src level) (show 256 < 257 by decide)
    have hinside := huffBuild_inside a.ll (llFreq (parseOf a.rle_buf src level)) hi'
    show (buildCodes a (parseOf a.rle_buf src level)).ll.len i = 0
    rw [buildCodes]
    dsimp only
    split
    · show Function.update _ 256 1 i = 0
      rw [Function.update_of_ne (by omega)]
      exact hinside
    · exact hinside
  · exact fun i hi => huffBuild_inside a.d _ hi

/-- **WITHOUT THE TREE OF THE LITERALS** a block decodes to nothing. -/
theorem encoding_noTree_ll (hua : ua.Enough (rlePrepare a.rle_buf src).2)
    (hfail : a.ll.NoTree (llFreq (parseOf a.rle_buf src level)) (llCount (parseOf a.rle_buf src level)))
    (dlen : Nat) : lzhDecompress ua (encoding a src level) dlen = [] := by
  have hcodes : (codesFor a src level).ll.len = Function.update (fun _ => 0) 256 1 := by
    rw [codesFor, buildCodes, huffBuild_noTree hfail]
    rfl
  have honly : ∀ x e, huffLut (codesFor a src level).ll.len (codesFor a src level).ll_cnt x = some e →
      e.1 = 256 := by
    intro x e he
    have hpos := huffLut_coded he
    rw [hcodes] at hpos
    by_contra hne
    rw [Function.update_of_ne hne] at hpos
    exact Nat.lt_irrefl 0 hpos
  rw [lzhDecompress_encoding a level hua, unpackStream, unpackLoop_only_eob honly]
  cases (rlePrepare a.rle_buf src).2 with
  | true => rfl
  | false => rfl

/-- **WITHOUT THE TREE OF THE DISTANCES** a block decodes to what stands in front of
    its first match. -/
theorem encoding_noTree_d (hsrc : src.length < 2 ^ 32 - 1)
    (hua : ua.Enough (rlePrepare a.rle_buf src).2)
    (hll : a.ll.Enough (llFreq (parseOf a.rle_buf src level)) (llCount (parseOf a.rle_buf src level)))
    (hfail : a.d.NoTree (dFreq (parseOf a.rle_buf src level)) (dCount (parseOf a.rle_buf src level))) :
    (lzhDecompress ua (encoding a src level) src.length).length < src.length := by
  obtain ⟨hfew, heob, hinside⟩ := parseOf_spec a.rle_buf level hsrc
  obtain ⟨hgood, hhas⟩ : GoodCode _ (codesFor a src level).ll_cnt (codesFor a src level).ll ∧ _ :=
    buildCodes_ll hfew heob hinside hll
  obtain ⟨syms, hsyms, hcovers⟩ := parseOf_covers a.rle_buf src level
  have hshorter := rlePrepare_length_le a.rle_buf src
  have hcount := hcovers.length_le
  have hmem : ∀ sym ∈ syms, sym ∈ parseOf a.rle_buf src level := by
    intro sym hsym
    rw [hsyms]
    exact List.mem_append_left _ hsym
  -- a distance occurs, so there is a match
  have hmatch : ∃ sym ∈ syms, 257 ≤ sym.litlen := by
    obtain ⟨i, hi⟩ := List.exists_mem_of_length_pos (Nat.lt_of_succ_lt hfail.1)
    have hpos := (mem_active.mp hi).2
    rw [dFreq] at hpos
    have hsome := List.countP_pos_iff.mp (Nat.pos_of_ne_zero fun hzero => by
      rw [hzero] at hpos
      exact Nat.lt_irrefl 0 hpos)
    obtain ⟨sym, hsym, hlong⟩ := hsome
    obtain ⟨hlow, -, -⟩ := of_decide_eq_true hlong
    rw [hsyms] at hsym
    rcases List.mem_append.mp hsym with hin | hlast
    · exact ⟨sym, hin, hlow⟩
    · obtain rfl := List.mem_singleton.mp hlast
      exact absurd hlow (by decide)
  have hnone : ∀ x, huffLut (codesFor a src level).d.len (codesFor a src level).d_cnt x = none := by
    intro x
    have hcodes : (codesFor a src level).d.len = fun _ => 0 := by
      show (huffBuild a.d _ _).len = _
      rw [huffBuild_noTree hfail]
    cases he : huffLut (codesFor a src level).d.len (codesFor a src level).d_cnt x with
    | none => rfl
    | some e =>
        have hpos := huffLut_coded he
        rw [hcodes] at hpos
        exact absurd hpos (Nat.lt_irrefl 0)
  have hfields : blockFields a src level = (syms ++ [eob]).flatMap (symFields (codesFor a src level)) := by
    rw [blockFields, hsyms]
  have hbefore := before_init (blockFields a src level)
  rw [hfields] at hbefore
  obtain ⟨stop, hout, hstop⟩ := unpackLoop_stops hshorter hgood (huffLut_spec hgood.short hgood.kraft)
    hnone hcovers (fun sym hsym => hhas sym (hmem sym hsym)) hmatch
    (show syms.length < src.length + 1 by omega) hbefore
  rw [List.take_zero] at hout
  rw [lzhDecompress_encoding a level hua, unpackStream, hfields, hout]
  rcases rlePrepare_spec a.rle_buf src with heq | ⟨rle, heq, hstands, -⟩
  · rw [heq] at hstop ⊢
    rw [if_neg Bool.false_ne_true, List.length_take]
    dsimp only at hstop
    omega
  · rw [heq] at hstop ⊢
    dsimp only at hstop ⊢
    obtain ⟨more, hdec, hless⟩ := hstands.decode_short (List.take_append_drop stop rle).symm
      (by rw [List.length_drop]; omega) (show [].length + src.length ≤ src.length by
        rw [List.length_nil]
        omega)
    rw [if_pos rfl, hdec]
    exact hless

end Block

/-! ## What each encoder makes of a failed allocation -/

/-- **FAILED ALLOCATIONS**: a single stream is decoded to its source exactly where the
    tree was not needed, was there, or the header has no room; four streams always
    are; a Zupt-LZH block is where neither code was short of memory, and is not where
    the tree of a code was needed and not there. -/
theorem failed_allocations (workspace : HuffTable) :
    (∀ (a : TreeAlloc) (src : Bytes) (dst_cap : Nat), src.length < 2 ^ 32 →
      ((∀ out, vvhEncode a src dst_cap = .ok out →
          vvhDecode workspace out src.length src.length = .ok (src, out.length)) ↔
        (occurring (histogram src)).length ≤ 2 ∨ a.all = true ∨ dst_cap < 2)) ∧
    (∀ (a : TreeAlloc) (src : Bytes) (dst_cap : Nat) (out : Bytes), src.length < 2 ^ 32 →
      vvhEncode4 a src dst_cap = .ok out →
        vvhDecode4 workspace out src.length src.length = .ok (src, out.length)) ∧
    ∀ (a : Alloc) (src : Bytes) (level : Int) (dcap : Nat) (out : Bytes),
      src.length ≤ Frame.maxBlockSz →
      src.length ≤ dcap ∨ (encoding a src level).length ≤ dcap →
      lzhCompress a src dcap level = some out →
        (a.Enough (parseOf a.rle_buf src level) →
          lzhDecompress .granted out src.length = src) ∧
        (a.ll.NoTree (llFreq (parseOf a.rle_buf src level)) (llCount (parseOf a.rle_buf src level)) ∨
            a.ll.Enough (llFreq (parseOf a.rle_buf src level)) (llCount (parseOf a.rle_buf src level)) ∧
              a.d.NoTree (dFreq (parseOf a.rle_buf src level)) (dCount (parseOf a.rle_buf src level)) →
          lzhDecompress .granted out src.length ≠ src) := by
  refine ⟨?_, ?_, ?_⟩
  · exact fun a src dst_cap hlen => vvhEncode_silent_iff workspace hlen
  · exact fun a src dst_cap out hlen h => vvhDecode4_vvhEncode4 hlen h workspace (Nat.le_refl _)
  · intro a src level dcap out hsrc hroom hout
    obtain ⟨rfl, hless⟩ := complete_of_room hroom hout
    rw [Frame.maxBlockSz] at hsrc
    have hua := unpack_granted (rlePrepare a.rle_buf src).2
    refine ⟨fun ha => encoding_decodes (by omega) ha hua, fun hfail hsame => ?_⟩
    rcases hfail with hll | ⟨hll, hd⟩
    · rw [encoding_noTree_ll hua hll] at hsame
      rw [← hsame] at hless
      exact Nat.not_lt_zero _ hless
    · have hshort := encoding_noTree_d (by omega) hua hll hd
      rw [hsame] at hshort
      exact Nat.lt_irrefl _ hshort

/-- The counts of a run of one byte. -/
theorem histogram_replicate (n : Nat) (b : UInt8) :
    histogram (List.replicate n b) = fun i => if UInt8.ofNat i = b then n % 2 ^ 32 else 0 := by
  funext i
  rw [histogram, List.count_replicate]
  by_cases hi : UInt8.ofNat i = b
  · rw [if_pos hi, if_pos (by rw [hi]; exact beq_self_eq_true b)]
  · have hne : ¬ (b == UInt8.ofNat i) = true := fun heq => hi (eq_of_beq heq).symm
    rw [if_neg hi, if_neg hne, Nat.zero_mod]

/-- Three symbols without `nf`, four streams of one symbol without anything, and forty
    times the same byte without the tree of the distances, which it does not need, and
    without that of the literals. -/
theorem failed_allocations_run :
    (¬ ∀ out, vvhEncode ⟨false, true, true⟩ [1, 2, 3] 100 = .ok out →
      vvhDecode ⟨fun _ => 0, 0, fun _ => 0, fun _ => 0, fun _ => 0⟩ out 3 3 =
        .ok ([1, 2, 3], out.length)) ∧
    (∃ out, vvhEncode4 ⟨false, false, false⟩ (List.replicate 1024 7) 2000 = .ok out ∧
      vvhDecode4 ⟨fun _ => 0, 0, fun _ => 0, fun _ => 0, fun _ => 0⟩ out 1024 1024 =
        .ok (List.replicate 1024 7, out.length)) ∧
    (∃ out, lzhCompress { Alloc.granted with d := ⟨false, false, false, false, false⟩ }
        (List.replicate 40 97) 2093 1 = some out ∧
      lzhDecompress .granted out 40 = List.replicate 40 97) ∧
    ∃ out, lzhCompress { Alloc.granted with ll := ⟨true, true, true, false, true⟩ }
        (List.replicate 40 97) 2093 1 = some out ∧
      lzhDecompress .granted out 40 ≠ List.replicate 40 97 := by
  have hall := failed_allocations ⟨fun _ => 0, 0, fun _ => 0, fun _ => 0, fun _ => 0⟩
  refine ⟨?_, ?_, ?_, ?_⟩
  · exact mt (hall.1 ⟨false, true, true⟩ [1, 2, 3] 100 (by decide)).mp (by decide)
  · have hsome : (vvhEncode4 ⟨false, false, false⟩ (List.replicate 1024 7) 2000).toOption.isSome := by
      rw [vvhEncode4, histogram_replicate]
      decide +kernel
    cases hout : vvhEncode4 ⟨false, false, false⟩ (List.replicate 1024 7) 2000 with
    | error e =>
        rw [hout] at hsome
        cases hsome
    | ok out =>
        have hrun := hall.2.1 _ (List.replicate 1024 7) 2000 out
          (by rw [List.length_replicate]; decide) hout
        rw [List.length_replicate] at hrun
        exact ⟨out, rfl, hrun⟩
  · obtain ⟨out, hout⟩ := Option.isSome_iff_exists.mp
      (show (lzhCompress { Alloc.granted with d := ⟨false, false, false, false, false⟩ }
        (List.replicate 40 97) 2093 1).isSome by decide +kernel)
    exact ⟨out, hout, (hall.2.2 _ (List.replicate 40 97) 1 2093 out (by decide) (by decide) hout).1
      ⟨Or.inr ⟨rfl, rfl, Or.inl rfl⟩, Or.inl (by decide)⟩⟩
  · obtain ⟨out, hout⟩ := Option.isSome_iff_exists.mp
      (show (lzhCompress { Alloc.granted with ll := ⟨true, true, true, false, true⟩ }
        (List.replicate 40 97) 2093 1).isSome by decide +kernel)
    exact ⟨out, hout, (hall.2.2 _ (List.replicate 40 97) 1 2093 out (by decide) (by decide) hout).2
      (Or.inl ⟨by decide, rfl⟩)⟩

/-- A success that is none: three bytes become two without a code. -/
theorem failure_is_silent :
    ¬ ∀ (a : TreeAlloc) (src : Bytes) (dst_cap : Nat) (out : Bytes),
      vvhEncode a src dst_cap = .ok out →
        ∀ workspace, vvhDecode workspace out src.length src.length = .ok (src, out.length) := by
  intro h
  have hok : vvhEncode ⟨false, true, true⟩ [1, 2, 3] 100 = .ok [0, 0] :=
    vvhEncode_failed (by decide) rfl (by decide)
  have hdec := h _ _ _ _ hok ⟨fun _ => 0, 0, fun _ => 0, fun _ => 0, fun _ => 0⟩
  rw [vvhDecode_failed _ (by decide)] at hdec
  cases hdec

end Zupt.Lzh
