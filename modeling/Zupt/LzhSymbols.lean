import Zupt.LzhLayers
import Zupt.LzhParse

/-! # The symbols of Zupt-LZH

    A symbol is written as a few fields.  Where all of them are there and every
    symbol has a code, the decoder goes along the same positions of the source as
    the parse did. -/

namespace Zupt.Lzh

open Zupt.LittleEndian Zupt.Window Zupt.Canonical Zupt.BitStream Zupt.VaptVupt

/-! ## The fields of a symbol -/

/-- A code, if the symbol has one. -/
def codeField (c : HCodes) (cnt s : Nat) : List (Nat × Nat) :=
  if s < cnt ∧ 0 < c.len s then [(c.code s, c.len s)] else []

/-- Extra bits, if there are some. -/
def extraField (v n : Nat) : List (Nat × Nat) := if 0 < n then [(v, n)] else []

/-- The fields of a symbol. -/
def symFields (c : Codes) (sym : LzSym) : List (Nat × Nat) :=
  codeField c.ll c.ll_cnt sym.litlen ++
    if 257 ≤ sym.litlen ∧ sym.litlen ≤ 292 then
      extraField (sym.match_len - lenBase.getD (sym.litlen - 257) 0)
          (lenExtra.getD (sym.litlen - 257) 0) ++
        (codeField c.d c.d_cnt sym.dist_code ++
          extraField (sym.match_dist - distBase.getD sym.dist_code 0)
            (distExtra.getD sym.dist_code 0))
    else []

/-- The extra bits have room for what is above the bases. -/
def LzSym.Fits (sym : LzSym) : Prop :=
  257 ≤ sym.litlen → sym.litlen ≤ 292 →
    sym.match_len - lenBase.getD (sym.litlen - 257) 0 < 2 ^ lenExtra.getD (sym.litlen - 257) 0 ∧
      sym.match_dist - distBase.getD sym.dist_code 0 < 2 ^ distExtra.getD sym.dist_code 0

theorem literal_fits (b : UInt8) : (literal b).Fits := by
  intro hlow
  have hlt := b.toNat_lt
  have hlow' : 257 ≤ b.toNat := hlow
  omega

theorem eob_fits : eob.Fits := fun hlow => absurd hlow (by decide)

theorem GoodMatch.fits {src : Bytes} {ip : Nat} {m : Best} (h : GoodMatch src ip m) :
    (matchSym m).Fits := by
  intro _ _
  obtain ⟨-, -, hlen⟩ := lenToCode_spec h.low h.high
  obtain ⟨-, -, hdist⟩ := distToCode_spec h.isMatch.far h.near
  have hcode : (matchSym m).litlen - 257 = lastBase lenBase m.len lenCodes := Nat.add_sub_cancel_left ..
  rw [hcode]
  exact ⟨hlen, hdist⟩

theorem Covers.fits {src : Bytes} {a b : Nat} {syms : List LzSym} (h : Covers src a syms b) :
    ∀ sym ∈ syms, sym.Fits := by
  induction h with
  | nil => exact fun sym hsym => absurd hsym List.not_mem_nil
  | lit _ _ ih =>
      intro sym hsym
      rcases List.mem_cons.mp hsym with rfl | hrest
      · exact literal_fits _
      · exact ih sym hrest
  | copy hm _ ih =>
      intro sym hsym
      rcases List.mem_cons.mp hsym with rfl | hrest
      · exact hm.fits
      · exact ih sym hrest

section Fields

variable {cap : Nat} {c : Codes} {w : BitWr} {fs : List (Nat × Nat)}

theorem putCode_wrote {h : HCodes} (hfits : h.Fits) (cnt s : Nat) (hw : w.Wrote cap fs) :
    (putCode cap h cnt s w).Wrote cap (fs ++ codeField h cnt s) := by
  rw [putCode, codeField]
  split
  · exact hw.put (hfits.below s)
  · rw [List.append_nil]
    exact hw

theorem putExtra_wrote {v n : Nat} (hv : v < 2 ^ n) (hw : w.Wrote cap fs) :
    (putExtra cap v n w).Wrote cap (fs ++ extraField v n) := by
  rw [putExtra, extraField]
  split
  · exact hw.put hv
  · rw [List.append_nil]
    exact hw

theorem putSym_wrote (hll : c.ll.Fits) (hd : c.d.Fits) {sym : LzSym} (hsym : sym.Fits)
    (hw : w.Wrote cap fs) : (putSym cap c sym w).Wrote cap (fs ++ symFields c sym) := by
  have hcode := putCode_wrote hll c.ll_cnt sym.litlen hw
  rw [putSym, symFields]
  by_cases hmatch : 257 ≤ sym.litlen ∧ sym.litlen ≤ 292
  · obtain ⟨hlen, hdist⟩ := hsym hmatch.1 hmatch.2
    rw [if_pos hmatch]
    dsimp only
    rw [if_pos hmatch, ← List.append_assoc, ← List.append_assoc, ← List.append_assoc]
    exact putExtra_wrote hdist (putCode_wrote hd _ _ (putExtra_wrote hlen hcode))
  · rw [if_neg hmatch, if_neg hmatch, List.append_nil]
    exact hcode

theorem foldl_putSym_wrote (hll : c.ll.Fits) (hd : c.d.Fits) {syms : List LzSym}
    (hsyms : ∀ sym ∈ syms, sym.Fits) (hw : w.Wrote cap fs) :
    (syms.foldl (fun w sym => putSym cap c sym w) w).Wrote cap (fs ++ syms.flatMap (symFields c)) := by
  induction syms generalizing w fs with
  | nil =>
      rw [List.flatMap_nil, List.append_nil]
      exact hw
  | cons sym syms ih =>
      rw [List.foldl_cons, List.flatMap_cons, ← List.append_assoc]
      exact ih (fun s hs => hsyms s (List.mem_cons_of_mem sym hs))
        (putSym_wrote hll hd (hsyms sym List.mem_cons_self) hw)

/-- **THE BITSTREAM** is what the capacity has room for of the packed fields. -/
theorem putSyms_eq (hll : c.ll.Fits) (hd : c.d.Fits) {syms : List LzSym}
    (hsyms : ∀ sym ∈ syms, sym.Fits) (cap : Nat) :
    putSyms cap c syms = (packed (syms.flatMap (symFields c))).take cap :=
  (foldl_putSym_wrote hll hd hsyms (wrote_init cap)).flush

end Fields

/-! ## Counts and codes -/

theorem highest_spec {freq : Nat → Nat} {low n i : Nat} (hlow : low ≤ i) (hi : i < low + n)
    (hpos : 0 < freq i) (d : Nat) : i < (highest freq low n).getD d := by
  induction n with
  | zero => omega
  | succ n ih =>
      rw [highest]
      by_cases hlast : 0 < freq (low + n)
      · rw [if_pos hlast, Option.getD_some]
        omega
      · rw [if_neg hlast]
        refine ih ?_
        have hne : i ≠ low + n := by
          rintro rfl
          exact hlast hpos
        omega

theorem highest_le (freq : Nat → Nat) {low n d top : Nat} (hd : 1 ≤ d ∧ d ≤ top) (htop : low + n ≤ top) :
    1 ≤ (highest freq low n).getD d ∧ (highest freq low n).getD d ≤ top := by
  induction n with
  | zero => exact hd
  | succ n ih =>
      rw [highest]
      split
      · rw [Option.getD_some]
        omega
      · exact ih (by omega)

theorem llCount_le (syms : List LzSym) : 1 ≤ llCount syms ∧ llCount syms ≤ maxLitlen :=
  highest_le _ (by decide) (by decide)

theorem dCount_le (syms : List LzSym) : 1 ≤ dCount syms ∧ dCount syms ≤ maxDist :=
  highest_le _ (by decide) (by decide)

theorem low_lt_llCount (syms : List LzSym) {i : Nat} (hi : i < 257) : i < llCount syms := by
  have hlow : ∀ n, 257 ≤ (highest (llFreq syms) 257 n).getD 257 := by
    intro n
    induction n with
    | zero => exact Nat.le_refl 257
    | succ n ih =>
        rw [highest]
        split
        · rw [Option.getD_some]
          omega
        · exact ih
  exact hi.trans_le (hlow _)

/-- The code of the end of the block that is put in where it has none. -/
theorem HCodes.Fits.withEob {h : HCodes} (hfits : h.Fits) :
    (HCodes.mk (Function.update h.len 256 1) (Function.update h.code 256 0)).Fits := by
  constructor
  · intro i
    show Function.update h.len 256 1 i ≤ _
    by_cases hi : i = 256
    · rw [hi, Function.update_self]
      decide
    · rw [Function.update_of_ne hi]
      exact hfits.short i
  · intro i
    show Function.update h.code 256 0 i < 2 ^ Function.update h.len 256 1 i
    by_cases hi : i = 256
    · rw [hi, Function.update_self, Function.update_self]
      decide
    · rw [Function.update_of_ne hi, Function.update_of_ne hi]
      exact hfits.below i

theorem buildCodes_fits (a : Alloc) (syms : List LzSym) :
    (buildCodes a syms).ll.Fits ∧ (buildCodes a syms).d.Fits := by
  have hll : (huffBuild a.ll (llFreq syms) (llCount syms)).Fits :=
    huffBuild_fits ((llCount_le syms).2.trans (by decide))
  have hd : (huffBuild a.d (dFreq syms) (dCount syms)).Fits :=
    huffBuild_fits ((dCount_le syms).2.trans (by decide))
  refine ⟨?_, hd⟩
  rw [buildCodes]
  dsimp only
  split
  · exact hll.withEob
  · exact hll

/-- Every symbol can be decoded: it has a code, and of a match so has the distance. -/
structure Codes.Has (c : Codes) (sym : LzSym) : Prop where
  ll : sym.litlen < c.ll_cnt ∧ 0 < c.ll.len sym.litlen
  d : 257 ≤ sym.litlen → sym.dist_code < c.d_cnt ∧ 0 < c.d.len sym.dist_code

/-- Both codes can be read back. -/
structure Codes.Good (c : Codes) : Prop where
  ll : ∃ freq, GoodCode freq c.ll_cnt c.ll
  d : ∃ freq, GoodCode freq c.d_cnt c.d

/-- Neither code was short of memory. -/
def Alloc.Enough (a : Alloc) (syms : List LzSym) : Prop :=
  a.ll.Enough (llFreq syms) (llCount syms) ∧ a.d.Enough (dFreq syms) (dCount syms)

section Codes

variable {syms : List LzSym} {a : Alloc}

theorem llFreq_pos (hlen : syms.length < 2 ^ 32) {sym : LzSym} (hsym : sym ∈ syms)
    (hlow : sym.litlen < maxLitlen) : 0 < llFreq syms sym.litlen := by
  have hle : (syms.countP fun s => decide (s.litlen < maxLitlen ∧ s.litlen = sym.litlen)) < 2 ^ 32 :=
    List.countP_le_length.trans_lt hlen
  rw [llFreq, Nat.mod_eq_of_lt hle]
  exact List.countP_pos_iff.mpr ⟨sym, hsym, decide_eq_true ⟨hlow, rfl⟩⟩

theorem dFreq_pos (hlen : syms.length < 2 ^ 32) {sym : LzSym} (hsym : sym ∈ syms)
    (hlow : 257 ≤ sym.litlen) (hhigh : sym.litlen ≤ 292) : 0 < dFreq syms sym.dist_code := by
  have hle : (syms.countP fun s => decide (257 ≤ s.litlen ∧ s.litlen ≤ 292 ∧
      s.dist_code = sym.dist_code)) < 2 ^ 32 :=
    List.countP_le_length.trans_lt hlen
  rw [dFreq, Nat.mod_eq_of_lt hle]
  exact List.countP_pos_iff.mpr ⟨sym, hsym, decide_eq_true ⟨hlow, hhigh, rfl⟩⟩

/-- Symbols that the alphabets have. -/
structure LzSym.Inside (sym : LzSym) : Prop where
  litlen : sym.litlen < maxLitlen
  dist : sym.dist_code < maxDist

theorem Covers.inside_alphabet {src : Bytes} {a b : Nat} {syms : List LzSym}
    (h : Covers src a syms b) : ∀ sym ∈ syms, sym.Inside := by
  induction h with
  | nil => exact fun sym hsym => absurd hsym List.not_mem_nil
  | @lit ip last syms hip hrest ih =>
      intro sym hsym
      rcases List.mem_cons.mp hsym with rfl | hmem
      · have hlt := (charAt src ip).toNat_lt
        refine ⟨?_, by show 0 < 40; decide⟩
        show (charAt src ip).toNat < 293
        omega
      · exact ih sym hmem
  | @copy ip last syms m hm hrest ih =>
      intro sym hsym
      rcases List.mem_cons.mp hsym with rfl | hmem
      · obtain ⟨hlen, -⟩ := lenToCode_spec hm.low hm.high
        obtain ⟨hdist, -⟩ := distToCode_spec hm.isMatch.far hm.near
        rw [lenCodes] at hlen
        refine ⟨?_, hdist⟩
        show 257 + lastBase lenBase m.len 36 < 293
        omega
      · exact ih sym hmem

theorem eob_inside : eob.Inside := ⟨by decide, by decide⟩

/-- **THE CODE OF LITERALS AND LENGTHS** can be read back, and every symbol has one. -/
theorem buildCodes_ll (hlen : syms.length < 2 ^ 32) (heob : eob ∈ syms)
    (hinside : ∀ sym ∈ syms, sym.Inside) (ha : a.ll.Enough (llFreq syms) (llCount syms)) :
    GoodCode (llFreq syms) (llCount syms) (buildCodes a syms).ll ∧
      ∀ sym ∈ syms, sym.litlen < llCount syms ∧ 0 < (buildCodes a syms).ll.len sym.litlen := by
  have hll := huffBuild_good ((llCount_le syms).2.trans (by decide)) ha
  have hcoded : ∀ sym ∈ syms, sym.litlen < llCount syms ∧
      0 < (huffBuild a.ll (llFreq syms) (llCount syms)).len sym.litlen := by
    intro sym hsym
    have hlit := (hinside sym hsym).litlen
    have hpos := llFreq_pos hlen hsym hlit
    have hlt : sym.litlen < llCount syms := by
      by_cases hlow : sym.litlen < 257
      · exact low_lt_llCount syms hlow
      · refine highest_spec (Nat.not_lt.mp hlow) ?_ hpos 257
        rw [maxLitlen] at hlit ⊢
        omega
    exact ⟨hlt, (hll.coded _ hlt).mpr hpos⟩
  have hsame : (buildCodes a syms).ll = huffBuild a.ll (llFreq syms) (llCount syms) :=
    if_neg (Nat.ne_of_gt (hcoded eob heob).2)
  rw [hsame]
  exact ⟨hll, hcoded⟩

/-- **THE CODE OF DISTANCES** can be read back, and every match has one. -/
theorem buildCodes_d (hlen : syms.length < 2 ^ 32) (hinside : ∀ sym ∈ syms, sym.Inside)
    (ha : a.d.Enough (dFreq syms) (dCount syms)) :
    GoodCode (dFreq syms) (dCount syms) (buildCodes a syms).d ∧
      ∀ sym ∈ syms, 257 ≤ sym.litlen →
        sym.dist_code < dCount syms ∧ 0 < (buildCodes a syms).d.len sym.dist_code := by
  have hd := huffBuild_good ((dCount_le syms).2.trans (by decide)) ha
  refine ⟨hd, fun sym hsym hmatch => ?_⟩
  obtain ⟨hlit, hdist⟩ := hinside sym hsym
  have hpos := dFreq_pos hlen hsym hmatch (by rw [maxLitlen] at hlit; omega)
  have hlt : sym.dist_code < dCount syms :=
    highest_spec (Nat.zero_le _) (by rw [Nat.zero_add]; exact hdist) hpos 1
  exact ⟨hlt, (hd.coded _ hlt).mpr hpos⟩

/-- **THE CODES** of symbols with the end of the block among them: both can be read
    back, and every symbol has one. -/
theorem buildCodes_good (hlen : syms.length < 2 ^ 32) (heob : eob ∈ syms)
    (hinside : ∀ sym ∈ syms, sym.Inside) (ha : a.Enough syms) :
    (buildCodes a syms).Good ∧ ∀ sym ∈ syms, (buildCodes a syms).Has sym := by
  obtain ⟨hll, hllhas⟩ := buildCodes_ll hlen heob hinside ha.1
  obtain ⟨hd, hdhas⟩ := buildCodes_d hlen hinside ha.2
  exact ⟨⟨⟨_, hll⟩, ⟨_, hd⟩⟩, fun sym hsym => ⟨hllhas sym hsym, hdhas sym hsym⟩⟩

end Codes

/-! ## The decoder along the parse -/

section Unpack

variable {c : Codes} {ll_lut d_lut : Nat → Option (Nat × Nat)} {spare : Nat} {r : BitRd}
  {fs : List (Nat × Nat)}

theorem extra_before {v n : Nat} (hv : v < 2 ^ n) (h : r.Before (extraField v n ++ fs) spare) :
    ∃ r', (if 0 < n then r.get n else (0, r)) = (v, r') ∧ r'.Before fs spare := by
  rw [extraField] at h
  by_cases hn : 0 < n
  · rw [if_pos hn] at h ⊢
    exact get_before hv h
  · obtain rfl : n = 0 := by omega
    obtain rfl : v = 0 := Nat.lt_one_iff.mp hv
    rw [if_neg hn] at h ⊢
    exact ⟨r, rfl, h⟩

/-- A code of a good alphabet. -/
theorem code_before {freq : Nat → Nat} {h : HCodes} {cnt s : Nat} {lut : Nat → Option (Nat × Nat)}
    (hgood : GoodCode freq cnt h) (hlut : LutOf h.len cnt cnt lut) (hs : s < cnt) (hpos : 0 < h.len s)
    (hbefore : r.Before (codeField h cnt s ++ fs) spare) :
    ∃ r', huffDec r lut = some (s, r') ∧ r'.Before fs spare := by
  rw [codeField, if_pos ⟨hs, hpos⟩, List.singleton_append, hgood.code s hs hpos] at hbefore
  exact huffDec_before hlut hs hpos (hgood.short s hs) hbefore

/-- **A MATCH** before the reader is read. -/
theorem readMatch_before {src : Bytes} {ip : Nat} {m : Best} {freq : Nat → Nat}
    (hm : GoodMatch src ip m) (hgood : GoodCode freq c.d_cnt c.d)
    (hlut : LutOf c.d.len c.d_cnt c.d_cnt d_lut)
    (hhas : distToCode m.off < c.d_cnt ∧ 0 < c.d.len (distToCode m.off))
    (hbefore : r.Before (extraField (m.len - lenBase.getD (lastBase lenBase m.len lenCodes) 0)
        (lenExtra.getD (lastBase lenBase m.len lenCodes) 0) ++
      (codeField c.d c.d_cnt (distToCode m.off) ++
        (extraField (m.off - distBase.getD (distToCode m.off) 0)
          (distExtra.getD (distToCode m.off) 0) ++ fs))) spare) :
    ∃ r', readMatch d_lut (lastBase lenBase m.len lenCodes) r = some (r', m.len, m.off) ∧
      r'.Before fs spare := by
  obtain ⟨-, hbase, hextra⟩ := lenToCode_spec hm.low hm.high
  obtain ⟨hdist, hdbase, hdextra⟩ := distToCode_spec hm.isMatch.far hm.near
  obtain ⟨r1, hlen, h1⟩ := extra_before hextra hbefore
  obtain ⟨r2, hdec, h2⟩ := code_before hgood hlut hhas.1 hhas.2 h1
  obtain ⟨r3, hoff, h3⟩ := extra_before hdextra h2
  refine ⟨r3, ?_, h3⟩
  rw [readMatch]
  dsimp only
  rw [hlen]
  dsimp only
  rw [hdec]
  dsimp only
  rw [if_neg (Nat.not_le.mpr hdist), hoff]
  dsimp only
  rw [Nat.add_sub_cancel' hbase, Nat.add_sub_cancel' hdbase]

section Turn

variable {out_cap sym : Nat} {r' r2 : BitRd} {out : Bytes}

theorem unpackTurn_literal (hdec : huffDec r ll_lut = some (sym, r')) (hsym : sym < 256)
    (hroom : out.length < out_cap) :
    unpackTurn ll_lut d_lut out_cap r out = some (r', out ++ [UInt8.ofNat sym]) := by
  have hin : ¬ maxLitlen ≤ sym := by
    rw [maxLitlen]
    omega
  rw [unpackTurn, hdec]
  dsimp only
  rw [if_neg hin, if_pos hsym, if_neg (Nat.not_le.mpr hroom)]

theorem unpackTurn_eob (hdec : huffDec r ll_lut = some (256, r')) :
    unpackTurn ll_lut d_lut out_cap r out = none := by
  rw [unpackTurn, hdec]
  dsimp only
  rw [if_neg (by decide), if_neg (by decide), if_pos rfl]

theorem unpackTurn_match {li length distance : Nat} (hdec : huffDec r ll_lut = some (257 + li, r'))
    (hli : li < lenCodes) (hread : readMatch d_lut li r' = some (r2, length, distance))
    (hdist : 0 < distance ∧ distance ≤ out.length) (hroom : out.length + length ≤ out_cap) :
    unpackTurn ll_lut d_lut out_cap r out = some (r2, extend out distance length) := by
  have hin : ¬ maxLitlen ≤ 257 + li := by
    rw [lenCodes] at hli
    rw [maxLitlen]
    omega
  have hcode : 257 + li - 257 = li := Nat.add_sub_cancel_left ..
  rw [unpackTurn, hdec]
  dsimp only
  rw [if_neg hin, if_neg (by omega), if_neg (by omega), hcode, if_neg (Nat.not_le.mpr hli), hread]
  dsimp only
  rw [if_neg (by omega)]

end Turn

/-- **A LITERAL** before the decoder is put behind the bytes of the source. -/
theorem unpackLoop_literal {src : Bytes} {out_cap ip : Nat} {freq : Nat → Nat}
    (hcap : src.length ≤ out_cap) (hgood : GoodCode freq c.ll_cnt c.ll)
    (hll : LutOf c.ll.len c.ll_cnt c.ll_cnt ll_lut) (hip : ip < src.length)
    (hhas : c.Has (literal (charAt src ip))) (turns : Nat)
    (hbefore : r.Before (symFields c (literal (charAt src ip)) ++ fs) spare) :
    ∃ r', unpackLoop ll_lut d_lut out_cap (turns + 1) r (src.take ip) =
        unpackLoop ll_lut d_lut out_cap turns r' (src.take (ip + 1)) ∧ r'.Before fs spare := by
  have hbyte := (charAt src ip).toNat_lt
  have hfields : symFields c (literal (charAt src ip)) =
      codeField c.ll c.ll_cnt (charAt src ip).toNat := by
    rw [symFields, if_neg, List.append_nil]
    · rfl
    · show ¬ (257 ≤ (charAt src ip).toNat ∧ (charAt src ip).toNat ≤ 292)
      omega
  rw [hfields] at hbefore
  obtain ⟨r', hdec, hnext⟩ := code_before hgood hll hhas.ll.1 hhas.ll.2 hbefore
  have hlen : (src.take ip).length = ip := by
    rw [List.length_take]
    omega
  have htake : src.take ip ++ [UInt8.ofNat (charAt src ip).toNat] = src.take (ip + 1) := by
    rw [UInt8.ofNat_toNat, charAt, List.getD_eq_getElem _ _ hip, List.take_concat_get' _ _ hip]
  refine ⟨r', ?_, hnext⟩
  rw [unpackLoop, unpackTurn_literal hdec hbyte (by omega)]
  show unpackLoop ll_lut d_lut out_cap turns r' (src.take ip ++
    [UInt8.ofNat (charAt src ip).toNat]) = _
  rw [htake]

/-- **THE DECODER** goes along the positions of the parse. -/
theorem unpackLoop_covers {src : Bytes} {out_cap : Nat} (hcap : src.length ≤ out_cap) (hc : c.Good)
    (hll : LutOf c.ll.len c.ll_cnt c.ll_cnt ll_lut) (hd : LutOf c.d.len c.d_cnt c.d_cnt d_lut)
    (heob : c.Has eob) {ip last : Nat} {syms : List LzSym} (h : Covers src ip syms last)
    (hhas : ∀ sym ∈ syms, c.Has sym) {turns : Nat} (hturns : syms.length < turns)
    (hbefore : r.Before ((syms ++ [eob]).flatMap (symFields c)) spare) :
    unpackLoop ll_lut d_lut out_cap turns r (src.take ip) = src.take last := by
  obtain ⟨⟨llFreq, hgood⟩, ⟨dFreq, hdgood⟩⟩ := hc
  induction h generalizing turns r with
  | nil ip =>
      cases turns with
      | zero => exact absurd hturns (Nat.not_lt_zero _)
      | succ turns =>
          rw [List.nil_append, List.flatMap_cons, symFields, List.append_assoc] at hbefore
          obtain ⟨r', hdec, -⟩ := code_before hgood hll heob.ll.1 heob.ll.2 hbefore
          rw [unpackLoop, unpackTurn_eob hdec]
  | @lit ip last syms hip hrest ih =>
      cases turns with
      | zero => exact absurd hturns (Nat.not_lt_zero _)
      | succ turns =>
          rw [List.cons_append, List.flatMap_cons] at hbefore
          obtain ⟨r', hstep, hnext⟩ := unpackLoop_literal hcap hgood hll hip
            (hhas _ List.mem_cons_self) turns hbefore
          have hturns' : syms.length + 1 < turns + 1 := hturns
          rw [hstep]
          exact ih (fun s hs => hhas s (List.mem_cons_of_mem _ hs)) (by omega) hnext
  | @copy ip last syms m hm hrest ih =>
      cases turns with
      | zero => exact absurd hturns (Nat.not_lt_zero _)
      | succ turns =>
          have hsym := hhas _ List.mem_cons_self
          obtain ⟨hcode, -⟩ := lenToCode_spec hm.low hm.high
          have hinside := hm.inside
          have hfar := hm.isMatch.far
          have hback := hm.isMatch.back
          have hli : lenToCode m.len - 257 = lastBase lenBase m.len lenCodes := Nat.add_sub_cancel_left ..
          have hrange : 257 ≤ lenToCode m.len ∧ lenToCode m.len ≤ 292 := by
            rw [lenToCode]
            rw [lenCodes] at hcode ⊢
            omega
          rw [List.cons_append, List.flatMap_cons, symFields, List.append_assoc] at hbefore
          obtain ⟨r1, hdec, h1⟩ := code_before hgood hll hsym.ll.1 hsym.ll.2 hbefore
          rw [if_pos (show 257 ≤ (matchSym m).litlen ∧ (matchSym m).litlen ≤ 292 from hrange),
            List.append_assoc, List.append_assoc] at h1
          have h1' := h1
          rw [show (matchSym m).litlen - 257 = lastBase lenBase m.len lenCodes from hli] at h1'
          obtain ⟨r2, hread, h2⟩ := readMatch_before hm hdgood hd (hsym.d hrange.1) h1'
          have hlen : (src.take ip).length = ip := by
            rw [List.length_take]
            omega
          have hturns' : syms.length + 1 < turns + 1 := hturns
          rw [unpackLoop, unpackTurn_match hdec hcode hread ⟨hfar, by omega⟩ (by omega),
            hm.isMatch.extend hinside]
          exact ih (fun s hs => hhas s (List.mem_cons_of_mem _ hs)) (by omega) h2

end Unpack

end Zupt.Lzh
