import Zupt.Frame
import Zupt.LzhSymbols

/-! # The Zupt-LZH round trip

    A block is a header and the fields of its symbols, as far as the capacity has
    room for them.  The header is there as a whole or there is no block, but of the
    symbols the bits that do not fit are left out without a word: only a capacity of
    at least the size of the source sees to it that such a block is thrown away. -/

namespace Zupt.Lzh

open Zupt.LittleEndian Zupt.Window Zupt.Canonical Zupt.BitStream Zupt.VaptVupt

/-! ## The header -/

/-- A block of code lengths, compressed. -/
def lensBlock (lens : List Nat) : Bytes :=
  lePut 2 ((clEncode lens 2048).length ||| 0x8000) ++ clEncode lens 2048

section Header

variable {lens : List Nat}

/-- Code lengths of an alphabet are compressed, and read back. -/
theorem clEncode_spec (hne : lens ≠ []) (hlen : lens.length ≤ 1000) (hshort : ∀ v ∈ lens, v ≤ 15) :
    (clEncode lens 2048).length ≠ 0 ∧ (clEncode lens 2048).length < 0x8000 ∧
      clDecode lens.length (clEncode lens 2048) 0 [] = some lens := by
  obtain ⟨enc, henc, hreads, hbytes, hsome⟩ := clLoop_spec (Nat.le_refl lens.length) hshort
    (show [].length + 2 * lens.length ≤ 2048 by rw [List.length_nil]; omega)
  have hcl : clEncode lens 2048 = enc := by
    rw [clEncode, henc]
    rfl
  obtain ⟨prev, hdec⟩ := hreads lens.length [] 0 [] (by rw [List.length_nil, Nat.zero_add])
  rw [hcl]
  refine ⟨mt List.length_eq_zero_iff.mp (hsome hne), by omega, ?_⟩
  rw [List.append_nil] at hdec
  rw [hdec, clDecode, List.nil_append]

/-- **A BLOCK OF LENGTHS** is read back. -/
theorem readLens_lensBlock (hne : lens ≠ []) (hlen : lens.length ≤ 1000) (hshort : ∀ v ∈ lens, v ≤ 15)
    (most : Nat) (rest : Bytes) :
    readLens lens.length most (lensBlock lens ++ rest) = some (fun i => lens.getD i 0, rest) := by
  obtain ⟨-, hsmall, hdec⟩ := clEncode_spec hne hlen hshort
  rw [lensBlock]
  generalize clEncode lens 2048 = cl at hsmall hdec ⊢
  have hflag : cl.length ||| 0x8000 = cl.length + 0x8000 := by
    have hor := or_shiftLeft (n := 15) hsmall 1
    rw [Nat.shiftLeft_eq, Nat.one_mul, Nat.mul_one] at hor
    exact hor
  have hlong : ¬ (lePut 2 (cl.length ||| 0x8000) ++ cl ++ rest).length < 2 := by
    rw [List.length_append, List.length_append, lePut_length]
    omega
  have htake : (lePut 2 (cl.length ||| 0x8000) ++ cl ++ rest).take 2 =
      lePut 2 (cl.length ||| 0x8000) := by
    rw [List.append_assoc]
    exact List.take_left' (lePut_length 2 _)
  have hdrop : (lePut 2 (cl.length ||| 0x8000) ++ cl ++ rest).drop 2 = cl ++ rest := by
    rw [List.append_assoc]
    exact List.drop_left' (lePut_length 2 _)
  have hhdr : leGet (lePut 2 (cl.length ||| 0x8000)) = cl.length + 0x8000 := by
    rw [leGet_lePut, hflag]
    exact Nat.mod_eq_of_lt (by show _ < 65536; omega)
  have hmod : (cl.length + 0x8000) % 0x8000 = cl.length := by
    rw [Nat.add_mod_right, Nat.mod_eq_of_lt hsmall]
  rw [readLens, if_neg hlong]
  dsimp only
  rw [htake, hdrop, hhdr, if_pos (Nat.le_add_left _ _), hmod, List.take_left, List.drop_left, hdec,
    if_neg (by rw [List.length_append]; omega)]

end Header

/-- What stands in front of the symbols. -/
def headerBytes (rle_on : Bool) (slen : Nat) (c : Codes) : Bytes :=
  [if rle_on then 1 else 0] ++ (if rle_on then lePut 4 slen else []) ++
    (lePut 2 c.ll_cnt ++ lePut 2 c.d_cnt) ++ lensBlock (lensOf c.ll c.ll_cnt) ++
      lensBlock (lensOf c.d c.d_cnt)

/-- Bytes that fit the capacity. -/
def fitted (dcap : Nat) (b : Bytes) : Option Bytes := if dcap < b.length then none else some b

theorem append_eq (dcap : Nat) (out : Bytes) {need : Nat} {bytes : Bytes} (h : need = bytes.length) :
    append dcap out need bytes = fitted dcap (out ++ bytes) := by
  rw [append, fitted, List.length_append, h]

theorem fitted_bind (dcap : Nat) (a b : Bytes) :
    ((fitted dcap a).bind fun out => fitted dcap (out ++ b)) = fitted dcap (a ++ b) := by
  rw [fitted]
  by_cases hroom : dcap < a.length
  · rw [if_pos hroom, fitted, if_pos (by rw [List.length_append]; omega)]
    rfl
  · rw [if_neg hroom]
    rfl

theorem putLens_eq {lens : List Nat} (hne : lens ≠ []) (hlen : lens.length ≤ 1000)
    (hshort : ∀ v ∈ lens, v ≤ 15) (dcap more : Nat) (out : Bytes) :
    putLens dcap lens more out = fitted dcap (out ++ lensBlock lens) := by
  obtain ⟨hsome, -, -⟩ := clEncode_spec hne hlen hshort
  rw [putLens, if_neg hsome]
  refine append_eq dcap out ?_
  rw [List.length_append, lePut_length]

section Lens

variable {h : HCodes} {cnt : Nat}

@[simp] theorem lensOf_length (h : HCodes) (cnt : Nat) : (lensOf h cnt).length = cnt := by
  rw [lensOf, List.length_map, List.length_range]

theorem lensOf_ne (hcnt : 1 ≤ cnt) : lensOf h cnt ≠ [] := by
  intro hnil
  have hlen := lensOf_length h cnt
  rw [hnil, List.length_nil] at hlen
  omega

theorem lensOf_short (hfits : h.Fits) : ∀ v ∈ lensOf h cnt, v ≤ 15 := by
  intro v hv
  obtain ⟨i, -, rfl⟩ := List.mem_map.mp hv
  exact hfits.short i

/-- The lengths that are read are those of the code. -/
theorem lensOf_getD (hinside : ∀ i, cnt ≤ i → h.len i = 0) :
    (fun i => (lensOf h cnt).getD i 0) = h.len := by
  funext i
  by_cases hi : i < cnt
  · rw [lensOf, List.getD_eq_getElem?_getD, List.getElem?_map, List.getElem?_range hi]
    rfl
  · rw [List.getD_eq_default _ _ (by rw [lensOf_length]; omega), hinside i (Nat.not_lt.mp hi)]

end Lens

/-- A parse's codes, as far as the header needs them. -/
structure Codes.Header (c : Codes) : Prop where
  ll_cnt : 1 ≤ c.ll_cnt ∧ c.ll_cnt ≤ maxLitlen
  d_cnt : 1 ≤ c.d_cnt ∧ c.d_cnt ≤ maxDist
  ll : c.ll.Fits
  d : c.d.Fits

theorem buildCodes_header (a : Alloc) (syms : List LzSym) : (buildCodes a syms).Header :=
  ⟨llCount_le syms, dCount_le syms, (buildCodes_fits a syms).1, (buildCodes_fits a syms).2⟩

/-- **THE HEADER** is there as a whole or not at all. -/
theorem lzhHeader_eq {c : Codes} (hc : c.Header) (dcap : Nat) (rle_on : Bool) (slen : Nat) :
    lzhHeader dcap rle_on slen c = fitted dcap (headerBytes rle_on slen c) := by
  obtain ⟨⟨hll, hllmax⟩, ⟨hd, hdmax⟩, hllfits, hdfits⟩ := hc
  rw [maxLitlen] at hllmax
  rw [maxDist] at hdmax
  have hflag : append dcap [] 1 [if rle_on then 1 else 0] =
      fitted dcap [if rle_on then 1 else 0] := append_eq dcap [] rfl
  have hsize : ∀ a, (fitted dcap a).bind (putSize dcap rle_on slen) =
      fitted dcap (a ++ if rle_on then lePut 4 slen else []) := by
    intro a
    cases rle_on with
    | true =>
        rw [if_pos rfl, ← fitted_bind]
        refine congrArg _ (funext fun out => ?_)
        exact append_eq dcap out (lePut_length 4 slen).symm
    | false =>
        have hnone : putSize dcap false slen = some := funext fun _ => rfl
        rw [if_neg (by decide), List.append_nil, hnone]
        cases fitted dcap a with
        | none => rfl
        | some out => rfl
  have hcounts : ∀ a, (fitted dcap a).bind
      (fun out => append dcap out 4 (lePut 2 c.ll_cnt ++ lePut 2 c.d_cnt)) =
      fitted dcap (a ++ (lePut 2 c.ll_cnt ++ lePut 2 c.d_cnt)) := by
    intro a
    rw [← fitted_bind]
    exact congrArg _ (funext fun out => append_eq dcap out rfl)
  have hlens : ∀ {h : HCodes} {cnt : Nat} (more : Nat), h.Fits → 1 ≤ cnt → cnt ≤ 1000 → ∀ a,
      (fitted dcap a).bind (putLens dcap (lensOf h cnt) more) =
        fitted dcap (a ++ lensBlock (lensOf h cnt)) := by
    intro h cnt more hfits hlow hhigh a
    rw [← fitted_bind]
    refine congrArg _ (funext fun out => ?_)
    exact putLens_eq (lensOf_ne hlow) (by rw [lensOf_length]; exact hhigh) (lensOf_short hfits) _ _ _
  rw [lzhHeader, hflag, hsize, hcounts, hlens _ hllfits hll (by omega),
    hlens _ hdfits hd (by omega), headerBytes]

/-! ## The block -/

section Block

variable {a : Alloc} {ua : UnpackAlloc} {src : Bytes} {level : Int}

/-- The parse reads the source, or fewer bytes that stand for it. -/
theorem rlePrepare_spec (rle_buf : Bool) (src : Bytes) :
    rlePrepare rle_buf src = (src, false) ∨
      ∃ rle, rlePrepare rle_buf src = (rle, true) ∧ Rle rle src ∧ rle.length < src.length := by
  rw [rlePrepare]
  split
  swap
  · exact Or.inl rfl
  split
  swap
  · exact Or.inl rfl
  split
  · exact Or.inl rfl
  · rename_i rle hrle
    rw [rleEncode] at hrle
    split at hrle
    · cases hrle
    rename_i out hloop
    split at hrle
    swap
    · cases hrle
    rename_i hshorter
    obtain rfl := Option.some.inj hrle
    obtain ⟨enc, rfl, hstands⟩ := rleLoop_spec (Nat.le_refl src.length) hloop
    split
    · exact Or.inr ⟨_, rfl, hstands, hshorter⟩
    · exact Or.inl rfl

/-- What `zupt_lzh_compress` parses. -/
def parseOf (rle_buf : Bool) (src : Bytes) (level : Int) : List LzSym :=
  lzSyms (rlePrepare rle_buf src).1 (lzhConfig (max 1 (min level 9)).toNat)

/-- The codes of `zupt_lzh_compress`. -/
def codesFor (a : Alloc) (src : Bytes) (level : Int) : Codes :=
  buildCodes a (parseOf a.rle_buf src level)

/-- The header of a block. -/
def blockHeader (a : Alloc) (src : Bytes) (level : Int) : Bytes :=
  headerBytes (rlePrepare a.rle_buf src).2 (src.length % 2 ^ 32) (codesFor a src level)

/-- The fields of a block. -/
def blockFields (a : Alloc) (src : Bytes) (level : Int) : List (Nat × Nat) :=
  (parseOf a.rle_buf src level).flatMap (symFields (codesFor a src level))

/-- The complete encoding of a block: the header and all bits of the symbols. -/
def encoding (a : Alloc) (src : Bytes) (level : Int) : Bytes :=
  blockHeader a src level ++ packed (blockFields a src level)

theorem parseOf_covers (rle_buf : Bool) (src : Bytes) (level : Int) :
    ∃ syms, parseOf rle_buf src level = syms ++ [eob] ∧
      Covers (rlePrepare rle_buf src).1 0 syms (rlePrepare rle_buf src).1.length :=
  lzSyms_covers (lzhConfig_sane _) _

theorem parseOf_fits (rle_buf : Bool) (src : Bytes) (level : Int) :
    ∀ sym ∈ parseOf rle_buf src level, sym.Fits := by
  obtain ⟨syms, hsyms, hcovers⟩ := parseOf_covers rle_buf src level
  intro sym hsym
  rw [hsyms] at hsym
  rcases List.mem_append.mp hsym with hmem | hlast
  · exact hcovers.fits sym hmem
  · obtain rfl := List.mem_singleton.mp hlast
    exact eob_fits

/-- **A BLOCK** is what the capacity has room for of the complete encoding, where it has
    room for the header. -/
theorem lzhCompress_eq (a : Alloc) (src : Bytes) (dcap : Nat) (level : Int) :
    lzhCompress a src dcap level =
      if src.length ≠ 0 ∧ (a.ht && a.ch && a.syms) = true ∧
          (blockHeader a src level).length ≤ dcap ∧
          ((encoding a src level).take dcap).length < src.length then
        some ((encoding a src level).take dcap)
      else none := by
  rw [lzhCompress]
  by_cases hempty : src.length = 0
  · rw [if_pos hempty, if_neg fun h => h.1 hempty]
  rw [if_neg hempty]
  dsimp only
  by_cases hroot : (a.ht && a.ch && a.syms) = true
  swap
  · rw [if_neg hroot, if_neg fun h => hroot h.2.1]
  rw [if_pos hroot, lzhHeader_eq (buildCodes_header a _), fitted]
  have hparse : lzSyms (rlePrepare a.rle_buf src).1 (lzhConfig (max 1 (min level 9)).toNat) =
      parseOf a.rle_buf src level := rfl
  have hcodes : buildCodes a (parseOf a.rle_buf src level) = codesFor a src level := rfl
  have hheader : headerBytes (rlePrepare a.rle_buf src).2 (src.length % 2 ^ 32)
      (codesFor a src level) = blockHeader a src level := rfl
  rw [hparse, hcodes, hheader]
  by_cases hroom : dcap < (blockHeader a src level).length
  · rw [if_pos hroom, if_neg fun h => Nat.not_le.mpr hroom h.2.2.1]
  rw [if_neg hroom]
  dsimp only
  have htake : blockHeader a src level ++ putSyms (dcap - (blockHeader a src level).length)
      (codesFor a src level) (parseOf a.rle_buf src level) = (encoding a src level).take dcap := by
    rw [encoding, List.take_append, List.take_of_length_le (Nat.not_lt.mp hroom)]
    obtain ⟨hll, hd⟩ := buildCodes_fits a (parseOf a.rle_buf src level)
    exact congrArg _ (putSyms_eq hll hd (parseOf_fits a.rle_buf src level) _)
  rw [htake]
  by_cases hless : ((encoding a src level).take dcap).length < src.length
  · rw [if_pos hless, if_pos ⟨hempty, hroot, Nat.not_lt.mp hroom, hless⟩]
  · rw [if_neg hless, if_neg fun h => hless h.2.2.2]

/-- The allocations that the decoder needs succeed. -/
def UnpackAlloc.Enough (ua : UnpackAlloc) (rle_on : Bool) : Prop :=
  (ua.ll_lut && ua.d_lut && (!rle_on || ua.rle_tmp)) = true

/-- What the decoder makes of a bitstream. -/
def unpackStream (rle_on : Bool) (ll_lut d_lut : Nat → Option (Nat × Nat)) (dlen : Nat) (s : Bytes) :
    Bytes :=
  let out := unpackLoop ll_lut d_lut dlen (dlen + 1) (.init s) []
  if rle_on then (rleDecode dlen out []).getD [] else out

/-- **THE HEADER** is read back. -/
theorem lzhDecompress_header {c : Codes} (hc : c.Header) (hll : ∀ i, c.ll_cnt ≤ i → c.ll.len i = 0)
    (hd : ∀ i, c.d_cnt ≤ i → c.d.len i = 0) {rle_on : Bool} (hua : ua.Enough rle_on) (slen dlen : Nat)
    (s : Bytes) :
    lzhDecompress ua (headerBytes rle_on slen c ++ s) dlen =
      unpackStream rle_on (huffLut c.ll.len c.ll_cnt) (huffLut c.d.len c.d_cnt) dlen s := by
  obtain ⟨⟨hlllow, hllmax⟩, ⟨hdlow, hdmax⟩, hllfits, hdfits⟩ := hc
  let lens : Bytes := lensBlock (lensOf c.ll c.ll_cnt) ++ (lensBlock (lensOf c.d c.d_cnt) ++ s)
  let counts : Bytes := lePut 2 c.ll_cnt ++ (lePut 2 c.d_cnt ++ lens)
  have hlen : 4 ≤ counts.length := by
    show 4 ≤ (lePut 2 c.ll_cnt ++ (lePut 2 c.d_cnt ++ lens)).length
    rw [List.length_append, List.length_append, lePut_length, lePut_length]
    omega
  have hbytes : headerBytes rle_on slen c ++ s =
      (if rle_on then 1 else 0) :: ((if rle_on then lePut 4 slen else []) ++ counts) := by
    rw [headerBytes]
    simp only [List.append_assoc, List.cons_append, List.nil_append, counts, lens]
  have hflag : decide ((charAt (headerBytes rle_on slen c ++ s) 0).toNat % 2 = 1) = rle_on := by
    rw [hbytes]
    cases rle_on with
    | true => rfl
    | false => rfl
  have hdrop : (headerBytes rle_on slen c ++ s).drop (if rle_on then 5 else 1) = counts := by
    rw [hbytes]
    cases rle_on with
    | true => exact List.drop_left' (lePut_length 4 slen)
    | false => rfl
  have hlong : ¬ (headerBytes rle_on slen c ++ s).length < 5 := by
    rw [hbytes, List.length_cons, List.length_append]
    omega
  rw [lzhDecompress, if_neg hlong]
  dsimp only
  rw [hflag, hdrop, unpackBody, if_neg (Nat.not_lt.mpr hlen)]
  have hllcnt : leGet (counts.take 2) = c.ll_cnt := by
    rw [show counts.take 2 = lePut 2 c.ll_cnt from List.take_left' (lePut_length 2 _), leGet_lePut]
    rw [maxLitlen] at hllmax
    exact Nat.mod_eq_of_lt (by show _ < 65536; omega)
  have hdcnt : leGet ((counts.drop 2).take 2) = c.d_cnt := by
    rw [show counts.drop 2 = lePut 2 c.d_cnt ++ lens from List.drop_left' (lePut_length 2 _),
      List.take_left' (lePut_length 2 _), leGet_lePut]
    rw [maxDist] at hdmax
    exact Nat.mod_eq_of_lt (by show _ < 65536; omega)
  have hrest : counts.drop 4 = lens := by
    rw [show 4 = 2 + 2 from rfl, ← List.drop_drop,
      show counts.drop 2 = lePut 2 c.d_cnt ++ lens from List.drop_left' (lePut_length 2 _)]
    exact List.drop_left' (lePut_length 2 _)
  have hlllens := readLens_lensBlock (lensOf_ne hlllow)
    (show (lensOf c.ll c.ll_cnt).length ≤ 1000 by
      rw [lensOf_length]
      rw [maxLitlen] at hllmax
      omega)
    (lensOf_short hllfits) maxLitlen (lensBlock (lensOf c.d c.d_cnt) ++ s)
  have hdlens := readLens_lensBlock (lensOf_ne hdlow)
    (show (lensOf c.d c.d_cnt).length ≤ 1000 by
      rw [lensOf_length]
      rw [maxDist] at hdmax
      omega)
    (lensOf_short hdfits) maxDist s
  rw [lensOf_length, lensOf_getD hll] at hlllens
  rw [lensOf_length, lensOf_getD hd] at hdlens
  dsimp only
  rw [hllcnt, hdcnt, if_neg (by omega), hrest, hlllens]
  dsimp only
  rw [hdlens]
  exact if_pos hua

theorem rlePrepare_length_le (rle_buf : Bool) (src : Bytes) :
    (rlePrepare rle_buf src).1.length ≤ src.length := by
  rcases rlePrepare_spec rle_buf src with heq | ⟨rle, heq, -, hless⟩
  · rw [heq]
  · rw [heq]
    exact Nat.le_of_lt hless

/-- The symbols of a block are few enough to be counted, end with the end of the
    block and are in the alphabets. -/
theorem parseOf_spec (rle_buf : Bool) (level : Int) (hsrc : src.length < 2 ^ 32 - 1) :
    (parseOf rle_buf src level).length < 2 ^ 32 ∧ eob ∈ parseOf rle_buf src level ∧
      ∀ sym ∈ parseOf rle_buf src level, sym.Inside := by
  obtain ⟨syms, hsyms, hcovers⟩ := parseOf_covers rle_buf src level
  have hshorter := rlePrepare_length_le rle_buf src
  have hcount := hcovers.length_le
  rw [hsyms]
  refine ⟨?_, List.mem_append_right _ List.mem_cons_self, ?_⟩
  · rw [List.length_append, List.length_singleton]
    omega
  · intro sym hsym
    rcases List.mem_append.mp hsym with hmem | hlast
    · exact hcovers.inside_alphabet sym hmem
    · obtain rfl := List.mem_singleton.mp hlast
      exact eob_inside

/-- **A COMPLETE ENCODING** decodes to the source, unless memory was short. -/
theorem encoding_decodes (hsrc : src.length < 2 ^ 32 - 1)
    (ha : a.Enough (parseOf a.rle_buf src level)) (hua : ua.Enough (rlePrepare a.rle_buf src).2) :
    lzhDecompress ua (encoding a src level) src.length = src := by
  obtain ⟨hfew, heob, hinside⟩ := parseOf_spec a.rle_buf level hsrc
  obtain ⟨hgood, hhas⟩ := buildCodes_good hfew heob hinside ha
  obtain ⟨⟨llFreq, hllgood⟩, ⟨dFreq, hdgood⟩⟩ := id hgood
  obtain ⟨syms, hsyms, hcovers⟩ := parseOf_covers a.rle_buf src level
  have hshorter := rlePrepare_length_le a.rle_buf src
  have hcount := hcovers.length_le
  have hbefore := before_init (blockFields a src level)
  have hfields : blockFields a src level = (syms ++ [eob]).flatMap (symFields (codesFor a src level)) := by
    rw [blockFields, hsyms]
  have hmem : ∀ sym ∈ syms, sym ∈ parseOf a.rle_buf src level := by
    intro sym hsym
    rw [hsyms]
    exact List.mem_append_left _ hsym
  rw [hfields] at hbefore
  have hout := unpackLoop_covers hshorter hgood (huffLut_spec hllgood.short hllgood.kraft)
    (huffLut_spec hdgood.short hdgood.kraft) (hhas eob heob) hcovers
    (fun sym hsym => hhas sym (hmem sym hsym))
    (show syms.length < src.length + 1 by omega) hbefore
  rw [List.take_zero, List.take_length] at hout
  have hheader := lzhDecompress_header (buildCodes_header a (parseOf a.rle_buf src level))
    hllgood.inside hdgood.inside hua (src.length % 2 ^ 32) src.length (packed (blockFields a src level))
  rw [encoding, blockHeader, codesFor, hheader, unpackStream, hfields]
  rw [codesFor] at hout ⊢
  rw [hout]
  rcases rlePrepare_spec a.rle_buf src with heq | ⟨rle, heq, hstands, -⟩
  · rw [heq]
    exact if_neg Bool.false_ne_true
  · rw [heq]
    dsimp only
    rw [if_pos rfl, hstands.decode (by rw [List.length_nil]; omega)]
    rfl

/-- All allocations of `zupt_lzh_compress` succeed. -/
def Alloc.granted : Alloc :=
  ⟨true, true, true, true, ⟨true, true, true, true, true⟩, ⟨true, true, true, true, true⟩⟩

theorem granted_enough (syms : List LzSym) : Alloc.granted.Enough syms :=
  ⟨Or.inr ⟨rfl, rfl, Or.inl rfl⟩, Or.inr ⟨rfl, rfl, Or.inl rfl⟩⟩

/-- All allocations of `zupt_lzh_decompress` succeed. -/
def UnpackAlloc.granted : UnpackAlloc := ⟨true, true, true⟩

theorem unpack_granted (rle_on : Bool) : UnpackAlloc.granted.Enough rle_on := by
  cases rle_on with
  | true => rfl
  | false => rfl

/-- A block is complete where the capacity has room for the source or for all of it. -/
theorem complete_of_room {dcap : Nat}
    (hcap : src.length ≤ dcap ∨ (encoding a src level).length ≤ dcap) {out : Bytes}
    (hout : lzhCompress a src dcap level = some out) :
    out = encoding a src level ∧ out.length < src.length := by
  rw [lzhCompress_eq] at hout
  split at hout
  swap
  · cases hout
  rename_i hall
  obtain rfl := Option.some.inj hout
  obtain ⟨-, -, -, hless⟩ := hall
  refine ⟨List.take_of_length_le ?_, hless⟩
  rw [List.length_take] at hless
  omega

/-- **ROUND TRIP**: a block from a capacity of at least the bound is smaller than its
    source and decodes to it. -/
theorem lzh_round_trip {src out : Bytes} {dcap : Nat} {level : Int} (hsrc : src.length ≤ Frame.maxBlockSz)
    (hcap : lzhBound src.length ≤ dcap) (hout : lzhCompress .granted src dcap level = some out) :
    out.length < src.length ∧ lzhDecompress .granted out src.length = src := by
  have hroom : src.length ≤ dcap := by
    rw [lzhBound] at hcap
    omega
  obtain ⟨rfl, hless⟩ := complete_of_room (Or.inl hroom) hout
  rw [Frame.maxBlockSz] at hsrc
  exact ⟨hless, encoding_decodes (by omega) (granted_enough _) (unpack_granted _)⟩

/-- Forty times the same byte. -/
theorem lzh_round_trip_run :
    ∃ out, lzhCompress .granted (List.replicate 40 97) 2093 1 = some out ∧ out.length < 40 ∧
      lzhDecompress .granted out 40 = List.replicate 40 97 := by
  obtain ⟨out, hout⟩ := Option.isSome_iff_exists.mp
    (show (lzhCompress .granted (List.replicate 40 97) 2093 1).isSome by decide +kernel)
  have hrun := lzh_round_trip (by decide) (by decide) hout
  rw [List.length_replicate] at hrun
  exact ⟨out, hout, hrun⟩

/-- **DROPPED BITS** are reported where the capacity is not below the size of the
    source, or not enough for the header, and nowhere else. -/
theorem dropped_reported_iff (a : Alloc) (src : Bytes) (level : Int) (dcap : Nat) :
    (dcap < (encoding a src level).length → lzhCompress a src dcap level = none) ↔
      (a.ht && a.ch && a.syms) = false ∨ src.length ≤ dcap ∨
        dcap < (blockHeader a src level).length ∨ (encoding a src level).length ≤ dcap := by
  rw [lzhCompress_eq]
  constructor
  · intro h
    by_cases hfits : (encoding a src level).length ≤ dcap
    · exact Or.inr (Or.inr (Or.inr hfits))
    have hnone := h (Nat.not_le.mp hfits)
    by_cases hroot : (a.ht && a.ch && a.syms) = true
    swap
    · exact Or.inl (Bool.not_eq_true _ ▸ hroot)
    refine Or.inr ?_
    by_cases hsrc : src.length ≤ dcap
    · exact Or.inl hsrc
    refine Or.inr (Or.inl (Nat.not_le.mp fun hhdr => ?_))
    rw [if_pos ⟨by omega, hroot, hhdr, by rw [List.length_take]; omega⟩] at hnone
    cases hnone
  · intro h hlong
    refine if_neg fun hall => ?_
    obtain ⟨-, hroot, hhdr, hless⟩ := hall
    rw [List.length_take] at hless
    rcases h with hfail | hsrc | hsmall | hfits
    · rw [hfail] at hroot
      cases hroot
    · omega
    · omega
    · omega

/-- Forty times the same byte, with room for the header alone: a block without any
    symbol is handed out. -/
theorem bits_dropped :
    ¬ ∀ (a : Alloc) (src : Bytes) (level : Int) (dcap : Nat),
      dcap < (encoding a src level).length → lzhCompress a src dcap level = none := by
  intro h
  have hlong : 21 < (encoding .granted (List.replicate 40 97) 1).length := by decide +kernel
  have hsome : (lzhCompress .granted (List.replicate 40 97) 21 1).isSome := by decide +kernel
  rw [h .granted (List.replicate 40 97) 1 21 hlong] at hsome
  cases hsome

end Block

end Zupt.Lzh
