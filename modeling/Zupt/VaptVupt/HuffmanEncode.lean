import Zupt.VaptVupt.Huffman
import Zupt.VaptVupt.Copy
import Zupt.CodeLengths
import Mathlib.Data.List.Sort

/-! # The Huffman encoders

    `vv_huffman.c`: the code lengths of a histogram by a merge of two queues, their
    limit of 15 bits, the header, and the encoders of one stream and of four.  The
    workspace of the tree may not be had; then the symbols are left without codes. -/

namespace Zupt.VaptVupt

open Zupt.LittleEndian Zupt.Canonical

/-! ## The tree -/

/-- `sym_idx[i]` and `sym_freq[i]`. -/
structure SymFreq where
  sym : Nat
  freq : Nat
  deriving DecidableEq, Repr

/-- The symbols with a nonzero count, in their order. -/
def occurring (freq : Nat → Nat) : List SymFreq :=
  ((List.range 256).filter fun i => 0 < freq i).map fun i => ⟨i, freq i⟩

/-- What the merge changes: `nf`, `par` and the read pointers of the queues. -/
structure Queues where
  nf : Nat → Nat
  par : Nat → Nat
  lq : Nat
  iq : Nat

/-- A `pick` of the merge: the count of the cheaper front, and the queues without
    it. -/
def Queues.pick (n next : Nat) (q : Queues) : Nat × Queues :=
  if q.lq < n ∧ (next ≤ q.iq ∨ q.nf q.lq ≤ q.nf q.iq) then
    (q.nf q.lq, { q with par := Function.update q.par q.lq next, lq := q.lq + 1 })
  else (q.nf q.iq, { q with par := Function.update q.par q.iq next, iq := q.iq + 1 })

/-- A turn of the merge: two picks become the children of the node `next`. -/
def Queues.merge (n next : Nat) (q : Queues) : Queues :=
  let (a, q) := q.pick n next
  let (b, q) := q.pick n next
  { q with nf := Function.update q.nf next ((a + b) % 2 ^ 32) }

/-- The two-queue merge from the node `next` on. -/
def mergeLoop (n : Nat) : (turns : Nat) → (next : Nat) → Queues → Queues
  | 0, _, q => q
  | turns + 1, next, q => mergeLoop n turns (next + 1) (q.merge n next)

/-- The loop over `dep`, from the node below the root down. -/
def depthLoop (par : Nat → Nat) : (i : Nat) → (Nat → Nat) → (Nat → Nat)
  | 0, dep => dep
  | i + 1, dep => depthLoop par i (Function.update dep i ((dep (par i) + 1) % 256))

/-- The depths of the nodes over sorted leaves. -/
def treeDepths (leaves : List SymFreq) : Nat → Nat :=
  let n := leaves.length
  let start : Queues :=
    { nf := fun i => (leaves.map SymFreq.freq).getD i 0, par := fun _ => 0, lq := 0, iq := n }
  depthLoop (mergeLoop n (n - 1) n start).par (2 * n - 2) fun _ => 0

/-! ## The limit of the depths -/

/-- `bl_count`, with the depths from 16 to 31 counted at 15. -/
def cappedCounts (lengths : CodeLengths) : Nat → Nat := fun d =>
  if d = huffMaxCodeLen then
    ((List.range 17).map fun k => blCount lengths (huffMaxCodeLen + k) 256).sum
  else if d < huffMaxCodeLen then blCount lengths d 256
  else 0

/-- The sum of the loop over counts, in units of the longest codes. -/
def countsKraft (bl : Nat → Nat) : Nat := weigh (fun d => 2 ^ (huffMaxCodeLen - d)) bl huffMaxCodeLen

/-- One symbol of the depth `d` moves down. -/
def moveDown (bl : Nat → Nat) (d : Nat) : Nat → Nat :=
  let bl := Function.update bl d (bl d - 1)
  Function.update bl (d + 1) (bl (d + 1) + 1)

/-- The loop that brings the sum down to `2 ^ 15`.  Each turn moves a symbol by one
    of at most 14 depths, so `256 * 15` turns are enough. -/
def limitLoop : (turns : Nat) → (Nat → Nat) → (Nat → Nat)
  | 0, bl => bl
  | turns + 1, bl =>
      if countsKraft bl ≤ 2 ^ huffMaxCodeLen then bl
      else
        match deepest bl (huffMaxCodeLen - 1) with
        | none => limitLoop turns bl
        | some d => limitLoop turns (moveDown bl d)

/-- The symbols with codes by their capped length, then by themselves. -/
def byLength (lengths : CodeLengths) : List Nat :=
  ((List.range 256).filter fun i => 0 < lengths i).insertionSort fun a b =>
    min (lengths a) huffMaxCodeLen < min (lengths b) huffMaxCodeLen ∨
      (min (lengths a) huffMaxCodeLen = min (lengths b) huffMaxCodeLen ∧ a ≤ b)

/-- Whether the lengths of all symbols are at most `d`. -/
def atMost (d : Nat) (lengths : CodeLengths) : Bool := (List.range 256).all fun i => lengths i ≤ d

/-- The depth limit.  `bl_count` has 32 cells: a length from 32 on is counted
    outside of it, which is `none`. -/
def limitLengths (lengths : CodeLengths) : Option CodeLengths :=
  if atMost huffMaxCodeLen lengths then some lengths
  else if atMost 31 lengths then
    some (give (byLength lengths)
      (spread (limitLoop (256 * 15) (cappedCounts lengths)) huffMaxCodeLen) lengths)
  else none

/-- Which of the allocations of `build_code_lengths` succeed. -/
structure TreeAlloc where
  nf : Bool
  par : Bool
  dep : Bool
  deriving DecidableEq, Repr

/-- All of them. -/
def TreeAlloc.all (a : TreeAlloc) : Bool := a.nf && a.par && a.dep

/-- `build_code_lengths`; `none` is a count outside of `bl_count`. -/
def buildCodeLengths (a : TreeAlloc) (freq : Nat → Nat) : Option CodeLengths :=
  let syms := occurring freq
  if syms.length ≤ 2 then some (give (syms.map SymFreq.sym) [1, 1] fun _ => 0)
  else if a.all then
    let leaves := syms.insertionSort fun x y => x.freq ≤ y.freq
    limitLengths (give (leaves.map SymFreq.sym)
      ((List.range leaves.length).map (treeDepths leaves)) fun _ => 0)
  else some fun _ => 0

/-! ## The encoder table and the header -/

/-- `vvh_enc_table_t`. -/
structure EncTable where
  lengths : CodeLengths
  codes : Nat → Nat

/-- `build_enc_table` behind `build_code_lengths`. -/
def encTable (lengths : CodeLengths) : EncTable where
  lengths := lengths
  codes i := if 0 < lengths i then reverseBits (lengths i) ((canonicalCodes lengths 256).1 i) 0 else 0

/-- The highest of the first `n` symbols with a code, or 0. -/
def maxSym (lengths : CodeLengths) : (n : Nat) → Nat
  | 0 => 0
  | n + 1 => if 0 < lengths n then n else maxSym lengths n

/-- `write_header`; `none` is 0. -/
def writeHeader (lengths : CodeLengths) (cap : Nat) : Option Bytes :=
  let max_sym := maxSym lengths 256
  if cap < 1 + (max_sym + 2) / 2 then none
  else
    some (UInt8.ofNat max_sym :: (List.range ((max_sym + 2) / 2)).map fun k =>
      let lo := if 2 * k + 1 ≤ max_sym then lengths (2 * k + 1) else 0
      UInt8.ofNat (lengths (2 * k) * 16 + lo % 16))

/-! ## The bit writer -/

/-- `bw_t`; `out` is `dst[0..pos)`. -/
structure HuffBw where
  bits : Nat
  nbits : Nat
  out : Bytes
  overflow : Bool

/-- `bw_init`. -/
def HuffBw.init : HuffBw := ⟨0, 0, [], false⟩

/-- The loop of `bw_add` over the whole bytes of the accumulator. -/
def HuffBw.drain (cap : Nat) : (turns : Nat) → HuffBw → HuffBw
  | 0, w => w
  | turns + 1, w =>
      if w.out.length = cap then { w with bits := 0, nbits := 0, overflow := true }
      else
        HuffBw.drain cap turns
          { w with
            bits := w.bits / 256
            nbits := w.nbits - 8
            out := w.out ++ [UInt8.ofNat (w.bits % 256)] }

/-- `bw_add`. -/
def HuffBw.add (cap : Nat) (w : HuffBw) (val n : Nat) : HuffBw :=
  let w := { w with bits := w.bits ||| (val % 2 ^ n) <<< w.nbits, nbits := w.nbits + n }
  w.drain cap (w.nbits / 8)

/-- `bw_flush`, behind which less than a byte is left; `none` is `SIZE_MAX`. -/
def HuffBw.flush (cap : Nat) (w : HuffBw) : Option Bytes :=
  if w.overflow then none
  else if 0 < w.nbits then
    if w.out.length < cap then some (w.out ++ [UInt8.ofNat (w.bits % 256)]) else none
  else some w.out

/-! ## The encoders -/

/-- The histogram of the source, `uint32_t freq[VVH_SYMBOLS]`. -/
def histogram (src : Bytes) : Nat → Nat := fun i => src.count (UInt8.ofNat i) % 2 ^ 32

/-- The loop over the symbols of a stream. -/
def encodeSymbols (enc : EncTable) (cap : Nat) : Bytes → HuffBw → HuffBw
  | [], w => w
  | b :: src, w =>
      encodeSymbols enc cap src (w.add cap (enc.codes b.toNat) (enc.lengths b.toNat))

/-- `vvh_encode`: what it leaves in `dst`. -/
def vvhEncode (a : TreeAlloc) (src : Bytes) (dst_cap : Nat) : Except Stop Bytes :=
  if src.length = 0 then .ok []
  else
    match buildCodeLengths a (histogram src) with
    | none => .error .fault
    | some lengths =>
        match writeHeader lengths dst_cap with
        | none => .error (.err .overflow)
        | some hdr =>
            let cap := dst_cap - hdr.length
            match (encodeSymbols (encTable lengths) cap src .init).flush cap with
            | none => .error (.err .overflow)
            | some bits =>
                if src.length ≤ (hdr ++ bits).length then .error (.err .overflow)
                else .ok (hdr ++ bits)

/-- Every fourth byte from place `k` on. -/
def strided : (k : Nat) → Bytes → Bytes
  | _, [] => []
  | 0, b :: src => b :: strided 3 src
  | k + 1, _ :: src => strided k src

/-- The streams of `vvh_encode4` from the one that starts at `s` on, `left` of
    them. -/
def encodeStreams (enc : EncTable) (src : Bytes) (dst_cap : Nat) :
    (left s cur_off : Nat) → Except Stop (List Bytes)
  | 0, _, _ => .ok []
  | left + 1, s, cur_off =>
      if dst_cap ≤ cur_off then .error (.err .overflow)
      else if ∃ b ∈ strided s src, enc.lengths b.toNat = 0 then .error (.err .corrupt)
      else
        let cap := dst_cap - cur_off
        match (encodeSymbols enc cap (strided s src) .init).flush cap with
        | none => .error (.err .overflow)
        | some bits =>
            match encodeStreams enc src dst_cap left (s + 1) (cur_off + bits.length) with
            | .error e => .error e
            | .ok streams => .ok (bits :: streams)

/-- `VVH4_STREAM_HDR_SZ`. -/
def streamHdrSize : Nat := 9

/-- `VVH4_MIN_LITERALS`. -/
def minLiterals4 : Nat := 1024

/-- `vvh_encode4`: what it leaves in `dst`. -/
def vvhEncode4 (a : TreeAlloc) (src : Bytes) (dst_cap : Nat) : Except Stop Bytes :=
  if src.length < minLiterals4 then .error (.err .overflow)
  else if dst_cap < 200 then .error (.err .overflow)
  else
    match buildCodeLengths a (histogram src) with
    | none => .error .fault
    | some lengths =>
        match writeHeader lengths dst_cap with
        | none => .error (.err .overflow)
        | some hdr =>
            if dst_cap ≤ hdr.length + streamHdrSize then .error (.err .overflow)
            else
              match encodeStreams (encTable lengths) src dst_cap 4 0
                  (hdr.length + streamHdrSize) with
              | .error e => .error e
              | .ok streams =>
                  if ∃ s ∈ streams.drop 1, 0xFFFFFF < s.length then .error (.err .overflow)
                  else
                    let sizes := (streams.drop 1).flatMap fun s => lePut 3 s.length
                    let out := hdr ++ sizes ++ streams.flatten
                    if src.length ≤ out.length then .error (.err .overflow) else .ok out

end Zupt.VaptVupt
