import Zupt.VaptVupt.AnsTiling
import Zupt.VaptVupt.Normalize
import Zupt.VaptVupt.HuffmanEncode

/-! # The tANS encoders

    `vv_ans.c`: the frequency header, the bit writer, and the encoders of one
    stream, of four lanes and of a table for each preceding byte.  A state is
    pushed through the symbols from the last to the first; what it sheds on the
    way is written from the first to the last. -/

namespace Zupt.VaptVupt

open Zupt.LittleEndian Zupt.Memory

/-! ## The header -/

/-- The symbols that occur, in their order. -/
def activeSymbols (norm : Norm) : List Nat := (List.range 256).filter fun i => norm i ≠ 0

/-- `SPARSE_THRESHOLD`. -/
def sparseThreshold : Nat := 64

/-- `write_hdr_v2`; `none` is 0. -/
def writeHdrV2 (norm : Norm) (cap : Nat) : Option Bytes :=
  let active := symbolCount norm 256
  let max_sym := lastSymbol norm 256
  if active = 0 then none
  else if active = 1 then
    if cap < 2 then none else some [1, UInt8.ofNat max_sym]
  else if active ≤ sparseThreshold then
    if cap < 2 + 3 * active then none
    else
      some (2 :: UInt8.ofNat active ::
        (activeSymbols norm).flatMap fun i => UInt8.ofNat i :: lePut 2 (norm i))
  else if cap < 2 + 2 * (max_sym + 1) then none
  else
    some (3 :: UInt8.ofNat max_sym ::
      (List.range (max_sym + 1)).flatMap fun i => lePut 2 (norm i))

/-! ## The bit writer -/

/-- `ans_bw_t`; `out` is `b[0..p)`. -/
structure AnsBw where
  a : Nat
  n : Nat
  out : Bytes

/-- `ans_bw_init`. -/
def AnsBw.init : AnsBw := ⟨0, 0, []⟩

/-- The loop that hands out bytes while `least` bits wait and there is room.  Less
    than a byte of bits is a byte with zeros above them. -/
def AnsBw.drain (c least : Nat) : (turns : Nat) → AnsBw → AnsBw
  | 0, w => w
  | turns + 1, w =>
      if least ≤ w.n ∧ w.out.length < c then
        AnsBw.drain c least turns ⟨w.a / 256, w.n - 8, w.out ++ [UInt8.ofNat (w.a % 256)]⟩
      else w

/-- `ans_bw_add`. -/
def AnsBw.add (c : Nat) (w : AnsBw) (v nb : Nat) : AnsBw :=
  if nb = 0 then w
  else AnsBw.drain c 8 ((w.n + nb) / 8) { w with a := w.a ||| (v % 2 ^ nb) <<< w.n, n := w.n + nb }

/-- `ans_bw_flush`: the bytes of the stream. -/
def AnsBw.flush (c : Nat) (w : AnsBw) : Bytes := (w.drain c 1 ((w.n + 7) / 8)).out

/-- The stream of `bitpair_t`s, written to `c` bytes. -/
def writePairs (c : Nat) (pairs : List (Nat × Nat)) : Bytes :=
  (pairs.foldl (fun w p => AnsBw.add c w p.1 p.2) .init).flush c

/-! ## Tables -/

/-- What `malloc` returns for the tables of one header: the spread, the decode
    table it leads to and the occurrences. -/
structure TableMemory where
  sp : Mem UInt8
  dec : Mem DecEntry
  o : Mem EncOcc

/-- `build_all`: the context that the encoder uses. -/
def buildAll (norm : Norm) (t : TableMemory) : EncCtx :=
  let spread := spreadSymbols norm t.sp
  buildEnc norm spread (buildDec norm spread t.dec) t.o

/-! ## One stream -/

/-- The backward loop over the symbols: the state in front of them, and the pairs
    in their order. -/
def encodeBack (enc : EncCtx) : Bytes → (state : Nat) → Option (Nat × List (Nat × Nat))
  | [], state => some (state, [])
  | b :: src, state =>
      match encodeBack enc src state with
      | none => none
      | some (state, pairs) =>
          match encSym enc state b.toNat with
          | none => none
          | some (slot, bv, bn) => some (slot, (bv, bn) :: pairs)

/-- What the allocations of `vva_encode` and `vva_encode4` return: the tables, and
    whether the buffers were granted. -/
structure AnsMemory where
  tables : Option TableMemory
  buffers : Bool

/-- The start that `vva_encode` and `vva_encode4` share: the frequencies, their
    header, a source of one symbol, and the tables for `body`. -/
def vvaEncodeWith (body : EncCtx → (hdr : Bytes) → Except VvError Bytes) (mem : AnsMemory)
    (src : Bytes) (dst_cap : Nat) : Except VvError Bytes :=
  if src.length = 0 then .ok []
  else
    let (np, norm) := normalizeFreq (histogram src)
    if np = 0 then .error .param
    else
      match writeHdrV2 norm dst_cap with
      | none => .error .overflow
      | some hdr =>
          if np = 1 then if src.length ≤ hdr.length then .error .overflow else .ok hdr
          else
            match mem.tables with
            | none => .error .nomem
            | some t => if mem.buffers then body (buildAll norm t) hdr else .error .nomem

/-- What is put together must fit the output and be smaller than the source. -/
def putSmaller (src out : Bytes) (dst_cap : Nat) : Except VvError Bytes :=
  if dst_cap < out.length ∨ src.length ≤ out.length then .error .overflow else .ok out

/-- `vva_encode` behind its header: the state and the stream. -/
def vvaEncodeBody (src : Bytes) (dst_cap : Nat) (enc : EncCtx) (hdr : Bytes) :
    Except VvError Bytes :=
  match encodeBack enc src 0 with
  | none => .error .corrupt
  | some (state, pairs) =>
      let bs := writePairs ((src.length * 15 + 7) / 8 + 16) pairs
      putSmaller src (hdr ++ (lePut 2 state ++ bs)) dst_cap

/-- `vva_encode`: what it leaves in `dst`. -/
def vvaEncode (mem : AnsMemory) (src : Bytes) (dst_cap : Nat) : Except VvError Bytes :=
  vvaEncodeWith (vvaEncodeBody src dst_cap) mem src dst_cap

/-! ## Four lanes -/

/-- The room of a lane. -/
def laneCap (src_len : Nat) : Nat := ((src_len * 15 + 7) / 8 + 64) / 4 + 16

/-- A lane: its state and its stream.  A lane without symbols has neither. -/
def encodeLane (enc : EncCtx) (src : Bytes) (k : Nat) : Option (Nat × Bytes) :=
  match encodeBack enc (strided k src) 0 with
  | none => none
  | some (state, pairs) => some (state, writePairs (laneCap src.length) pairs)

/-- `vva_encode4` behind its header: four states, four sizes, four streams. -/
def vvaEncode4Body (src : Bytes) (dst_cap : Nat) (enc : EncCtx) (hdr : Bytes) :
    Except VvError Bytes :=
  match encodeLane enc src 0, encodeLane enc src 1, encodeLane enc src 2, encodeLane enc src 3 with
  | some (s0, b0), some (s1, b1), some (s2, b2), some (s3, b3) =>
      let states := lePut 2 s0 ++ (lePut 2 s1 ++ (lePut 2 s2 ++ lePut 2 s3))
      let sizes := lePut 4 b0.length ++ (lePut 4 b1.length ++ (lePut 4 b2.length ++ lePut 4 b3.length))
      putSmaller src (hdr ++ (states ++ (sizes ++ (b0 ++ (b1 ++ (b2 ++ b3)))))) dst_cap
  | _, _, _, _ => .error .corrupt

/-- `vva_encode4`: what it leaves in `dst`. -/
def vvaEncode4 (mem : AnsMemory) (src : Bytes) (dst_cap : Nat) : Except VvError Bytes :=
  vvaEncodeWith (vvaEncode4Body src dst_cap) mem src dst_cap

/-! ## A table for each preceding byte -/

/-- `hist[c]`: what follows the byte `c`, and at the start the byte 0. -/
def ctxHist (src : Bytes) (c : Nat) : Nat → Nat := fun s =>
  ((0 :: src).zip src).count (UInt8.ofNat c, UInt8.ofNat s) % 2 ^ 32

/-- `CTX_MIN_OBS`. -/
def ctxMinObs : Nat := 16

/-- Whether a context has a table of its own, by `row_total`. -/
def ctxOwn (src : Bytes) (c : Nat) : Bool := ctxMinObs ≤ normSum (ctxHist src c) 256 % 2 ^ 32

/-- `ctx_norms[c]`. -/
def ctxNorm (src : Bytes) (c : Nat) : Norm :=
  if ctxOwn src c then (normalizeFreq (ctxHist src c)).2 else (normalizeFreq (histogram src)).2

/-- The bitmap of inherited contexts behind the loop over the first `n` of them. -/
def inheritedMap (own : Nat → Bool) : (n : Nat) → Nat → UInt8
  | 0 => fun _ => 0xFF
  | n + 1 =>
      let m := inheritedMap own n
      if own n then Function.update m (n / 8) (m (n / 8) &&& ~~~(1 <<< UInt8.ofNat (n % 8))) else m

/-- The headers of the contexts from `c` on, `left` of them, behind `used` bytes;
    `none` is a header that does not fit. -/
def ctxHeaders (src : Bytes) (dst_cap : Nat) : (left c used : Nat) → Option Bytes
  | 0, _, _ => some []
  | left + 1, c, used =>
      if ctxOwn src c then
        match writeHdrV2 (ctxNorm src c) 600 with
        | none => none
        | some hdr =>
            if dst_cap < used + 3 + hdr.length then none
            else
              let out := UInt8.ofNat c :: (lePut 2 hdr.length ++ hdr)
              (ctxHeaders src dst_cap left (c + 1) (used + out.length)).map fun rest => out ++ rest
      else ctxHeaders src dst_cap left (c + 1) used

/-- The global header, the bitmap and the headers of the contexts. -/
def ctxHeader (src : Bytes) (dst_cap : Nat) : Option Bytes :=
  match writeHdrV2 (normalizeFreq (histogram src)).2 600 with
  | none => none
  | some global =>
      if dst_cap < 2 + global.length + 32 then none
      else
        let start := lePut 2 global.length ++ (global ++
          (List.range 32).map (inheritedMap (ctxOwn src) 256))
        (ctxHeaders src dst_cap 256 0 start.length).map fun rest => start ++ rest

/-- The tables of `vva_encode_ctx`: the global one, and what the buffers of the
    spread and of the decode table hold when the table of a context is built. -/
structure CtxMemory where
  global : TableMemory
  own : Nat → TableMemory

/-- `enc_tables[c]`: a context without a table of its own has the global one. -/
def ctxEnc (mem : CtxMemory) (src : Bytes) (c : Nat) : EncCtx :=
  if ctxOwn src c then buildAll (ctxNorm src c) (mem.own c)
  else buildAll (normalizeFreq (histogram src)).2 mem.global

/-- The backward loop over the symbols behind the byte `prev`, with a state for
    each context. -/
def encodeCtx (enc : Nat → EncCtx) :
    (prev : UInt8) → Bytes → (states : Nat → Nat) → Option ((Nat → Nat) × List (Nat × Nat))
  | _, [], states => some (states, [])
  | prev, b :: src, states =>
      match encodeCtx enc b src states with
      | none => none
      | some (states, pairs) =>
          match encSym (enc prev.toNat) (states prev.toNat) b.toNat with
          | none => none
          | some (slot, bv, bn) =>
              some (Function.update states prev.toNat (slot % 65536), (bv, bn) :: pairs)

/-- What the allocations of `vva_encode_ctx` return: whether the histogram and the
    bit stream were granted, and the tables between them. -/
structure CtxAlloc where
  hist : Bool
  tables : Option CtxMemory
  bs : Bool

/-- `vva_encode_ctx`: what it leaves in `dst`. -/
def vvaEncodeCtx (alloc : CtxAlloc) (src : Bytes) (dst_cap : Nat) : Except VvError Bytes :=
  if src.length = 0 then .ok []
  else if alloc.hist then
    if (normalizeFreq (histogram src)).1 = 0 then .error .param
    else
      match ctxHeader src dst_cap with
      | none => .error .overflow
      | some hdr =>
          match alloc.tables with
          | none => .error .nomem
          | some mem =>
              match encodeCtx (ctxEnc mem src) 0 src fun _ => 0 with
              | none => .error .corrupt
              | some (states, pairs) =>
                  if alloc.bs then
                    let bs := writePairs ((src.length * 15 + 7) / 8 + 16) pairs
                    let puts := (List.range 256).flatMap fun c => lePut 2 (states c)
                    putSmaller src (hdr ++ (puts ++ bs)) dst_cap
                  else .error .nomem
  else .error .nomem

end Zupt.VaptVupt
