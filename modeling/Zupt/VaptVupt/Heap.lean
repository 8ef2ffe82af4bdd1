import Zupt.VaptVupt.FrameMachine
import Zupt.VaptVupt.Sequences
import Zupt.VaptVupt.Tokens

/-! # The decoder over raw storage

    `vv_decompress_flags` as it works on the buffer of its caller: blocks are
    decoded in place behind what the frame has produced, and each allocates
    scratch whose contents are whatever the allocator hands out.  The output
    buffer is given with its contents as well. -/

namespace Zupt.VaptVupt

open Zupt.LittleEndian Zupt.Memory Zupt.Window

/-- What the decoders of one block allocate. -/
structure Scratch where
  seq : SeqStorage
  ctx : CtxStorage

/-- The scratch of each block of a run, which is told by the input that is left
    at the header of the block. -/
abbrev Heap := Nat → Scratch

/-! ## Blocks -/

/-- `decode_block_huffman`, `decode_block_ans`, `decode_block_ans4` and
    `decode_block_ctx`, which differ in the decoder of the literals:
    `[2B lit_count] [2B section_size] [section] [stripped_tokens]`. -/
def decodeBlockLits (decode : Bytes → (dst_cap n : Nat) → Except VvError (Bytes × Nat))
    (lits : Mem UInt8) (build : Build) (data : Bytes) (b : Bounds) (dst : Nat) (m : Mem UInt8)
    (offBytes maxOffset : Nat) : Except Stop (Mem UInt8 × Nat) :=
  if data.length < 4 then .error (.err .corrupt)
  else
    let lit_count := u16At data 0
    let sec_sz := u16At data 2
    if data.length < 4 + sec_sz then .error (.err .corrupt)
    else
      match decode ((data.drop 4).take sec_sz) lit_count lit_count with
      | .error _ => .error (.err .corrupt)
      | .ok (xs, _) =>
          let lit_buf := write lits 0 xs
          decodeStrippedTokens build (data.drop (4 + sec_sz)) (read lit_buf 0 lit_count) b dst m
            offBytes maxOffset

/-- `decode_block_ans`. -/
def decodeBlockAns (st : Scratch) := decodeBlockLits (vvaDecode st.seq.ansWork) st.seq.lits

/-- `decode_block_ans4`. -/
def decodeBlockAns4 (st : Scratch) := decodeBlockLits (vvaDecode4 st.seq.ansWork) st.seq.lits

/-- `decode_block_ctx`. -/
def decodeBlockCtx (st : Scratch) := decodeBlockLits (vvaDecodeCtx st.ctx) st.seq.lits

/-- `decode_block_huffman`. -/
def decodeBlockHuffman (st : Scratch) := decodeBlockLits (vvhDecode st.seq.huffWork) st.seq.lits

/-- `if (err != VV_OK) err = VV_ERR_CORRUPT`. -/
def orCorruptAt : Except Stop (Mem UInt8 × Nat) → Except Stop (Mem UInt8 × Nat)
  | .error .fault => .error .fault
  | .error (.err _) => .error (.err .corrupt)
  | .ok p => .ok p

/-- The choice of an entropy decoder by the tag byte. -/
def decodeEntropyAt (build : Build) (st : Scratch) (tag : UInt8) (bdata : Bytes) (b : Bounds)
    (dst : Nat) (m : Mem UInt8) (offBytes maxOffset : Nat) : Except Stop (Mem UInt8 × Nat) :=
  if tag = 0x41 then decodeBlockAns st build bdata b dst m offBytes maxOffset
  else if tag = 0x49 then decodeBlockAns4 st build bdata b dst m offBytes maxOffset
  else if tag = 0x43 then decodeBlockCtx st build bdata b dst m offBytes maxOffset
  else if tag = 0x53 then
    orCorruptAt (vvaDecodeSequences st.seq mlBase maxOffset bdata b dst m)
  else if tag = 0x54 then
    orCorruptAt (vvaDecodeSequences st.seq mlBaseV2 maxOffset bdata b dst m)
  else if tag = 0x48 then decodeBlockHuffman st build bdata b dst m offBytes maxOffset
  else .error (.err .corrupt)

/-- A block that was decoded in place. -/
structure DecodedAt where
  m : Mem UInt8
  size : Nat
  last : Bool
  rest : Bytes

/-- `if (err != VV_OK) return err; if (actual != dsz) return VV_ERR_CORRUPT`. -/
def sizedAt (dsz : Nat) (r : Except Stop (Mem UInt8 × Nat)) (last : Bool) (rest : Bytes) :
    Except Stop DecodedAt :=
  match r with
  | .error e => .error e
  | .ok (m, actual) => if actual ≠ dsz then .error (.err .corrupt) else .ok ⟨m, dsz, last, rest⟩

/-- A block whose bytes are known is stored within the buffer. -/
def storedAt (dst_cap op : Nat) (m : Mem UInt8) (xs : Bytes) (last : Bool) (rest : Bytes) :
    Except Stop DecodedAt :=
  match store ⟨0, dst_cap⟩ m op xs with
  | none => .error .fault
  | some m => .ok ⟨m, xs.length, last, rest⟩

/-- Where a block goes: the capacity of the buffer, and the start of its frame
    (`frame_out_start`). -/
structure Place where
  dst_cap : Nat
  frame : Nat

/-- One turn of the block loop at the output position `op`. -/
def decodeBlockAt (build : Build) (st : Scratch) (offBytes maxOffset : Nat) (W : Place) (op : Nat)
    (m : Mem UInt8) (ip : Bytes) : Except Stop DecodedAt :=
  if ip.length < 4 then .error (.err .corrupt)
  else
    let h := le32Get ip
    let ip := ip.drop 4
    let dsz := bhSize h
    if maxBlockSize < dsz then .error (.err .overflow)
    else if W.dst_cap - op < dsz then .error (.err .overflow)
    else
      let b : Bounds := ⟨W.frame, op + dsz⟩
      match bhType h with
      | .raw =>
          if ip.length < dsz then .error (.err .corrupt)
          else storedAt W.dst_cap op m (ip.take dsz) (bhLast h) (ip.drop dsz)
      | .rle =>
          if ip.length = 0 then .error (.err .corrupt)
          else storedAt W.dst_cap op m (List.replicate dsz (charAt ip 0)) (bhLast h) (ip.drop 1)
      | .compressed =>
          if ip.length < 3 then .error (.err .corrupt)
          else
            let csz := cszGet ip
            let ip := ip.drop 3
            if ip.length < csz then .error (.err .corrupt)
            else
              sizedAt dsz (decodeBlockTokens build (ip.take csz) b op m offBytes maxOffset)
                (bhLast h) (ip.drop csz)
      | .entropy =>
          if ip.length < 3 then .error (.err .corrupt)
          else
            let csz := cszGet ip
            let ip := ip.drop 3
            if csz < 1 ∨ ip.length < csz then .error (.err .corrupt)
            else
              sizedAt dsz (decodeEntropyAt build st (charAt ip 0) ((ip.take csz).drop 1) b op m
                offBytes maxOffset) (bhLast h) (ip.drop csz)

/-- What is carried through the loops: the buffer, the output position and the
    input that is left. -/
structure Cursor where
  m : Mem UInt8
  op : Nat
  ip : Bytes

/-- The block loop of `vv_decompress_flags`. -/
def decodeBlocksAt (build : Build) (heap : Heap) (offBytes maxOffset : Nat) (W : Place) :
    (turns : Nat) → Cursor → Except Stop Cursor
  | 0, _ => .error (.err .corrupt)
  | turns + 1, c =>
      match decodeBlockAt build (heap c.ip.length) offBytes maxOffset W c.op c.m c.ip with
      | .error e => .error e
      | .ok d =>
          let c : Cursor := ⟨d.m, c.op + d.size, d.rest⟩
          if d.last then .ok c else decodeBlocksAt build heap offBytes maxOffset W turns c

/-! ## Frames -/

/-- The end of a frame: the footer over what it produced, and the branch filter
    in place. -/
def finishFrameAt (skip : Bool) (fh : FrameHeader) (frame : Nat) (c : Cursor) :
    Except Stop Cursor :=
  match finishFrame skip fh (read c.m frame (c.op - frame)) c.ip with
  | .error e => .error (.err e)
  | .ok (out, ip) => .ok ⟨write c.m frame out, c.op, ip⟩

/-- One turn of the frame loop. -/
def decodeFrameAt (build : Build) (heap : Heap) (skip : Bool) (dst_cap : Nat) (c : Cursor) :
    Except Stop Cursor :=
  if c.ip.length < 16 then .error (.err .corrupt)
  else
    let fh := frameHeaderGet c.ip
    match checkHeader fh with
    | .error e => .error (.err e)
    | .ok max_offset =>
        match decodeBlocksAt build heap fh.offBytes max_offset ⟨dst_cap, c.op⟩
            (c.ip.drop 16).length { c with ip := c.ip.drop 16 } with
        | .error e => .error e
        | .ok d => finishFrameAt skip fh c.op d

/-- The frame loop of `vv_decompress_flags`. -/
def decodeFramesAt (build : Build) (heap : Heap) (skip : Bool) (dst_cap : Nat) :
    (turns : Nat) → Cursor → Except Stop Cursor
  | 0, c => .ok c
  | turns + 1, c =>
      if c.ip.length = 0 then .ok c
      else
        match decodeFrameAt build heap skip dst_cap c with
        | .error e => .error e
        | .ok c => decodeFramesAt build heap skip dst_cap turns c

/-- `vv_decompress_flags` into the buffer `m`: the buffer afterwards and the
    number of bytes. -/
def decompressInto (build : Build) (heap : Heap) (m : Mem UInt8) (src : Bytes) (dst_cap : Nat)
    (flags : UInt32) : Except Stop (Mem UInt8 × Nat) :=
  if src.length < 16 then .error (.err .corrupt)
  else
    match decodeFramesAt build heap (flags &&& 1 ≠ 0) dst_cap src.length ⟨m, 0, src⟩ with
    | .error e => .error e
    | .ok c => .ok (c.m, c.op)

/-- What a caller sees: the bytes, where the input was accepted. -/
def accepted : Except Stop (Mem UInt8 × Nat) → Option Bytes
  | .error _ => none
  | .ok (m, n) => some (read m 0 n)

/-! ## The naive block decoders -/

/-- The block behind the history. -/
def behind (history : Bytes) (r : Except VvError Bytes) : Except VvError Bytes :=
  match r with
  | .error e => .error e
  | .ok out => .ok (out.drop history.length)

/-- A block of tokens, byte by byte. -/
def naiveTokens (payload history : Bytes) (dsz offBytes maxOffset : Nat) : Except VvError Bytes :=
  behind history
    (NaiveTokens.run ⟨offBytes, maxOffset, history.length + dsz⟩ payload.length payload history)

/-- A block of literals and stripped tokens, byte by byte. -/
def naiveLits (decode : Bytes → (dst_cap n : Nat) → Except VvError (Bytes × Nat))
    (payload history : Bytes) (dsz offBytes maxOffset : Nat) : Except VvError Bytes :=
  if payload.length < 4 then .error .corrupt
  else
    let lit_count := u16At payload 0
    let sec_sz := u16At payload 2
    if payload.length < 4 + sec_sz then .error .corrupt
    else
      match decode ((payload.drop 4).take sec_sz) lit_count lit_count with
      | .error _ => .error .corrupt
      | .ok (xs, _) =>
          let tokens := payload.drop (4 + sec_sz)
          behind history
            (NaiveTokens.stripped ⟨offBytes, maxOffset, history.length + dsz⟩ tokens.length tokens
              xs history)

/-- A sequence block, byte by byte, with the scratch it was given. -/
def naiveSequenceBlock (st : SeqStorage) (ml_base_tab : List Nat) (payload history : Bytes)
    (dsz maxOffset : Nat) : Except VvError Bytes :=
  match naiveSequences st ml_base_tab maxOffset payload history dsz with
  | .error (.err e) => .error e
  | .error .fault => .error .corrupt
  | .ok out => .ok (out.drop history.length)

/-- The naive block decoders with the scratch `st`. -/
def naiveDecoders (st : Scratch) : BlockDecoders where
  tokens := naiveTokens
  ans := naiveLits (vvaDecode st.seq.ansWork)
  ans4 := naiveLits (vvaDecode4 st.seq.ansWork)
  ctx := naiveLits (vvaDecodeCtx st.ctx)
  huffman := naiveLits (vvhDecode st.seq.huffWork)
  sequences := naiveSequenceBlock st.seq mlBase
  sequencesV2 := naiveSequenceBlock st.seq mlBaseV2

/-- Scratch that was cleared. -/
def clearScratch : Scratch where
  seq := ⟨fun _ => 0, fun _ => ⟨0, 0, 0⟩, ⟨fun _ => 0, 0, fun _ => 0, fun _ => 0, fun _ => 0⟩,
    fun _ => ⟨0, 0, 0⟩, fun _ => ⟨0, 0, 0⟩, fun _ => ⟨0, 0, 0⟩⟩
  ctx := ⟨fun _ => 0, fun _ => ⟨0, 0, 0⟩, fun _ _ => ⟨0, 0, 0⟩⟩

/-! ## Blocks of a stream -/

/-- All blocks up to the last one of a frame, as far as their sizes can be
    told. -/
def allBlocks (p : Bytes → Bool) : (turns : Nat) → Bytes → Bool
  | 0, _ => true
  | turns + 1, b =>
      p b &&
        match blockDataSize b with
        | none => true
        | some size =>
            b.length < 4 + size || bhLast (le32Get b) || allBlocks p turns (b.drop (4 + size))

/-- All blocks of a buffer of frames. -/
def allFrames (p : Bytes → Bool) : (turns : Nat) → Bytes → Bool
  | 0, _ => true
  | turns + 1, b =>
      allBlocks p (b.drop 16).length (b.drop 16) &&
        match frameLength b with
        | none => true
        | some n => allFrames p turns (b.drop n)

/-- A sequence payload that announces literals encodes some. -/
def litsSupplied (bdata : Bytes) : Bool := u32At bdata 0 = 0 || 0 < u32At bdata 5

/-- A block at which nothing is taken from scratch that was not written. -/
def blockSupplied (b : Bytes) : Bool :=
  match bhType (le32Get b) with
  | .entropy =>
      let p := (b.drop 4).drop 3
      if charAt p 0 = 0x53 ∨ charAt p 0 = 0x54 then
        litsSupplied ((p.take (cszGet (b.drop 4))).drop 1)
      else true
  | _ => true

/-- **NO SEQUENCE BLOCK ANNOUNCES LITERALS WITHOUT ENCODING ANY.** -/
def Supplied (src : Bytes) : Prop := allFrames blockSupplied src.length src = true

instance (src : Bytes) : Decidable (Supplied src) := inferInstanceAs (Decidable (_ = true))

end Zupt.VaptVupt
