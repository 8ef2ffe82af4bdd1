import Zupt.VaptVupt.Bcj
import Zupt.VaptVupt.Xxh64

/-! # Frames of the codec

    The container of `vv_decoder.c`: a header, blocks up to the one that is
    marked as the last, an optional footer with the checksum, and the branch
    filter behind it.  `decompressFlags` is the decoder of a whole buffer,
    which may hold several frames.

    What a compressed or entropy block decodes to is the business of the block
    decoders, which see its payload and what the frame has produced so far.
    Everything here holds for any of them. -/

namespace Zupt.VaptVupt

open Zupt.LittleEndian

/-- The failing values of `vv_error_t`; `VV_OK` is the `ok` of `Except`. -/
inductive VvError where
  | io | corrupt | nomem | overflow | badMagic | param
  deriving DecidableEq, Repr

/-- `VV_MAX_BLOCK_SIZE`. -/
def maxBlockSize : Nat := 2 ^ 20

/-! ## Headers -/

/-- `vv_frame_header_t`. -/
structure FrameHeader where
  magic : UInt32
  version : UInt8
  flags : UInt8
  mode_hint : UInt8
  window_log : UInt8
  content_size : UInt64
  deriving DecidableEq, Repr

/-- `memcpy` of the header from the front of the input. -/
def frameHeaderGet (b : Bytes) : FrameHeader where
  magic := le32Get b
  version := charAt b 4
  flags := charAt b 5
  mode_hint := charAt b 6
  window_log := charAt b 7
  content_size := le64Get (b.drop 8)

/-- `frame_max_offset`: the advertised history distance, capped by the width
    of an offset on the wire. -/
def frameMaxOffset (window_log : UInt8) : Option Nat :=
  if window_log < 10 ∨ 24 < window_log then none
  else
    let limit := if window_log = 24 then 0xFFFFFF else 2 ^ window_log.toNat
    let limit := if 0xFFFFFF < limit then 0xFFFFFF else limit
    some (if window_log ≤ 16 ∧ 0xFFFF < limit then 0xFFFF else limit)

/-- The checks of a frame header, which both decoders make alike. -/
def checkHeader (fh : FrameHeader) : Except VvError Nat :=
  if fh.magic ≠ 0x56560100 then .error .badMagic
  else if fh.version ≠ 1 then .error .corrupt
  else if fh.flags &&& 0x0C = 0x0C then .error .corrupt
  else
    match frameMaxOffset fh.window_log with
    | none => .error .corrupt
    | some max_offset => .ok max_offset

/-- `has_checksum`. -/
def FrameHeader.hasChecksum (fh : FrameHeader) : Bool := fh.flags &&& 1 ≠ 0

/-- `off_bytes`. -/
def FrameHeader.offBytes (fh : FrameHeader) : Nat := if 16 < fh.window_log then 3 else 2

/-- `vv_block_type_t`. -/
inductive BlockType where
  | raw | compressed | rle | entropy
  deriving DecidableEq, Repr

/-- `vv_bh_type`: two bits, so that there is no other type. -/
def bhType (h : UInt32) : BlockType :=
  if h &&& 3 = 0 then .raw
  else if h &&& 3 = 1 then .compressed
  else if h &&& 3 = 2 then .rle
  else .entropy

/-- `vv_bh_last`. -/
def bhLast (h : UInt32) : Bool := (h >>> 2) &&& 1 ≠ 0

/-- `vv_bh_size`. -/
def bhSize (h : UInt32) : Nat := ((h >>> 3) &&& 0x1FFFFF).toNat

/-- The 24-bit payload size in front of a compressed or entropy payload. -/
def cszGet (b : Bytes) : Nat := leGet (b.take 3)

/-! ## Blocks -/

/-- The decoders of block payloads.  Each is given the payload, what the frame
    has produced so far and the size the block header announces. -/
structure BlockDecoders where
  tokens : (payload history : Bytes) → (dsz offBytes maxOffset : Nat) → Except VvError Bytes
  ans : (payload history : Bytes) → (dsz offBytes maxOffset : Nat) → Except VvError Bytes
  ans4 : (payload history : Bytes) → (dsz offBytes maxOffset : Nat) → Except VvError Bytes
  ctx : (payload history : Bytes) → (dsz offBytes maxOffset : Nat) → Except VvError Bytes
  huffman : (payload history : Bytes) → (dsz offBytes maxOffset : Nat) → Except VvError Bytes
  sequences : (payload history : Bytes) → (dsz maxOffset : Nat) → Except VvError Bytes
  sequencesV2 : (payload history : Bytes) → (dsz maxOffset : Nat) → Except VvError Bytes

/-- `if (err != VV_OK) err = VV_ERR_CORRUPT`. -/
def orCorrupt (r : Except VvError Bytes) : Except VvError Bytes :=
  match r with
  | .error _ => .error .corrupt
  | .ok out => .ok out

/-- The choice of an entropy decoder by the tag byte. -/
def decodeEntropy (D : BlockDecoders) (tag : UInt8) (bdata history : Bytes)
    (dsz offBytes maxOffset : Nat) : Except VvError Bytes :=
  if tag = 0x41 then D.ans bdata history dsz offBytes maxOffset
  else if tag = 0x49 then D.ans4 bdata history dsz offBytes maxOffset
  else if tag = 0x43 then D.ctx bdata history dsz offBytes maxOffset
  else if tag = 0x53 then orCorrupt (D.sequences bdata history dsz maxOffset)
  else if tag = 0x54 then orCorrupt (D.sequencesV2 bdata history dsz maxOffset)
  else if tag = 0x48 then D.huffman bdata history dsz offBytes maxOffset
  else .error .corrupt

/-- A decoded block: its bytes, whether it is the last of its frame, and the
    input behind it. -/
structure Decoded where
  out : Bytes
  last : Bool
  rest : Bytes
  deriving DecidableEq, Repr

/-- `if (err != VV_OK) return err; if (actual != dsz) return VV_ERR_CORRUPT`. -/
def sized (dsz : Nat) (r : Except VvError Bytes) (last : Bool) (rest : Bytes) :
    Except VvError Decoded :=
  match r with
  | .error e => .error e
  | .ok out => if out.length ≠ dsz then .error .corrupt else .ok ⟨out, last, rest⟩

/-- One turn of the block loop of `vv_decompress_flags`, with room for `room`
    more bytes of output. -/
def decodeBlock (D : BlockDecoders) (offBytes maxOffset room : Nat) (history ip : Bytes) :
    Except VvError Decoded :=
  if ip.length < 4 then .error .corrupt
  else
    let h := le32Get ip
    let ip := ip.drop 4
    let dsz := bhSize h
    if maxBlockSize < dsz then .error .overflow
    else if room < dsz then .error .overflow
    else
      match bhType h with
      | .raw =>
          if ip.length < dsz then .error .corrupt
          else .ok ⟨ip.take dsz, bhLast h, ip.drop dsz⟩
      | .rle =>
          if ip.length = 0 then .error .corrupt
          else .ok ⟨List.replicate dsz (charAt ip 0), bhLast h, ip.drop 1⟩
      | .compressed =>
          if ip.length < 3 then .error .corrupt
          else
            let csz := cszGet ip
            let ip := ip.drop 3
            if ip.length < csz then .error .corrupt
            else
              sized dsz (D.tokens (ip.take csz) history dsz offBytes maxOffset) (bhLast h)
                (ip.drop csz)
      | .entropy =>
          if ip.length < 3 then .error .corrupt
          else
            let csz := cszGet ip
            let ip := ip.drop 3
            if csz < 1 ∨ ip.length < csz then .error .corrupt
            else
              sized dsz (decodeEntropy D (charAt ip 0) ((ip.take csz).drop 1) history dsz offBytes
                maxOffset) (bhLast h) (ip.drop csz)

/-- The block loop of `vv_decompress_flags`: what the frame produced, and the
    input behind its last block.  A turn uses up four bytes at least, so that
    without turns there is no input left for a block header either. -/
def decodeBlocks (D : BlockDecoders) (offBytes maxOffset room : Nat) :
    (turns : Nat) → (out ip : Bytes) → Except VvError (Bytes × Bytes)
  | 0, _, _ => .error .corrupt
  | turns + 1, out, ip =>
      match decodeBlock D offBytes maxOffset (room - out.length) out ip with
      | .error e => .error e
      | .ok d =>
          if d.last then .ok (out ++ d.out, d.rest)
          else decodeBlocks D offBytes maxOffset room turns (out ++ d.out) d.rest

/-! ## Frames -/

/-- The branch filters undone over the output of a frame. -/
def bcjInverse (fh : FrameHeader) (out : Bytes) : Bytes :=
  let out := if fh.flags &&& 4 ≠ 0 then bcjX86 out 0 false else out
  if fh.flags &&& 8 ≠ 0 then bcjArm64 out 0 false else out

@[simp] theorem bcjInverse_length (fh : FrameHeader) (out : Bytes) :
    (bcjInverse fh out).length = out.length := by
  rw [bcjInverse]
  by_cases hx86 : fh.flags &&& 4 ≠ 0
  · rw [if_pos hx86]
    by_cases harm : fh.flags &&& 8 ≠ 0
    · rw [if_pos harm, bcjArm64_length, bcjX86_length]
    · rw [if_neg harm, bcjX86_length]
  · rw [if_neg hx86]
    by_cases harm : fh.flags &&& 8 ≠ 0
    · rw [if_pos harm, bcjArm64_length]
    · rw [if_neg harm]

/-- The footer of a frame with a checksum: the input behind it. -/
def checkFooter (skip : Bool) (out ip : Bytes) : Except VvError Bytes :=
  if ip.length < 12 then .error .corrupt
  else if le32Get (ip.drop 8) ≠ 0x56564E44 then .error .corrupt
  else if ¬ skip ∧ xxh64 out 0 ≠ le64Get ip then .error .corrupt
  else .ok (ip.drop 12)

/-- What follows the last block of a frame: its footer, and the branch filters
    undone after the checksum. -/
def finishFrame (skip : Bool) (fh : FrameHeader) (out ip : Bytes) :
    Except VvError (Bytes × Bytes) :=
  if fh.hasChecksum then
    match checkFooter skip out ip with
    | .error e => .error e
    | .ok ip => .ok (bcjInverse fh out, ip)
  else .ok (bcjInverse fh out, ip)

/-- What the block loop leaves is a frame once its end was checked. -/
def finishBlocks (skip : Bool) (fh : FrameHeader) :
    Except VvError (Bytes × Bytes) → Except VvError (Bytes × Bytes)
  | .error e => .error e
  | .ok (out, ip) => finishFrame skip fh out ip

/-- One turn of the frame loop: the output of the frame and the input behind
    it. -/
def decodeFrame (D : BlockDecoders) (skip : Bool) (room : Nat) (ip : Bytes) :
    Except VvError (Bytes × Bytes) :=
  if ip.length < 16 then .error .corrupt
  else
    let fh := frameHeaderGet ip
    match checkHeader fh with
    | .error e => .error e
    | .ok max_offset =>
        finishBlocks skip fh
          (decodeBlocks D fh.offBytes max_offset room (ip.drop 16).length [] (ip.drop 16))

/-- The frame loop of `vv_decompress_flags`.  A frame uses up its header at
    least, so that without turns there is no input left. -/
def decodeFrames (D : BlockDecoders) (skip : Bool) (dst_cap : Nat) :
    (turns : Nat) → (out ip : Bytes) → Except VvError Bytes
  | 0, out, _ => .ok out
  | turns + 1, out, ip =>
      if ip.length = 0 then .ok out
      else
        match decodeFrame D skip (dst_cap - out.length) ip with
        | .error e => .error e
        | .ok (new, ip) => decodeFrames D skip dst_cap turns (out ++ new) ip

/-- `vv_decompress_flags`: the bytes it puts into `dst`. -/
def decompressFlags (D : BlockDecoders) (src : Bytes) (dst_cap : Nat) (flags : UInt32) :
    Except VvError Bytes :=
  if src.length < 16 then .error .corrupt
  else decodeFrames D (flags &&& 1 ≠ 0) dst_cap src.length [] src

/-- `vv_decompress`. -/
def decompress (D : BlockDecoders) (src : Bytes) (dst_cap : Nat) : Except VvError Bytes :=
  decompressFlags D src dst_cap 0

/-- Block decoders that accept nothing, which is enough for raw blocks. -/
def noDecoders : BlockDecoders where
  tokens _ _ _ _ _ := .error .corrupt
  ans _ _ _ _ _ := .error .corrupt
  ans4 _ _ _ _ _ := .error .corrupt
  ctx _ _ _ _ _ := .error .corrupt
  huffman _ _ _ _ _ := .error .corrupt
  sequences _ _ _ _ := .error .corrupt
  sequencesV2 _ _ _ _ := .error .corrupt

end Zupt.VaptVupt
