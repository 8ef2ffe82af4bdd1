import Zupt.Layout

/-! # Compressing blocks

    What the writers do with one block of plain bytes: try the codec the
    options name, fall back to storing the block, and put it into a frame; or,
    with deduplication, refer to a block that is in the archive already.

    The choice of the codec is written out four times in the source, for the
    single-threaded loop, the workers, solid archives and disk images.  The
    copies differ in the capacities they give the compressors and in a few
    thresholds, which are the fields of `CodecCaps`. -/

namespace Zupt.Compress

open Zupt.LittleEndian Zupt.Stream Zupt.Seal Zupt.Frame Zupt.Transform Zupt.Decode
open Zupt.Index Zupt.Open Zupt.Layout

/-! ## Options -/

/-- What `write_enc_header` leaves behind: the envelope it wrote and the
    keyring it activated, for which the writers have set `use_preface_aad`. -/
structure SealKey where
  envelope : Bytes
  postQuantum : Bool
  keyring : Keyring
  active : keyring.active = true
  preface : keyring.usePrefaceAad = true

/-- What `zupt_options_t` holds for a writer.  A comment ends at its NUL. -/
structure WriterOptions where
  level : Int
  blockSize : UInt32
  codecId : UInt16
  dedup : Bool
  threads : Nat
  comment : Option Bytes
  encrypt : Option SealKey

/-- A file to put into an archive, under its archive path. -/
structure Input where
  path : CString
  content : Bytes
  mtime : UInt64

/-- What a writer finds around it: the clock, the random generator, the codec
    of this machine, and SHA-256. -/
structure WriterEnv where
  creationTime : UInt64
  archiveId : {id : Bytes // id.length = 16}
  nonces : Nat → Nonce
  resolveAutoCodec : UInt16
  sha256 : Bytes → Bytes

/-- `ZUPT_CODEC_AUTO`. -/
def codecAuto : UInt16 := 0xFFFF

/-- `auto_block_size`. -/
def autoBlockSize (level : Int) : UInt32 :=
  if level ≤ 2 then 131072
  else if level ≤ 4 then (1 : UInt32) <<< 20
  else if level ≤ 6 then (2 : UInt32) <<< 20
  else if level ≤ 7 then (4 : UInt32) <<< 20
  else (8 : UInt32) <<< 20

/-- `auto_block_size_dedup`. -/
def autoBlockSizeDedup (level : Int) : UInt32 := if level ≤ 2 then 131072 else 262144

/-- The block size after `opts->block_size == 0` has been dealt with. -/
def resolveBlockSize (opts : WriterOptions) : UInt32 :=
  if opts.blockSize = 0 then
    if opts.dedup then autoBlockSizeDedup opts.level else autoBlockSize opts.level
  else opts.blockSize

/-- The codec after `ZUPT_CODEC_AUTO` has been resolved. -/
def resolveCodec (opts : WriterOptions) (env : WriterEnv) : UInt16 :=
  if opts.codecId = codecAuto then env.resolveAutoCodec else opts.codecId

/-- The keyring frames are sealed with: `opts->encrypt && opts->keyring.active`. -/
def WriterOptions.keyring (opts : WriterOptions) : Option Keyring :=
  opts.encrypt.map SealKey.keyring

/-- The loop `while (remaining > 0)` over the blocks of a file; every turn
    takes at least one byte, so that the length bounds the turns. -/
def chunksFrom (blockSize : Nat) : (turns : Nat) → Bytes → List Bytes
  | 0, _ => []
  | turns + 1, content =>
      if content = [] then []
      else content.take blockSize :: chunksFrom blockSize turns (content.drop blockSize)

/-- The blocks of a file. -/
def chunksOf (blockSize : Nat) (content : Bytes) : List Bytes :=
  chunksFrom blockSize content.length content

/-! ## Codecs -/

/-- `zupt_lzh_bound`. -/
def lzhBound (slen : Nat) : Nat := slen + slen / 8 + 2048

/-- `zupt_lz_bound`. -/
def lzBound (srcLen : Nat) : Nat := srcLen + srcLen / 255 + 32

/-- `vvz_compress_bound`: a header of 16 and a footer of 12 bytes. -/
def vvzCompressBound (srcLen : Nat) : Nat := srcLen + srcLen / 255 + 256 + 16 + 12

/-- The capacities and thresholds in which the writers differ. -/
structure CodecCaps where
  /-- The percentage the prediction has to save. -/
  percent : Nat
  /-- For LZH behind the flag and the prediction table, and behind the flag. -/
  lzhPredicted : Nat
  lzhPlain : Nat
  lzh : Nat
  /-- `none` where the writer has no branch for this codec. -/
  lz : Option Nat
  vv : Nat
  /-- The buffer a VaptVupt stream is copied to, where that is checked. -/
  vvCopied : Option Nat

variable (C : Codecs)

/-- `cbuf[0] = 0x01`: the table and the LZH stream of the prediction residue,
    if that is shorter than the block. -/
def lzhpPredicted (cap : Nat) (level : Int) (src : Bytes) : Bytes :=
  let pred := predictBuild src
  let lzh := C.lzhCompress (predictEncode pred src) cap level
  if lzh.length > 0 ∧ 1 + 256 + lzh.length < src.length then 0x01 :: (pred ++ lzh) else []

/-- `cbuf[0] = 0x00`: a plain LZH stream, if that is shorter than the block. -/
def lzhpPlain (cap : Nat) (level : Int) (src : Bytes) : Bytes :=
  let plain := C.lzhCompress src cap level
  if plain.length > 0 ∧ 1 + plain.length < src.length then 0x00 :: plain else []

/-- The branch for `ZUPT_CODEC_ZUPT_LZHP`. -/
def compressLzhp (caps : CodecCaps) (level : Int) (src : Bytes) : Bytes :=
  if C.predictPays src caps.percent ∧ src.length > 256 then
    match lzhpPredicted C caps.lzhPredicted level src with
    | [] => lzhpPlain C caps.lzhPlain level src
    | out => out
  else lzhpPlain C caps.lzhPlain level src

/-- The branch for `ZUPT_CODEC_VAPTVUPT`. -/
def compressVv (caps : CodecCaps) (level : Int) (src : Bytes) : Bytes :=
  match C.vvzCompress src caps.vv level with
  | none => []
  | some out =>
      if out.length < src.length ∧ ∀ cap ∈ caps.vvCopied, out.length ≤ cap then out else []

/-- The codec dispatch: the `comp_size` bytes of `cbuf`. -/
def compressWith (caps : CodecCaps) (codec : UInt16) (level : Int) (src : Bytes) : Bytes :=
  if codec = codecLzhp then compressLzhp C caps level src
  else if codec = codecLzh then C.lzhCompress src caps.lzh level
  else if codec = codecLz then
    match caps.lz with
    | some cap => C.lzCompress src cap level
    | none => []
  else if codec = codecVaptVupt then compressVv C caps level src
  else []

/-- The single-threaded loop of `zupt_compress_files`, for a block of `nread`
    bytes. -/
def serialCaps (nread : Nat) : CodecCaps where
  percent := 3
  lzhPredicted := lzhBound nread
  lzhPlain := lzhBound nread
  lzh := lzhBound nread
  lz := some (lzBound nread)
  vv := if vvzCompressBound nread > lzhBound nread + 512 then vvzCompressBound nread
    else lzhBound nread + 512
  vvCopied := none

/-- `worker_compress`. -/
def workerCaps (nread : Nat) : CodecCaps where
  percent := 3
  lzhPredicted := lzhBound nread
  lzhPlain := lzhBound nread
  lzh := lzhBound nread
  lz := some (lzBound nread)
  vv := vvzCompressBound nread
  vvCopied := some (lzhBound nread + 512)

/-- `zupt_compress_solid`, whose buffers are sized by the block size. -/
def solidCaps (blockSize chunk : Nat) : CodecCaps where
  percent := 3
  lzhPredicted := lzhBound blockSize + 512 - 257
  lzhPlain := lzhBound blockSize + 512 - 1
  lzh := lzhBound blockSize + 512
  lz := none
  vv := vvzCompressBound chunk
  vvCopied := some (lzhBound blockSize + 512)

/-- `comp_cap` of `zupt_disk_backup`. -/
def diskCompCap (blockSize : Nat) : Nat :=
  max (vvzCompressBound blockSize + 512) (lzhBound blockSize + 512)

/-- `zupt_disk_backup`. -/
def diskCaps (blockSize : Nat) : CodecCaps where
  percent := 2
  lzhPredicted := diskCompCap blockSize - 257
  lzhPlain := diskCompCap blockSize - 1
  lzh := diskCompCap blockSize
  lz := some (diskCompCap blockSize)
  vv := diskCompCap blockSize
  vvCopied := none

/-! ## Frames -/

/-- The DATA frame of a block: what the codec made of it, or the block itself
    if that is not smaller. -/
def dataFrame (codec : UInt16) (comp src : Bytes) (blockSeq : UInt64) : WrittenFrame :=
  let stored := comp.length = 0 ∨ comp.length ≥ src.length
  { blockType := blockData
    codecId := if stored then codecStore else codec
    uncompressedSize := UInt64.ofNat src.length
    checksum := xxh64 src 0
    plain := if stored then src else comp
    blockSeq := blockSeq }

/-- A block in the single-threaded loop of `zupt_compress_files`. -/
def serialFrame (codec : UInt16) (level : Int) (src : Bytes) (blockSeq : UInt64) : WrittenFrame :=
  dataFrame codec (compressWith C (serialCaps src.length) codec level src) src blockSeq

/-- A block in `worker_compress`. -/
def workerFrame (codec : UInt16) (level : Int) (src : Bytes) (blockSeq : UInt64) : WrittenFrame :=
  dataFrame codec (compressWith C (workerCaps src.length) codec level src) src blockSeq

/-- A block in `zupt_compress_solid`. -/
def solidFrame (blockSize : Nat) (codec : UInt16) (level : Int) (src : Bytes) (blockSeq : UInt64) :
    WrittenFrame :=
  dataFrame codec (compressWith C (solidCaps blockSize src.length) codec level src) src blockSeq

/-- `block_is_zero`. -/
def blockIsZero (buf : Bytes) : Bool := buf.all (· == 0)

/-- A block in `zupt_disk_backup`, which stores blocks of zeros. -/
def diskFrame (blockSize : Nat) (codec : UInt16) (level : Int) (src : Bytes) (blockSeq : UInt64) :
    WrittenFrame :=
  if blockIsZero src then dataFrame codecStore src src blockSeq
  else dataFrame codec (compressWith C (diskCaps blockSize) codec level src) src blockSeq

/-- `zupt_dedup_write_ref_secure`: only a sealed reference carries the
    sequence of the frame it refers to. -/
def refFrame (sealedRef : Bool) (refOffset : UInt64) (origSize : UInt32) (origChecksum : UInt64)
    (currentAadSeq referencedAadSeq : UInt64) : WrittenFrame where
  blockType := blockDedupRef
  codecId := codecStore
  uncompressedSize := UInt64.ofNat origSize.toNat
  checksum := origChecksum
  plain := if sealedRef then le64Put refOffset ++ le64Put referencedAadSeq else le64Put refOffset
  blockSeq := currentAadSeq

/-! ## The deduplication index -/

/-- `ZUPT_DEDUP_MAX_ENTRIES`. -/
def dedupMaxEntries : Nat := 2 * 1024 * 1024

/-- `ZUPT_DEDUP_DIGEST_SIZE`. -/
def dedupDigestSize : Nat := 16

/-- `zupt_dedup_entry_t`, where it is occupied. -/
structure DedupEntry where
  fingerprint : UInt64
  blockOffset : UInt64
  digest : Bytes
  blockSize : UInt32
  aadSeq : UInt64

/-- `zupt_dedup_ctx_t`. -/
structure DedupTable where
  table : Nat → Option DedupEntry
  count : Nat

/-- `zupt_dedup_init`. -/
def DedupTable.init : DedupTable := ⟨fun _ => none, 0⟩

/-- The slot of a probe. -/
def dedupSlot (fingerprint : UInt64) (probe : Nat) : Nat :=
  (fingerprint.toNat % dedupMaxEntries + probe) % dedupMaxEntries

/-- The probes of `zupt_dedup_lookup_secure`. -/
def lookupFrom (t : DedupTable) (fingerprint : UInt64) (digest : Bytes) :
    (remaining probe : Nat) → Option DedupEntry
  | 0, _ => none
  | remaining + 1, probe =>
      match t.table (dedupSlot fingerprint probe) with
      | none => none
      | some e =>
          if e.fingerprint = fingerprint ∧ e.digest = digest then some e
          else lookupFrom t fingerprint digest remaining (probe + 1)

/-- `zupt_dedup_lookup_secure`. -/
def DedupTable.lookup (t : DedupTable) (fingerprint : UInt64) (digest : Bytes) :
    Option DedupEntry :=
  lookupFrom t fingerprint digest 64 0

/-- The probes of `zupt_dedup_insert_secure`. -/
def insertFrom (t : DedupTable) (e : DedupEntry) : (remaining probe : Nat) → DedupTable
  | 0, _ => t
  | remaining + 1, probe =>
      match t.table (dedupSlot e.fingerprint probe) with
      | none =>
          ⟨Function.update t.table (dedupSlot e.fingerprint probe) (some e), t.count + 1⟩
      | some _ => insertFrom t e remaining (probe + 1)

/-- `zupt_dedup_insert_secure`, which leaves a table that is three quarters
    full as it is. -/
def DedupTable.insert (t : DedupTable) (e : DedupEntry) : DedupTable :=
  if t.count ≥ dedupMaxEntries * 3 / 4 then t else insertFrom t e 64 0

/-- `dedup_digest`: of the SHA-256 only the first 16 bytes are kept. -/
def dedupDigest (env : WriterEnv) (src : Bytes) : Bytes := (env.sha256 src).take dedupDigestSize

end Zupt.Compress
