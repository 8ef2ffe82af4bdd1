import Zupt.Compress
import Zupt.SlotPool.Basic

/-! # Writing archives

    `zupt_compress_files`, `zupt_compress_solid` and `zupt_disk_backup`.  All
    of them send the blocks of their input to the archive as frames and finish
    with comment, index, footer and trailer.  `zupt_compress_files` can hand
    the blocks to worker threads in batches; with deduplication it never does.

    Input files are their contents: they do not change while they are read,
    and none of them is the archive itself.  Writing succeeds, and so does
    allocating, except that a worker may run out of memory and say so. -/

namespace Zupt.Writers

open Zupt.LittleEndian Zupt.Stream Zupt.Seal Zupt.Frame Zupt.Transform Zupt.Decode
open Zupt.Trailer Zupt.Index Zupt.Open Zupt.Paths Zupt.Layout Zupt.Compress Zupt.SlotPool

/-- An archive as a writer leaves it. -/
structure Archive where
  parts : Parts
  footer : Footer
  entries : List IndexEntry

variable (P : Primitives) (C : Codecs)

/-- The bytes in the archive file. -/
def Archive.bytes (a : Archive) : Bytes := a.parts.bytes P a.footer

/-- The archive file while frames go into it: the frames so far, `ftello`, and
    the deduplication index. -/
structure OutState where
  frames : List Written
  pos : Nat
  dedup : DedupTable

/-- A frame is written. -/
def OutState.put (kr : Option Keyring) (st : OutState) (w : Written) : OutState :=
  { st with frames := st.frames ++ [w], pos := st.pos + (encodeWritten P kr w).length }

/-- What the loop over the blocks of one file carries: `file_hash_state`,
    `file_comp`, `index[fi].block_count` and `block_seq`. -/
structure FileWriter where
  out : OutState
  hash : UInt64
  comp : UInt64
  blockCount : UInt32
  blockSeq : Nat

/-- A frame of the file is written, with what is counted for it. -/
def FileWriter.put (kr : Option Keyring) (fw : FileWriter) (w : Written) : FileWriter :=
  { fw with
    out := fw.out.put P kr w
    comp := fw.comp + UInt64.ofNat (wirePayload P kr w).length
    blockCount := fw.blockCount + 1 }

/-- `(fi + 1) << 32 | block_seq`. -/
def fileAadSeq (fi blockSeq : Nat) : UInt64 :=
  (UInt64.ofNat (fi + 1) <<< 32) ||| UInt64.ofNat blockSeq

/-- The entry under which a block of the archive can be referred to, if there
    is one of the same size. -/
def dedupHit (opts : WriterOptions) (env : WriterEnv) (t : DedupTable) (chunk : Bytes) :
    Option DedupEntry :=
  if opts.dedup then
    match t.lookup (xxh64 chunk 0) (dedupDigest env chunk) with
    | some hit => if hit.blockSize = UInt32.ofNat chunk.length then some hit else none
    | none => none
  else none

/-- `zupt_dedup_insert_secure` for a block that was written at `offset`. -/
def dedupInsert (opts : WriterOptions) (env : WriterEnv) (t : DedupTable) (chunk : Bytes)
    (offset : Nat) (seq : UInt64) : DedupTable :=
  if opts.dedup then
    t.insert ⟨xxh64 chunk 0, UInt64.ofNat offset, dedupDigest env chunk,
      UInt32.ofNat chunk.length, seq⟩
  else t

/-- A block, as the loops with deduplication send it into the archive: a
    reference if there is a hit, the frame `data` otherwise. -/
def putBlock (opts : WriterOptions) (env : WriterEnv) (data : WrittenFrame) (chunk : Bytes)
    (seq : UInt64) (fw : FileWriter) : FileWriter :=
  let nonce := env.nonces fw.out.frames.length
  match dedupHit opts env fw.out.dedup chunk with
  | some hit =>
      let ref := refFrame opts.keyring.isSome hit.blockOffset (UInt32.ofNat chunk.length)
        (xxh64 chunk 0) seq hit.aadSeq
      fw.put P opts.keyring (ref, nonce)
  | none =>
      let written := fw.put P opts.keyring (data, nonce)
      { written with out := { written.out with
          dedup := dedupInsert opts env written.out.dedup chunk fw.out.pos seq } }

/-- The chained hash is fed, and the block counter goes on. -/
def FileWriter.count (fw : FileWriter) (chunk : Bytes) : FileWriter :=
  { fw with hash := xxh64 chunk fw.hash, blockSeq := fw.blockSeq + 1 }

namespace FileWriter

variable (fw : FileWriter) (chunk : Bytes)

@[simp] theorem count_out : (fw.count chunk).out = fw.out := by
  cases fw
  rfl

@[simp] theorem count_hash : (fw.count chunk).hash = xxh64 chunk fw.hash := by
  rw [FileWriter.count]

@[simp] theorem count_comp : (fw.count chunk).comp = fw.comp := by
  cases fw
  rfl

@[simp] theorem count_blockCount : (fw.count chunk).blockCount = fw.blockCount := by
  cases fw
  rfl

@[simp] theorem count_blockSeq : (fw.count chunk).blockSeq = fw.blockSeq + 1 := by
  cases fw
  rfl

end FileWriter

/-! ## Files -/

/-- A submitted block and the sequence it is sealed at. -/
abbrev CompressJob := Bytes × UInt64

/-- The main thread of `zupt_compress_files`. -/
abbrev WriterProg (α : Type) := Prog CompressJob (Result Written) Empty α

/-- The single-threaded loop over the blocks of file `fi`. -/
def serialBlocks (opts : WriterOptions) (env : WriterEnv) (fi : Nat) :
    List Bytes → FileWriter → FileWriter
  | [], fw => fw
  | chunk :: chunks, fw =>
      let seq := fileAadSeq fi fw.blockSeq
      let data := serialFrame C (resolveCodec opts env) opts.level chunk seq
      serialBlocks opts env fi chunks ((putBlock P opts env data chunk seq fw).count chunk)

/-- The loop that collects pending slots in order, going on past errors. -/
def collectBlocks (kr : Option Keyring) :
    List Nat → (writeErr : Bool) → FileWriter → WriterProg (Bool × FileWriter)
  | [], writeErr, fw => return (writeErr, fw)
  | slot :: slots, writeErr, fw => do
      let r ← Prog.receive slot
      match r with
      | .error _ => collectBlocks kr slots true fw
      | .ok w => collectBlocks kr slots writeErr (fw.put P kr w)

/-- The end of a batch of `threads` slots. -/
def flushBlocks (kr : Option Keyring) (threads : Nat) (pending : List Nat) (fw : FileWriter) :
    WriterProg (List Nat × Bool × FileWriter) :=
  if pending.length < threads then return (pending, false, fw)
  else do
    let (writeErr, fw) ← collectBlocks P kr pending false fw
    return ([], writeErr, fw)

/-- The multi-threaded loops over the blocks of file `fi`. -/
def mtBlocks (kr : Option Keyring) (threads fi : Nat) :
    List Bytes → (pending : List Nat) → FileWriter → WriterProg (Bool × FileWriter)
  | [], pending, fw => collectBlocks P kr pending false fw
  | chunk :: chunks, pending, fw => do
      let (pending, writeErr, fw) ← flushBlocks P kr threads pending fw
      if writeErr then return (true, fw)
      else do
        let seq := fileAadSeq fi fw.blockSeq
        let slot ← Prog.send seq.toNat (chunk, seq)
        mtBlocks kr threads fi chunks (pending ++ [slot]) (fw.count chunk)

/-- The index entry of a file whose blocks are written. -/
def fileEntry (input : Input) (firstBlockOffset : Nat) (fw : FileWriter) : IndexEntry where
  path := input.path
  uncompressedSize := UInt64.ofNat input.content.length
  compressedSize := fw.comp
  modificationTime := input.mtime
  contentHash := fw.hash
  firstBlockOffset := UInt64.ofNat firstBlockOffset
  blockCount := fw.blockCount
  attributes := 0o644

/-- A file that has not started. -/
def FileWriter.start (out : OutState) : FileWriter := ⟨out, 0, 0, 0, 0⟩

/-- The blocks of one file: through the pool when `mt` says there is one. -/
def compressBlocks (opts : WriterOptions) (env : WriterEnv) (mt : Bool) (fi : Nat)
    (input : Input) (out : OutState) : WriterProg (Bool × FileWriter) :=
  let chunks := chunksOf (resolveBlockSize opts).toNat input.content
  if mt then mtBlocks P opts.keyring opts.threads fi chunks [] (.start out)
  else return (false, serialBlocks P C opts env fi chunks (.start out))

/-- The loop over the files; `none` is a `write_err`. -/
def compressInputs (opts : WriterOptions) (env : WriterEnv) (mt : Bool) :
    (fi : Nat) → List Input → OutState → List IndexEntry →
      WriterProg (Option (OutState × List IndexEntry))
  | _, [], out, index => return some (out, index)
  | fi, input :: inputs, out, index =>
      if input.content.length ≥ 2 ^ 63 then return none
      else do
        let (writeErr, fw) ← compressBlocks P C opts env mt fi input out
        if writeErr then return none
        else
          compressInputs opts env mt (fi + 1) inputs fw.out
            (index ++ [fileEntry input out.pos fw])

/-- The flags of an encrypted archive. -/
def encryptFlags (opts : WriterOptions) : UInt32 :=
  match opts.encrypt with
  | some key => flagEncrypted ||| flagAadSeq ||| flagAadPreface |||
      (if key.postQuantum then flagPqHybrid else 0)
  | none => 0

/-- The flags of an archive with deduplication. -/
def dedupFlags (opts : WriterOptions) : UInt32 :=
  if opts.dedup then
    if opts.encrypt.isSome then flagDedup ||| flagAuthDedupRefs else flagDedup
  else 0

/-- The header in memory, without the offsets. -/
def writerHeader (env : WriterEnv) (globalFlags : UInt32) : ArchiveHeader where
  versionMajor := formatMajor
  versionMinor := formatMinor
  globalFlags := globalFlags
  creationTime := env.creationTime
  archiveId := env.archiveId.val
  encryptionHeaderOff := 0
  commentOffset := 0
  reserved := List.replicate 12 0
  archiveId_length := env.archiveId.property
  reserved_length := zeroed_reserved_length

/-- The comment `write_comment_block` writes: none if it is empty. -/
def writtenComment (opts : WriterOptions) : Option WrittenFrame :=
  match opts.comment with
  | some comment => if comment.length = 0 then none else some (commentFrame comment)
  | none => none

/-- Header, envelope, frames, comment and index of an archive. -/
def archiveParts (opts : WriterOptions) (env : WriterEnv) (globalFlags : UInt32)
    (frames : List Written) (comment : Option WrittenFrame) (index : WrittenFrame) : Parts where
  baseHeader := writerHeader env globalFlags
  keyring := opts.keyring
  envelope := opts.encrypt.map SealKey.envelope
  frames := frames
  comment := comment.map fun w => (w, env.nonces frames.length)
  index := (index, env.nonces (frames.length + 1))

/-- Where the first frame stands. -/
def firstFramePos (opts : WriterOptions) : Nat :=
  match opts.encrypt with
  | some key => archiveHeaderSize + (envelopeFrame key.envelope).length
  | none => archiveHeaderSize

/-- The flags of `zupt_compress_files`. -/
def fileFlags (opts : WriterOptions) (mt : Bool) : UInt32 :=
  encryptFlags opts ||| dedupFlags opts ||| (if mt then flagMultithreaded else 0)

/-- Index, footer and trailer of `zupt_compress_files`. -/
def finishFiles (opts : WriterOptions) (env : WriterEnv) (mt : Bool) (out : OutState)
    (entries : List IndexEntry) : Archive :=
  let parts := archiveParts opts env (fileFlags opts mt) out.frames (writtenComment opts)
    (indexFrame C lzhBound opts.level entries)
  { parts := parts
    footer := {
      indexOffset := UInt64.ofNat (parts.indexPos P)
      totalBlocks := UInt64.ofNat (out.frames.length + parts.comment.toList.length)
      archiveChecksum := UInt64.ofNat (parts.footerPos P) }
    entries := entries }

/-- What `zupt_compress_files` and `zupt_compress_solid` check first. -/
def inputsError (inputs : List Input) : Option ZuptError :=
  if inputs.length > maxIndexAllocBytes / entrySize then some .overflow
  else
    match validateArchiveDestinations (inputs.map (·.path)) true with
    | .error e => some e
    | .ok () => none

/-- Whether the blocks go through a pool; `pool` says whether `zpar_create`
    gave one with at least one worker. -/
def multithreaded (opts : WriterOptions) (pool : Bool) : Bool :=
  pool && decide (1 < opts.threads) && !opts.dedup

/-- `zupt_compress_files`. -/
def compressFiles (opts : WriterOptions) (env : WriterEnv) (pool : Bool) (inputs : List Input) :
    WriterProg (Result Archive) :=
  match inputsError inputs with
  | some e => return .error e
  | none => do
      let mt := multithreaded opts pool
      let written ← compressInputs P C opts env mt 0 inputs ⟨[], firstFramePos opts, .init⟩ []
      match written with
      | none => return .error .io
      | some (out, entries) => return .ok (finishFiles P C opts env mt out entries)

/-- The pool `zpar_create` makes for `zupt_compress_files`. -/
def compressPool (opts : WriterOptions) (env : WriterEnv) (started : Nat → Prop) :
    Pool CompressJob (Result Written) where
  nslots := max 1 (min opts.threads 64)
  nslots_pos := by omega
  started := started
  work job r :=
    (∃ nonce, r = .ok (workerFrame C (resolveCodec opts env) opts.level job.1 job.2, nonce)) ∨
      r = .error .nomem
  failed r := match r with
    | .ok _ => false
    | .error _ => true
  cancelled := .error .corrupt
  cancelled_failed := rfl

/-! ## Solid archives -/

/-- The block size of a solid archive. -/
def solidBlockSize (opts : WriterOptions) : UInt32 :=
  if resolveBlockSize opts < 524288 then 524288 else resolveBlockSize opts

/-- The entries of a solid archive: where each file starts in the stream, and
    the hash of its slice. -/
def solidIndex : (cum : Nat) → List Input → List IndexEntry
  | _, [] => []
  | cum, input :: inputs =>
      { path := input.path
        uncompressedSize := UInt64.ofNat input.content.length
        compressedSize := 0
        modificationTime := input.mtime
        contentHash := if input.content.length > 0 then xxh64 input.content 0 else 0
        firstBlockOffset := UInt64.ofNat cum
        blockCount := 0
        attributes := 0 } :: solidIndex (cum + input.content.length) inputs

/-- `(uint64_t)1 << 32 | block_seq`. -/
def solidAadSeq (blockSeq : Nat) : UInt64 := ((1 : UInt64) <<< 32) ||| UInt64.ofNat blockSeq

/-- The loop over the blocks of the stream. -/
def solidFrames (opts : WriterOptions) (env : WriterEnv) :
    (blockSeq : Nat) → List Bytes → List Written
  | _, [] => []
  | blockSeq, chunk :: chunks =>
      (solidFrame C (solidBlockSize opts).toNat (resolveCodec opts env) opts.level chunk
        (solidAadSeq blockSeq), env.nonces blockSeq) :: solidFrames opts env (blockSeq + 1) chunks

/-- `zupt_compress_solid`. -/
def compressSolid (opts : WriterOptions) (env : WriterEnv) (inputs : List Input) :
    Result Archive :=
  match inputsError inputs with
  | some e => .error e
  | none =>
      let stream := (inputs.map (·.content)).flatten
      if inputs.any fun input => decide (input.content.length ≥ 2 ^ 63) then .error .io
      else if stream.length ≥ 2 ^ 64 then .error .overflow
      else
        let frames := solidFrames C opts env 0 (chunksOf (solidBlockSize opts).toNat stream)
        let entries := solidIndex 0 inputs
        let parts := archiveParts opts env (encryptFlags opts ||| flagSolid) frames
          (writtenComment opts) (indexFrame C lzhBound opts.level entries)
        .ok {
          parts := parts
          footer := {
            indexOffset := UInt64.ofNat (parts.indexPos P)
            totalBlocks := UInt64.ofNat (frames.length + parts.comment.toList.length + 1)
            archiveChecksum := 0 }
          entries := entries }

/-! ## Disk images -/

/-- `ZUPT_MIN_BLOCK_SZ`. -/
def minBlockSz : UInt32 := 64 * 1024

/-- The block size of a disk image. -/
def diskBlockSize (opts : WriterOptions) : UInt32 :=
  let blockSize := if opts.blockSize = 0 then 4 * 1024 * 1024 else opts.blockSize
  if blockSize < minBlockSz then minBlockSz else blockSize

/-- The loop over the blocks of the source. -/
def diskBlocks (opts : WriterOptions) (env : WriterEnv) :
    List Bytes → FileWriter → FileWriter
  | [], fw => fw
  | chunk :: chunks, fw =>
      let seq := UInt64.ofNat fw.blockSeq
      let data := diskFrame C (diskBlockSize opts).toNat (resolveCodec opts env) opts.level chunk
        seq
      diskBlocks opts env chunks ((putBlock P opts env data chunk seq fw).count chunk)

/-- The flags of `zupt_disk_backup`, which records the threads it was asked
    for although it uses none. -/
def diskFlags (opts : WriterOptions) : UInt32 :=
  flagDiskImage ||| flagDiskContentHash ||| encryptFlags opts |||
    (if opts.threads > 1 then flagMultithreaded else 0) ||| dedupFlags opts

/-- `zupt_disk_backup` of a source under the label it gets in the archive. -/
def diskBackup (opts : WriterOptions) (env : WriterEnv) (source : Input) : Result Archive :=
  let size := source.content.length
  if size = 0 ∨ size ≥ 2 ^ 63 then .error .io
  else if size / (diskBlockSize opts).toNat
      + (if size % (diskBlockSize opts).toNat ≠ 0 then 1 else 0) > 0xFFFFFFFF then .error .overflow
  else
    let fw := diskBlocks P C opts env (chunksOf (diskBlockSize opts).toNat source.content)
      (.start ⟨[], firstFramePos opts, .init⟩)
    let entry := { fileEntry source (firstFramePos opts) fw with
      blockCount := UInt32.ofNat fw.blockSeq, attributes := 0 }
    let parts := archiveParts opts env (diskFlags opts) fw.out.frames none (diskIndexFrame entry)
    .ok {
      parts := parts
      footer := {
        indexOffset := UInt64.ofNat (parts.indexPos P)
        totalBlocks := UInt64.ofNat fw.blockSeq
        archiveChecksum := xxh64 (serializeArchiveHeader (parts.header P))
          (UInt64.ofNat fw.blockSeq) }
      entries := [entry] }

end Zupt.Writers
