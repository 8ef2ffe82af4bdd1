import Zupt.Open
import Zupt.SlotPool.Basic

/-! # Extraction

    `zupt_extract_archive`: after the archive is open and its quota checked,
    either the solid stream is decoded and cut up, or the entries are decoded
    one after the other.  With threads an entry of more than one block goes
    through the slot pool in batches; the main thread reads and submits the
    frames, and writes the results in order.

    The file system is an `OutputEnv`: which outputs can be created, which
    writes succeed, and how publication ends.  A short write counts as not
    written.  What happens to the output directory, run by run, is the log of
    `OutputEvent`s. -/

namespace Zupt.Extract

open Zupt.LittleEndian Zupt.Stream Zupt.Seal Zupt.Frame Zupt.Transform Zupt.Decode
open Zupt.Trailer Zupt.Index Zupt.Open Zupt.Paths Zupt.SlotPool

/-- How `zupt_finish_output` with `publish` set can end. -/
inductive Finish where
  /-- The file is published and 0 is returned. -/
  | published
  /-- The file is published but removing the temporary name failed. -/
  | publishedDirty
  /-- Nothing is published. -/
  | failed
  deriving DecidableEq, Repr

/-- The file system as the extraction meets it, by the index of the entry. -/
structure OutputEnv where
  /-- `zupt_safe_fopen_output`. -/
  canOpen : (index : Nat) → Bool
  /-- `fwrite` of a chunk behind the bytes already written. -/
  writeOk : (index : Nat) → (written : UInt64) → (chunk : Bytes) → Bool
  finish : (index : Nat) → Finish

/-- An output file the extraction created. -/
structure OutputFile where
  index : Nat
  data : Bytes
  published : Bool
  deriving DecidableEq, Repr

/-- What a run does to the output directory. -/
inductive OutputEvent where
  /-- The temporary file of this entry holds these bytes. -/
  | wrote (index : Nat) (data : Bytes)
  /-- The output is published or removed. -/
  | finished (out : OutputFile)

/-- The bytes of one output so far: `file_extracted`, `file_hash`, and the
    contents of the temporary file. -/
structure Progress where
  extracted : UInt64
  hash : UInt64
  data : Bytes

/-- Nothing written yet. -/
def Progress.start : Progress := ⟨0, 0, []⟩

/-- `zupt_write_verified_chunk`; `none` is its 0. -/
def writeVerifiedChunk (env : OutputEnv) (i : Nat) (expectedSize : UInt64) (p : Progress)
    (chunk : Bytes) : Option Progress :=
  if p.extracted > expectedSize ∨ chunk.length > (expectedSize - p.extracted).toNat then none
  else if chunk.length > 0 then
    if env.writeOk i p.extracted chunk then
      some ⟨p.extracted + UInt64.ofNat chunk.length, xxh64 chunk p.hash, p.data ++ chunk⟩
    else none
  else some p

/-- Where the decoding of an entry stands: the archive position, the output,
    and `berr`. -/
structure FileState where
  pos : Nat
  progress : Progress
  berr : Bool

/-- A chunk is written, or the entry goes bad. -/
def FileState.write (env : OutputEnv) (i : Nat) (e : IndexEntry) (st : FileState)
    (chunk : Bytes) : FileState :=
  match writeVerifiedChunk env i e.uncompressedSize st.progress chunk with
  | some p => { st with progress := p }
  | none => { st with berr := true }

/-- `archive_data_aad_seq`. -/
def archiveDataAadSeq (globalFlags : UInt32) (entryIndex blockIndex : Nat) : UInt64 :=
  if hasFlag globalFlags flagDiskImage then UInt64.ofNat blockIndex
  else if hasFlag globalFlags flagDedup && !hasFlag globalFlags flagAuthDedupRefs then 0
  else (UInt64.ofNat (entryIndex + 1) <<< 32) ||| UInt64.ofNat blockIndex

/-- An open archive: its bytes, the flags and the keyring, and for legacy
    encrypted disk archives with references the map from the offsets of their
    DATA frames to the sequences. -/
structure Source where
  bytes : Bytes
  globalFlags : UInt32
  keyring : Keyring
  legacyMap : Option (List (UInt64 × UInt64))

variable (P : Primitives) (C : Codecs)

/-- The branch for a DEDUP_REF frame read in front of `cur`: the referenced
    frame must lie before it, be a DATA frame, and have the size and checksum
    the reference announces.  The stream is back at `cur` afterwards. -/
def referencedData (src : Source) (i b cur : Nat) (blk : Block) : Result Bytes :=
  let requireAuthentication := hasFlag src.globalFlags flagAuthDedupRefs
  let currentSeq := if requireAuthentication then archiveDataAadSeq src.globalFlags i b else 0
  match dedupReadRef P blk src.keyring requireAuthentication currentSeq with
  | .error e => .error e
  | .ok (refOff, sealedSeq) =>
      match (match src.legacyMap with
        | some map => map.lookup refOff
        | none => some sealedSeq) with
      | none => .error .corrupt
      | some referencedSeq =>
          if refOff.toNat ≥ cur ∨ ¬ (fseeko refOff cur).1 then .error .corrupt
          else
            match (readBlock.run src.bytes refOff.toNat).1 with
            | .error e => .error e
            | .ok refBlk =>
                if refBlk.blockType ≠ blockData ∨
                    refBlk.uncompressedSize ≠ blk.uncompressedSize ∨
                    refBlk.checksum ≠ blk.checksum then .error .corrupt
                else decompressBlock P C refBlk (some src.keyring) referencedSeq

/-! ## One entry, single-threaded -/

/-- The single-threaded loop over the blocks of entry `i`, at block `b`, with
    `dec` for `decompress_block` of a DATA frame.  A frame that does not
    decode ends it; a chunk that is not written does not. -/
def blockLoop (dec : Block → UInt64 → Result Bytes) (src : Source) (env : OutputEnv) (i : Nat)
    (e : IndexEntry) : (remaining b : Nat) → FileState → FileState
  | 0, _, st => st
  | remaining + 1, b, st =>
      match readBlock.run src.bytes st.pos with
      | (.error _, pos) => { st with pos := pos, berr := true }
      | (.ok blk, pos) =>
          if blk.blockType = blockDedupRef then
            match referencedData P C src i b pos blk with
            | .error _ => { st with pos := pos, berr := true }
            | .ok out =>
                blockLoop dec src env i e remaining (b + 1)
                  (FileState.write env i e { st with pos := pos } out)
          else if blk.blockType ≠ blockData then { st with pos := pos, berr := true }
          else
            match dec blk (archiveDataAadSeq src.globalFlags i b) with
            | .error _ => { st with pos := pos, berr := true }
            | .ok out =>
                blockLoop dec src env i e remaining (b + 1)
                  (FileState.write env i e { st with pos := pos } out)

/-- The single-threaded path of an entry. -/
def serialLoop (src : Source) : OutputEnv → Nat → IndexEntry → Nat → Nat → FileState →
    FileState :=
  blockLoop P C (fun blk seq => decompressBlock P C blk (some src.keyring) seq) src

/-! ## One entry, through the pool -/

/-- A submitted frame and the sequence it is opened at. -/
abbrev DecodeJob := Block × UInt64

/-- The main thread of an extraction. -/
abbrev ReaderProg (α : Type) := Prog DecodeJob (Result Bytes) OutputEvent α

/-- A chunk goes to the output. -/
def writeOutput (env : OutputEnv) (i : Nat) (e : IndexEntry) (st : FileState) (chunk : Bytes) :
    ReaderProg FileState := do
  let st := FileState.write env i e st chunk
  Prog.tell (.wrote i st.progress.data)
  return st

/-- A worker that is done with an empty chunk leaves no output to write. -/
def writeResult (env : OutputEnv) (i : Nat) (e : IndexEntry) (st : FileState) (out : Bytes) :
    ReaderProg FileState :=
  if out = [] then return st else writeOutput env i e st out

/-- The loop that collects pending slots in order. -/
def collectAll (env : OutputEnv) (i : Nat) (e : IndexEntry) :
    List Nat → FileState → ReaderProg FileState
  | [], st => return st
  | slot :: slots, st => do
      let r ← Prog.receive slot
      match r with
      | .error _ => collectAll env i e slots { st with berr := true }
      | .ok out => do
          let st ← writeResult env i e st out
          collectAll env i e slots st

/-- The end of a batch: once `threads` slots are pending they are collected,
    and a bad entry stops there. -/
def flushFull (env : OutputEnv) (i : Nat) (e : IndexEntry) (threads : Nat)
    (pending : List Nat) (st : FileState) :
    ReaderProg (List Nat × FileState × Bool) :=
  if pending.length < threads then return (pending, st, false)
  else do
    let st ← collectAll env i e pending st
    return ([], st, st.berr)

/-- The multi-threaded loops over the blocks of entry `i`, at block `b`, with
    the slots of the current batch. -/
def mtLoop (src : Source) (env : OutputEnv) (threads i : Nat) (e : IndexEntry) :
    (remaining b : Nat) → (pending : List Nat) → FileState →
      ReaderProg FileState
  | 0, _, pending, st => collectAll env i e pending st
  | remaining + 1, b, pending, st => do
      let (pending, st, stop) ← flushFull env i e threads pending st
      if stop then return st
      else
        match readBlock.run src.bytes st.pos with
        | (.error _, pos) => collectAll env i e pending { st with pos := pos, berr := true }
        | (.ok blk, pos) =>
            if blk.blockType = blockDedupRef then do
              -- references are decoded inline, behind what is pending
              let st ← collectAll env i e pending { st with pos := pos }
              if st.berr then return st
              else
                match referencedData P C src i b pos blk with
                | .error _ => return { st with berr := true }
                | .ok dec => do
                    let st ← writeOutput env i e st dec
                    mtLoop src env threads i e remaining (b + 1) [] st
            else if blk.blockType ≠ blockData then
              collectAll env i e pending { st with pos := pos, berr := true }
            else do
              let seq := archiveDataAadSeq src.globalFlags i b
              let slot ← Prog.send seq.toNat (blk, seq)
              mtLoop src env threads i e remaining (b + 1) (pending ++ [slot])
                { st with pos := pos }

/-! ## All entries -/

/-- The blocks of one entry: through the pool when `mt` says there is one and
    the entry has more than one block.  The serial path never waits, so that
    only what it has written in the end is of interest. -/
def extractBlocks (src : Source) (env : OutputEnv) (mt : Bool) (threads i : Nat)
    (e : IndexEntry) (start : FileState) : ReaderProg FileState :=
  if mt && decide (1 < e.blockCount.toNat) then
    mtLoop P C src env threads i e e.blockCount.toNat 0 [] start
  else do
    let st := serialLoop P C src env i e e.blockCount.toNat 0 start
    Prog.tell (.wrote i st.progress.data)
    return st

/-- `require_content_hash`. -/
def requireContentHash (globalFlags : UInt32) : Bool :=
  !hasFlag globalFlags flagDiskImage || hasFlag globalFlags flagDiskContentHash

/-- The final size and hash comparison of an entry, on top of `berr`. -/
def entryBad (globalFlags : UInt32) (e : IndexEntry) (st : FileState) : Bool :=
  st.berr || (decide (st.progress.extracted ≠ e.uncompressedSize) ||
    (requireContentHash globalFlags && decide (st.progress.hash ≠ e.contentHash)))

/-- What the extraction carries from entry to entry. -/
structure RunState where
  pos : Nat
  fail : Nat
  outputs : List OutputFile

/-- How an entry that was decoded ends: compared, and published or removed. -/
def entryOutput (globalFlags : UInt32) (env : OutputEnv) (i : Nat) (e : IndexEntry)
    (st : FileState) : Finish × OutputFile :=
  if entryBad globalFlags e st then (.failed, ⟨i, st.progress.data, false⟩)
  else (env.finish i, ⟨i, st.progress.data, decide (env.finish i ≠ .failed)⟩)

/-- What the end of an entry leaves behind: its output, and `fail` counted. -/
def RunState.finish (globalFlags : UInt32) (env : OutputEnv) (i : Nat) (e : IndexEntry)
    (st : FileState) (run : RunState) : RunState :=
  let (finish, out) := entryOutput globalFlags env i e st
  ⟨st.pos, if finish = .published then run.fail else run.fail + 1, run.outputs ++ [out]⟩

/-- The end of an entry: publish or remove, and count. -/
def finishEntry (globalFlags : UInt32) (env : OutputEnv) (i : Nat) (e : IndexEntry)
    (st : FileState) (run : RunState) : ReaderProg RunState := do
  Prog.tell (.finished (entryOutput globalFlags env i e st).2)
  return RunState.finish globalFlags env i e st run

/-- The loop over the entries; `mt` says whether there is a pool. -/
def extractEntries (src : Source) (env : OutputEnv) (mt : Bool) (threads : Nat) :
    (i : Nat) → List IndexEntry → RunState → ReaderProg RunState
  | _, [], run => return run
  | i, e :: es, run =>
      if !pathIsSafe e.path.bytes || !env.canOpen i then
        extractEntries src env mt threads (i + 1) es { run with fail := run.fail + 1 }
      else do
        let start : FileState := ⟨(fseeko e.firstBlockOffset run.pos).2, .start, false⟩
        let st ← extractBlocks P C src env mt threads i e start
        let run ← finishEntry src.globalFlags env i e st run
        extractEntries src env mt threads (i + 1) es run

/-! ## Solid archives -/

/-- The `while (!dec_error)` loop: the decoded stream, the number of blocks,
    and the position behind them; `none` is `dec_error`.  Every turn reads at
    least one byte, so that the length of the file bounds the turns. -/
def solidLoop (bytes : Bytes) (keyring : Keyring) (dataEnd totalSize : Nat) :
    (turns pos blockSeq : Nat) → (buf : Bytes) → Option (Bytes × Nat)
  | 0, _, _, _ => none
  | turns + 1, pos, blockSeq, buf =>
      if pos = dataEnd then some (buf, blockSeq)
      else if pos > dataEnd then none
      else
        match readBlock.run bytes pos with
        | (.error _, _) => none
        | (.ok blk, pos) =>
            if blk.blockType ≠ blockData then none
            else
              let aadSeq := ((1 : UInt64) <<< 32) ||| UInt64.ofNat blockSeq
              match decompressBlock P C blk (some keyring) aadSeq with
              | .error _ => none
              | .ok dec =>
                  if dec.length > totalSize - buf.length then none
                  else solidLoop bytes keyring dataEnd totalSize turns pos (blockSeq + 1)
                    (buf ++ dec)

/-- The checks and the write of one entry of a solid archive, whose bytes are
    a slice of the stream; `none` if they stop before an output is created. -/
def solidOutput (env : OutputEnv) (stream : Bytes) (i : Nat) (e : IndexEntry) :
    Option (Finish × OutputFile) :=
  let off := e.firstBlockOffset.toNat
  let sz := e.uncompressedSize.toNat
  let data := (stream.drop off).take sz
  let ck : UInt64 := if sz > 0 then xxh64 data 0 else 0
  if !pathIsSafe e.path.bytes then none
  else if off > stream.length ∨ sz > stream.length - off then none
  else if ck ≠ e.contentHash then none
  else if !env.canOpen i then none
  else if sz > 0 ∧ ¬ env.writeOk i 0 data then some (.failed, ⟨i, [], false⟩)
  else some (env.finish i, ⟨i, data, decide (env.finish i ≠ .failed)⟩)

/-- The loop over the entries of a solid archive. -/
def solidEntries (env : OutputEnv) (stream : Bytes) :
    (i : Nat) → List IndexEntry → RunState → ReaderProg RunState
  | _, [], run => return run
  | i, e :: es, run =>
      match solidOutput env stream i e with
      | none => solidEntries env stream (i + 1) es { run with fail := run.fail + 1 }
      | some (finish, out) => do
          Prog.tell (.finished out)
          solidEntries env stream (i + 1) es { run with
            fail := if finish = .published then run.fail else run.fail + 1
            outputs := run.outputs ++ [out] }

/-- `fail > 0 ? ZUPT_ERR_CORRUPT : ZUPT_OK`. -/
def verdict (run : RunState) : Result Unit := if run.fail > 0 then .error .corrupt else .ok ()

/-- The sum of the indexed sizes. -/
def indexedSize (entries : List IndexEntry) : Nat :=
  (entries.map fun e => e.uncompressedSize.toNat).sum

/-- Where the solid stream starts: behind the header, and behind the
    encryption header of an encrypted archive. -/
def solidStart (globalFlags : UInt32) (bytes : Bytes) : Result Nat :=
  if hasFlag globalFlags flagEncrypted then
    match readBlock.run bytes archiveHeaderSize with
    | (.error e, _) => .error e
    | (.ok _, pos) => .ok pos
  else .ok archiveHeaderSize

/-- The solid branch of `zupt_extract_archive`. -/
def extractSolid (o : Opened) (env : OutputEnv) (bytes : Bytes) :
    ReaderProg (Result Unit × List OutputFile) :=
  let totalSize := indexedSize o.entries
  let dataEnd := if o.hdr.commentOffset ≠ 0 then o.hdr.commentOffset.toNat
    else o.footer.indexOffset.toNat
  let metadataBlocks := if o.hdr.commentOffset ≠ 0 then 2 else 1
  if totalSize > 4 * 1024 * 1024 * 1024 then return (.error .overflow, [])
  else
    match solidStart o.hdr.globalFlags bytes with
    | .error e => return (.error e, [])
    | .ok start =>
        match solidLoop P C bytes o.keyring dataEnd totalSize (bytes.length + 1) start 0 [] with
        | none => return (.error .corrupt, [])
        | some (stream, blocks) =>
            if stream.length ≠ totalSize ∨ o.footer.totalBlocks.toNat < metadataBlocks ∨
                blocks ≠ o.footer.totalBlocks.toNat - metadataBlocks then
              return (.error .corrupt, [])
            else do
              let run ← solidEntries env stream 0 o.entries ⟨dataEnd, 0, []⟩
              return (verdict run, run.outputs)

/-! ## The whole extraction -/

/-- The loop of `zupt_legacy_disk_aad_map_build`: the offset and the sequence
    of every DATA frame. -/
def legacyMapLoop (bytes : Bytes) :
    (remaining sequence pos : Nat) → Result (List (UInt64 × UInt64))
  | 0, _, _ => .ok []
  | remaining + 1, sequence, pos =>
      match readBlock.run bytes pos with
      | (.error e, _) => .error e
      | (.ok blk, next) =>
          if blk.blockType = blockData then
            match legacyMapLoop bytes remaining (sequence + 1) next with
            | .error e => .error e
            | .ok map => .ok ((UInt64.ofNat pos, UInt64.ofNat sequence) :: map)
          else if blk.blockType = blockDedupRef then
            legacyMapLoop bytes remaining (sequence + 1) next
          else .error .corrupt

/-- `legacy_encrypted_disk_dedup`. -/
def legacyEncryptedDiskDedup (globalFlags : UInt32) : Bool :=
  hasFlag globalFlags flagDiskImage && hasFlag globalFlags flagEncrypted &&
    hasFlag globalFlags flagDedup && !hasFlag globalFlags flagAuthDedupRefs

/-- The map of a legacy encrypted disk archive, which has one entry. -/
def legacyMap (o : Opened) (bytes : Bytes) : Result (Option (List (UInt64 × UInt64))) :=
  if legacyEncryptedDiskDedup o.hdr.globalFlags then
    match o.entries with
    | [e] =>
        if e.firstBlockOffset.toNat ≥ 2 ^ 63 then .error .invalid
        else
          match legacyMapLoop bytes e.blockCount.toNat 0 e.firstBlockOffset.toNat with
          | .error err => .error err
          | .ok map => .ok (some map)
    | _ => .error .corrupt
  else .ok none

/-- The quota: the sum of the indexed sizes fits 64 bits and, if there is a
    quota, the quota. -/
def quotaExceeded (maxOutputSize : UInt64) (entries : List IndexEntry) : Bool :=
  decide (indexedSize entries ≥ 2 ^ 64) ||
    (decide (maxOutputSize ≠ 0) && decide (indexedSize entries > maxOutputSize.toNat))

/-- `zupt_extract_archive` of an archive that is open: the verdict and the
    output files.  `pool` says whether `zpar_create` gave a pool with at
    least one worker. -/
def extractOpened (opts : ReaderOptions) (env : OutputEnv) (pool : Bool) (bytes : Bytes)
    (o : Opened) (pos : Nat) :
    ReaderProg (Result Unit × List OutputFile) :=
  if quotaExceeded opts.maxOutputSize o.entries then return (.error .overflow, [])
  else if hasFlag o.hdr.globalFlags flagSolid then extractSolid P C o env bytes
  else
    match legacyMap o bytes with
    | .error e => return (.error e, [])
    | .ok map => do
        let src : Source := ⟨bytes, o.hdr.globalFlags, o.keyring, map⟩
        let run ← extractEntries P C src env (pool && decide (1 < opts.threads)) opts.threads 0
          o.entries ⟨pos, 0, []⟩
        return (verdict run, run.outputs)

/-- `zupt_extract_archive`. -/
def extractArchive (opts : ReaderOptions) (env : OutputEnv) (pool : Bool) (bytes : Bytes) :
    ReaderProg (Result Unit × List OutputFile) :=
  match (openArchive P C opts).run bytes 0 with
  | (.error e, _) => return (.error e, [])
  | (.ok o, pos) => extractOpened P C opts env pool bytes o pos

/-- `ZUPT_MAX_THREADS`. -/
def maxThreads : Nat := 64

/-- The pool `zpar_create` makes for a thread count, with the keyring it is
    given; worker `i` was started if `started i`. -/
def decodePool (threads : Nat) (started : Nat → Prop) (kr : Option Keyring) :
    Pool DecodeJob (Result Bytes) where
  nslots := max 1 (min threads maxThreads)
  nslots_pos := by omega
  started := started
  work job r := r = workerDecompress P C job.1 kr job.2
  failed r := match r with
    | .ok _ => false
    | .error _ => true
  cancelled := .error .corrupt
  cancelled_failed := rfl

end Zupt.Extract
