import Zupt.Entry

/-! # Testing an archive

    `zupt_test_archive_stream` decodes an archive without writing anything.
    Its loops are copies of those of the extraction, with checks of their own:
    a block is compared with what is left of the indexed size before it is
    hashed, an empty block is hashed too, and of a solid archive the
    encryption header is read without looking whether that worked. -/

namespace Zupt.Extract

open Zupt.Stream Zupt.Seal Zupt.Frame Zupt.Transform Zupt.Decode Zupt.Trailer Zupt.Index Zupt.Open

variable (P : Primitives) (C : Codecs)

/-- Where the test of an entry stands: the archive position, `tested_size`,
    `tested_hash` and `fok`. -/
structure Tested where
  pos : Nat
  size : UInt64
  hash : UInt64
  fok : Bool

/-- An entry whose test has not started. -/
def Tested.start (pos : Nat) : Tested := ⟨pos, 0, 0, true⟩

/-- The block of an entry in front of `pos`: a reference is resolved, a DATA
    frame decoded, and anything else is corrupt. -/
def testedBlock (src : Source) (i b pos : Nat) (blk : Block) : Result Bytes :=
  if blk.blockType = blockDedupRef then referencedData P C src i b pos blk
  else if blk.blockType = blockData then
    decompressBlock P C blk (some src.keyring) (archiveDataAadSeq src.globalFlags i b)
  else .error .corrupt

/-- The loop over the blocks of entry `i`, at block `b`. -/
def testBlocks (src : Source) (i : Nat) (e : IndexEntry) :
    (remaining b : Nat) → Tested → Tested
  | 0, _, st => st
  | remaining + 1, b, st =>
      match readBlock.run src.bytes st.pos with
      | (.error _, pos) => { st with pos := pos, fok := false }
      | (.ok blk, pos) =>
          match testedBlock P C src i b pos blk with
          | .error _ => { st with pos := pos, fok := false }
          | .ok dec =>
              if st.size > e.uncompressedSize ∨
                  dec.length > (e.uncompressedSize - st.size).toNat then
                { st with pos := pos, fok := false }
              else
                testBlocks src i e remaining (b + 1)
                  ⟨pos, st.size + UInt64.ofNat dec.length, xxh64 dec st.hash, true⟩

/-- The comparison with the index behind the loop. -/
def testedOk (globalFlags : UInt32) (e : IndexEntry) (st : Tested) : Bool :=
  st.fok && (decide (st.size = e.uncompressedSize) &&
    (!requireContentHash globalFlags || decide (st.hash = e.contentHash)))

/-- The test of entry `i`, with the stream at `pos`. -/
def testEntry (src : Source) (i : Nat) (e : IndexEntry) (pos : Nat) : Tested :=
  testBlocks P C src i e e.blockCount.toNat 0 (.start (fseeko e.firstBlockOffset pos).2)

/-- The loop over the entries: how many failed. -/
def testEntries (src : Source) : (i : Nat) → List IndexEntry → (pos : Nat) → Nat
  | _, [], _ => 0
  | i, e :: es, pos =>
      let st := testEntry P C src i e pos
      (if testedOk src.globalFlags e st then 0 else 1) + testEntries src (i + 1) es st.pos

/-- The check of one entry of a solid archive: an empty one has no hash. -/
def testSlice (stream : Bytes) (e : IndexEntry) : Bool :=
  let off := e.firstBlockOffset.toNat
  let sz := e.uncompressedSize.toNat
  if off > stream.length ∨ sz > stream.length - off then false
  else if sz > 0 then decide (xxh64 ((stream.drop off).take sz) 0 = e.contentHash)
  else true

/-- `fail > 0 ? ZUPT_ERR_BAD_CHECKSUM : ZUPT_OK`. -/
def testVerdict (fail : Nat) : Result Unit :=
  if fail > 0 then .error .badChecksum else .ok ()

/-- `solid_data_end`. -/
def solidDataEnd (o : Opened) : Nat :=
  if o.hdr.commentOffset ≠ 0 then o.hdr.commentOffset.toNat else o.footer.indexOffset.toNat

/-- `solid_metadata_blocks`. -/
def solidMetadataBlocks (o : Opened) : Nat := if o.hdr.commentOffset ≠ 0 then 2 else 1

/-- Where the test starts to read a solid stream: wherever reading the
    encryption header left off. -/
def testSolidStart (globalFlags : UInt32) (bytes : Bytes) : Nat :=
  if hasFlag globalFlags flagEncrypted then (readBlock.run bytes archiveHeaderSize).2
  else archiveHeaderSize

/-- The stream of a solid archive, read from `start` on, if it is whole. -/
def solidStream (o : Opened) (bytes : Bytes) (start : Nat) : Option Bytes :=
  match solidLoop P C bytes o.keyring (solidDataEnd o) (indexedSize o.entries)
      (bytes.length + 1) start 0 [] with
  | none => none
  | some (stream, blocks) =>
      if stream.length ≠ indexedSize o.entries ∨
          o.footer.totalBlocks.toNat < solidMetadataBlocks o ∨
          blocks ≠ o.footer.totalBlocks.toNat - solidMetadataBlocks o then none
      else some stream

/-- The solid branch of `zupt_test_archive_stream`. -/
def testSolid (o : Opened) (bytes : Bytes) : Result Unit :=
  if indexedSize o.entries ≥ 2 ^ 64 ∨ indexedSize o.entries > 4 * 1024 * 1024 * 1024 then
    .error .overflow
  else
    match solidStream P C o bytes (testSolidStart o.hdr.globalFlags bytes) with
    | none => .error .corrupt
    | some stream => testVerdict (o.entries.countP fun e => !testSlice stream e)

/-- `zupt_test_archive_stream` of an archive that is open, with the stream at
    `pos`. -/
def testOpened (bytes : Bytes) (o : Opened) (pos : Nat) : Result Unit :=
  if hasFlag o.hdr.globalFlags flagSolid then testSolid P C o bytes
  else
    match legacyMap o bytes with
    | .error e => .error e
    | .ok map =>
        testVerdict (testEntries P C ⟨bytes, o.hdr.globalFlags, o.keyring, map⟩ 0 o.entries pos)

/-- `zupt_test_archive_stream`. -/
def testArchiveStream (opts : ReaderOptions) (bytes : Bytes) : Result Unit :=
  match (openArchive P C opts).run bytes 0 with
  | (.error e, _) => .error e
  | (.ok o, pos) => testOpened P C bytes o pos

end Zupt.Extract
