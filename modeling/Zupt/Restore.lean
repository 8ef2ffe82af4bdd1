import Zupt.TestExtract

/-! # Restoring a disk image

    `zupt_disk_restore` opens the archive, tests it, and only then opens its
    target and writes block by block.  Its loop is a third copy of the loop
    over the blocks of an entry, with a running sequence number in place of
    the index of a block.

    What the target answers to an opening is a `Target`; a write succeeds. -/

namespace Zupt.Extract

open Zupt.Stream Zupt.Seal Zupt.Frame Zupt.Transform Zupt.Decode Zupt.Trailer Zupt.Index Zupt.Open
open Zupt.Authentication

/-- What is behind the target path: something that is not opened, a regular
    file, or a device of some capacity. -/
inductive Target where
  | refused (err : ZuptError)
  | regular
  | device (capacity : UInt64)

/-- The opening of a target for an image of this size; a device that is too
    small is closed again. -/
def Target.open (target : Target) (expectedSize : UInt64) : Result Unit :=
  match target with
  | .refused err => .error err
  | .regular => .ok ()
  | .device capacity => if expectedSize > capacity then .error .io else .ok ()

variable (P : Primitives) (C : Codecs)

/-- Where a restore stands: the archive position, `block_seq`,
    `total_written`, `restored_hash`, the chunks written, and `errors == 0`. -/
structure Restored where
  pos : Nat
  blockSeq : UInt64
  written : UInt64
  hash : UInt64
  chunks : List Bytes
  ok : Bool

/-- A restore that has written nothing. -/
def Restored.start (pos : Nat) : Restored := ⟨pos, 0, 0, 0, [], true⟩

/-- The restore stops here with an error. -/
def Restored.stop (st : Restored) (pos : Nat) : Restored := { st with pos := pos, ok := false }

/-- A chunk is written, hashed and counted. -/
def Restored.write (st : Restored) (pos : Nat) (chunk : Bytes) : Restored where
  pos := pos
  blockSeq := st.blockSeq + 1
  written := st.written + UInt64.ofNat chunk.length
  hash := xxh64 chunk st.hash
  chunks := st.chunks ++ [chunk]
  ok := st.ok

/-- The branch for a DEDUP_REF frame read in front of `cur`. -/
def restoredReference (src : Source) (blockSeq : UInt64) (cur : Nat) (blk : Block) :
    Result Bytes :=
  let requireAuthentication := hasFlag src.globalFlags flagAuthDedupRefs
  match dedupReadRef P blk src.keyring requireAuthentication
      (if requireAuthentication then blockSeq else 0) with
  | .error e => .error e
  | .ok (refOff, sealedSeq) =>
      match (match src.legacyMap with
        | some map => map.lookup refOff
        | none => some sealedSeq) with
      | none => .error .corrupt
      | some referencedSeq =>
          if refOff.toNat ≥ cur ∨ ¬ (fseeko refOff cur).1 then .error .corrupt
          else
            match (readBlock.run src.bytes refOff.toNat).1 with
            | .error e => .error e
            | .ok refBlk =>
                if refBlk.blockType ≠ blockData ∨
                    refBlk.uncompressedSize ≠ blk.uncompressedSize ∨
                    refBlk.checksum ≠ blk.checksum then .error .corrupt
                else decompressBlock P C refBlk (some src.keyring) referencedSeq

/-- A frame that is not the index: a reference, a DATA frame, or an error. -/
def restoredBlock (src : Source) (blockSeq : UInt64) (cur : Nat) (blk : Block) : Result Bytes :=
  if blk.blockType = blockDedupRef then restoredReference P C src blockSeq cur blk
  else if blk.blockType ≠ blockData then .error .corrupt
  else decompressBlock P C blk (some src.keyring) blockSeq

/-- The loop over the blocks of the image.  An index ends it early. -/
def restoreLoop (src : Source) (expectedSize : UInt64) : (remaining : Nat) → Restored → Restored
  | 0, st => st
  | remaining + 1, st =>
      match readBlock.run src.bytes st.pos with
      | (.error _, pos) => st.stop pos
      | (.ok blk, pos) =>
          if blk.blockType = blockIndex then { st with pos := pos }
          else
            match restoredBlock P C src st.blockSeq pos blk with
            | .error _ => st.stop pos
            | .ok out =>
                if st.written > expectedSize ∨ out.length > (expectedSize - st.written).toNat then
                  st.stop pos
                else restoreLoop src expectedSize remaining (st.write pos out)

/-- The comparisons behind the loop. -/
def restoredOk (globalFlags : UInt32) (e : IndexEntry) (st : Restored) : Bool :=
  st.ok && (decide (st.blockSeq.toNat = e.blockCount.toNat) &&
    (decide (st.written = e.uncompressedSize) &&
      (!hasFlag globalFlags flagDiskContentHash || decide (st.hash = e.contentHash))))

/-- The map a restore builds for a legacy encrypted archive with references. -/
def restoreMap (globalFlags : UInt32) (e : IndexEntry) (bytes : Bytes) :
    Result (Option (List (UInt64 × UInt64))) :=
  if hasFlag globalFlags flagEncrypted && hasFlag globalFlags flagDedup &&
      !hasFlag globalFlags flagAuthDedupRefs then
    if e.firstBlockOffset.toNat ≥ 2 ^ 63 then .error .invalid
    else
      match legacyMapLoop bytes e.blockCount.toNat 0 e.firstBlockOffset.toNat with
      | .error err => .error err
      | .ok map => .ok (some map)
  else .ok none

/-- What the target holds after the loop, and how the restore ends.  A regular
    target is written under a temporary name and published with the verdict. -/
def restoreBlocks (target : Target) (bytes : Bytes) (o : Opened) (e : IndexEntry) :
    Result Unit × List Bytes :=
  match target.open e.uncompressedSize with
  | .error err => (.error err, [])
  | .ok () =>
      match restoreMap o.hdr.globalFlags e bytes with
      | .error err => (.error err, [])
      | .ok map =>
          let st := restoreLoop P C ⟨bytes, o.hdr.globalFlags, o.keyring, map⟩ e.uncompressedSize
            o.footer.totalBlocks.toNat (.start e.firstBlockOffset.toNat)
          (if restoredOk o.hdr.globalFlags e st then .ok () else .error .corrupt, st.chunks)

/-- The options behind a first opening of the archive, which leaves its
    keyring in them. -/
def ReaderOptions.keyed (opts : ReaderOptions) (keyring : Keyring) : ReaderOptions :=
  { opts with keyring := keyring }

/-- `zupt_disk_restore` of an archive that is open, with its one entry: the
    block range, the preflight test, and the restore. -/
def restoreOpened (opts : ReaderOptions) (target : Target) (bytes : Bytes) (o : Opened)
    (e : IndexEntry) : Result Unit × List Bytes :=
  if e.blockCount.toNat ≠ o.footer.totalBlocks.toNat ∨
      e.firstBlockOffset ≥ o.footer.indexOffset then (.error .corrupt, [])
  else
    match testArchiveStream P C (ReaderOptions.keyed opts o.keyring) bytes with
    | .error err => (.error err, [])
    | .ok () =>
        if ¬ (fseeko e.firstBlockOffset 0).1 then (.error .io, [])
        else restoreBlocks P C target bytes o e

/-- `zupt_disk_restore`: the verdict, and the chunks written to the target. -/
def diskRestore (opts : ReaderOptions) (target : Target) (bytes : Bytes) :
    Result Unit × List Bytes :=
  if bytes.length = 0 then (.error .io, [])
  else
    match (openArchive P C opts).run bytes 0 with
    | (.error err, _) => (.error err, [])
    | (.ok o, _) =>
        match o.entries with
        | [e] =>
            if hasFlag o.hdr.globalFlags flagDiskImage then
              restoreOpened P C opts target bytes o e
            else (.error .corrupt, [])
        | _ => (.error .corrupt, [])

/-! ## Opening an archive again -/

section Reopen

variable {P C}
variable {opts : ReaderOptions} {bytes : Bytes} {pos fin : Nat}

@[simp] theorem ReaderOptions.keyed_keyring (kr : Keyring) :
    (ReaderOptions.keyed opts kr).keyring = kr := rfl

@[simp] theorem ReaderOptions.keyed_openEnvelope (kr : Keyring) :
    (ReaderOptions.keyed opts kr).openEnvelope = opts.openEnvelope := rfl

@[simp] theorem ReaderOptions.keyed_allowLegacyNoAit (kr : Keyring) :
    (ReaderOptions.keyed opts kr).allowLegacyNoAit = opts.allowLegacyNoAit := rfl

/-- Deriving the keyring again, with any keyring in the options. -/
theorem readEncHeader_keyed {hdr : ArchiveHeader} (kr : Keyring)
    (henc : hasFlag hdr.globalFlags flagEncrypted = true) :
    readEncHeader (ReaderOptions.keyed opts kr) hdr = readEncHeader opts hdr := by
  have hnot : ¬ (!hasFlag hdr.globalFlags flagEncrypted) = true := by
    rw [henc]
    exact Bool.false_ne_true
  rw [readEncHeader, if_neg hnot, readEncHeader, if_neg hnot, ReaderOptions.keyed_openEnvelope]

/-- A plaintext archive is opened with the keyring of the options. -/
theorem readEncHeader_plain {hdr : ArchiveHeader}
    (henc : ¬ hasFlag hdr.globalFlags flagEncrypted = true) :
    (readEncHeader opts hdr).run bytes pos = (.ok opts.keyring, pos) := by
  rw [readEncHeader, if_pos (by rw [Bool.not_eq_true', ← Bool.not_eq_true]; exact henc)]
  rfl

/-- **OPENING AGAIN**: the keyring an opening leaves behind opens the archive
    the same way. -/
theorem openArchive_keyed {o : Opened} (h : (openArchive P C opts).run bytes pos = (.ok o, fin)) :
    (openArchive P C (ReaderOptions.keyed opts o.keyring)).run bytes pos = (.ok o, fin) := by
  rw [openArchive] at h ⊢
  obtain ⟨hdr, p1, hhdr, h⟩ := ReadM.bind_ok h
  obtain ⟨located, p2, hloc, h⟩ := ReadM.bind_ok h
  obtain ⟨u3, p3, hait, h⟩ := ReadM.bind_ok h
  obtain ⟨u4, p4, hflags, h⟩ := ReadM.bind_ok h
  obtain ⟨derived, p5, hderived, h⟩ := ReadM.bind_ok h
  rw [ReadM.bind_of_ok hhdr, ReadM.bind_of_ok hloc, ReaderOptions.keyed_allowLegacyNoAit,
    ReadM.bind_of_ok hait, ReadM.bind_of_ok hflags]
  by_cases henc : hasFlag hdr.globalFlags flagEncrypted = true
  · rw [readEncHeader_keyed _ henc, ReadM.bind_of_ok hderived]
    exact h
  · rw [readEncHeader_plain henc] at hderived
    obtain ⟨hkr, rfl⟩ := Prod.mk.inj hderived
    obtain rfl := Except.ok.inj hkr
    rw [ReadM.bind_of_ok (readEncHeader_plain henc)]
    obtain ⟨u6, p6, hverify, h⟩ := ReadM.bind_ok h
    obtain ⟨comment, p7, hcomment, h⟩ := ReadM.bind_ok h
    obtain ⟨entries, p8, hentries, h⟩ := ReadM.bind_ok h
    obtain ⟨ho, rfl⟩ := Prod.mk.inj h
    obtain rfl := Except.ok.inj ho
    rw [trailerKeyring, if_neg henc] at hverify
    rw [ReaderOptions.keyed_keyring, trailerKeyring, if_neg henc, ReadM.bind_of_ok hverify,
      Bool.or_assoc, Bool.or_self, ReadM.bind_of_ok hcomment, ReadM.bind_of_ok hentries]
    rfl

end Reopen

variable {P C}

/-! ## Restoring what was tested -/

section Loop

variable {src : Source}

/-- The two copies of the reference branch agree on a disk image. -/
theorem restoredReference_eq (hdisk : hasFlag src.globalFlags flagDiskImage = true) (b cur : Nat)
    (blk : Block) :
    restoredReference P C src (UInt64.ofNat b) cur blk = referencedData P C src 0 b cur blk := by
  have hseq : archiveDataAadSeq src.globalFlags 0 b = UInt64.ofNat b := by
    rw [archiveDataAadSeq, if_pos hdisk]
  unfold restoredReference referencedData
  simp only [hseq] <;> rfl

theorem restoredBlock_eq (hdisk : hasFlag src.globalFlags flagDiskImage = true) (b cur : Nat)
    (blk : Block) :
    restoredBlock P C src (UInt64.ofNat b) cur blk = testedBlock P C src 0 b cur blk := by
  rw [restoredBlock, testedBlock, restoredReference_eq hdisk, archiveDataAadSeq, if_pos hdisk,
    ite_not]

/-- A restore with these chunks written. -/
def Restored.after (pos : Nat) (chunks : List Bytes) : Restored :=
  ⟨pos, UInt64.ofNat chunks.length, UInt64.ofNat chunks.flatten.length, testedHash chunks, chunks,
    true⟩

theorem Restored.write_after (pos next : Nat) (chunks : List Bytes) (dec : Bytes) :
    (Restored.after pos chunks).write next dec = Restored.after next (chunks ++ [dec]) := by
  have hflat : (chunks ++ [dec]).flatten = chunks.flatten ++ dec := by
    rw [List.flatten_append, List.flatten_singleton]
  have hcount : UInt64.ofNat (chunks ++ [dec]).length = UInt64.ofNat chunks.length + 1 := by
    rw [List.length_append, UInt64.ofNat_add]
    rfl
  rw [Restored.write, Restored.after, Restored.after, hflat, hcount, List.length_append,
    UInt64.ofNat_add, testedHash, testedHash, List.foldl_append]
  rfl

/-- One turn of the restore over a tested block that fits. -/
theorem restoreLoop_succ {size : UInt64} {n b next : Nat} {st : Restored} {blk : Block}
    {dec : Bytes} (hdisk : hasFlag src.globalFlags flagDiskImage = true)
    (hseq : st.blockSeq = UInt64.ofNat b)
    (hread : readBlock.run src.bytes st.pos = (.ok blk, next))
    (hblk : testedBlock P C src 0 b next blk = .ok dec)
    (hfit : ¬ (st.written > size ∨ dec.length > (size - st.written).toNat)) :
    restoreLoop P C src size (n + 1) st = restoreLoop P C src size n (st.write next dec) := by
  have hindex : ¬ blk.blockType = blockIndex := by
    intro htype
    rw [testedBlock, htype] at hblk
    cases hblk
  rw [restoreLoop, hread]
  dsimp only
  rw [if_neg hindex, hseq, restoredBlock_eq hdisk, hblk]
  dsimp only
  rw [if_neg hfit]

/-- **ACCEPTED FRAMES THAT FIT ARE RESTORED** to the end. -/
theorem restoreLoop_of_accepted {size : UInt64} {b pos fin : Nat} {chunks before : List Bytes}
    (hdisk : hasFlag src.globalFlags flagDiskImage = true)
    (h : Accepted P C (serialDec P C src.keyring) src 0 b pos chunks fin)
    (hcount : before.length = b) (hsize : (before ++ chunks).flatten.length ≤ size.toNat) :
    restoreLoop P C src size chunks.length (.after pos before) = .after fin (before ++ chunks) := by
  induction h generalizing before with
  | done =>
      rw [List.append_nil]
      rfl
  | @data b pos next fin blk out outs hread htype hdec hrest ih =>
      have hblk : testedBlock P C src 0 b next blk = .ok out := by
        rw [testedBlock, if_neg (by rw [htype]; decide), if_pos htype]
        exact hdec
      rw [List.length_cons, restoreLoop_succ hdisk (congrArg UInt64.ofNat hcount) hread hblk
        (fits_of_flatten hsize), Restored.write_after, List.append_cons before out outs]
      refine ih ?_ (List.append_cons before out outs ▸ hsize)
      rw [List.length_append, hcount]
      rfl
  | @ref b pos next fin blk out outs hread htype href hrest ih =>
      have hblk : testedBlock P C src 0 b next blk = .ok out := by
        rw [testedBlock, if_pos htype]
        exact href
      rw [List.length_cons, restoreLoop_succ hdisk (congrArg UInt64.ofNat hcount) hread hblk
        (fits_of_flatten hsize), Restored.write_after, List.append_cons before out outs]
      refine ih ?_ (List.append_cons before out outs ▸ hsize)
      rw [List.length_append, hcount]
      rfl

end Loop

/-! ## A solid disk image -/

section Solid

variable {opts : ReaderOptions} {bytes : Bytes} {pos : Nat} {o : Opened} {e : IndexEntry}

/-- No frame starts with the archive. -/
theorem readBlock_head_fails {blk : Block} {next : Nat}
    (hopen : (openArchive P C opts).run bytes 0 = (.ok o, pos)) :
    readBlock.run bytes 0 ≠ (.ok blk, next) := by
  intro hread
  rw [openArchive] at hopen
  obtain ⟨hdr, p1, hhdr, -⟩ := ReadM.bind_ok hopen
  rw [readHeader] at hhdr
  obtain ⟨b, p2, hb, hdes⟩ := ReadM.bind_ok hhdr
  have hmagic : b.val.take 6 = archiveMagic := by
    by_contra hne
    rw [deserializeArchiveHeader, if_pos hne] at hdes
    cases congrArg Prod.fst hdes
  rw [readBlock] at hread
  obtain ⟨m, p3, hm, hread⟩ := ReadM.bind_ok hread
  obtain ⟨u, p4, hblock, -⟩ := ReadM.bind_ok hread
  obtain ⟨⟨rest, hbytes⟩, -⟩ := fread_ok hb
  obtain ⟨⟨rest', hbytes'⟩, -⟩ := fread_ok hm
  have hhead : bytes.take 2 = archiveMagic.take 2 := by
    rw [← hmagic, List.take_take, ← List.drop_zero (l := bytes), hbytes,
      List.take_append_of_le_length (by rw [b.property]; decide)]
    rfl
  have hhead' : bytes.take 2 = blockMagic := by
    rw [← ReadM.of_require hblock, ← List.drop_zero (l := bytes), hbytes',
      List.take_left' m.property]
  rw [hhead] at hhead'
  exact absurd hhead' (by decide)

/-- The one entry of a solid archive that is tested starts its stream. -/
theorem solid_firstBlockOffset (hentries : o.entries = [e])
    (htest : testSolid P C o bytes = .ok ()) : e.firstBlockOffset = 0 := by
  obtain ⟨-, chunks, hwhole, hfits⟩ := testSolid_iff.mp htest
  have hinside := (hfits e (hentries ▸ List.mem_singleton_self e)).inside
  have hsize := hwhole.size
  rw [hentries, indexedSize, List.map_singleton, List.sum_singleton] at hsize
  apply UInt64.toNat_inj.mp
  show _ = 0
  omega

/-- **A SOLID DISK IMAGE IS NOT RESTORED**: the loop starts at the archive
    header and stops there, with nothing written. -/
theorem restoreLoop_solid {map : Option (List (UInt64 × UInt64))} {n : Nat} {st : Restored}
    (hopen : (openArchive P C opts).run bytes 0 = (.ok o, pos)) :
    (restoreLoop P C (sourceOf o bytes map) e.uncompressedSize n { st with pos := 0 }).chunks
      = st.chunks ∧
    (0 < n → (restoreLoop P C (sourceOf o bytes map) e.uncompressedSize n
      { st with pos := 0 }).ok = false) := by
  cases n with
  | zero => exact ⟨rfl, fun h => absurd h (Nat.lt_irrefl 0)⟩
  | succ n =>
      rw [restoreLoop]
      cases hread : readBlock.run (sourceOf o bytes map).bytes 0 with
      | mk res next =>
          cases res with
          | error err => exact ⟨rfl, fun _ => rfl⟩
          | ok blk => exact absurd hread (readBlock_head_fails hopen)

end Solid

/-! ## All or nothing -/

section AllOrNothing

variable {opts : ReaderOptions} {target : Target} {bytes : Bytes} {o : Opened} {e : IndexEntry}

/-- Everything `zupt_disk_restore` asks for before it starts to write is given:
    the archive `o` is open with its one entry `e`, its block range is right,
    the preflight test passed, and the target is open. -/
structure Preflight (P : Primitives) (C : Codecs) (opts : ReaderOptions) (target : Target)
    (bytes : Bytes) (o : Opened) (e : IndexEntry) : Prop where
  opens : ∃ pos, (openArchive P C opts).run bytes 0 = (.ok o, pos)
  entries : o.entries = [e]
  disk : hasFlag o.hdr.globalFlags flagDiskImage = true
  count : e.blockCount.toNat = o.footer.totalBlocks.toNat
  range : ¬ e.firstBlockOffset ≥ o.footer.indexOffset
  tested : testArchiveStream P C (ReaderOptions.keyed opts o.keyring) bytes = .ok ()
  seekable : e.firstBlockOffset.toNat < 2 ^ 63
  accepts : target.open e.uncompressedSize = .ok ()

/-- What was written to the target is the image: it has the indexed size,
    within the capacity of a device, and the indexed hash if there is one. -/
structure ImageComplete (target : Target) (globalFlags : UInt32) (e : IndexEntry)
    (chunks : List Bytes) : Prop where
  size : chunks.flatten.length = e.uncompressedSize.toNat
  capacity : ∀ capacity, target = .device capacity → chunks.flatten.length ≤ capacity.toNat
  hash : hasFlag globalFlags flagDiskContentHash = true → testedHash chunks = e.contentHash

/-- The map of a restore is the one of the test. -/
theorem restoreMap_eq (hentries : o.entries = [e])
    (hdisk : hasFlag o.hdr.globalFlags flagDiskImage = true) :
    restoreMap o.hdr.globalFlags e bytes = legacyMap o bytes := by
  rw [restoreMap, legacyMap, legacyEncryptedDiskDedup, hdisk, Bool.true_and, hentries] <;> rfl

/-- An archive that opens is not empty. -/
theorem length_of_opens {pos : Nat} (hopen : (openArchive P C opts).run bytes 0 = (.ok o, pos)) :
    ¬ bytes.length = 0 := by
  rw [openArchive] at hopen
  obtain ⟨hdr, p1, hhdr, -⟩ := ReadM.bind_ok hopen
  rw [readHeader] at hhdr
  obtain ⟨b, p2, hb, -⟩ := ReadM.bind_ok hhdr
  have hlen := (fread_ok hb).1.length_le
  rw [b.property, archiveHeaderSize] at hlen
  omega

/-- Behind the preflight there is only the restore of the blocks. -/
theorem Preflight.restores (h : Preflight P C opts target bytes o e) :
    diskRestore P C opts target bytes = restoreBlocks P C target bytes o e := by
  obtain ⟨pos, hopen⟩ := h.opens
  rw [diskRestore, if_neg (length_of_opens hopen), hopen]
  dsimp only
  rw [h.entries]
  dsimp only
  rw [if_pos h.disk, restoreOpened, if_neg (not_or.mpr ⟨not_not.mpr h.count, h.range⟩), h.tested]
  dsimp only
  rw [fseeko, if_pos h.seekable, if_neg (not_not.mpr rfl)]

/-- The test the preflight makes is that of the opened archive. -/
theorem Preflight.testOpened (h : Preflight P C opts target bytes o e) {pos : Nat}
    (hopen : (openArchive P C opts).run bytes 0 = (.ok o, pos)) :
    testOpened P C bytes o pos = .ok () := by
  have htest := h.tested
  rw [testArchiveStream, openArchive_keyed hopen] at htest
  exact htest

/-- A device that was opened is large enough. -/
theorem capacity_of_open {size capacity : UInt64}
    (h : (Target.device capacity).open size = .ok ()) : size.toNat ≤ capacity.toNat := by
  rw [Target.open] at h
  by_cases hgt : size > capacity
  · rw [if_pos hgt] at h
    cases h
  · exact UInt64.le_iff_toNat_le.mp (UInt64.not_lt.mp hgt)

/-- The comparisons behind the loop succeed over a whole image. -/
theorem restoredOk_after {globalFlags : UInt32} {fin : Nat} {chunks : List Bytes}
    (hcount : chunks.length = e.blockCount.toNat)
    (hsize : chunks.flatten.length = e.uncompressedSize.toNat)
    (hhash : hasFlag globalFlags flagDiskContentHash = true → testedHash chunks = e.contentHash) :
    restoredOk globalFlags e (.after fin chunks) = true := by
  have hseq : (UInt64.ofNat chunks.length).toNat = e.blockCount.toNat := by
    have hlt := e.blockCount.toNat_lt
    rw [UInt64.toNat_ofNat', hcount, Nat.mod_eq_of_lt (by omega)]
  have hwritten : UInt64.ofNat chunks.flatten.length = e.uncompressedSize := by
    rw [hsize, UInt64.ofNat_toNat]
  rw [restoredOk, Restored.after, Bool.true_and]
  simp only [hseq, hwritten, decide_true, Bool.true_and]
  cases hflag : hasFlag globalFlags flagDiskContentHash with
  | false => rfl
  | true => exact decide_eq_true (hhash hflag)

/-- **THE RESTORE LOOP ACCEPTS WHAT THE PREFLIGHT ACCEPTS**, unless the archive
    is solid. -/
theorem Preflight.completes (h : Preflight P C opts target bytes o e)
    (hsolid : ¬ hasFlag o.hdr.globalFlags flagSolid = true) :
    ∃ chunks, diskRestore P C opts target bytes = (.ok (), chunks) ∧
      ImageComplete target o.hdr.globalFlags e chunks := by
  obtain ⟨pos, hopen⟩ := h.opens
  obtain ⟨css, ⟨map, hmap, hall⟩, hhashes⟩ := (testOpened_iff hsolid).mp (h.testOpened hopen)
  rw [h.entries] at hall hhashes
  cases hall with
  | @cons _ _ _ _ chunks fin css hwhole hrest =>
      obtain ⟨hhash, -⟩ := List.forall₂_cons.mp hhashes
      have hstart : entryStart e pos = e.firstBlockOffset.toNat := by
        rw [entryStart, fseeko, if_pos h.seekable]
      have hacc := hwhole.accepted
      rw [hstart] at hacc
      have hloop := @restoreLoop_of_accepted P C (sourceOf o bytes map) e.uncompressedSize 0 _ fin
        chunks [] h.disk hacc rfl hwhole.size.le
      have hdiskHash : hasFlag o.hdr.globalFlags flagDiskContentHash = true →
          testedHash chunks = e.contentHash := fun hflag => hhash (by
        rw [requireContentHash, hflag, Bool.or_true])
      have hok : restoredOk o.hdr.globalFlags e (.after fin ([] ++ chunks)) = true :=
        restoredOk_after hwhole.count hwhole.size hdiskHash
      refine ⟨chunks, ?_, ?_⟩
      · rw [h.restores, restoreBlocks, h.accepts]
        dsimp only
        rw [restoreMap_eq h.entries h.disk, hmap]
        dsimp only
        rw [← h.count, ← hwhole.count]
        show (if restoredOk o.hdr.globalFlags e (restoreLoop P C (sourceOf o bytes map)
          e.uncompressedSize chunks.length (.after e.firstBlockOffset.toNat [])) = true then _ else _,
          (restoreLoop P C (sourceOf o bytes map) e.uncompressedSize chunks.length
            (.after e.firstBlockOffset.toNat [])).chunks) = _
        rw [hloop, if_pos hok]
        rfl
      · refine ⟨hwhole.size, fun capacity hdev => ?_, hdiskHash⟩
        rw [hwhole.size]
        exact capacity_of_open (hdev ▸ h.accepts)

/-- A solid image passes the preflight and is refused by the loop, before
    anything is written. -/
theorem Preflight.refuses_solid (h : Preflight P C opts target bytes o e)
    (hsolid : hasFlag o.hdr.globalFlags flagSolid = true) :
    ∃ err, diskRestore P C opts target bytes = (.error err, []) := by
  obtain ⟨pos, hopen⟩ := h.opens
  have htest := h.testOpened hopen
  rw [Extract.testOpened, if_pos hsolid] at htest
  obtain ⟨-, chunks, hwhole, -⟩ := testSolid_iff.mp htest
  have hblocks : 0 < o.footer.totalBlocks.toNat := by
    have hcount := hwhole.count
    rw [solidMetadataBlocks] at hcount
    split at hcount <;> omega
  rw [h.restores, restoreBlocks, h.accepts]
  dsimp only
  cases hmap : restoreMap o.hdr.globalFlags e bytes with
  | error err => exact ⟨err, rfl⟩
  | ok map =>
      obtain ⟨hchunks, hok⟩ := @restoreLoop_solid P C opts bytes pos o e map
        o.footer.totalBlocks.toNat (.start 0) hopen
      have hbad : restoredOk o.hdr.globalFlags e (restoreLoop P C (sourceOf o bytes map)
          e.uncompressedSize o.footer.totalBlocks.toNat (.start 0)) = false :=
        Bool.and_eq_false_imp.mpr fun hgood => absurd (hok hblocks ▸ hgood) (by decide)
      rw [solid_firstBlockOffset h.entries htest]
      refine ⟨.corrupt, Prod.ext ?_ hchunks⟩
      exact if_neg (Bool.not_eq_true _ ▸ hbad)

/-- Whatever is written, is written behind the preflight. -/
theorem preflight_of_writes {verdict : Result Unit} {chunks : List Bytes}
    (h : diskRestore P C opts target bytes = (verdict, chunks)) (hwrites : chunks ≠ []) :
    ∃ o e, Preflight P C opts target bytes o e := by
  have hnone {err : ZuptError} : ¬ ((.error err, []) : Result Unit × List Bytes)
      = (verdict, chunks) := fun heq => hwrites (congrArg Prod.snd heq).symm
  rw [diskRestore] at h
  split at h
  · exact absurd h hnone
  cases hopen : (openArchive P C opts).run bytes 0 with
  | mk res pos =>
      rw [hopen] at h
      cases res with
      | error err => exact absurd h hnone
      | ok o =>
          dsimp only at h
          split at h
          case h_2 => exact absurd h hnone
          rename_i e hentries
          by_cases hdisk : hasFlag o.hdr.globalFlags flagDiskImage = true
          case neg =>
            rw [if_neg hdisk] at h
            exact absurd h hnone
          rw [if_pos hdisk, restoreOpened] at h
          split at h
          · exact absurd h hnone
          rename_i hrange
          obtain ⟨hcount, hrange⟩ := not_or.mp hrange
          cases htest : testArchiveStream P C (ReaderOptions.keyed opts o.keyring) bytes with
          | error err =>
              rw [htest] at h
              exact absurd h hnone
          | ok u =>
              rw [htest] at h
              dsimp only at h
              by_cases hseek : (fseeko e.firstBlockOffset 0).1 = true
              case neg =>
                rw [if_pos hseek] at h
                exact absurd h hnone
              rw [if_neg (not_not.mpr hseek), restoreBlocks] at h
              have hseekable : e.firstBlockOffset.toNat < 2 ^ 63 := by
                by_contra hlarge
                rw [fseeko, if_neg hlarge] at hseek
                cases hseek
              cases haccepts : target.open e.uncompressedSize with
              | error err =>
                  rw [haccepts] at h
                  exact absurd h hnone
              | ok u =>
                  exact ⟨o, e, ⟨pos, hopen⟩, hentries, hdisk, not_not.mp hcount, hrange, htest,
                    hseekable, haccepts⟩

end AllOrNothing

/-! ## Two small images -/

/-- A plaintext disk image of two bytes, in one stored block, with these flags
    on top. -/
def smallImage (flags : UInt32) (offset : UInt64) (totalBlocks : Nat) : Bytes :=
  let entry := { smallEntry 0x61 nul_notMem_a offset [[1, 2]] with
    blockCount := UInt32.ofNat totalBlocks }
  let parts := { smallParts [storedFrame [1, 2]] [entry] with
    baseHeader := { plainHeader with
      globalFlags := flagDiskImage ||| flagDiskContentHash ||| flags } }
  parts.bytes toyPrimitives
    ⟨UInt64.ofNat (parts.indexPos toyPrimitives), UInt64.ofNat totalBlocks, 0⟩

/-- The image is restored to a device of two bytes, and refused for a device
    of one. -/
example : diskRestore toyPrimitives storeOnly (smallReader 1) (.device 2) (smallImage 0 64 1)
      = (.ok (), [[1, 2]]) ∧
    diskRestore toyPrimitives storeOnly (smallReader 1) (.device 1) (smallImage 0 64 1)
      = (.error .io, []) := by
  decide +kernel

/-- The preflight of a small image, decided. -/
def smallPreflight (target : Target) (bytes : Bytes) : Bool :=
  match (openArchive toyPrimitives storeOnly (smallReader 1)).run bytes 0 with
  | (.error _, _) => false
  | (.ok o, _) =>
      match o.entries with
      | [e] =>
          hasFlag o.hdr.globalFlags flagDiskImage &&
            decide (e.blockCount.toNat = o.footer.totalBlocks.toNat) &&
            !decide (e.firstBlockOffset ≥ o.footer.indexOffset) &&
            decide (testArchiveStream toyPrimitives storeOnly
              (ReaderOptions.keyed (smallReader 1) o.keyring) bytes = .ok ()) &&
            decide (e.firstBlockOffset.toNat < 2 ^ 63) &&
            decide (target.open e.uncompressedSize = .ok ())
      | _ => false

theorem preflight_of_small {target : Target} {bytes : Bytes}
    (h : smallPreflight target bytes = true) :
    ∃ o e, Preflight toyPrimitives storeOnly (smallReader 1) target bytes o e := by
  rw [smallPreflight] at h
  cases hopen : (openArchive toyPrimitives storeOnly (smallReader 1)).run bytes 0 with
  | mk res pos =>
      rw [hopen] at h
      cases res with
      | error err => cases h
      | ok o =>
          dsimp only at h
          split at h
          case h_2 => cases h
          rename_i e hentries
          simp only [Bool.and_eq_true, decide_eq_true_iff, Bool.not_eq_true',
            decide_eq_false_iff_not] at h
          obtain ⟨⟨⟨⟨⟨hdisk, hcount⟩, hrange⟩, htest⟩, hseekable⟩, haccepts⟩ := h
          exact ⟨o, e, ⟨pos, hopen⟩, hentries, hdisk, hcount, hrange, htest, hseekable, haccepts⟩

end Zupt.Extract
