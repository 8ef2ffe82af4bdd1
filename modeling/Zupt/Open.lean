import Zupt.Trailer
import Zupt.Index

/-! # Opening an archive

    `open_archive`: header, footer, key, integrity trailer, comment, index.
    Everything the extraction later relies on is in the `Opened` record it
    returns.  How the key is derived from the envelope of an encryption
    header (PBKDF2, Argon2id, the hybrid and the post-quantum modes) enters
    as a function; which frame may carry an envelope is modelled in full. -/

namespace Zupt.Open

open Zupt.LittleEndian Zupt.Stream Zupt.Seal Zupt.Frame Zupt.Transform Zupt.Decode
open Zupt.Trailer Zupt.Index

def flagEncrypted : UInt32 := 0x1
def flagSolid : UInt32 := 0x2
def flagMultithreaded : UInt32 := 0x4
def flagPqHybrid : UInt32 := 0x8
def flagDiskImage : UInt32 := 0x40
def flagDedup : UInt32 := 0x80
def flagAadSeq : UInt32 := 0x100
def flagAadPreface : UInt32 := 0x200
def flagAuthDedupRefs : UInt32 := 0x400
def flagDiskContentHash : UInt32 := 0x800

/-- `(global_flags & mask) != 0`. -/
def hasFlag (globalFlags mask : UInt32) : Bool := decide (globalFlags &&& mask ≠ 0)

/-- `ZUPT_COMMENT_AAD_SEQ`. -/
def commentAadSeq : UInt64 := 0xFFFFFFFFFFFFFFFE

/-- The sentinel sequence of the index. -/
def indexAadSeq : UInt64 := 0xFFFFFFFFFFFFFFFF

/-- `ZUPT_MAX_COMMENT_LEN`. -/
def maxCommentLen : Nat := 4096

/-- What `zupt_options_t` holds for a reader. -/
structure ReaderOptions where
  keyring : Keyring
  allowLegacyNoAit : Bool
  threads : Nat
  maxOutputSize : UInt64
  /-- From the payload of an encryption header to the keyring, with the
      password or key file of the options. -/
  openEnvelope : (envelope : Bytes) → Result Keyring

/-- What `open_archive` leaves behind. -/
structure Opened where
  hdr : ArchiveHeader
  footer : Footer
  entries : List IndexEntry
  keyring : Keyring
  comment : Option Bytes

variable (P : Primitives) (C : Codecs)

/-- The flag combinations `open_archive` refuses before it derives a key. -/
def flagsConsistent (globalFlags : UInt32) : Bool :=
  let required := flagEncrypted ||| flagDedup ||| flagAadSeq ||| flagAadPreface
  let seqRequired := flagEncrypted ||| flagAadSeq
  (!hasFlag globalFlags flagAuthDedupRefs || globalFlags &&& required == required) &&
    (!hasFlag globalFlags flagAadPreface || globalFlags &&& seqRequired == seqRequired) &&
    (!hasFlag globalFlags flagDiskContentHash || hasFlag globalFlags flagDiskImage)

/-- `locate_footer_v15`, which leaves the stream at the end of the file. -/
def locate : ReadM Located := ⟨fun f _ => (locateFooterV15 f, f.length)⟩

/-- `read_enc_header`. -/
def readEncHeader (opts : ReaderOptions) (hdr : ArchiveHeader) : ReadM Keyring :=
  if !hasFlag hdr.globalFlags flagEncrypted then return opts.keyring
  else do
    let size ← fileSize
    ReadM.require (hdr.encryptionHeaderOff.toNat ≤ size) .corrupt
    seekSet hdr.encryptionHeaderOff
    let eb ← readBlock
    ReadM.require (eb.blockType = blockEncHeader) .corrupt
    ReadM.require (eb.codecId = codecStore ∧ eb.blockFlags = 0 ∧
      eb.compressedSize = eb.uncompressedSize) .corrupt
    ReadM.require (xxh64 eb.payload 0 = eb.checksum) .badChecksum
    ReadM.require (eb.compressedSize ≠ 0) .corrupt
    inMemory (opts.openEnvelope eb.payload)

/-- The comment block, where the header points to one. -/
def readComment (hdr : ArchiveHeader) (keyring : Keyring) : ReadM (Option Bytes) :=
  if hdr.commentOffset = 0 then return none
  else do
    let saved ← ftello
    seekSet hdr.commentOffset
    let cb ← readBlock
    ReadM.require (cb.blockType = blockComment ∧ cb.uncompressedSize ≠ 0 ∧
      cb.uncompressedSize.toNat ≤ maxCommentLen) .corrupt
    let plain ← inMemory (decompressBlock P C cb (some keyring) commentAadSeq)
    seekBack saved
    return some (plain.take (maxCommentLen - 1))

/-- The index block, and which of the two index formats it is in. -/
def readIndex (hdr : ArchiveHeader) (footer : Footer) (keyring : Keyring) :
    ReadM (List IndexEntry) := do
  let size ← fileSize
  ReadM.require (footer.indexOffset.toNat ≤ size) .corrupt
  seekSet footer.indexOffset
  let ib ← readBlock
  ReadM.require (ib.blockType = blockIndex) .corrupt
  let legacy := hasFlag hdr.globalFlags flagDiskImage &&
    !hasFlag hdr.globalFlags flagDiskContentHash
  -- legacy disk writers left the index of an encrypted archive in the clear
  let indexKeyring := if legacy && hasFlag hdr.globalFlags flagEncrypted then none
    else some keyring
  let id ← inMemory (decompressBlock P C ib indexKeyring indexAadSeq)
  inMemory (if legacy then parseLegacyDiskIndex id else parseIndex id)

/-- The keyring of the trailer: none for a plaintext archive. -/
def trailerKeyring (hdr : ArchiveHeader) (keyring : Keyring) : Option Keyring :=
  if hasFlag hdr.globalFlags flagEncrypted then some keyring else none

/-- `open_archive`. -/
def openArchive (opts : ReaderOptions) : ReadM Opened := do
  let hdr ← readHeader
  let located ← locate
  ReadM.require (located.ait.isSome ∨ opts.allowLegacyNoAit) .authFail
  ReadM.require (flagsConsistent hdr.globalFlags) .corrupt
  let derived ← readEncHeader opts hdr
  inMemory (match located.ait with
    | some ait => aitVerify P hdr located.footer ait (trailerKeyring hdr derived)
    | none => .ok ())
  let keyring := { derived with
    usePrefaceAad := derived.usePrefaceAad || hasFlag hdr.globalFlags flagAadPreface }
  let comment ← readComment P C hdr keyring
  let entries ← readIndex P C hdr located.footer keyring
  return { hdr, footer := located.footer, entries, keyring, comment }

end Zupt.Open
