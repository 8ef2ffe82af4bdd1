import Zupt.Open

/-! # The layout of an archive

    Every writer lays an archive out the same way: the header, the
    encryption header if there is one, frames, at most one comment frame, the
    index frame, the footer and the integrity trailer.  `Parts` is such an
    archive before its bytes, `Parts.bytes` is what ends up in the file.

    The header is rewritten in place when its flags or its comment offset
    become known, so that the file starts with its last version. -/

namespace Zupt.Layout

open Zupt.LittleEndian Zupt.Stream Zupt.Seal Zupt.Frame Zupt.Transform Zupt.Decode
open Zupt.Trailer Zupt.Index Zupt.Open

/-- What `zupt_random_bytes` fills a nonce with. -/
abbrev Nonce := {n : Bytes // n.length = nonceSize}

/-- A frame before it is encrypted: its scalars, its plain payload, and the
    sequence it is sealed at. -/
structure WrittenFrame where
  blockType : UInt8
  codecId : UInt16
  uncompressedSize : UInt64
  checksum : UInt64
  plain : Bytes
  blockSeq : UInt64
  deriving DecidableEq, Repr

/-- A frame and the nonce its encryption drew. -/
abbrev Written := WrittenFrame × Nonce

variable (P : Primitives)

/-- The payload of a frame as it goes into the file. -/
def wirePayload (kr : Option Keyring) (w : Written) : Bytes :=
  match kr with
  | some kr => sealPayload P kr w.1.blockType w.1.codecId w.1.uncompressedSize w.1.checksum
      w.1.plain w.1.blockSeq w.2
  | none => w.1.plain

/-- `bflags`. -/
def wireFlags (kr : Option Keyring) : UInt16 := if kr.isSome then bflagEncrypted else 0

/-- A frame as it goes into the file. -/
def encodeWritten (kr : Option Keyring) (w : Written) : Bytes :=
  encodeFrame w.1.blockType w.1.codecId (wireFlags kr) w.1.uncompressedSize w.1.checksum
    (wirePayload P kr w)

/-- The size of the payload of a frame in the file. -/
def wireSize (kr : Option Keyring) (w : WrittenFrame) : Nat :=
  if kr.isSome then nonceSize + w.plain.length + hmacSize else w.plain.length

theorem wirePayload_length (kr : Option Keyring) (w : Written) :
    (wirePayload P kr w).length = wireSize kr w.1 := by
  cases kr with
  | none => rfl
  | some kr => exact sealPayload_length P kr _ _ _ _ _ _ _ w.2.property

/-- The size of a frame does not depend on its nonce. -/
theorem encodeWritten_length_eq (kr : Option Keyring) {w w' : Written} (h : w.1 = w'.1) :
    (encodeWritten P kr w).length = (encodeWritten P kr w').length := by
  simp only [encodeWritten, encodeFrame, List.length_append, wirePayload_length, h]

/-- Frames one behind the other. -/
def encodeAll (kr : Option Keyring) (ws : List Written) : Bytes :=
  (ws.map (encodeWritten P kr)).flatten

/-- The frame `write_comment_block` writes for a comment that is not empty. -/
def commentFrame (comment : Bytes) : WrittenFrame where
  blockType := blockComment
  codecId := codecStore
  uncompressedSize := UInt64.ofNat comment.length
  checksum := xxh64 comment 0
  plain := comment
  blockSeq := commentAadSeq

/-- The index frame of `zupt_compress_files` and `zupt_compress_solid`: LZH,
    or stored if that does not make it smaller. -/
def indexFrame (C : Codecs) (lzhBound : Nat → Nat) (level : Int) (entries : List IndexEntry) :
    WrittenFrame :=
  let ibuf := encodeIndex entries
  let ic := C.lzhCompress ibuf (lzhBound ibuf.length) level
  let stored := ic.length = 0 ∨ ic.length ≥ ibuf.length
  { blockType := blockIndex
    codecId := if stored then codecStore else codecLzh
    uncompressedSize := UInt64.ofNat ibuf.length
    checksum := xxh64 ibuf 0
    plain := if stored then ibuf else ic
    blockSeq := indexAadSeq }

/-- The index frame of `zupt_disk_backup`, which is always stored. -/
def diskIndexFrame (entry : IndexEntry) : WrittenFrame :=
  let ibuf := encodeIndex [entry]
  { blockType := blockIndex
    codecId := codecStore
    uncompressedSize := UInt64.ofNat ibuf.length
    checksum := xxh64 ibuf 0
    plain := ibuf
    blockSeq := indexAadSeq }

/-- The frame `write_enc_header` puts behind the header. -/
def envelopeFrame (envelope : Bytes) : Bytes :=
  encodeFrame blockEncHeader codecStore 0 (UInt64.ofNat envelope.length) (xxh64 envelope 0)
    envelope

/-- An archive before its bytes.  `keyring` is present if frames are sealed;
    `baseHeader` is the header without the two offsets. -/
structure Parts where
  baseHeader : ArchiveHeader
  keyring : Option Keyring
  envelope : Option Bytes
  frames : List Written
  comment : Option Written
  index : Written

namespace Parts

variable (a : Parts)

/-- What stands between the header and the frames. -/
def envelopeBytes : Bytes :=
  match a.envelope with
  | some envelope => envelopeFrame envelope
  | none => []

/-- Where the frames start. -/
def framesPos : Nat := archiveHeaderSize + a.envelopeBytes.length

/-- `comment_off`, or where the index starts if there is no comment. -/
def commentPos : Nat := a.framesPos + (encodeAll P a.keyring a.frames).length

/-- The comment frame, if there is one. -/
def commentBytes : Bytes :=
  match a.comment with
  | some w => encodeWritten P a.keyring w
  | none => []

/-- `index_offset`. -/
def indexPos : Nat := a.commentPos P + (a.commentBytes P).length

/-- Where the footer starts. -/
def footerPos : Nat := a.indexPos P + (encodeWritten P a.keyring a.index).length

/-- The header as it ends up in the file. -/
def header : ArchiveHeader :=
  { a.baseHeader with
    encryptionHeaderOff := if a.envelope.isSome then UInt64.ofNat archiveHeaderSize else 0
    commentOffset := if a.comment.isSome then UInt64.ofNat (a.commentPos P) else 0 }

/-- Everything between the header and the footer. -/
def body : Bytes :=
  a.envelopeBytes ++ (encodeAll P a.keyring a.frames ++ (a.commentBytes P
    ++ encodeWritten P a.keyring a.index))

/-- The bytes of the archive, for the footer its writer fills in. -/
def bytes (footer : Footer) : Bytes :=
  serializeArchiveHeader (a.header P) ++ (a.body P ++ (serializeFooter footer
    ++ aitField P (a.header P) footer a.keyring))

end Parts

end Zupt.Layout
