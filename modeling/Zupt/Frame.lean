import Zupt.Stream
import Zupt.Seal

/-! # Frames

    An archive body is a sequence of frames: two magic bytes, the block type,
    codec and flags, the two sizes as varints, the checksum of the plain
    bytes, and the payload.  `encodeFrame` is the run of `w8`/`w16le`/varint
    writes that every writer repeats, `readBlock` is `read_block`.

    The scalars of a frame also serialise to a fixed 29-byte *preface*, which
    archives of format 1.6 put in front of every MAC transcript. -/

namespace Zupt.Frame

open Zupt.LittleEndian Zupt.Varint Zupt.Stream Zupt.Seal

/-- `ZUPT_BLOCK_DATA`. -/
def blockData : UInt8 := 0x00

/-- `ZUPT_BLOCK_INDEX`. -/
def blockIndex : UInt8 := 0x02

/-- `ZUPT_BLOCK_ENC_HEADER`. -/
def blockEncHeader : UInt8 := 0x03

/-- `ZUPT_BLOCK_DEDUP_REF`. -/
def blockDedupRef : UInt8 := 0x04

/-- `ZUPT_BLOCK_COMMENT`. -/
def blockComment : UInt8 := 0x05

/-- `ZUPT_BFLAG_ENCRYPTED`. -/
def bflagEncrypted : UInt16 := 1

/-- `ZUPT_CODEC_STORE`. -/
def codecStore : UInt16 := 0x0000

/-- `ZUPT_CODEC_ZUPT_LZ`. -/
def codecLz : UInt16 := 0x0008

/-- `ZUPT_CODEC_ZUPT_LZH`. -/
def codecLzh : UInt16 := 0x0009

/-- `ZUPT_CODEC_ZUPT_LZHP`. -/
def codecLzhp : UInt16 := 0x000A

/-- `ZUPT_CODEC_VAPTVUPT`. -/
def codecVaptVupt : UInt16 := 0x0010

/-- `ZUPT_MAX_BLOCK_SZ`. -/
def maxBlockSz : Nat := 256 * 1024 * 1024

/-- `ZUPT_BLOCK_MAGIC_0` and `ZUPT_BLOCK_MAGIC_1`. -/
def blockMagic : Bytes := [0xBB, 0x01]

/-- `zupt_block_t`, with a payload of the size it announces. -/
structure Block where
  blockType : UInt8
  codecId : UInt16
  blockFlags : UInt16
  uncompressedSize : UInt64
  compressedSize : UInt64
  checksum : UInt64
  payload : Bytes
  payload_length : payload.length = compressedSize.toNat
  deriving DecidableEq

/-- Two blocks that agree on what is written of them are equal: the announced
    size follows from the payload. -/
theorem Block.ext_of_written {a b : Block} (htype : a.blockType = b.blockType)
    (hcodec : a.codecId = b.codecId) (hflags : a.blockFlags = b.blockFlags)
    (husz : a.uncompressedSize = b.uncompressedSize) (hck : a.checksum = b.checksum)
    (hpay : a.payload = b.payload) : a = b := by
  have hcsz : a.compressedSize = b.compressedSize := by
    apply UInt64.toNat_inj.mp
    rw [← a.payload_length, ← b.payload_length, hpay]
  cases a
  cases b
  simp only at htype hcodec hflags husz hcsz hck hpay
  subst htype hcodec hflags husz hcsz hck hpay
  rfl

/-! ## The preface -/

/-- `ZUPT_PREFACE_AAD_LEN`. -/
def prefaceAadLen : Nat := 29

/-- `zupt_serialize_preface_aad_scalars`. -/
def serializePrefaceAadScalars (blockType : UInt8) (codecId blockFlags : UInt16)
    (uncompressedSize compressedSize checksum : UInt64) : Bytes :=
  blockType :: (le16Put codecId ++ (le16Put blockFlags ++ (le64Put uncompressedSize
    ++ (le64Put compressedSize ++ le64Put checksum))))

/-- `zupt_serialize_preface_aad`. -/
def serializePrefaceAad (b : Block) : Bytes :=
  serializePrefaceAadScalars b.blockType b.codecId b.blockFlags b.uncompressedSize
    b.compressedSize b.checksum

@[simp] theorem preface_length (blockType : UInt8) (codecId blockFlags : UInt16)
    (usz csz ck : UInt64) :
    (serializePrefaceAadScalars blockType codecId blockFlags usz csz ck).length
      = prefaceAadLen := by
  simp only [serializePrefaceAadScalars, List.length_cons, List.length_append,
    le16Put_length, le64Put_length, prefaceAadLen]

/-- **The preface determines every scalar of the frame.** -/
theorem preface_injective {t t' : UInt8} {c c' fl fl' : UInt16}
    {usz usz' csz csz' ck ck' : UInt64}
    (h : serializePrefaceAadScalars t c fl usz csz ck
      = serializePrefaceAadScalars t' c' fl' usz' csz' ck') :
    t = t' ∧ c = c' ∧ fl = fl' ∧ usz = usz' ∧ csz = csz' ∧ ck = ck' := by
  obtain ⟨htype, h⟩ := List.cons.inj h
  obtain ⟨hcodec, h⟩ := List.append_inj h (by simp)
  obtain ⟨hflags, h⟩ := List.append_inj h (by simp)
  obtain ⟨husz, h⟩ := List.append_inj h (by simp)
  obtain ⟨hcsz, hck⟩ := List.append_inj h (by simp)
  exact ⟨htype, le16Put_injective hcodec, le16Put_injective hflags,
    le64Put_injective husz, le64Put_injective hcsz, le64Put_injective hck⟩

/-! ## On the wire -/

/-- The writes that put a frame into the archive. -/
def encodeFrame (blockType : UInt8) (codecId blockFlags : UInt16)
    (uncompressedSize checksum : UInt64) (payload : Bytes) : Bytes :=
  blockMagic ++ ([blockType] ++ (le16Put codecId ++ (le16Put blockFlags
    ++ (encodeVarint uncompressedSize ++ (encodeVarint (UInt64.ofNat payload.length)
    ++ (le64Put checksum ++ payload))))))

/-- A block as the frame it is read from. -/
def Block.encode (b : Block) : Bytes :=
  encodeFrame b.blockType b.codecId b.blockFlags b.uncompressedSize b.checksum b.payload

/-- `read_block`. -/
def readBlock : ReadM Block := do
  let m ← fread 2
  ReadM.require (m.val = blockMagic) .corrupt
  let blockType ← r8
  let codecId ← r16le
  let blockFlags ← r16le
  let uncompressedSize ← readVarint
  let compressedSize ← readVarint
  let checksum ← r64le
  ReadM.require (compressedSize.toNat ≤ maxBlockSz + 4096) .overflow
  ReadM.require (uncompressedSize.toNat ≤ maxBlockSz) .overflow
  let payload ← fread compressedSize.toNat
  return { blockType, codecId, blockFlags, uncompressedSize, compressedSize, checksum,
           payload := payload.val, payload_length := payload.property }

/-- **FRAME ROUND TRIP**: where a block within the limits was written, it is
    read back, and the stream stands behind it. -/
theorem readBlock_at {f : Bytes} {pos : Nat} (b : Block) (h : At f pos b.encode)
    (hcsz : b.compressedSize.toNat ≤ maxBlockSz + 4096)
    (husz : b.uncompressedSize.toNat ≤ maxBlockSz) :
    readBlock.run f pos = (.ok b, pos + b.encode.length) := by
  have hsize : UInt64.ofNat b.payload.length = b.compressedSize := by
    rw [b.payload_length, UInt64.ofNat_toNat]
  rw [Block.encode, encodeFrame, hsize] at h
  -- each read takes its field off the front of what is left
  rw [readBlock, ReadM.bind_of_ok (fread_at (n := 2) h.append_left rfl),
    ReadM.bind_of_ok (ReadM.require_of rfl _ _ _)]
  have h := h.append_right (n := 2) rfl
  rw [ReadM.bind_of_ok (r8_at h.append_left)]
  have h := h.append_right (n := 1) rfl
  rw [ReadM.bind_of_ok (r16le_at h.append_left)]
  have h := h.append_right (le16Put_length _)
  rw [ReadM.bind_of_ok (r16le_at h.append_left)]
  have h := h.append_right (le16Put_length _)
  rw [ReadM.bind_of_ok (readVarint_at h.append_left)]
  have h := h.append_right rfl
  rw [ReadM.bind_of_ok (readVarint_at h.append_left)]
  have h := h.append_right rfl
  rw [ReadM.bind_of_ok (r64le_at h.append_left),
    ReadM.bind_of_ok (ReadM.require_of hcsz _ _ _),
    ReadM.bind_of_ok (ReadM.require_of husz _ _ _)]
  have h := h.append_right (le64Put_length _)
  rw [ReadM.bind_of_ok (fread_at h b.payload_length)]
  show (Except.ok b, _) = _
  congr 1
  rw [Block.encode, encodeFrame, hsize]
  have hmagic : blockMagic.length = 2 := rfl
  simp only [List.length_append, List.length_singleton, le16Put_length, le64Put_length,
    b.payload_length, hmagic]
  omega

/-- A block that was read is within the limits, and its payload stands in the
    file right in front of where the stream is left. -/
theorem readBlock_ok {f : Bytes} {pos pos' : Nat} {b : Block}
    (h : readBlock.run f pos = (.ok b, pos')) :
    b.compressedSize.toNat ≤ maxBlockSz + 4096 ∧ b.uncompressedSize.toNat ≤ maxBlockSz ∧
      ∃ start, At f start b.payload ∧ pos' = start + b.payload.length := by
  rw [readBlock] at h
  obtain ⟨m, p₁, -, h⟩ := ReadM.bind_ok h
  obtain ⟨-, p₂, -, h⟩ := ReadM.bind_ok h
  obtain ⟨blockType, p₃, -, h⟩ := ReadM.bind_ok h
  obtain ⟨codecId, p₄, -, h⟩ := ReadM.bind_ok h
  obtain ⟨blockFlags, p₅, -, h⟩ := ReadM.bind_ok h
  obtain ⟨uncompressedSize, p₆, -, h⟩ := ReadM.bind_ok h
  obtain ⟨compressedSize, p₇, -, h⟩ := ReadM.bind_ok h
  obtain ⟨checksum, p₈, -, h⟩ := ReadM.bind_ok h
  obtain ⟨_, p₉, hcsz, h⟩ := ReadM.bind_ok h
  obtain ⟨_, p₁₀, husz, h⟩ := ReadM.bind_ok h
  obtain ⟨payload, p₁₁, hpay, h⟩ := ReadM.bind_ok h
  obtain ⟨hb, rfl⟩ := Prod.mk.inj h
  obtain rfl := Except.ok.inj hb
  obtain ⟨hat, hend⟩ := fread_ok hpay
  exact ⟨ReadM.of_require hcsz, ReadM.of_require husz, p₁₀, hat, by rw [hend, payload.property]⟩

/-- A block that was read takes up room in the file. -/
theorem readBlock_advances {f : Bytes} {pos pos' : Nat} {b : Block}
    (h : readBlock.run f pos = (.ok b, pos')) : pos < pos' ∧ pos' ≤ f.length := by
  rw [readBlock] at h
  obtain ⟨m, mid, hm, h⟩ := ReadM.bind_ok h
  obtain ⟨hat, rfl⟩ := fread_ok hm
  have hlen := hat.length_le
  rw [m.property] at hlen
  -- nothing behind the magic moves back
  have hrest := ReadM.Forward.bind (.require _ _) (fun _ => .bind .r8 fun _ => .bind .r16le
    fun _ => .bind .r16le fun _ => .bind .readVarint fun _ => .bind .readVarint fun _ =>
    .bind .r64le fun _ => .bind (.require _ _) fun _ => .bind (.require _ _) fun _ =>
    .bind (.fread _) fun _ => .pure _) f _ b pos' h
  omega

end Zupt.Frame
