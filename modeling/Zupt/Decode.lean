import Zupt.Frame
import Zupt.Transform

/-! # Opening frames

    `decompress_block` turns a frame back into plain bytes: authenticate and
    decrypt, undo the codec, compare the checksum.  `zupt_dedup_read_ref`
    reads a reference frame instead.  Both have their writer here as well:
    `sealBlock` is the sealing every writer repeats around the package format.

    The codecs come in as a `Codecs` record of the functions the archive layer
    calls. -/

namespace Zupt.Decode

open Zupt.LittleEndian Zupt.Stream Zupt.Seal Zupt.Frame Zupt.Transform

/-- The codec entry points the archive layer calls.  A decompressor answers
    with the bytes it produced, which the caller compares with the size it
    expected; a compressor that answers `[]` gave up. -/
structure Codecs where
  /-- `zupt_lz_compress src .. level` into `cap` bytes. -/
  lzCompress : (src : Bytes) → (cap : Nat) → (level : Int) → Bytes
  /-- `zupt_lz_decompress src dst[dlen]`. -/
  lzDecompress : (src : Bytes) → (dlen : Nat) → Bytes
  /-- `zupt_lzh_compress src .. level` into `cap` bytes. -/
  lzhCompress : (src : Bytes) → (cap : Nat) → (level : Int) → Bytes
  /-- `zupt_lzh_decompress src dst[dlen]`. -/
  lzhDecompress : (src : Bytes) → (dlen : Nat) → Bytes
  /-- `vv_compress src ..` into `cap` bytes, with the options `vvz_compress`
      derives from the level; `none` is a negative size. -/
  vvCompress : (src : Bytes) → (cap : Nat) → (level : Int) → Option Bytes
  /-- `vv_decompress_flags src dst[cap]`, which compares the inner checksum
      unless it is told to skip it; `none` is a negative size. -/
  vvDecompressFlags : (skipChecksum : Bool) → (src : Bytes) → (cap : Nat) → Option Bytes
  /-- `100 * zupt_predict_benefit(data) > percent`. -/
  predictPays : (data : Bytes) → (percent : Nat) → Bool

/-- `vv_decompress`. -/
def Codecs.vvDecompress (C : Codecs) (src : Bytes) (cap : Nat) : Option Bytes :=
  C.vvDecompressFlags false src cap

/-- `vvz_decompress`. -/
def Codecs.vvzDecompress (C : Codecs) (src : Bytes) (cap : Nat) : Option Bytes :=
  C.vvDecompressFlags true src cap

/-- `ZUPT_VV_DECODE_SLACK`. -/
def vvDecodeSlack : Nat := 64

/-- `vvz_compress`: what was compressed is read back before it is used. -/
def Codecs.vvzCompress (C : Codecs) (src : Bytes) (cap : Nat) (level : Int) : Option Bytes :=
  match C.vvCompress src cap level with
  | none => none
  | some out =>
      if out = [] then some []
      else if C.vvzDecompress out (src.length + vvDecodeSlack) = some src then some out
      else none

/-- The branch of `decompress_block` for `ZUPT_CODEC_ZUPT_LZHP`: a flag byte,
    the prediction table if the flag asks for it, and an LZH stream. -/
def decodeLzhp (C : Codecs) (compData : Bytes) (olen : Nat) : Result Bytes :=
  match compData with
  | [] => .error .corrupt
  | pflag :: _ =>
      if pflag &&& 0x01 ≠ 0 then
        -- 257 bytes are the flag and the table: nothing would be left to decode
        if compData.length < 257 ∨ compData.length ≤ 257 then .error .corrupt
        else
          let temp := C.lzhDecompress (compData.drop 257) olen
          if temp.length ≠ olen then .error .corrupt
          else .ok (predictDecode ((compData.drop 1).take 256) temp)
      else if compData.length ≤ 1 then .error .corrupt
      else
        let out := C.lzhDecompress (compData.drop 1) olen
        if out.length ≠ olen then .error .corrupt else .ok out

/-- The codec dispatch of `decompress_block` and `worker_decompress`, for a
    non-empty output; they differ in the VaptVupt entry point `vv`. -/
def decodePayload (C : Codecs) (vv : Bytes → Nat → Option Bytes) (codecId : UInt16)
    (compData : Bytes) (olen : Nat) : Result Bytes :=
  if codecId = codecStore then
    if compData.length < olen then .error .corrupt else .ok (compData.take olen)
  else if codecId = codecLz then
    let out := C.lzDecompress compData olen
    if out.length ≠ olen then .error .corrupt else .ok out
  else if codecId = codecLzh then
    let out := C.lzhDecompress compData olen
    if out.length ≠ olen then .error .corrupt else .ok out
  else if codecId = codecLzhp then decodeLzhp C compData olen
  else if codecId = codecVaptVupt then
    match vv compData (olen + vvDecodeSlack) with
    | none => .error .corrupt
    | some out => if out.length ≠ olen then .error .corrupt else .ok out
  else .error .unsupported

variable (P : Primitives) (C : Codecs)

/-- `kr && kr->active`. -/
def keyringActive (kr : Option Keyring) : Bool := kr.any (·.active)

/-- `b->block_flags & ZUPT_BFLAG_ENCRYPTED`. -/
def isEncrypted (flags : UInt16) : Bool := decide (flags &&& bflagEncrypted ≠ 0)

/-- `zupt_decrypt_buffer_aad` with the preface of the frame in front, or
    `zupt_decrypt_buffer`, as the keyring says. -/
def decryptFrame (kr : Keyring) (b : Block) (blockSeq : UInt64) : Option Bytes :=
  if kr.usePrefaceAad then
    decryptBufferAad P kr b.payload blockSeq (serializePrefaceAad b)
  else decryptBuffer P kr b.payload blockSeq

/-- The first half of `decompress_block`: authenticate and decrypt.  With an
    active keyring a frame that is not encrypted is refused. -/
def openPayload (b : Block) (kr : Option Keyring) (blockSeq : UInt64) : Result Bytes :=
  if keyringActive kr ∧ ¬ isEncrypted b.blockFlags then .error .authFail
  else if isEncrypted b.blockFlags then
    match kr with
    | none => .error .authFail
    | some kr =>
        if kr.active then
          match decryptFrame P kr b blockSeq with
          | none => .error .authFail
          | some plain => .ok plain
        else .error .authFail
  else .ok b.payload

/-- The second half: undo the codec and compare the checksum. -/
def decodeChecked (vv : Bytes → Nat → Option Bytes) (b : Block) (compData : Bytes) :
    Result Bytes :=
  if b.uncompressedSize = 0 then .ok []
  else
    match decodePayload C vv b.codecId compData b.uncompressedSize.toNat with
    | .error e => .error e
    | .ok out => if xxh64 out 0 ≠ b.checksum then .error .badChecksum else .ok out

/-- `decompress_block`. -/
def decompressBlock (b : Block) (kr : Option Keyring) (blockSeq : UInt64) : Result Bytes :=
  if b.uncompressedSize.toNat > maxBlockSz then .error .overflow
  else if b.compressedSize.toNat > maxBlockSz + 1024 then .error .overflow
  else
    match openPayload P b kr blockSeq with
    | .error e => .error e
    | .ok compData => decodeChecked C C.vvzDecompress b compData

/-- `worker_decompress`, for a slot that holds the fields of a DATA frame.  It
    does not limit the compressed size again. -/
def workerDecompress (b : Block) (kr : Option Keyring) (blockSeq : UInt64) : Result Bytes :=
  if b.uncompressedSize.toNat > maxBlockSz then .error .overflow
  else
    match openPayload P b kr blockSeq with
    | .error e => .error e
    | .ok compData => decodeChecked C C.vvDecompress b compData

/-! ## What an accepted frame is -/

/-- `if (r != olen) result = ZUPT_ERR_CORRUPT;` -/
theorem length_of_sized {r out : Bytes} {olen : Nat}
    (h : (if r.length ≠ olen then (.error .corrupt : Result Bytes) else .ok r) = .ok out) :
    out.length = olen := by
  by_cases hr : r.length = olen
  · rw [if_neg (not_not.mpr hr)] at h
    rw [← Except.ok.inj h, hr]
  · rw [if_pos hr] at h
    exact nomatch h

theorem decodeLzhp_length {compData out : Bytes} {olen : Nat}
    (h : decodeLzhp C compData olen = .ok out) : out.length = olen := by
  cases compData with
  | nil => exact nomatch h
  | cons pflag rest =>
      simp only [decodeLzhp] at h
      by_cases hpred : pflag &&& 0x01 ≠ 0
      · rw [if_pos hpred] at h
        split at h
        · exact nomatch h
        · split at h
          · exact nomatch h
          · rename_i hlen
            rw [← Except.ok.inj h, predictDecode_length, not_not.mp hlen]
      · rw [if_neg hpred] at h
        split at h
        · exact nomatch h
        · exact length_of_sized h

/-- Every codec branch delivers exactly the size the frame announced. -/
theorem decodePayload_length {vv : Bytes → Nat → Option Bytes} {codecId : UInt16} {compData out : Bytes} {olen : Nat}
    (h : decodePayload C vv codecId compData olen = .ok out) : out.length = olen := by
  rw [decodePayload] at h
  split at h
  · by_cases hlen : compData.length < olen
    · rw [if_pos hlen] at h
      exact nomatch h
    · rw [if_neg hlen] at h
      rw [← Except.ok.inj h, List.length_take]
      omega
  · split at h
    · exact length_of_sized h
    · split at h
      · exact length_of_sized h
      · split at h
        · exact decodeLzhp_length C h
        · split at h
          · cases hvv : vv compData (olen + vvDecodeSlack) with
            | none =>
                rw [hvv] at h
                exact nomatch h
            | some r =>
                rw [hvv] at h
                exact length_of_sized h
          · exact nomatch h

/-- **CHECKED OUTPUT**: what the second half delivers has the announced size
    and, unless it is empty, the announced checksum. -/
theorem decodeChecked_ok {vv : Bytes → Nat → Option Bytes} {b : Block} {compData out : Bytes}
    (h : decodeChecked C vv b compData = .ok out) :
    out.length = b.uncompressedSize.toNat ∧ (out ≠ [] → xxh64 out 0 = b.checksum) := by
  rw [decodeChecked] at h
  by_cases hz : b.uncompressedSize = 0
  · rw [if_pos hz] at h
    have hout := Except.ok.inj h
    subst hout
    rw [hz]
    exact ⟨rfl, fun hne => absurd rfl hne⟩
  · rw [if_neg hz] at h
    cases hdec : decodePayload C vv b.codecId compData b.uncompressedSize.toNat with
    | error e =>
        rw [hdec] at h
        exact nomatch h
    | ok r =>
        rw [hdec] at h
        simp only at h
        by_cases hck : xxh64 r 0 = b.checksum
        · rw [if_neg (not_not.mpr hck)] at h
          have hout := Except.ok.inj h
          subst hout
          exact ⟨decodePayload_length C hdec, fun _ => hck⟩
        · rw [if_pos hck] at h
          exact nomatch h

/-- Opening and then decoding is all there is to an accepted frame. -/
theorem decompressBlock_ok {b : Block} {kr : Option Keyring} {seq : UInt64} {out : Bytes}
    (h : decompressBlock P C b kr seq = .ok out) :
    ∃ compData, openPayload P b kr seq = .ok compData ∧
      decodeChecked C C.vvzDecompress b compData = .ok out := by
  rw [decompressBlock] at h
  split at h
  · exact nomatch h
  · split at h
    · exact nomatch h
    · cases hopen : openPayload P b kr seq with
      | error e =>
          rw [hopen] at h
          exact nomatch h
      | ok compData =>
          rw [hopen] at h
          exact ⟨compData, rfl, h⟩

/-- The same for a worker. -/
theorem workerDecompress_ok {b : Block} {kr : Option Keyring} {seq : UInt64} {out : Bytes}
    (h : workerDecompress P C b kr seq = .ok out) :
    ∃ compData, openPayload P b kr seq = .ok compData ∧
      decodeChecked C C.vvDecompress b compData = .ok out := by
  rw [workerDecompress] at h
  split at h
  · exact nomatch h
  · cases hopen : openPayload P b kr seq with
    | error e =>
        rw [hopen] at h
        exact nomatch h
    | ok compData =>
        rw [hopen] at h
        exact ⟨compData, rfl, h⟩

/-- A frame passed its checks: it was authenticated where the keyring asks
    for it, and its plain bytes have the announced size and checksum. -/
def Verified (b : Block) (kr : Option Keyring) (seq : UInt64) (out : Bytes) : Prop :=
  (∃ compData, openPayload P b kr seq = .ok compData) ∧
    out.length = b.uncompressedSize.toNat ∧ (out ≠ [] → xxh64 out 0 = b.checksum)

theorem verified_of_decompressBlock {b : Block} {kr : Option Keyring} {seq : UInt64}
    {out : Bytes} (h : decompressBlock P C b kr seq = .ok out) : Verified P b kr seq out := by
  obtain ⟨compData, hopen, hdec⟩ := decompressBlock_ok P C h
  exact ⟨⟨compData, hopen⟩, decodeChecked_ok C hdec⟩

theorem verified_of_workerDecompress {b : Block} {kr : Option Keyring} {seq : UInt64}
    {out : Bytes} (h : workerDecompress P C b kr seq = .ok out) : Verified P b kr seq out := by
  obtain ⟨compData, hopen, hdec⟩ := workerDecompress_ok P C h
  exact ⟨⟨compData, hopen⟩, decodeChecked_ok C hdec⟩

/-- **FAIL CLOSED**: with an active keyring an opened frame carries the
    encrypted flag and its package opened. -/
theorem openPayload_active {b : Block} {kr : Keyring} {seq : UInt64} {plain : Bytes}
    (hactive : kr.active = true) (h : openPayload P b (some kr) seq = .ok plain) :
    isEncrypted b.blockFlags = true ∧ decryptFrame P kr b seq = some plain := by
  rw [openPayload] at h
  by_cases henc : isEncrypted b.blockFlags = true
  · rw [if_neg (fun hc => hc.2 henc), if_pos henc] at h
    simp only [if_pos hactive] at h
    cases hdec : decryptFrame P kr b seq with
    | none =>
        rw [hdec] at h
        exact nomatch h
    | some r =>
        rw [hdec] at h
        exact ⟨henc, congrArg some (Except.ok.inj h)⟩
  · rw [if_pos ⟨hactive, henc⟩] at h
    exact nomatch h

/-! ## Sealing a frame -/

/-- What every writer does around `zupt_encrypt_buffer_aad`: predict the
    package size, bind the preface the frame is about to get if the keyring
    says so, and write the frame with the package as its payload. -/
def sealPayload (kr : Keyring) (blockType : UInt8) (codecId : UInt16)
    (uncompressedSize checksum : UInt64) (payload : Bytes) (blockSeq : UInt64)
    (nonce : Bytes) : Bytes :=
  if kr.usePrefaceAad then
    let predictedCsz := UInt64.ofNat (nonceSize + payload.length + hmacSize)
    encryptBufferAad P kr payload blockSeq
      (serializePrefaceAadScalars blockType codecId bflagEncrypted uncompressedSize
        predictedCsz checksum) nonce
  else encryptBuffer P kr payload blockSeq nonce

theorem sealPayload_length (kr : Keyring) (blockType : UInt8) (codecId : UInt16)
    (usz ck : UInt64) (payload : Bytes) (seq : UInt64) (nonce : Bytes)
    (hnonce : nonce.length = nonceSize) :
    (sealPayload P kr blockType codecId usz ck payload seq nonce).length
      = nonceSize + payload.length + hmacSize := by
  rw [sealPayload]
  split
  · exact encrypt_length P kr payload seq _ nonce hnonce
  · exact encrypt_length P kr payload seq [] nonce hnonce

/-- The frame a writer emits for a sealed payload, as it is read back. -/
def sealBlock (kr : Keyring) (blockType : UInt8) (codecId : UInt16)
    (uncompressedSize checksum : UInt64) (payload : Bytes) (blockSeq : UInt64)
    (nonce : {n : Bytes // n.length = nonceSize})
    (hsize : nonceSize + payload.length + hmacSize < 2 ^ 64) : Block where
  blockType := blockType
  codecId := codecId
  blockFlags := bflagEncrypted
  uncompressedSize := uncompressedSize
  compressedSize := UInt64.ofNat (nonceSize + payload.length + hmacSize)
  checksum := checksum
  payload := sealPayload P kr blockType codecId uncompressedSize checksum payload blockSeq nonce
  payload_length := by
    rw [sealPayload_length P kr _ _ _ _ _ _ _ nonce.property, UInt64.toNat_ofNat_of_lt' hsize]

/-- **PREDICTED SIZES AGREE**: a sealed frame opens at its sequence, because
    the size predicted before sealing is the size rebuilt from the wire. -/
theorem decryptFrame_sealBlock (kr : Keyring) (blockType : UInt8) (codecId : UInt16)
    (usz ck : UInt64) (payload : Bytes) (seq : UInt64)
    (nonce : {n : Bytes // n.length = nonceSize})
    (hsize : nonceSize + payload.length + hmacSize < 2 ^ 64) :
    decryptFrame P kr (sealBlock P kr blockType codecId usz ck payload seq nonce hsize) seq
      = some payload := by
  rw [decryptFrame]
  show (if kr.usePrefaceAad then decryptBufferAad P kr (sealPayload P kr _ _ _ _ _ _ _) seq
    (serializePrefaceAadScalars _ _ _ _ _ _)
    else decryptBuffer P kr (sealPayload P kr _ _ _ _ _ _ _) seq) = _
  by_cases hp : kr.usePrefaceAad = true
  · rw [if_pos hp, sealPayload, if_pos hp]
    exact decrypt_encrypt P kr payload seq _ nonce nonce.property
  · rw [if_neg hp, sealPayload, if_neg hp]
    exact decrypt_encrypt P kr payload seq [] nonce nonce.property

/-! ## Reference frames -/

/-- The sixteen bytes an authenticated reference seals: where the referenced
    frame starts and the sequence it was sealed at. -/
def referenceBytes (refOffset referencedAadSeq : UInt64) : Bytes :=
  le64Put refOffset ++ le64Put referencedAadSeq

/-- `zupt_dedup_read_ref`: the offset and the sequence of the referenced
    frame. -/
def dedupReadRef (b : Block) (kr : Keyring) (requireAuthentication : Bool)
    (currentAadSeq : UInt64) : Result (UInt64 × UInt64) :=
  if b.blockType ≠ blockDedupRef ∨ b.codecId ≠ codecStore then .error .corrupt
  else if requireAuthentication then
    if ¬ isEncrypted b.blockFlags ∨ ¬ kr.active then .error .authFail
    else
      match decryptFrame P kr b currentAadSeq with
      | none => .error .authFail
      | some plain =>
          if plain.length ≠ 16 then .error .corrupt
          else .ok (le64Get plain, le64Get (plain.drop 8))
  else if b.blockFlags ≠ 0 ∨ b.compressedSize ≠ 8 then .error .corrupt
  else .ok (le64Get b.payload, 0)

/-- **AN AUTHENTICATED REFERENCE** is an encrypted frame whose package
    opened. -/
theorem dedupReadRef_authenticated {b : Block} {kr : Keyring} {seq : UInt64}
    {r : UInt64 × UInt64} (h : dedupReadRef P b kr true seq = .ok r) :
    b.blockType = blockDedupRef ∧ kr.active = true ∧ isEncrypted b.blockFlags = true ∧
      ∃ plain, decryptFrame P kr b seq = some plain := by
  rw [dedupReadRef] at h
  split at h
  · exact nomatch h
  · rename_i hshape
    rw [if_pos rfl] at h
    by_cases hauth : ¬ isEncrypted b.blockFlags = true ∨ ¬ kr.active = true
    · rw [if_pos hauth] at h
      exact nomatch h
    · rw [if_neg hauth] at h
      obtain ⟨henc, hactive⟩ := not_or.mp hauth
      refine ⟨not_not.mp (not_or.mp hshape).1, not_not.mp hactive, not_not.mp henc, ?_⟩
      cases hdec : decryptFrame P kr b seq with
      | none =>
          rw [hdec] at h
          exact nomatch h
      | some plain => exact ⟨plain, rfl⟩

/-- **AN UNAUTHENTICATED REFERENCE** is an eight-byte offset in the clear;
    nothing else about the frame is looked at. -/
theorem dedupReadRef_plain_iff {b : Block} {kr : Keyring} {seq : UInt64} :
    (∃ r, dedupReadRef P b kr false seq = .ok r) ↔
      b.blockType = blockDedupRef ∧ b.codecId = codecStore ∧ b.blockFlags = 0 ∧
        b.compressedSize = 8 := by
  rw [dedupReadRef]
  by_cases hshape : b.blockType ≠ blockDedupRef ∨ b.codecId ≠ codecStore
  · rw [if_pos hshape]
    constructor
    · rintro ⟨r, h⟩
      exact nomatch h
    · rintro ⟨htype, hcodec, -, -⟩
      rcases hshape with h | h
      · exact absurd htype h
      · exact absurd hcodec h
  · rw [if_neg hshape, if_neg (by decide)]
    obtain ⟨htype, hcodec⟩ := not_or.mp hshape
    by_cases hbad : b.blockFlags ≠ 0 ∨ b.compressedSize ≠ 8
    · rw [if_pos hbad]
      constructor
      · rintro ⟨r, h⟩
        exact nomatch h
      · rintro ⟨-, -, hflags, hcsz⟩
        rcases hbad with h | h
        · exact absurd hflags h
        · exact absurd hcsz h
    · rw [if_neg hbad]
      obtain ⟨hflags, hcsz⟩ := not_or.mp hbad
      exact ⟨fun _ => ⟨not_not.mp htype, not_not.mp hcodec, not_not.mp hflags,
        not_not.mp hcsz⟩, fun _ => ⟨_, rfl⟩⟩

end Zupt.Decode
