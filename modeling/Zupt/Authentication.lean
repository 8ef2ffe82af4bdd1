import Zupt.Trailer

/-! # What preface-mode authentication binds

    In archives of format 1.6 the MAC of a frame covers its preface, nonce,
    ciphertext and sequence, and the same key also authenticates the archive
    trailer.  Here a `SealLog` records what a writer sealed under one key.

    The route: a frame transcript determines the frame up to its tag
    (`frameTranscript_injective`), and it starts with a block type where a
    trailer transcript starts with the archive magic
    (`frameTranscript_ne_aitMacInput`).  So a reader that accepts a tag from
    the log reads back a frame, or a trailer, from the log.

    Reference frames read without required authentication are outside all
    this: `dedupReadRef_plain_iff` says exactly which ones are accepted. -/

namespace Zupt.Authentication

open Zupt.LittleEndian Zupt.Seal Zupt.Frame Zupt.Decode Zupt.Trailer

variable (P : Primitives) (C : Codecs)

/-- The block types that are sealed: `DATA`, `INDEX`, `DEDUP_REF` and
    `COMMENT`. -/
def frameTypes : List UInt8 := [blockData, blockIndex, blockDedupRef, blockComment]

/-- One call of the sealing code by a writer. -/
structure SealedFrame where
  blockType : UInt8
  codecId : UInt16
  uncompressedSize : UInt64
  checksum : UInt64
  plain : Bytes
  blockSeq : UInt64
  nonce : {n : Bytes // n.length = nonceSize}
  typed : blockType ∈ frameTypes
  sized : nonceSize + plain.length + hmacSize < 2 ^ 64

/-- The frame that call put into the archive. -/
def SealedFrame.block (kr : Keyring) (fr : SealedFrame) : Block :=
  sealBlock P kr fr.blockType fr.codecId fr.uncompressedSize fr.checksum fr.plain fr.blockSeq
    fr.nonce fr.sized

/-- Everything that was authenticated under one key. -/
structure SealLog where
  frames : List SealedFrame
  trailers : List (ArchiveHeader × Footer)

/-- The MAC transcript of a frame at a sequence. -/
def frameTranscript (b : Block) (seq : UInt64) : Bytes :=
  serializePrefaceAad b ++ packageBody b.payload ++ le64Put seq

/-- The tags that were computed under the key. -/
def SealLog.tags (kr : Keyring) (log : SealLog) : Set Bytes :=
  {t | (∃ fr ∈ log.frames, t = packageTag (fr.block P kr).payload) ∨
    ∃ tr ∈ log.trailers, t = aitField P tr.1 tr.2 (some kr)}

/-- The transcripts those tags were computed over. -/
def SealLog.transcripts (kr : Keyring) (log : SealLog) : Set Bytes :=
  {t | (∃ fr ∈ log.frames, t = frameTranscript (fr.block P kr) fr.blockSeq) ∨
    ∃ tr ∈ log.trailers, t = aitSerializeMacInput tr.1 tr.2}

/-! ## Transcripts -/

/-- **INJECTIVITY**: the fixed-width ends frame the middle, so a transcript
    determines preface, nonce and ciphertext, and sequence. -/
theorem frameTranscript_injective {b b' : Block} {seq seq' : UInt64}
    (h : frameTranscript b seq = frameTranscript b' seq') :
    serializePrefaceAad b = serializePrefaceAad b' ∧
      packageBody b.payload = packageBody b'.payload ∧ seq = seq' := by
  obtain ⟨hleft, hseq⟩ := append_inj_of_length h (by simp)
  have hlen : (serializePrefaceAad b).length = (serializePrefaceAad b').length :=
    (preface_length _ _ _ _ _ _).trans (preface_length _ _ _ _ _ _).symm
  obtain ⟨hpre, hbody⟩ := List.append_inj hleft hlen
  exact ⟨hpre, hbody, le64Put_injective hseq⟩

/-- Frames with one transcript and one tag are one frame. -/
theorem block_eq_of_transcript {b b' : Block} {seq seq' : UInt64}
    (h : frameTranscript b seq = frameTranscript b' seq')
    (htag : packageTag b.payload = packageTag b'.payload) : b = b' ∧ seq = seq' := by
  obtain ⟨hpre, hbody, hseq⟩ := frameTranscript_injective h
  obtain ⟨htype, hcodec, hflags, husz, -, hck⟩ := preface_injective hpre
  refine ⟨Block.ext_of_written htype hcodec hflags husz hck ?_, hseq⟩
  rw [← packageBody_append_tag b.payload, ← packageBody_append_tag b'.payload, hbody, htag]

/-- **DOMAIN SEPARATION**: no frame transcript is a trailer transcript. -/
theorem frameTranscript_ne_aitMacInput {b : Block} (htype : b.blockType ∈ frameTypes)
    (seq : UInt64) (hdr : ArchiveHeader) (ft : Footer) :
    frameTranscript b seq ≠ aitSerializeMacInput hdr ft := by
  intro h
  have hhead := congrArg List.head? h
  rw [aitSerializeMacInput_head] at hhead
  have hb : (frameTranscript b seq).head? = some b.blockType := rfl
  rw [hb] at hhead
  rw [Option.some.inj hhead] at htype
  exact absurd htype (by decide)

/-! ## Tags -/

/-- The tag of a sealed frame is taken over its transcript. -/
theorem tag_of_sealed {kr : Keyring} (hpreface : kr.usePrefaceAad = true) (fr : SealedFrame) :
    packageTag (fr.block P kr).payload
      = P.hmacSha256 kr.macKey (frameTranscript (fr.block P kr) fr.blockSeq) := by
  have hpay : (fr.block P kr).payload = encryptBufferAad P kr fr.plain fr.blockSeq
      (serializePrefaceAad (fr.block P kr)) fr.nonce := by
    show sealPayload P kr _ _ _ _ _ _ _ = _
    rw [sealPayload, if_pos hpreface]
    rfl
  rw [frameTranscript, hpay, packageTag_encrypt, packageBody_encrypt]

/-- The tag of a trailer is taken over header and footer. -/
theorem tag_of_trailer {kr : Keyring} (hactive : kr.active = true) (hdr : ArchiveHeader)
    (ft : Footer) :
    aitField P hdr ft (some kr) = P.hmacSha256 kr.macKey (aitSerializeMacInput hdr ft) := by
  show (if kr.active then _ else _) = _
  rw [if_pos hactive]

/-- An accepted frame carries the tag of its own transcript. -/
theorem tag_of_decrypted {kr : Keyring} (hpreface : kr.usePrefaceAad = true) {b : Block}
    {seq : UInt64} {plain : Bytes} (h : decryptFrame P kr b seq = some plain) :
    P.hmacSha256 kr.macKey (frameTranscript b seq) = packageTag b.payload := by
  rw [decryptFrame, if_pos hpreface] at h
  have hpos : 0 < (serializePrefaceAad b).length := by
    rw [serializePrefaceAad, preface_length]
    decide
  exact (decrypt_some_preface P kr hpos h).2.1

variable {kr : Keyring} {log : SealLog}

/-- What the readers of frames accept: `decompress_block`, and
    `zupt_dedup_read_ref` where it requires authentication. -/
def Accepted (kr : Keyring) (b : Block) (seq : UInt64) : Prop :=
  (∃ out, decompressBlock P C b (some kr) seq = .ok out) ∨
    ∃ r, dedupReadRef P b kr true seq = .ok r

/-- Both readers decrypt what they accept. -/
theorem decrypted_of_accepted {kr : Keyring} (hactive : kr.active = true) {b : Block}
    {seq : UInt64} (h : Accepted P C kr b seq) : ∃ plain, decryptFrame P kr b seq = some plain := by
  rcases h with ⟨out, hok⟩ | ⟨r, hok⟩
  · obtain ⟨compData, hopen, -⟩ := decompressBlock_ok P C hok
    exact ⟨compData, (openPayload_active P hactive hopen).2⟩
  · exact (dedupReadRef_authenticated P hok).2.2.2

variable {kr : Keyring} {log : SealLog}

/-- **A DECRYPTED FRAME WAS SEALED**: if the tag it carries is one of the log
    then the frame, and the sequence it was opened at, are those of a frame of
    the log. -/
theorem sealed_of_decrypted (hactive : kr.active = true) (hpreface : kr.usePrefaceAad = true)
    {b : Block} {seq : UInt64} {plain : Bytes} (htype : b.blockType ∈ frameTypes)
    (hdec : decryptFrame P kr b seq = some plain)
    (hissued : packageTag b.payload ∈ log.tags P kr)
    (hinj : Set.InjOn (P.hmacSha256 kr.macKey)
      (insert (frameTranscript b seq) (log.transcripts P kr))) :
    ∃ fr ∈ log.frames, fr.block P kr = b ∧ fr.blockSeq = seq := by
  have htag := tag_of_decrypted P hpreface hdec
  rcases hissued with ⟨fr, hfr, heq⟩ | ⟨tr, htr, heq⟩
  · rw [heq, tag_of_sealed P hpreface] at htag
    have htrans := hinj (Set.mem_insert _ _)
      (Set.mem_insert_of_mem _ (Or.inl ⟨fr, hfr, rfl⟩)) htag
    obtain ⟨hblock, hseq⟩ := block_eq_of_transcript htrans heq
    exact ⟨fr, hfr, hblock.symm, hseq.symm⟩
  · -- the tag is a trailer's: the two transcripts would have to be equal
    rw [heq, tag_of_trailer P hactive] at htag
    have htrans := hinj (Set.mem_insert _ _)
      (Set.mem_insert_of_mem _ (Or.inr ⟨tr, htr, rfl⟩)) htag
    exact absurd htrans (frameTranscript_ne_aitMacInput htype seq tr.1 tr.2)

/-- A trailer tag does not decrypt a frame. -/
theorem trailer_tag_not_decrypted (hactive : kr.active = true)
    (hpreface : kr.usePrefaceAad = true) {b : Block} {seq : UInt64} {plain : Bytes}
    (htype : b.blockType ∈ frameTypes) (hdec : decryptFrame P kr b seq = some plain)
    (hinj : Set.InjOn (P.hmacSha256 kr.macKey)
      (insert (frameTranscript b seq) (log.transcripts P kr))) :
    ∀ tr ∈ log.trailers, packageTag b.payload ≠ aitField P tr.1 tr.2 (some kr) := by
  intro tr htr heq
  have htag := tag_of_decrypted P hpreface hdec
  rw [heq, tag_of_trailer P hactive] at htag
  have htrans := hinj (Set.mem_insert _ _)
    (Set.mem_insert_of_mem _ (Or.inr ⟨tr, htr, rfl⟩)) htag
  exact frameTranscript_ne_aitMacInput htype seq tr.1 tr.2 htrans

/-- A frame tag does not verify as a trailer. -/
theorem frame_tag_not_verified (hactive : kr.active = true) (hpreface : kr.usePrefaceAad = true)
    {hdr : ArchiveHeader} {ft : Footer} {ait : Bytes}
    (hver : aitVerify P hdr ft ait (some kr) = .ok ())
    (hinj : Set.InjOn (P.hmacSha256 kr.macKey)
      (insert (aitSerializeMacInput hdr ft) (log.transcripts P kr))) :
    ∀ fr ∈ log.frames, ait ≠ packageTag (fr.block P kr).payload := by
  intro fr hfr heq
  have htag := (aitVerify_ok_iff P).mp hver
  rw [tag_of_trailer P hactive, heq, tag_of_sealed P hpreface] at htag
  have htrans := hinj (Set.mem_insert _ _)
    (Set.mem_insert_of_mem _ (Or.inl ⟨fr, hfr, rfl⟩)) htag
  exact frameTranscript_ne_aitMacInput fr.typed fr.blockSeq hdr ft htrans.symm

/-- **A VERIFIED TRAILER WAS WRITTEN**: if the tag it carries is one of the log
    then it is the tag of a trailer of the log, over this header and footer. -/
theorem written_of_verified (hactive : kr.active = true) (hpreface : kr.usePrefaceAad = true)
    {hdr : ArchiveHeader} {ft : Footer} {ait : Bytes}
    (hver : aitVerify P hdr ft ait (some kr) = .ok ())
    (hissued : ait ∈ log.tags P kr)
    (hinj : Set.InjOn (P.hmacSha256 kr.macKey)
      (insert (aitSerializeMacInput hdr ft) (log.transcripts P kr))) :
    ∃ tr ∈ log.trailers,
      serializeArchiveHeader tr.1 = serializeArchiveHeader hdr ∧ tr.2 = ft := by
  rcases hissued with ⟨fr, hfr, heq⟩ | ⟨tr, htr, heq⟩
  · exact absurd heq (frame_tag_not_verified P hactive hpreface hver hinj fr hfr)
  · have htag := (aitVerify_ok_iff P).mp hver
    rw [tag_of_trailer P hactive, heq, tag_of_trailer P hactive] at htag
    have htrans := hinj (Set.mem_insert _ _)
      (Set.mem_insert_of_mem _ (Or.inr ⟨tr, htr, rfl⟩)) htag
    obtain ⟨hhdr, hft⟩ := aitSerializeMacInput_injective htrans
    exact ⟨tr, htr, hhdr.symm, hft.symm⟩

/-- **PREFACE-MODE BINDING**: under an active keyring that binds prefaces, let
    a tag from the log be presented.  An accepted frame is one the writer
    sealed at that sequence, and its tag is no trailer's; a trailer that
    verifies is one the writer wrote, and its tag is no frame's.  Without
    required authentication `zupt_dedup_read_ref` accepts the plain
    eight-byte references and nothing else. -/
theorem preface_binds_frame (hactive : kr.active = true) (hpreface : kr.usePrefaceAad = true) :
    (∀ (b : Block) (seq : UInt64), b.blockType ∈ frameTypes →
      Accepted P C kr b seq → packageTag b.payload ∈ log.tags P kr →
      Set.InjOn (P.hmacSha256 kr.macKey)
        (insert (frameTranscript b seq) (log.transcripts P kr)) →
      (∃ fr ∈ log.frames, fr.block P kr = b ∧ fr.blockSeq = seq) ∧
        ∀ tr ∈ log.trailers, packageTag b.payload ≠ aitField P tr.1 tr.2 (some kr)) ∧
    (∀ (b : Block) (seq : UInt64), (∃ r, dedupReadRef P b kr false seq = .ok r) ↔
      b.blockType = blockDedupRef ∧ b.codecId = codecStore ∧ b.blockFlags = 0 ∧
        b.compressedSize = 8) ∧
    ∀ (hdr : ArchiveHeader) (ft : Footer) (ait : Bytes),
      aitVerify P hdr ft ait (some kr) = .ok () → ait ∈ log.tags P kr →
      Set.InjOn (P.hmacSha256 kr.macKey)
        (insert (aitSerializeMacInput hdr ft) (log.transcripts P kr)) →
      (∃ tr ∈ log.trailers,
        serializeArchiveHeader tr.1 = serializeArchiveHeader hdr ∧ tr.2 = ft) ∧
        ∀ fr ∈ log.frames, ait ≠ packageTag (fr.block P kr).payload := by
  refine ⟨?_, ?_, ?_⟩
  · intro b seq htype hok hissued hinj
    obtain ⟨plain, hdec⟩ := decrypted_of_accepted P C hactive hok
    exact ⟨sealed_of_decrypted P hactive hpreface htype hdec hissued hinj,
      trailer_tag_not_decrypted P hactive hpreface htype hdec hinj⟩
  · intro b seq
    exact dedupReadRef_plain_iff P
  · intro hdr ft ait hver hissued hinj
    exact ⟨written_of_verified P hactive hpreface hver hissued hinj,
      frame_tag_not_verified P hactive hpreface hver hinj⟩

/-! ## A small log -/

/-- An active keyring that binds prefaces. -/
def prefaceKeyring : Keyring := ⟨[0x21], [0x42], true, true⟩

/-- Codecs that never compress. -/
def storeOnly : Codecs where
  lzCompress _ _ _ := []
  lzDecompress _ _ := []
  lzhCompress _ _ _ := []
  lzhDecompress _ _ := []
  vvCompress _ _ _ := none
  vvDecompressFlags _ _ _ := none
  predictPays _ _ := false

/-- An empty stored frame at sequence 7. -/
def smallFrame : SealedFrame where
  blockType := blockData
  codecId := codecStore
  uncompressedSize := 0
  checksum := 0
  plain := []
  blockSeq := 7
  nonce := ⟨toyNonce, toyNonce_length⟩
  typed := by decide
  sized := by decide

/-- A header with nothing set. -/
def plainHeader : ArchiveHeader where
  versionMajor := formatMajor
  versionMinor := formatMinor
  globalFlags := 0
  creationTime := 0
  archiveId := List.replicate 16 0
  encryptionHeaderOff := 0
  commentOffset := 0
  reserved := List.replicate 12 0
  archiveId_length := zeroed_id_length
  reserved_length := zeroed_reserved_length

/-- One frame and one trailer. -/
def smallLog : SealLog := ⟨[smallFrame], [(plainHeader, ⟨64, 1, 0⟩)]⟩

/-- The frame as it stands in the archive. -/
def smallBlock : Block := smallFrame.block toyPrimitives prefaceKeyring

theorem smallLog_injOn : Set.InjOn (toyPrimitives.hmacSha256 prefaceKeyring.macKey)
    (insert (frameTranscript smallBlock 7)
      (smallLog.transcripts toyPrimitives prefaceKeyring)) := by
  have hsub : ∀ t ∈ insert (frameTranscript smallBlock 7)
      (smallLog.transcripts toyPrimitives prefaceKeyring),
      t = frameTranscript smallBlock 7 ∨ t = aitSerializeMacInput plainHeader ⟨64, 1, 0⟩ := by
    rintro t (rfl | ⟨fr, hfr, rfl⟩ | ⟨tr, htr, rfl⟩)
    · exact Or.inl rfl
    · rw [List.mem_singleton.mp hfr]
      exact Or.inl rfl
    · rw [List.mem_singleton.mp htr]
      exact Or.inr rfl
  -- the toy tag starts with the length of the transcript: 53 and 88
  have hne : toyPrimitives.hmacSha256 prefaceKeyring.macKey (frameTranscript smallBlock 7)
      ≠ toyPrimitives.hmacSha256 prefaceKeyring.macKey
        (aitSerializeMacInput plainHeader ⟨64, 1, 0⟩) := by
    decide
  intro x hx y hy hxy
  rcases hsub x hx with rfl | rfl <;> rcases hsub y hy with rfl | rfl
  · rfl
  · exact absurd hxy hne
  · exact absurd hxy.symm hne
  · rfl

/-- The frame of the small log is accepted, and it is found in the log. -/
theorem preface_binds_smallBlock :
    (∃ fr ∈ smallLog.frames, fr.block toyPrimitives prefaceKeyring = smallBlock ∧
        fr.blockSeq = 7) ∧
      ∀ tr ∈ smallLog.trailers, packageTag smallBlock.payload
        ≠ aitField toyPrimitives tr.1 tr.2 (some prefaceKeyring) :=
  (@preface_binds_frame toyPrimitives storeOnly prefaceKeyring smallLog rfl rfl).1 smallBlock 7
    (by decide) (Or.inl ⟨[], by decide⟩)
    (Or.inl ⟨smallFrame, List.mem_singleton.mpr rfl, rfl⟩) smallLog_injOn

/-- A reference in the clear. -/
def plainReference : Block where
  blockType := blockDedupRef
  codecId := codecStore
  blockFlags := 0
  uncompressedSize := 5
  compressedSize := 8
  checksum := 0
  payload := List.replicate 8 0
  payload_length := rfl

/-- A data frame in the clear. -/
def plainFrame : Block where
  blockType := blockData
  codecId := codecStore
  blockFlags := 0
  uncompressedSize := 0
  compressedSize := 0
  checksum := 0
  payload := []
  payload_length := rfl

/-- **NOT EVERY ACCEPTED FRAME WAS SEALED**: a reference read without required
    authentication, and any frame under a keyring that is not active. -/
theorem unsealed_frames_accepted :
    ((∃ r, dedupReadRef toyPrimitives plainReference prefaceKeyring false 7 = .ok r) ∧
      ∀ fr : SealedFrame, fr.block toyPrimitives prefaceKeyring ≠ plainReference) ∧
    (∃ out, decompressBlock toyPrimitives storeOnly plainFrame
        (some { prefaceKeyring with active := false }) 7 = .ok out) ∧
      ∀ fr : SealedFrame, fr.block toyPrimitives { prefaceKeyring with active := false }
        ≠ plainFrame := by
  refine ⟨⟨⟨_, rfl⟩, ?_⟩, ⟨[], by decide⟩, ?_⟩
  · intro fr h
    have hflags : bflagEncrypted = 0 := congrArg Block.blockFlags h
    exact absurd hflags (by decide)
  · intro fr h
    have hflags : bflagEncrypted = 0 := congrArg Block.blockFlags h
    exact absurd hflags (by decide)

end Zupt.Authentication
