import Zupt.Decode

/-! # Header, footer and integrity trailer

    The 64 bytes an archive starts with, the 32 bytes of its footer, and the
    32-byte trailer behind the footer that authenticates both: HMAC-SHA256
    over `header[0..63] ‖ footer[0..23]` under the key of the archive, or
    XXH64 over the same bytes where there is no key. -/

namespace Zupt.Trailer

open Zupt.LittleEndian Zupt.Stream Zupt.Seal Zupt.Frame Zupt.Transform

/-- `ZUPT_ARCHIVE_HEADER_SIZE`. -/
def archiveHeaderSize : Nat := 64

/-- `ZUPT_FOOTER_SIZE`. -/
def footerSize : Nat := 32

/-- `ZUPT_AIT_SIZE`. -/
def aitSize : Nat := 32

/-- `ZUPT_MAGIC_0` to `ZUPT_MAGIC_5`. -/
def archiveMagic : Bytes := [0x5A, 0x55, 0x50, 0x54, 0x1A, 0x00]

/-- `"ZEND"`. -/
def footerMagic : Bytes := [0x5A, 0x45, 0x4E, 0x44]

/-- `ZUPT_FORMAT_MAJOR`. -/
def formatMajor : UInt8 := 1

/-- `ZUPT_FORMAT_MINOR`. -/
def formatMinor : UInt8 := 6

/-- `zupt_archive_header_t` without its magic, which readers require and
    writers supply. -/
@[ext]
structure ArchiveHeader where
  versionMajor : UInt8
  versionMinor : UInt8
  globalFlags : UInt32
  creationTime : UInt64
  archiveId : Bytes
  encryptionHeaderOff : UInt64
  commentOffset : UInt64
  reserved : Bytes
  archiveId_length : archiveId.length = 16
  reserved_length : reserved.length = 12
  deriving DecidableEq

theorem zeroed_reserved_length : (List.replicate 12 (0 : UInt8)).length = 12 := rfl

theorem zeroed_id_length : (List.replicate 16 (0 : UInt8)).length = 16 := rfl

/-- `zupt_footer_t` without its magic and its version, which readers require
    and writers supply. -/
@[ext]
structure Footer where
  indexOffset : UInt64
  totalBlocks : UInt64
  archiveChecksum : UInt64
  deriving DecidableEq

/-- `zupt_serialize_archive_header`. -/
def serializeArchiveHeader (h : ArchiveHeader) : Bytes :=
  archiveMagic ++ ([h.versionMajor] ++ ([h.versionMinor] ++ (le32Put h.globalFlags
    ++ (le64Put h.creationTime ++ (h.archiveId ++ (le64Put h.encryptionHeaderOff
    ++ (le64Put h.commentOffset ++ h.reserved)))))))

/-- `zupt_serialize_footer`. -/
def serializeFooter (ft : Footer) : Bytes :=
  le64Put ft.indexOffset ++ (le64Put ft.totalBlocks ++ (le64Put ft.archiveChecksum
    ++ (footerMagic ++ le32Put 1)))

@[simp] theorem serializeArchiveHeader_length (h : ArchiveHeader) :
    (serializeArchiveHeader h).length = archiveHeaderSize := by
  simp only [serializeArchiveHeader, archiveMagic, List.length_append, List.length_cons,
    List.length_nil, le32Put_length, le64Put_length, h.archiveId_length, h.reserved_length,
    archiveHeaderSize]

@[simp] theorem serializeFooter_length (ft : Footer) :
    (serializeFooter ft).length = footerSize := by
  simp only [serializeFooter, footerMagic, List.length_append, List.length_cons,
    List.length_nil, le32Put_length, le64Put_length, footerSize]

/-- `deserialize_archive_header` and the checks of `read_header`. -/
def deserializeArchiveHeader (b : {b : Bytes // b.length = archiveHeaderSize}) :
    Result ArchiveHeader :=
  if b.val.take 6 ≠ archiveMagic then .error .badMagic
  else if charAt b.val 6 ≠ formatMajor then .error .badVersion
  else .ok {
    versionMajor := charAt b.val 6
    versionMinor := charAt b.val 7
    globalFlags := le32Get (b.val.drop 8)
    creationTime := le64Get (b.val.drop 12)
    archiveId := (b.val.drop 20).take 16
    encryptionHeaderOff := le64Get (b.val.drop 36)
    commentOffset := le64Get (b.val.drop 44)
    reserved := b.val.drop 52
    archiveId_length := by
      rw [List.length_take, List.length_drop, b.property]
      rfl
    reserved_length := by
      rw [List.length_drop, b.property]
      rfl }

/-- `read_header`. -/
def readHeader : ReadM ArchiveHeader := do
  let b ← fread archiveHeaderSize
  match deserializeArchiveHeader b with
  | .error e => ReadM.fail e
  | .ok h => return h

/-- `deserialize_footer`, where the magic and the version are right. -/
def deserializeFooter (b : Bytes) : Footer where
  indexOffset := le64Get b
  totalBlocks := le64Get (b.drop 8)
  archiveChecksum := le64Get (b.drop 16)

/-- What a footer found in the file comes with: the trailer behind it, unless
    the layout is the legacy one. -/
structure Located where
  footer : Footer
  ait : Option Bytes
  deriving DecidableEq

/-- `locate_footer_v15`: a footer in front of a trailer at the end of the
    file, or else a footer at the end of the file. -/
def locateFooterV15 (f : Bytes) : Result Located :=
  if f.length < footerSize then .error .corrupt
  else
    let cand := (f.drop (f.length - (footerSize + aitSize))).take footerSize
    if f.length ≥ footerSize + aitSize ∧ (cand.drop 24).take 4 = footerMagic ∧
        le32Get (cand.drop 28) = 1 then
      .ok ⟨deserializeFooter cand, some (f.drop (f.length - aitSize))⟩
    else
      let last := f.drop (f.length - footerSize)
      if (last.drop 24).take 4 ≠ footerMagic then .error .corrupt
      else if le32Get (last.drop 28) ≠ 1 then .error .badVersion
      else .ok ⟨deserializeFooter last, none⟩

/-! ## Reading back -/

/-- A fixed-width field is skipped by its width. -/
theorem drop_field {a b c : Bytes} {k m n : Nat} (h : c.drop k = a ++ b) (hm : a.length = m)
    (hn : n = k + m) : c.drop n = b := by
  rw [hn, ← List.drop_drop, h, List.drop_left' hm]

/-- **HEADER ROUND TRIP**. -/
theorem deserialize_serialize_header (h : ArchiveHeader) (hmajor : h.versionMajor = formatMajor) :
    deserializeArchiveHeader ⟨serializeArchiveHeader h, serializeArchiveHeader_length h⟩
      = .ok h := by
  have h0 : (serializeArchiveHeader h).drop 0 = archiveMagic ++ _ := rfl
  have h6 := drop_field h0 (m := 6) (n := 6) rfl rfl
  have h7 := drop_field h6 (m := 1) (n := 7) rfl rfl
  have h8 := drop_field h7 (m := 1) (n := 8) rfl rfl
  have h12 := drop_field h8 (n := 12) (le32Put_length _) rfl
  have h20 := drop_field h12 (n := 20) (le64Put_length _) rfl
  have h36 := drop_field h20 (n := 36) h.archiveId_length rfl
  have h44 := drop_field h36 (n := 44) (le64Put_length _) rfl
  have h52 := drop_field h44 (n := 52) (le64Put_length _) rfl
  have c6 : charAt (serializeArchiveHeader h) 6 = h.versionMajor := rfl
  have c7 : charAt (serializeArchiveHeader h) 7 = h.versionMinor := rfl
  have hid : ((serializeArchiveHeader h).drop 20).take 16 = h.archiveId := by
    rw [h20, List.take_left' h.archiveId_length]
  have hmagic : (serializeArchiveHeader h).take 6 = archiveMagic := rfl
  rw [deserializeArchiveHeader, if_neg (not_not.mpr hmagic),
    if_neg (not_not.mpr (c6.trans hmajor))]
  refine congrArg Except.ok (ArchiveHeader.ext c6 c7 ?_ ?_ hid ?_ ?_ h52)
  · show le32Get ((serializeArchiveHeader h).drop 8) = _
    rw [h8, le32Get_le32Put]
  · show le64Get ((serializeArchiveHeader h).drop 12) = _
    rw [h12, le64Get_le64Put]
  · show le64Get ((serializeArchiveHeader h).drop 36) = _
    rw [h36, le64Get_le64Put]
  · show le64Get ((serializeArchiveHeader h).drop 44) = _
    rw [h44, le64Get_le64Put]

/-- **FOOTER ROUND TRIP**. -/
theorem deserialize_serialize_footer (ft : Footer) (rest : Bytes) :
    deserializeFooter (serializeFooter ft ++ rest) = ft := by
  have h0 : (serializeFooter ft ++ rest).drop 0 = le64Put ft.indexOffset ++ _ :=
    List.append_assoc _ _ _
  have h8 := drop_field h0 (n := 8) (le64Put_length _) rfl
  rw [List.append_assoc] at h8
  have h16 := drop_field h8 (n := 16) (le64Put_length _) rfl
  rw [List.append_assoc] at h16
  rw [List.drop_zero] at h0
  rw [deserializeFooter, h8, h16, h0, le64Get_le64Put, le64Get_le64Put, le64Get_le64Put]

/-! ## The trailer -/

variable (P : Primitives)

/-- `ait_serialize_mac_input`. -/
def aitSerializeMacInput (hdr : ArchiveHeader) (ft : Footer) : Bytes :=
  serializeArchiveHeader hdr ++ (serializeFooter ft).take 24

/-- What `zupt_format_ait_write` emits, and `ait_verify` expects. -/
def aitField (hdr : ArchiveHeader) (ft : Footer) (kr : Option Keyring) : Bytes :=
  match kr with
  | some kr =>
      if kr.active then P.hmacSha256 kr.macKey (aitSerializeMacInput hdr ft)
      else le64Put (xxh64 (aitSerializeMacInput hdr ft) 0) ++ List.replicate 24 0
  | none => le64Put (xxh64 (aitSerializeMacInput hdr ft) 0) ++ List.replicate 24 0

/-- `ait_verify`. -/
def aitVerify (hdr : ArchiveHeader) (ft : Footer) (ait : Bytes) (kr : Option Keyring) :
    Result Unit :=
  if aitField P hdr ft kr = ait then .ok ()
  else if Decode.keyringActive kr then .error .authFail
  else .error .badChecksum

/-- **THE TRAILER IS EXACT**: it verifies when it is the one the writer emits. -/
theorem aitVerify_ok_iff {hdr : ArchiveHeader} {ft : Footer} {ait : Bytes}
    {kr : Option Keyring} : aitVerify P hdr ft ait kr = .ok () ↔ aitField P hdr ft kr = ait := by
  rw [aitVerify]
  constructor
  · intro h
    by_cases heq : aitField P hdr ft kr = ait
    · exact heq
    · rw [if_neg heq] at h
      split at h <;> exact nomatch h
  · intro h
    rw [if_pos h]

/-- The three numbers of the footer are all in its first 24 bytes. -/
theorem footer_take (ft : Footer) : (serializeFooter ft).take 24
    = le64Put ft.indexOffset ++ (le64Put ft.totalBlocks ++ le64Put ft.archiveChecksum) := by
  have hsplit : serializeFooter ft
      = (le64Put ft.indexOffset ++ (le64Put ft.totalBlocks ++ le64Put ft.archiveChecksum))
        ++ (footerMagic ++ le32Put 1) := by
    simp only [serializeFooter, List.append_assoc]
  rw [hsplit, List.take_left' (by simp)]

/-- **The transcript determines header and footer.** -/
theorem aitSerializeMacInput_injective {hdr hdr' : ArchiveHeader} {ft ft' : Footer}
    (h : aitSerializeMacInput hdr ft = aitSerializeMacInput hdr' ft') :
    serializeArchiveHeader hdr = serializeArchiveHeader hdr' ∧ ft = ft' := by
  rw [aitSerializeMacInput, aitSerializeMacInput, footer_take, footer_take] at h
  obtain ⟨hhdr, h⟩ := List.append_inj h (by simp)
  obtain ⟨hindex, h⟩ := List.append_inj h (by simp)
  obtain ⟨htotal, hck⟩ := List.append_inj h (by simp)
  exact ⟨hhdr, Footer.ext (le64Put_injective hindex) (le64Put_injective htotal)
    (le64Put_injective hck)⟩

/-- A trailer transcript starts with the archive magic. -/
theorem aitSerializeMacInput_head (hdr : ArchiveHeader) (ft : Footer) :
    (aitSerializeMacInput hdr ft).head? = some 0x5A := rfl

end Zupt.Trailer
