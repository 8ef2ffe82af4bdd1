import Zupt.Authentication
import Zupt.Open

/-! # Header, footer and trailer agree

    The serialisers of the header and of the footer over every value of their
    structures, also of fields that a reader would refuse, and what a reader makes
    of a file that ends in a footer and its trailer. -/

namespace Zupt.Trailer

open Zupt.LittleEndian Zupt.Stream Zupt.Seal Zupt.Open

/-! ## Every header and every footer -/

/-- `zupt_archive_header_t`. -/
@[ext]
structure RawHeader where
  magic : Bytes
  versionMajor : UInt8
  versionMinor : UInt8
  globalFlags : UInt32
  creationTime : UInt64
  archiveId : Bytes
  encryptionHeaderOff : UInt64
  commentOffset : UInt64
  reserved : Bytes
  magic_length : magic.length = 6
  archiveId_length : archiveId.length = 16
  reserved_length : reserved.length = 12

/-- `zupt_footer_t`. -/
@[ext]
structure RawFooter where
  indexOffset : UInt64
  totalBlocks : UInt64
  archiveChecksum : UInt64
  footerMagic : Bytes
  footerVersion : UInt32
  footerMagic_length : footerMagic.length = 4

/-- `zupt_serialize_archive_header`. -/
def RawHeader.serialize (h : RawHeader) : Bytes :=
  h.magic ++ ([h.versionMajor] ++ ([h.versionMinor] ++ (le32Put h.globalFlags
    ++ (le64Put h.creationTime ++ (h.archiveId ++ (le64Put h.encryptionHeaderOff
    ++ (le64Put h.commentOffset ++ h.reserved)))))))

/-- `zupt_serialize_footer`. -/
def RawFooter.serialize (ft : RawFooter) : Bytes :=
  le64Put ft.indexOffset ++ (le64Put ft.totalBlocks ++ (le64Put ft.archiveChecksum
    ++ (ft.footerMagic ++ le32Put ft.footerVersion)))

@[simp] theorem RawHeader.serialize_length (h : RawHeader) : h.serialize.length = archiveHeaderSize := by
  simp only [RawHeader.serialize, List.length_append, List.length_cons, List.length_nil,
    le32Put_length, le64Put_length, h.magic_length, h.archiveId_length, h.reserved_length,
    archiveHeaderSize]

@[simp] theorem RawFooter.serialize_length (ft : RawFooter) : ft.serialize.length = footerSize := by
  simp only [RawFooter.serialize, List.length_append, le32Put_length, le64Put_length,
    ft.footerMagic_length, footerSize]

theorem magic_width (b : {b : Bytes // b.length = archiveHeaderSize}) : (b.val.take 6).length = 6 := by
  rw [List.length_take, b.property]
  rfl

theorem archiveId_width (b : {b : Bytes // b.length = archiveHeaderSize}) :
    ((b.val.drop 20).take 16).length = 16 := by
  rw [List.length_take, List.length_drop, b.property]
  rfl

theorem reserved_width (b : {b : Bytes // b.length = archiveHeaderSize}) :
    (b.val.drop 52).length = 12 := by
  rw [List.length_drop, b.property]
  rfl

theorem footerMagic_width (b : {b : Bytes // b.length = footerSize}) :
    ((b.val.drop 24).take 4).length = 4 := by
  rw [List.length_take, List.length_drop, b.property]
  rfl

/-- `deserialize_archive_header`. -/
def RawHeader.deserialize (b : {b : Bytes // b.length = archiveHeaderSize}) : RawHeader where
  magic := b.val.take 6
  versionMajor := charAt b.val 6
  versionMinor := charAt b.val 7
  globalFlags := le32Get (b.val.drop 8)
  creationTime := le64Get (b.val.drop 12)
  archiveId := (b.val.drop 20).take 16
  encryptionHeaderOff := le64Get (b.val.drop 36)
  commentOffset := le64Get (b.val.drop 44)
  reserved := b.val.drop 52
  magic_length := magic_width b
  archiveId_length := archiveId_width b
  reserved_length := reserved_width b

/-- `deserialize_footer`. -/
def RawFooter.deserialize (b : {b : Bytes // b.length = footerSize}) : RawFooter where
  indexOffset := le64Get b.val
  totalBlocks := le64Get (b.val.drop 8)
  archiveChecksum := le64Get (b.val.drop 16)
  footerMagic := (b.val.drop 24).take 4
  footerVersion := le32Get (b.val.drop 28)
  footerMagic_length := footerMagic_width b

/-! ## Round trips -/

/-- **EVERY HEADER** comes back from its 64 bytes. -/
theorem RawHeader.deserialize_serialize (h : RawHeader) :
    RawHeader.deserialize ⟨h.serialize, h.serialize_length⟩ = h := by
  have h0 : h.serialize.drop 0 = h.magic ++ _ := rfl
  have h6 := drop_field h0 (n := 6) h.magic_length rfl
  have h7 := drop_field h6 (m := 1) (n := 7) rfl rfl
  have h8 := drop_field h7 (m := 1) (n := 8) rfl rfl
  have h12 := drop_field h8 (n := 12) (le32Put_length _) rfl
  have h20 := drop_field h12 (n := 20) (le64Put_length _) rfl
  have h36 := drop_field h20 (n := 36) h.archiveId_length rfl
  have h44 := drop_field h36 (n := 44) (le64Put_length _) rfl
  have h52 := drop_field h44 (n := 52) (le64Put_length _) rfl
  have hchar : ∀ {b rest : Bytes} {x : UInt8} {k : Nat}, b.drop k = x :: rest → charAt b k = x := by
    intro b rest x k hdrop
    rw [charAt, List.getD_eq_getElem?_getD, ← List.head?_drop, hdrop]
    rfl
  refine RawHeader.ext (List.take_left' h.magic_length) (hchar h6) (hchar h7) ?_ ?_ ?_ ?_ ?_ h52
  · show le32Get (h.serialize.drop 8) = _
    rw [h8, le32Get_le32Put]
  · show le64Get (h.serialize.drop 12) = _
    rw [h12, le64Get_le64Put]
  · show (h.serialize.drop 20).take 16 = _
    rw [h20, List.take_left' h.archiveId_length]
  · show le64Get (h.serialize.drop 36) = _
    rw [h36, le64Get_le64Put]
  · show le64Get (h.serialize.drop 44) = _
    rw [h44, le64Get_le64Put]

/-- **EVERY FOOTER** comes back from its 32 bytes. -/
theorem RawFooter.deserialize_serialize (ft : RawFooter) :
    RawFooter.deserialize ⟨ft.serialize, ft.serialize_length⟩ = ft := by
  have h0 : ft.serialize.drop 0 = le64Put ft.indexOffset ++ _ := rfl
  have h8 := drop_field h0 (n := 8) (le64Put_length _) rfl
  have h16 := drop_field h8 (n := 16) (le64Put_length _) rfl
  have h24 := drop_field h16 (n := 24) (le64Put_length _) rfl
  have h28 := drop_field h24 (n := 28) ft.footerMagic_length rfl
  refine RawFooter.ext (le64Get_le64Put _ _) ?_ ?_ ?_ ?_
  · show le64Get (ft.serialize.drop 8) = _
    rw [h8, le64Get_le64Put]
  · show le64Get (ft.serialize.drop 16) = _
    rw [h16, le64Get_le64Put]
  · show (ft.serialize.drop 24).take 4 = _
    rw [h24, List.take_left' ft.footerMagic_length]
  · show le32Get (ft.serialize.drop 28) = _
    rw [h28, ← List.append_nil (le32Put _), le32Get_le32Put]

/-- A field of a fixed width and what is behind it. -/
theorem take_field {b : Bytes} {k m n : Nat} (hn : n = k + m) :
    b.drop k = (b.drop k).take m ++ b.drop n := by
  rw [hn, ← List.drop_drop, List.take_append_drop]

theorem le64_field {b : Bytes} {k n : Nat} (hn : n = k + 8) (hlen : n ≤ b.length) :
    b.drop k = le64Put (le64Get (b.drop k)) ++ b.drop n := by
  have hroom : 8 ≤ (b.drop k).length := by
    rw [List.length_drop]
    omega
  rw [le64Put_le64Get hroom]
  exact take_field hn

theorem le32_field {b : Bytes} {k n : Nat} (hn : n = k + 4) (hlen : n ≤ b.length) :
    b.drop k = le32Put (le32Get (b.drop k)) ++ b.drop n := by
  have hwidth : ((b.drop k).take 4).length = 4 := by
    rw [List.length_take, List.length_drop]
    omega
  have hlt := leGet_lt ((b.drop k).take 4)
  have hput := lePut_leGet ((b.drop k).take 4)
  rw [hwidth] at hlt hput
  have hsame : le32Put (le32Get (b.drop k)) = (b.drop k).take 4 := by
    rw [le32Put, le32Get, UInt32.toNat_ofNat_of_lt' hlt, hput]
  rw [hsame]
  exact take_field hn

theorem byte_field {b : Bytes} {k n : Nat} (hn : n = k + 1) (hlen : n ≤ b.length) :
    b.drop k = [charAt b k] ++ b.drop n := by
  have hk : k < b.length := by omega
  rw [hn, List.drop_eq_getElem_cons hk, charAt, List.getD_eq_getElem _ _ hk]
  rfl

/-- **ALL 64 BYTES** come back from the header they are read as. -/
theorem RawHeader.serialize_deserialize (b : {b : Bytes // b.length = archiveHeaderSize}) :
    (RawHeader.deserialize b).serialize = b.val := by
  obtain ⟨b, hlen⟩ := b
  rw [archiveHeaderSize] at hlen
  have h6 := byte_field (b := b) (k := 6) (n := 7) rfl (by omega)
  have h7 := byte_field (b := b) (k := 7) (n := 8) rfl (by omega)
  have h8 := le32_field (b := b) (k := 8) (n := 12) rfl (by omega)
  have h12 := le64_field (b := b) (k := 12) (n := 20) rfl (by omega)
  have h20 := take_field (b := b) (k := 20) (m := 16) (n := 36) rfl
  have h36 := le64_field (b := b) (k := 36) (n := 44) rfl (by omega)
  have h44 := le64_field (b := b) (k := 44) (n := 52) rfl (by omega)
  rw [RawHeader.serialize]
  show b.take 6 ++ ([charAt b 6] ++ ([charAt b 7] ++ (le32Put (le32Get (b.drop 8))
    ++ (le64Put (le64Get (b.drop 12)) ++ ((b.drop 20).take 16 ++ (le64Put (le64Get (b.drop 36))
    ++ (le64Put (le64Get (b.drop 44)) ++ b.drop 52))))))) = b
  rw [← h44, ← h36, ← h20, ← h12, ← h8, ← h7, ← h6, List.take_append_drop]

/-- **ALL 32 BYTES** come back from the footer they are read as. -/
theorem RawFooter.serialize_deserialize (b : {b : Bytes // b.length = footerSize}) :
    (RawFooter.deserialize b).serialize = b.val := by
  obtain ⟨b, hlen⟩ := b
  rw [footerSize] at hlen
  have h0 := le64_field (b := b) (k := 0) (n := 8) rfl (by omega)
  have h8 := le64_field (b := b) (k := 8) (n := 16) rfl (by omega)
  have h16 := le64_field (b := b) (k := 16) (n := 24) rfl (by omega)
  have h24 := take_field (b := b) (k := 24) (m := 4) (n := 28) rfl
  have h28 := le32_field (b := b) (k := 28) (n := 32) rfl (by omega)
  have hend : b.drop 32 = [] := List.drop_eq_nil_of_le (by omega)
  rw [hend, List.append_nil] at h28
  rw [List.drop_zero] at h0
  rw [RawFooter.serialize]
  show le64Put (le64Get b) ++ (le64Put (le64Get (b.drop 8)) ++ (le64Put (le64Get (b.drop 16))
    ++ ((b.drop 24).take 4 ++ le32Put (le32Get (b.drop 28))))) = b
  rw [← h28, ← h24, ← h16, ← h8, ← h0]

/-! ## What readers and writers make of them -/

/-- The header of an archive, with the magic that writers supply. -/
def ArchiveHeader.raw (h : ArchiveHeader) : RawHeader where
  magic := archiveMagic
  versionMajor := h.versionMajor
  versionMinor := h.versionMinor
  globalFlags := h.globalFlags
  creationTime := h.creationTime
  archiveId := h.archiveId
  encryptionHeaderOff := h.encryptionHeaderOff
  commentOffset := h.commentOffset
  reserved := h.reserved
  magic_length := rfl
  archiveId_length := h.archiveId_length
  reserved_length := h.reserved_length

/-- The footer of an archive, with the magic and the version that writers supply. -/
def Footer.raw (ft : Footer) : RawFooter where
  indexOffset := ft.indexOffset
  totalBlocks := ft.totalBlocks
  archiveChecksum := ft.archiveChecksum
  footerMagic := Trailer.footerMagic
  footerVersion := 1
  footerMagic_length := rfl

theorem serializeArchiveHeader_eq (h : ArchiveHeader) : serializeArchiveHeader h = h.raw.serialize := rfl

theorem serializeFooter_eq (ft : Footer) : serializeFooter ft = ft.raw.serialize := rfl

/-- The three numbers of a footer. -/
def RawFooter.numbers (ft : RawFooter) : Footer := ⟨ft.indexOffset, ft.totalBlocks, ft.archiveChecksum⟩

/-- `memcmp(footer_magic, "ZEND", 4) == 0 && footer_version == 1`. -/
def RawFooter.Valid (ft : RawFooter) : Prop := ft.footerMagic = Trailer.footerMagic ∧ ft.footerVersion = 1

theorem RawFooter.Valid.raw_numbers {ft : RawFooter} (h : ft.Valid) : ft.numbers.raw = ft :=
  RawFooter.ext rfl rfl rfl h.1.symm h.2.symm

variable (P : Primitives)

/-- `ait_serialize_mac_input`. -/
def macInput (hdr : RawHeader) (ft : RawFooter) : Bytes := hdr.serialize ++ ft.serialize.take 24

/-- What `zupt_format_ait_write` emits. -/
def aitWrite (hdr : RawHeader) (ft : RawFooter) (kr : Option Keyring) : Bytes :=
  match kr with
  | some kr =>
      if kr.active then P.hmacSha256 kr.macKey (macInput hdr ft)
      else le64Put (Transform.xxh64 (macInput hdr ft) 0) ++ List.replicate 24 0
  | none => le64Put (Transform.xxh64 (macInput hdr ft) 0) ++ List.replicate 24 0

/-- `ait_verify`. -/
def aitVerifyRaw (hdr : RawHeader) (ft : RawFooter) (ait : Bytes) (kr : Option Keyring) : Result Unit :=
  if aitWrite P hdr ft kr = ait then .ok ()
  else if Decode.keyringActive kr then .error .authFail
  else .error .badChecksum

theorem aitWrite_length (hdr : RawHeader) (ft : RawFooter) (kr : Option Keyring) :
    (aitWrite P hdr ft kr).length = aitSize := by
  have hplain : (le64Put (Transform.xxh64 (macInput hdr ft) 0) ++ List.replicate 24 0).length = aitSize := by
    rw [List.length_append, le64Put_length, List.length_replicate]
    rfl
  cases kr with
  | none => exact hplain
  | some kr =>
      rw [aitWrite]
      split
      · exact P.hmac_length _ _
      · exact hplain

/-- The trailer of an archive is the one of its header and footer. -/
theorem aitVerify_eq (hdr : ArchiveHeader) (ft : Footer) (ait : Bytes) (kr : Option Keyring) :
    aitVerify P hdr ft ait kr = aitVerifyRaw P hdr.raw ft.raw ait kr := rfl

/-- **TWO TRANSCRIPTS ARE TWO**: header and footer can be read off the input of the
    MAC. -/
theorem macInput_injective {hdr hdr' : RawHeader} {ft ft' : RawFooter}
    (h : macInput hdr ft = macInput hdr' ft') :
    hdr = hdr' ∧ ft.serialize.take 24 = ft'.serialize.take 24 := by
  obtain ⟨hhdr, hft⟩ := List.append_inj h (by
    rw [RawHeader.serialize_length, RawHeader.serialize_length])
  refine ⟨?_, hft⟩
  rw [← hdr.deserialize_serialize, ← hdr'.deserialize_serialize]
  exact congrArg RawHeader.deserialize (Subtype.ext hhdr)

/-- **LOCATED**: a file that ends in a footer and any 32 bytes is one with a
    trailer. -/
theorem locate_footer {body ait : Bytes} {ft : RawFooter} (hft : ft.Valid) (hait : ait.length = aitSize) :
    locateFooterV15 (body ++ (ft.serialize ++ ait)) = .ok ⟨ft.numbers, some ait⟩ := by
  have hlen : (body ++ (ft.serialize ++ ait)).length = body.length + (footerSize + aitSize) := by
    rw [List.length_append, List.length_append, RawFooter.serialize_length, hait]
  have hfront : (body ++ (ft.serialize ++ ait)).drop
      ((body ++ (ft.serialize ++ ait)).length - (footerSize + aitSize)) = ft.serialize ++ ait := by
    rw [hlen, Nat.add_sub_cancel, List.drop_left]
  have hcand : (ft.serialize ++ ait).take footerSize = ft.serialize := List.take_left' ft.serialize_length
  have hlast : (body ++ (ft.serialize ++ ait)).drop
      ((body ++ (ft.serialize ++ ait)).length - aitSize) = ait := by
    rw [← List.append_assoc]
    refine List.drop_left' ?_
    simp only [List.length_append, hait, Nat.add_sub_cancel]
  have h0 : ft.serialize.drop 0 = le64Put ft.indexOffset ++ _ := rfl
  have h8 := drop_field h0 (n := 8) (le64Put_length _) rfl
  have h16 := drop_field h8 (n := 16) (le64Put_length _) rfl
  have h24 := drop_field h16 (n := 24) (le64Put_length _) rfl
  have h28 := drop_field h24 (n := 28) ft.footerMagic_length rfl
  have hmagic : (ft.serialize.drop 24).take 4 = footerMagic := by
    rw [h24, List.take_left' ft.footerMagic_length, hft.1]
  have hversion : le32Get (ft.serialize.drop 28) = 1 := by
    rw [h28, ← List.append_nil (le32Put _), le32Get_le32Put, hft.2]
  have hread : deserializeFooter ft.serialize = ft.numbers := by
    rw [deserializeFooter, h8, h16, le64Get_le64Put, le64Get_le64Put]
    exact Footer.ext (le64Get_le64Put _ _) rfl rfl
  rw [locateFooterV15, if_neg (by rw [hlen]; omega)]
  dsimp only
  rw [hfront, hcand, if_pos ⟨by rw [hlen]; omega, hmagic, hversion⟩, hread, hlast]

/-- **NO TRAILER, NO ARCHIVE**, unless the reader asks for the legacy layout. -/
theorem openArchive_no_trailer (C : Decode.Codecs) {opts : ReaderOptions}
    (hlegacy : opts.allowLegacyNoAit = false) {f : Bytes} {ft : Footer}
    (hlocated : locateFooterV15 f = .ok ⟨ft, none⟩) (pos : Nat) (opened : Opened) (pos' : Nat) :
    (openArchive P C opts).run f pos ≠ (.ok opened, pos') := by
  intro h
  rw [openArchive] at h
  obtain ⟨hdr, mid, -, h⟩ := ReadM.bind_ok h
  obtain ⟨located, mid', hloc, h⟩ := ReadM.bind_ok h
  obtain ⟨hsame, -⟩ := Prod.mk.inj hloc
  rw [hlocated] at hsame
  obtain rfl := Except.ok.inj hsame
  obtain ⟨_, _, hrequire, _⟩ := ReadM.bind_ok h
  rcases ReadM.of_require hrequire with hsome | hallow
  · exact Bool.false_ne_true hsome
  · rw [hlegacy] at hallow
    exact Bool.false_ne_true hallow

/-- **HEADER, FOOTER AND TRAILER AGREE**. -/
theorem trailer_agreement (C : Decode.Codecs) :
    (∀ h : RawHeader, RawHeader.deserialize ⟨h.serialize, h.serialize_length⟩ = h) ∧
    (∀ b, (RawHeader.deserialize b).serialize = b.val) ∧
    (∀ ft : RawFooter, RawFooter.deserialize ⟨ft.serialize, ft.serialize_length⟩ = ft) ∧
    (∀ b, (RawFooter.deserialize b).serialize = b.val) ∧
    (∀ (hdr : RawHeader) (ft : RawFooter) (body : Bytes) (kr : Option Keyring), ft.Valid →
      locateFooterV15 (body ++ (ft.serialize ++ aitWrite P hdr ft kr)) =
          .ok ⟨ft.numbers, some (aitWrite P hdr ft kr)⟩ ∧
        ft.numbers.raw = ft ∧ aitVerifyRaw P hdr ft (aitWrite P hdr ft kr) kr = .ok ()) ∧
    (∀ (hdr hdr' : RawHeader) (ft ft' : RawFooter), macInput hdr ft = macInput hdr' ft' →
      hdr.serialize = hdr'.serialize ∧ ft.serialize.take 24 = ft'.serialize.take 24) ∧
    ∀ (opts : ReaderOptions) (f : Bytes) (ft : Footer), opts.allowLegacyNoAit = false →
      locateFooterV15 f = .ok ⟨ft, none⟩ →
      ∀ pos opened pos', (openArchive P C opts).run f pos ≠ (.ok opened, pos') := by
  refine ⟨RawHeader.deserialize_serialize, RawHeader.serialize_deserialize,
    RawFooter.deserialize_serialize, RawFooter.serialize_deserialize, ?_, ?_, ?_⟩
  · intro hdr ft body kr hft
    exact ⟨locate_footer hft (aitWrite_length P hdr ft kr), hft.raw_numbers, if_pos rfl⟩
  · intro hdr hdr' ft ft' h
    obtain ⟨rfl, hft⟩ := macInput_injective h
    exact ⟨rfl, hft⟩
  · intro opts f ft hlegacy hlocated pos opened pos'
    exact openArchive_no_trailer P C hlegacy hlocated pos opened pos'

/-- A header of zeros, without a magic. -/
def zeroHeader : RawHeader where
  magic := List.replicate 6 0
  versionMajor := 0
  versionMinor := 0
  globalFlags := 0
  creationTime := 0
  archiveId := List.replicate 16 0
  encryptionHeaderOff := 0
  commentOffset := 0
  reserved := List.replicate 12 0
  magic_length := rfl
  archiveId_length := rfl
  reserved_length := rfl

/-- Reading with a key, and never without a trailer. -/
def strictOptions : ReaderOptions where
  keyring := Authentication.prefaceKeyring
  allowLegacyNoAit := false
  threads := 1
  maxOutputSize := 0
  openEnvelope _ := .error .authFail

/-- Three bytes, a footer and its trailer are located; a footer alone is opened nowhere. -/
theorem trailer_agreement_run :
    locateFooterV15 ([1, 2, 3] ++ ((Footer.raw ⟨0, 0, 0⟩).serialize ++
        aitWrite toyPrimitives zeroHeader (Footer.raw ⟨0, 0, 0⟩) (some Authentication.prefaceKeyring))) =
      .ok ⟨⟨0, 0, 0⟩, some (aitWrite toyPrimitives zeroHeader (Footer.raw ⟨0, 0, 0⟩)
        (some Authentication.prefaceKeyring))⟩ ∧
    ∀ pos opened pos', (openArchive toyPrimitives Authentication.storeOnly strictOptions).run
      (serializeFooter ⟨0, 0, 0⟩) pos ≠ (.ok opened, pos') := by
  obtain ⟨-, -, -, -, hlocate, -, hopen⟩ := trailer_agreement toyPrimitives Authentication.storeOnly
  constructor
  · exact (hlocate zeroHeader (Footer.raw ⟨0, 0, 0⟩) [1, 2, 3] (some Authentication.prefaceKeyring) ⟨rfl, rfl⟩).1
  · exact hopen strictOptions (serializeFooter ⟨0, 0, 0⟩) ⟨0, 0, 0⟩ rfl (by decide)

end Zupt.Trailer
