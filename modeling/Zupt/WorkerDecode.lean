import Zupt.Decode
import Zupt.Authentication
import Zupt.VaptVupt.Checksum

/-! # The two block decoders

    `decompress_block` and `worker_decompress` are two copies of one decoder,
    which part in two places: only the first limits the compressed size of a
    frame to `ZUPT_MAX_BLOCK_SZ + 1024`, where `read_block` admits 4096 more
    than the block size, and only the second compares the checksums inside a
    VaptVupt payload. -/

namespace Zupt.WorkerDecode

open Zupt.LittleEndian Zupt.Stream Zupt.Seal Zupt.Frame Zupt.Transform Zupt.Decode
open Zupt.Authentication (storeOnly smallBlock prefaceKeyring)
open Zupt.VaptVupt (BlockDecoders decompressFlags decompressFlags_iff ChecksumsMatch)

/-- The codecs with the frame decoder of `vv_decoder.c` over the block decoders
    `D`. -/
def withFrames (C : Codecs) (D : BlockDecoders) : Codecs :=
  { C with
    vvDecompressFlags := fun skipChecksum src cap =>
      (decompressFlags D src cap (if skipChecksum then 1 else 0)).toOption }

variable (P : Primitives) (C : Codecs) (D : BlockDecoders)

/-- `read_block` admits the frame. -/
def Admitted (b : Block) : Prop :=
  b.uncompressedSize.toNat ≤ maxBlockSz ∧ b.compressedSize.toNat ≤ maxBlockSz + 4096

/-- The frame opens and its payload decodes, inner checksums aside, to content
    with the stored size and checksum. -/
def WellFormed (b : Block) (kr : Option Keyring) (seq : UInt64) (compData : Bytes) : Prop :=
  openPayload P b kr seq = .ok compData ∧
    ∃ out, decodeChecked (withFrames C D) (withFrames C D).vvzDecompress b compData = .ok out

/-- The inner checksums of a VaptVupt payload match. -/
def InnerSumsMatch (b : Block) (compData : Bytes) : Prop :=
  b.uncompressedSize ≠ 0 → b.codecId = codecVaptVupt →
    ChecksumsMatch D compData (b.uncompressedSize.toNat + vvDecodeSlack)

/-- The frame is within the limit of `decompress_block` exactly if its inner
    checksums match, unless both decoders refuse it. -/
def SizeAndSumsAgree (b : Block) (kr : Option Keyring) (seq : UInt64) : Prop :=
  ∀ compData, WellFormed P C D b kr seq compData →
    (b.compressedSize.toNat ≤ maxBlockSz + 1024 ↔ InnerSumsMatch D b compData)

/-! ## The codec dispatch -/

variable {C D}

theorem vvDecompress_iff {src out : Bytes} {cap : Nat} :
    (withFrames C D).vvDecompress src cap = some out ↔
      (withFrames C D).vvzDecompress src cap = some out ∧ ChecksumsMatch D src cap := by
  show (decompressFlags D src cap 0).toOption = some out ↔
    (decompressFlags D src cap 1).toOption = some out ∧ ChecksumsMatch D src cap
  have hsome : ∀ r : Except VaptVupt.VvError Bytes, r.toOption = some out ↔ r = .ok out := by
    intro r
    cases r with
    | error e => simp [Except.toOption]
    | ok x => simp [Except.toOption]
  rw [hsome, hsome]
  exact decompressFlags_iff

/-- Only the branch of VaptVupt looks at the entry point. -/
theorem decodePayload_other (vv vv' : Bytes → Nat → Option Bytes) {codecId : UInt16}
    {compData : Bytes} {olen : Nat} (h : codecId ≠ codecVaptVupt) :
    decodePayload C vv codecId compData olen = decodePayload C vv' codecId compData olen := by
  rw [decodePayload, decodePayload, if_neg h, if_neg h]

theorem decodePayload_vaptVupt {vv : Bytes → Nat → Option Bytes} {compData out : Bytes}
    {olen : Nat} :
    decodePayload C vv codecVaptVupt compData olen = .ok out ↔
      vv compData (olen + vvDecodeSlack) = some out ∧ out.length = olen := by
  have hstore : codecVaptVupt ≠ codecStore := by decide
  have hlz : codecVaptVupt ≠ codecLz := by decide
  have hlzh : codecVaptVupt ≠ codecLzh := by decide
  have hlzhp : codecVaptVupt ≠ codecLzhp := by decide
  rw [decodePayload, if_neg hstore, if_neg hlz, if_neg hlzh, if_neg hlzhp, if_pos rfl]
  cases hvv : vv compData (olen + vvDecodeSlack) with
  | none => simp
  | some r =>
      dsimp only
      by_cases hlen : r.length = olen
      · rw [if_neg (not_not.mpr hlen)]
        constructor
        · intro h
          obtain rfl := Except.ok.inj h
          exact ⟨rfl, hlen⟩
        · rintro ⟨h, -⟩
          rw [Option.some.inj h]
      · rw [if_pos hlen]
        constructor
        · intro h
          cases h
        · rintro ⟨h, hout⟩
          exact absurd (Option.some.inj h ▸ hout) hlen

/-- A decoded payload is whatever the checksum is compared with. -/
theorem decodeChecked_iff {vv : Bytes → Nat → Option Bytes} {b : Block} {compData out : Bytes} :
    decodeChecked C vv b compData = .ok out ↔
      (b.uncompressedSize = 0 ∧ out = []) ∨
        (b.uncompressedSize ≠ 0 ∧ xxh64 out 0 = b.checksum ∧
          decodePayload C vv b.codecId compData b.uncompressedSize.toNat = .ok out) := by
  rw [decodeChecked]
  by_cases hzero : b.uncompressedSize = 0
  · rw [if_pos hzero]
    constructor
    · intro h
      exact Or.inl ⟨hzero, (Except.ok.inj h).symm⟩
    · rintro (⟨-, rfl⟩ | ⟨hne, -⟩)
      · rfl
      · exact absurd hzero hne
  rw [if_neg hzero]
  cases hdec : decodePayload C vv b.codecId compData b.uncompressedSize.toNat with
  | error e => simp [hzero]
  | ok r =>
      dsimp only
      by_cases hsum : xxh64 r 0 = b.checksum
      · rw [if_neg (not_not.mpr hsum)]
        constructor
        · intro h
          obtain rfl := Except.ok.inj h
          exact Or.inr ⟨hzero, hsum, rfl⟩
        · rintro (⟨hz, -⟩ | ⟨-, -, h⟩)
          · exact absurd hz hzero
          · exact h
      · rw [if_pos hsum]
        constructor
        · intro h
          cases h
        · rintro (⟨hz, -⟩ | ⟨-, hout, h⟩)
          · exact absurd hz hzero
          · exact absurd (Except.ok.inj h ▸ hout) hsum

/-- **WITH AND WITHOUT INNER CHECKSUMS**: the worker's half accepts what the
    other accepts and whose inner checksums match. -/
theorem decodeChecked_worker_iff {b : Block} {compData out : Bytes} :
    decodeChecked (withFrames C D) (withFrames C D).vvDecompress b compData = .ok out ↔
      decodeChecked (withFrames C D) (withFrames C D).vvzDecompress b compData = .ok out ∧
        InnerSumsMatch D b compData := by
  rw [decodeChecked_iff, decodeChecked_iff, InnerSumsMatch]
  by_cases hzero : b.uncompressedSize = 0
  · simp [hzero]
  by_cases hcodec : b.codecId = codecVaptVupt
  · rw [hcodec, decodePayload_vaptVupt, decodePayload_vaptVupt, vvDecompress_iff]
    simp only [hzero, false_and, false_or, ne_eq, not_false_eq_true, true_and, true_implies]
    tauto
  · rw [decodePayload_other (withFrames C D).vvDecompress (withFrames C D).vvzDecompress hcodec]
    simp [hzero, hcodec]

/-! ## The two decoders -/

theorem decompressBlock_iff {b : Block} {kr : Option Keyring} {seq : UInt64} {out : Bytes}
    (husz : b.uncompressedSize.toNat ≤ maxBlockSz) :
    decompressBlock P (withFrames C D) b kr seq = .ok out ↔
      b.compressedSize.toNat ≤ maxBlockSz + 1024 ∧ ∃ compData,
        openPayload P b kr seq = .ok compData ∧
        decodeChecked (withFrames C D) (withFrames C D).vvzDecompress b compData = .ok out := by
  rw [decompressBlock, if_neg (not_lt.mpr husz)]
  by_cases hcsz : b.compressedSize.toNat ≤ maxBlockSz + 1024
  · rw [if_neg (not_lt.mpr hcsz)]
    cases hopen : openPayload P b kr seq with
    | error e => simp
    | ok compData => simp [hcsz]
  · rw [if_pos (not_le.mp hcsz)]
    simp [hcsz]

theorem workerDecompress_iff {b : Block} {kr : Option Keyring} {seq : UInt64} {out : Bytes}
    (husz : b.uncompressedSize.toNat ≤ maxBlockSz) :
    workerDecompress P (withFrames C D) b kr seq = .ok out ↔ ∃ compData,
      openPayload P b kr seq = .ok compData ∧
      decodeChecked (withFrames C D) (withFrames C D).vvzDecompress b compData = .ok out ∧
      InnerSumsMatch D b compData := by
  rw [workerDecompress, if_neg (not_lt.mpr husz)]
  cases hopen : openPayload P b kr seq with
  | error e => simp
  | ok compData =>
      dsimp only
      rw [decodeChecked_worker_iff]
      simp

/-- A plain STORE frame of one zero byte with a long tail behind it. -/
def tailedFrame : Block where
  blockType := blockData
  codecId := codecStore
  blockFlags := 0
  uncompressedSize := 1
  compressedSize := UInt64.ofNat (maxBlockSz + 2000)
  checksum := xxh64 [0] 0
  payload := List.replicate (maxBlockSz + 2000) 0
  payload_length := by
    rw [List.length_replicate]
    rfl

theorem tailedFrame_admitted : Admitted tailedFrame := by
  constructor
  · show (1 : UInt64).toNat ≤ maxBlockSz
    decide
  · show (UInt64.ofNat (maxBlockSz + 2000)).toNat ≤ maxBlockSz + 4096
    decide

theorem tailedFrame_take : tailedFrame.payload.take tailedFrame.uncompressedSize.toNat = [0] := by
  have hone : tailedFrame.uncompressedSize.toNat = 1 := by decide
  rw [hone, tailedFrame, List.take_replicate]
  have hmin : min 1 (maxBlockSz + 2000) = 1 := by decide
  rw [hmin, List.replicate_one]

end Zupt.WorkerDecode
