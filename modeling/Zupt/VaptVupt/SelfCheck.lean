import Zupt.Decode
import Zupt.VaptVupt.Noninterference
import Zupt.WorkerDecode

/-! # The self-check of the codec

    `vvz_compress` decodes what the encoder gave it and returns it only if the
    source comes back.  What was checked once comes back in every buffer that
    has room for it, as long as the decoder takes nothing from raw storage. -/

namespace Zupt.SelfCheck

open Zupt.LittleEndian Zupt.Stream Zupt.Seal Zupt.Frame Zupt.Decode Zupt.Memory
open Zupt.VaptVupt
open Zupt.WorkerDecode (decodePayload_vaptVupt decodeChecked_iff)

/-- The codecs with the frame decoder on raw storage: a build, the scratch of
    each block, and the contents of the output buffer. -/
def withStorage (C : Codecs) (build : Build) (heap : Heap) (m : Mem UInt8) : Codecs :=
  { C with
    vvDecompressFlags := fun skipChecksum src cap =>
      accepted (decompressInto build heap m src cap (if skipChecksum then 1 else 0)) }

/-- A DATA frame that a writer built from the stream `s` of the block `src`. -/
structure FrameOf (P : Primitives) (b : Block) (kr : Option Keyring) (seq : UInt64)
    (s src : Bytes) : Prop where
  codec : b.codecId = codecVaptVupt
  size : b.uncompressedSize.toNat = src.length
  sum : b.checksum = Transform.xxh64 src 0
  block : src.length ≤ maxBlockSz
  frame : b.compressedSize.toNat ≤ maxBlockSz + 1024
  opens : openPayload P b kr seq = .ok s

/-- The stream `s` gives back `src` in every buffer with room for it, and so do
    the frames built from it. -/
def ReadsBack (s src : Bytes) : Prop :=
  (∀ C build heap m cap, src.length ≤ cap →
    (withStorage C build heap m).vvzDecompress s cap = some src) ∧
  ∀ P C build heap m b kr seq, FrameOf P b kr seq s src →
    decompressBlock P (withStorage C build heap m) b kr seq = .ok src

/-- **THE CODEC FAILS CLOSED** on `src` with the stream `s`: whatever encoder
    gave it, once `vvz_compress` has returned it, it gives back `src`. -/
def FailsClosed (src s : Bytes) : Prop :=
  ∀ C build heap m cap level, (withStorage C build heap m).vvzCompress src cap level = some s →
    s ≠ [] → ReadsBack s src

/-! ## Supplied streams -/

/-- What the entry point of the archive layer answers for a supplied stream. -/
theorem vvzDecompress_supplied {s : Bytes} (h : Supplied s) (C : Codecs) (build : Build)
    (heap : Heap) (m : Mem UInt8) (cap : Nat) :
    (withStorage C build heap m).vvzDecompress s cap =
      (decompressFlags (naiveDecoders clearScratch) s cap 1).toOption :=
  (decompressInto_accepted build (decodes_as_clear heap) m cap 1 h).2

/-- The self-check passed. -/
theorem vvzCompress_checked {C : Codecs} {src s : Bytes} {cap : Nat} {level : Int}
    (h : C.vvzCompress src cap level = some s) (hs : s ≠ []) :
    C.vvzDecompress s (src.length + vvDecodeSlack) = some src := by
  rw [Codecs.vvzCompress] at h
  split at h
  · cases h
  rename_i out hout
  by_cases hnil : out = []
  · rw [if_pos hnil] at h
    exact absurd (Option.some.inj h).symm hs
  rw [if_neg hnil] at h
  by_cases hcheck : C.vvzDecompress out (src.length + vvDecodeSlack) = some src
  · rw [if_pos hcheck] at h
    obtain rfl := Option.some.inj h
    exact hcheck
  · rw [if_neg hcheck] at h
    cases h

/-- A frame over a stream that gives back `src` decodes to `src`. -/
theorem decompressBlock_of_frame {P : Primitives} {C : Codecs} {b : Block} {kr : Option Keyring}
    {seq : UInt64} {s src : Bytes} (hframe : FrameOf P b kr seq s src)
    (hback : C.vvzDecompress s (src.length + vvDecodeSlack) = some src) :
    decompressBlock P C b kr seq = .ok src := by
  have husz : ¬ b.uncompressedSize.toNat > maxBlockSz := by
    rw [hframe.size]
    exact Nat.not_lt.mpr hframe.block
  rw [decompressBlock, if_neg husz, if_neg (Nat.not_lt.mpr hframe.frame), hframe.opens]
  dsimp only
  rw [decodeChecked_iff]
  by_cases hzero : b.uncompressedSize = 0
  · refine Or.inl ⟨hzero, List.eq_nil_of_length_eq_zero ?_⟩
    rw [← hframe.size, hzero]
    rfl
  · refine Or.inr ⟨hzero, hframe.sum.symm, ?_⟩
    rw [hframe.codec, hframe.size, decodePayload_vaptVupt]
    exact ⟨hback, rfl⟩

/-- An encoder that always answers with the frame of one literal that is not
    encoded. -/
def bareEncoder : Codecs := { Authentication.storeOnly with vvCompress := fun _ _ _ => some bareFrame }

end Zupt.SelfCheck
