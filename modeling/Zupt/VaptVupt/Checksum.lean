import Zupt.VaptVupt.Frame

/-! # Inner checksums

    A frame may carry a checksum of its own, which `VV_DECOMPRESS_SKIP_CHECKSUM`
    leaves unread.  What a buffer decodes to does not depend on the flag; whether
    it decodes does, on the frames whose footer states another checksum. -/

namespace Zupt.VaptVupt

open Zupt.LittleEndian

variable (D : BlockDecoders)

/-- A footer in front of `ip` states the checksum of `out`, where the frame has
    a footer. -/
def FooterMatches (fh : FrameHeader) (out ip : Bytes) : Prop :=
  fh.hasChecksum = true → xxh64 out 0 = le64Get ip

/-- The frame at the front of `ip` states the checksum of its blocks. -/
def FrameMatches (room : Nat) (ip : Bytes) : Prop :=
  ∀ max_offset out rest, checkHeader (frameHeaderGet ip) = .ok max_offset →
    decodeBlocks D (frameHeaderGet ip).offBytes max_offset room (ip.drop 16).length []
      (ip.drop 16) = .ok (out, rest) → FooterMatches (frameHeaderGet ip) out rest

/-- Every frame of a buffer states the checksum of its blocks. -/
def FramesMatch (dst_cap : Nat) : (turns : Nat) → (out ip : Bytes) → Prop
  | 0, _, _ => True
  | turns + 1, out, ip =>
      ip.length = 0 ∨
        (FrameMatches D (dst_cap - out.length) ip ∧
          ∀ new rest, decodeFrame D true (dst_cap - out.length) ip = .ok (new, rest) →
            FramesMatch dst_cap turns (out ++ new) rest)

/-- Every inner checksum of `src` is that of what it stands behind. -/
def ChecksumsMatch (src : Bytes) (dst_cap : Nat) : Prop :=
  FramesMatch D dst_cap src.length [] src

/-! ## One footer -/

theorem checkFooter_iff {out ip rest : Bytes} :
    checkFooter false out ip = .ok rest ↔
      checkFooter true out ip = .ok rest ∧ xxh64 out 0 = le64Get ip := by
  rw [checkFooter, checkFooter]
  by_cases hlen : ip.length < 12
  · simp [if_pos hlen]
  rw [if_neg hlen, if_neg hlen]
  by_cases hmagic : le32Get (ip.drop 8) ≠ 0x56564E44
  · simp [if_pos hmagic]
  rw [if_neg hmagic, if_neg hmagic]
  by_cases hsum : xxh64 out 0 = le64Get ip
  · simp [hsum]
  · simp [hsum]

theorem finishFrame_iff {fh : FrameHeader} {out ip : Bytes} {r : Bytes × Bytes} :
    finishFrame false fh out ip = .ok r ↔
      finishFrame true fh out ip = .ok r ∧ FooterMatches fh out ip := by
  rw [finishFrame, finishFrame, FooterMatches]
  by_cases hsum : fh.hasChecksum = true
  · rw [if_pos hsum, if_pos hsum]
    constructor
    · intro h
      cases hfoot : checkFooter false out ip with
      | error e =>
          rw [hfoot] at h
          cases h
      | ok rest =>
          rw [hfoot] at h
          obtain ⟨hskip, hmatch⟩ := checkFooter_iff.mp hfoot
          rw [hskip]
          exact ⟨h, fun _ => hmatch⟩
    · rintro ⟨h, hmatch⟩
      cases hfoot : checkFooter true out ip with
      | error e =>
          rw [hfoot] at h
          cases h
      | ok rest =>
          rw [hfoot] at h
          rw [checkFooter_iff.mpr ⟨hfoot, hmatch hsum⟩]
          exact h
  · rw [if_neg hsum, if_neg hsum]
    simp [hsum]

/-! ## Frame after frame -/

variable {D}

theorem decodeFrame_iff {room : Nat} {ip : Bytes} {r : Bytes × Bytes} :
    decodeFrame D false room ip = .ok r ↔
      decodeFrame D true room ip = .ok r ∧ FrameMatches D room ip := by
  rw [decodeFrame, decodeFrame, FrameMatches]
  by_cases h16 : ip.length < 16
  · simp [if_pos h16]
  rw [if_neg h16, if_neg h16]
  dsimp only
  cases hcheck : checkHeader (frameHeaderGet ip) with
  | error e => simp
  | ok m =>
      dsimp only
      cases hblocks : decodeBlocks D (frameHeaderGet ip).offBytes m room (ip.drop 16).length []
          (ip.drop 16) with
      | error e => simp [finishBlocks]
      | ok p =>
          obtain ⟨out, rest⟩ := p
          rw [finishBlocks, finishBlocks, finishFrame_iff]
          constructor
          · rintro ⟨h, hmatch⟩
            refine ⟨h, ?_⟩
            intro m' out' rest' hm hout
            obtain rfl := Except.ok.inj hm
            rw [hblocks] at hout
            obtain ⟨rfl, rfl⟩ := Prod.mk.inj (Except.ok.inj hout)
            exact hmatch
          · rintro ⟨h, hmatch⟩
            exact ⟨h, hmatch m out rest rfl hblocks⟩

theorem decodeFrames_iff {dst_cap turns : Nat} {out ip res : Bytes} :
    decodeFrames D false dst_cap turns out ip = .ok res ↔
      decodeFrames D true dst_cap turns out ip = .ok res ∧ FramesMatch D dst_cap turns out ip := by
  induction turns generalizing out ip with
  | zero => simp [decodeFrames, FramesMatch]
  | succ turns ih =>
      rw [decodeFrames, decodeFrames, FramesMatch]
      by_cases hzero : ip.length = 0
      · simp [hzero]
      rw [if_neg hzero, if_neg hzero]
      constructor
      · intro h
        cases hframe : decodeFrame D false (dst_cap - out.length) ip with
        | error e =>
            rw [hframe] at h
            cases h
        | ok p =>
            obtain ⟨new, rest⟩ := p
            rw [hframe] at h
            obtain ⟨hskip, hmatch⟩ := decodeFrame_iff.mp hframe
            obtain ⟨hall, hmatches⟩ := ih.mp h
            rw [hskip]
            refine ⟨hall, Or.inr ⟨hmatch, ?_⟩⟩
            intro new' rest' h'
            obtain ⟨rfl, rfl⟩ := Prod.mk.inj (Except.ok.inj h')
            exact hmatches
      · rintro ⟨h, hmatch⟩
        obtain ⟨hfirst, hmore⟩ := hmatch.resolve_left hzero
        cases hframe : decodeFrame D true (dst_cap - out.length) ip with
        | error e =>
            rw [hframe] at h
            cases h
        | ok p =>
            obtain ⟨new, rest⟩ := p
            rw [hframe] at h
            rw [decodeFrame_iff.mpr ⟨hframe, hfirst⟩]
            exact ih.mpr ⟨h, hmore new rest hframe⟩

/-- **THE FLAG DECIDES ONLY ON INNER CHECKSUMS**: a buffer decodes with its
    checksums read exactly if it decodes with them skipped, to the same bytes,
    and they all match. -/
theorem decompressFlags_iff {src out : Bytes} {dst_cap : Nat} :
    decompressFlags D src dst_cap 0 = .ok out ↔
      decompressFlags D src dst_cap 1 = .ok out ∧ ChecksumsMatch D src dst_cap := by
  rw [decompressFlags, decompressFlags, ChecksumsMatch]
  by_cases hlen : src.length < 16
  · simp [if_pos hlen]
  · rw [if_neg hlen, if_neg hlen]
    exact decodeFrames_iff

end Zupt.VaptVupt
