import Zupt.VaptVupt.CStream

/-! # Output bounds

    A block is at most six bytes longer than what it encodes, whichever way it
    was written: the token streams that the parser may return beyond the size of
    the block never win against storing it.  So the bound of `vv_compress_bound`
    leaves room for a frame, and with 24 bytes more for any call of a stream. -/

namespace Zupt.VaptVupt

open Zupt.LittleEndian

/-! ## Blocks -/

@[simp] theorem bhPut_length (type : BlockType) (last : Bool) (size : Nat) :
    (bhPut type last size).length = 4 := le32Put_length _

/-- A block that was put fits the output and has the length of its parts. -/
theorem EmitArgs.put_length {a : EmitArgs} {type : BlockType} {rest block : Bytes}
    (h : a.put type rest = some block) : block.length = 4 + rest.length := by
  rw [EmitArgs.put] at h
  split at h
  · cases h
  · cases h
    rw [List.length_append, bhPut_length]

theorem EmitArgs.put_isSome {a : EmitArgs} {type : BlockType} {rest : Bytes}
    (h : 4 + rest.length ≤ a.dst_cap) : (a.put type rest).isSome := by
  have hroom : ¬ a.dst_cap < (bhPut type a.last a.braw ++ rest).length := by
    rw [List.length_append, bhPut_length]
    omega
  rw [EmitArgs.put, if_neg hroom]
  rfl

/-- A way to write a block: at most six bytes longer than the block, and
    possible where these fit. -/
def EmitArgs.Small (a : EmitArgs) (r : Option Bytes) : Prop :=
  (∀ block, r = some block → block.length ≤ a.braw + 6) ∧ (a.braw + 6 ≤ a.dst_cap → r.isSome)

theorem EmitArgs.small_put {a : EmitArgs} {type : BlockType} {rest : Bytes}
    (h : 4 + rest.length ≤ a.braw + 6) : a.Small (a.put type rest) := by
  constructor
  · intro block hblock
    rw [a.put_length hblock]
    exact h
  · intro hroom
    exact a.put_isSome (by omega)

theorem EmitArgs.raw_length_le (a : EmitArgs) : a.raw.length ≤ a.braw := by
  rw [EmitArgs.raw, bytesAt]
  exact List.length_take_le _ _

theorem EmitArgs.small_raw (a : EmitArgs) : a.Small a.putRaw := by
  have hlen := a.raw_length_le
  exact a.small_put (by omega)

theorem EmitArgs.small_tokens {a : EmitArgs} {tmp : Bytes} (h : tmp.length < a.braw) :
    a.Small (a.putTokens tmp) := by
  apply a.small_put
  rw [List.length_append, lePut_length]
  omega

theorem EmitArgs.small_sequences {a : EmitArgs} {use_v2 : Bool} {seq : Bytes}
    (h : seqBlockSize seq < 4 + a.braw) : a.Small (a.putSequences use_v2 seq) := by
  apply a.small_put
  rw [seqBlockSize] at h
  rw [List.length_append, lePut_length, List.length_cons]
  omega

theorem EmitArgs.small_literals {a : EmitArgs} {c : CodedLiterals}
    (h : c.blockSize < 4 + a.braw) : a.Small (a.putLiterals c) := by
  apply a.small_put
  rw [CodedLiterals.blockSize] at h
  simp only [List.length_append, List.length_cons, lePut_length]
  omega

theorem EmitArgs.small_plain (a : EmitArgs) (use_v2 : Bool) (tmp : Bytes) :
    a.Small (a.putPlain use_v2 tmp) := by
  rw [EmitArgs.putPlain]
  by_cases hplain : !use_v2 ∧ tmp.length < a.braw
  · rw [if_pos hplain]
    exact a.small_tokens hplain.2
  · rw [if_neg hplain]
    exact a.small_raw

theorem EmitArgs.small_second (a : EmitArgs) (use_v2 : Bool) (tmp : Bytes)
    (coded : Option CodedLiterals) : a.Small (a.putSecond use_v2 tmp coded) := by
  cases coded with
  | none => exact a.small_plain use_v2 tmp
  | some c =>
      rw [EmitArgs.putSecond]
      by_cases hshort : c.blockSize < a.rawBlockSize tmp
      · rw [if_pos hshort]
        rw [EmitArgs.rawBlockSize] at hshort
        exact a.small_literals (by omega)
      · rw [if_neg hshort]
        exact a.small_plain use_v2 tmp

/-- The race never ends with more than storing takes, but for plain tokens,
    which are shorter than the block. -/
theorem EmitArgs.small_race (C : EntropyCoders) (a : EmitArgs) (tmp : Bytes) :
    a.Small (a.race C tmp) := by
  rw [EmitArgs.race]
  generalize (if 16 < a.wlog then 3 else 2) = off_bytes
  cases C.encodeSequences (a.min_match < minMatch) a.compat_v246_5 tmp a.ent_cap off_bytes with
  | none => exact a.small_second _ tmp _
  | some seq =>
      dsimp only
      split
      · rename_i hwins
        have hless := hwins.2
        rw [EmitArgs.rawBlockSize] at hless
        exact a.small_sequences (by omega)
      · exact a.small_second _ tmp _

theorem EmitArgs.small_write (C : EntropyCoders) (a : EmitArgs) (tokens : Option Bytes) :
    a.Small (a.write C tokens) := by
  cases tokens with
  | none => exact a.small_raw
  | some tmp =>
      rw [EmitArgs.write]
      by_cases hgate : a.rawGate ≤ tmp.length
      · rw [if_pos hgate]
        exact a.small_raw
      · rw [if_neg hgate]
        by_cases hmode : a.mode.entropy
        · rw [if_pos hmode]
          exact a.small_race C tmp
        · rw [if_neg hmode]
          rw [EmitArgs.rawGate, if_neg hmode] at hgate
          exact a.small_tokens (Nat.not_le.mp hgate)

/-- **BLOCKS ARE SMALL**: six bytes more than they encode are room enough. -/
theorem emitBlock_small (C : EntropyCoders) (fresh : FreshTables) (a : EmitArgs) (m : Matcher) :
    a.Small (emitBlock C fresh a m).2 := a.small_write C _

/-! ## Frames -/

@[simp] theorem frameHeaderPut_length (fh : FrameHeader) : (frameHeaderPut fh).length = 16 := by
  rw [frameHeaderPut]
  simp

@[simp] theorem footerPut_length (checksum : UInt64) : (footerPut checksum).length = 12 := by
  rw [footerPut]
  simp

/-- The blocks of `n` bytes. -/
def blockCount (n : Nat) : Nat := (n + maxBlockSize - 1) / maxBlockSize

theorem blockCount_step {n : Nat} (h : 0 < n) :
    blockCount (n - min n maxBlockSize) + 1 = blockCount n := by
  rw [blockCount, blockCount, maxBlockSize]
  omega

/-- The loop over the blocks ends where there is room for six bytes more in each
    block. -/
theorem Options.blocks_small (o : Options) (C : EntropyCoders) (fresh : Nat → FreshTables) (p : Plan)
    (src : Bytes) (turns start : Nat) (m : Matcher) (room : Nat)
    (hturns : blockCount (src.length - start) ≤ turns)
    (hroom : src.length - start + 6 * blockCount (src.length - start) ≤ room) :
    ∃ out, o.blocks C fresh p src turns start m room = .ok out ∧
      out.length ≤ src.length - start + 6 * blockCount (src.length - start) := by
  induction turns generalizing start m room with
  | zero => exact ⟨[], rfl, Nat.zero_le _⟩
  | succ turns ih =>
      rw [Options.blocks]
      by_cases hmore : start < src.length
      · rw [if_pos hmore]
        have hstep := blockCount_step (Nat.sub_pos_of_lt hmore)
        have hrest : src.length - (start + min (src.length - start) maxBlockSize) =
            src.length - start - min (src.length - start) maxBlockSize := by
          omega
        have hbraw : (o.blockArgs p src start room).braw =
            min (src.length - start) maxBlockSize := rfl
        have hcap : (o.blockArgs p src start room).dst_cap = room := rfl
        obtain ⟨hsmall, hsome⟩ :=
          emitBlock_small C (fresh start) (o.blockArgs p src start room) m
        rw [hbraw] at hsmall hsome
        rw [hcap] at hsome
        obtain ⟨block, hblock⟩ := Option.isSome_iff_exists.mp (hsome (by omega))
        have hlen := hsmall block hblock
        rcases hemit : emitBlock C (fresh start) (o.blockArgs p src start room) m with ⟨m', r⟩
        rw [hemit] at hblock
        dsimp only at hblock
        subst hblock
        obtain ⟨rest, hok, hshort⟩ := ih (start + min (src.length - start) maxBlockSize) m'
          (room - block.length) (by rw [hrest]; omega) (by rw [hrest]; omega)
        refine ⟨block ++ rest, ?_, ?_⟩
        · dsimp only
          rw [hok]
        · rw [hrest] at hshort
          rw [List.length_append]
          omega
      · rw [if_neg hmore]
        exact ⟨[], rfl, Nat.zero_le _⟩

/-- What a frame takes beyond its source. -/
theorem blockCount_le_bound (n : Nat) : n + 6 * blockCount n + 16 + 12 + 6 ≤ compressBound n := by
  rw [compressBound, blockCount, maxBlockSize]
  omega

/-- A call that does not fail for want of room, and keeps within the bound. -/
def WithinBound (src_len : Nat) (r : Except VvError Bytes) : Prop :=
  r ≠ .error .overflow ∧ ∀ out, r = .ok out → out.length ≤ compressBound src_len

theorem vvCompressInner_within (C : EntropyCoders) (fresh : FreshFrame) (src : Bytes)
    {dst_cap : Nat} (hcap : compressBound src.length ≤ dst_cap) (opts : Option Options) :
    WithinBound src.length (vvCompressInner C fresh src dst_cap opts) := by
  have hbound := blockCount_le_bound src.length
  have hleast : 256 + 16 + 12 ≤ compressBound src.length := by
    rw [compressBound]
    omega
  rw [vvCompressInner, if_neg (by omega)]
  dsimp only
  generalize opts.getD defaultOptions = o
  by_cases hbad : o.badWindow
  · rw [if_pos hbad]
    constructor
    · intro h
      cases h
    · intro out h
      cases h
  · rw [if_neg hbad]
    generalize o.plan fresh.trial16 fresh.trial20 src = p
    have hblocks : ∃ out, (if src.length = 0 then .ok (bhPut .raw true 0)
        else o.blocks C fresh.prepass p src (src.length / maxBlockSize + 1) 0
          (o.matcher fresh.matcher p src)
          (dst_cap - (frameHeaderPut (o.header p.wlog src.length)).length)) =
          (Except.ok out : Except VvError Bytes) ∧
        out.length ≤ src.length + 6 * blockCount src.length + 4 := by
      by_cases hempty : src.length = 0
      · rw [if_pos hempty]
        refine ⟨_, rfl, ?_⟩
        rw [bhPut_length]
        omega
      · rw [if_neg hempty, frameHeaderPut_length]
        have hturns : blockCount (src.length - 0) ≤ src.length / maxBlockSize + 1 := by
          rw [blockCount, maxBlockSize]
          omega
        obtain ⟨out, hok, hlen⟩ := o.blocks_small C fresh.prepass p src
          (src.length / maxBlockSize + 1) 0 (o.matcher fresh.matcher p src) (dst_cap - 16) hturns
          (by rw [Nat.sub_zero]; omega)
        exact ⟨out, hok, by rw [Nat.sub_zero] at hlen; omega⟩
    obtain ⟨blocks, hok, hlen⟩ := hblocks
    rw [hok]
    dsimp only
    rw [List.length_append, frameHeaderPut_length]
    by_cases hsum : o.checksum
    · rw [if_pos hsum, if_neg (by omega)]
      constructor
      · intro h
        cases h
      · intro out h
        cases h
        simp only [List.length_append, frameHeaderPut_length, footerPut_length]
        omega
    · rw [if_neg hsum]
      constructor
      · intro h
        cases h
      · intro out h
        cases h
        rw [List.length_append, frameHeaderPut_length]
        omega

/-- The one-shot encoder keeps within the bound. -/
theorem vvCompress_within (C : EntropyCoders) (fresh : FreshFrame) (src : Bytes) {dst_cap : Nat}
    (hcap : compressBound src.length ≤ dst_cap) (opts : Option Options) :
    WithinBound src.length (vvCompress C fresh src dst_cap opts) := by
  have hparam : WithinBound src.length (.error .param) := by
    constructor
    · intro h
      cases h
    · intro out h
      cases h
  cases opts with
  | none => exact vvCompressInner_within C fresh src hcap none
  | some o =>
      rw [vvCompress]
      split
      · exact hparam
      · split
        · exact hparam
        · dsimp only
          split
          · have hfilter : compressBound (bcjX86 src 0 true).length ≤ dst_cap := by
              rw [bcjX86_length]
              exact hcap
            have hinner := vvCompressInner_within C fresh (bcjX86 src 0 true) hfilter
              (some (o.effectiveFilters src))
            rwa [bcjX86_length] at hinner
          · split
            · have hfilter : compressBound (bcjArm64 src 0 true).length ≤ dst_cap := by
                rw [bcjArm64_length]
                exact hcap
              have hinner := vvCompressInner_within C fresh (bcjArm64 src 0 true) hfilter
                (some (o.effectiveFilters src))
              rwa [bcjArm64_length] at hinner
            · exact vvCompressInner_within C fresh src hcap (some o)

/-! ## Streams -/

/-- The header is written where there are 16 bytes for it. -/
theorem CStream.header_ok (ctx : CStream) {dst_cap : Nat} (h : 16 ≤ dst_cap) :
    ∃ ctx' header, ctx.header dst_cap = .ok (ctx', header) ∧ header.length ≤ 16 := by
  rw [CStream.header]
  by_cases hdone : ctx.header_emitted
  · rw [if_pos hdone]
    exact ⟨ctx, [], rfl, Nat.zero_le _⟩
  · rw [if_neg hdone, if_neg (by omega)]
    exact ⟨_, _, rfl, Nat.le_of_eq (frameHeaderPut_length _)⟩

/-- The block is written where there are six bytes more than the chunk. -/
theorem block_ok (C : EntropyCoders) (fresh : FreshTables) (ctx : CStream) {chunk_len cap_left : Nat}
    (h : chunk_len + 6 ≤ cap_left) (is_last : Bool) :
    ∃ ctx' block, ctx.block C fresh chunk_len cap_left is_last = (ctx', .ok block) ∧
      block.length ≤ chunk_len + 6 := by
  rw [CStream.block]
  by_cases hempty : chunk_len = 0
  · rw [if_pos hempty]
    cases is_last with
    | true =>
        refine ⟨ctx, bhPut .raw true 0, ?_, by rw [bhPut_length]; omega⟩
        rw [if_pos rfl, if_neg (by omega)]
    | false => exact ⟨ctx, [], rfl, Nat.zero_le _⟩
  · rw [if_neg hempty]
    obtain ⟨hsmall, hsome⟩ :=
      emitBlock_small C fresh (ctx.blockArgs chunk_len cap_left is_last) ctx.m
    obtain ⟨block, hblock⟩ := Option.isSome_iff_exists.mp (hsome h)
    have hlen := hsmall block hblock
    rcases hemit : emitBlock C fresh (ctx.blockArgs chunk_len cap_left is_last) ctx.m with ⟨m, r⟩
    rw [hemit] at hblock
    dsimp only at hblock
    subst hblock
    exact ⟨{ ctx with m := m }, block, rfl, hlen⟩

/-- The footer is written where there are twelve bytes for it. -/
theorem footer_ok (ctx : CStream) {cap_left : Nat} (h : 12 ≤ cap_left) (is_last : Bool) :
    ∃ footer, ctx.footer cap_left is_last = .ok footer := by
  rw [CStream.footer]
  split
  · rw [if_neg (by omega)]
    exact ⟨_, rfl⟩
  · exact ⟨_, rfl⟩

/-- A call of a stream, whatever came before it, has room in the bound and 24
    bytes more. -/
theorem compressChunk_within (C : EntropyCoders) (fresh : FreshTables) (ctx : CStream)
    (c : ChunkCall) (hcap : compressBound c.chunk.length + 24 ≤ c.dst_cap) :
    (ctx.compressChunk C fresh c).2 ≠ .error .overflow := by
  have hbound : c.chunk.length + 256 + 16 + 12 ≤ compressBound c.chunk.length := by
    rw [compressBound]
    omega
  rw [CStream.compressChunk]
  split
  · intro h
    cases h
  · obtain ⟨ctx', header, hheader, hlen⟩ := ctx.header_ok (show 16 ≤ c.dst_cap by omega)
    rw [hheader]
    dsimp only
    obtain ⟨ctx'', block, hblock, hblen⟩ := block_ok C fresh (ctx'.append c.chunk)
      (show c.chunk.length + 6 ≤ c.dst_cap - header.length by omega) c.is_last
    rw [hblock]
    dsimp only
    obtain ⟨footer, hfooter⟩ := footer_ok ctx''
      (show 12 ≤ c.dst_cap - header.length - block.length by omega) c.is_last
    rw [hfooter]
    intro h
    cases h

/-- Entropy coders that always give up. -/
def noCoders : EntropyCoders where
  encodeSequences _ _ _ _ _ := none
  encode4 _ _ := none
  encode _ _ := none

/-- Memory that is all zero. -/
def zeroTables : FreshTables := ⟨fun _ => 0, fun _ => 0, fun _ => 0, fun _ => 0, fun _ => 0, fun _ => 0⟩

/-- The stream of `vv_cstream_create(NULL)`. -/
def plainStream : CStream :=
  { opts := defaultOptions
    wlog := 16
    m := defaultOptions.configure (matcherInit zeroTables 16 24 false none)
    src_cap := 2 ^ 16 * 2 + maxBlockSize
    src_buf := []
    global_offset := 0
    cks := xxh64Init zeroHash 0
    header_emitted := false }

end Zupt.VaptVupt
