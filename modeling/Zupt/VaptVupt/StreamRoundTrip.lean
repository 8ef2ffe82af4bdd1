import Zupt.VaptVupt.Compaction
import Zupt.VaptVupt.FrameRoundTrip

/-! # Streams round trip

    A stream of the encoder keeps the end of what it was given, as far as its window
    reaches; the decoder has all of it in front of a block.  So whatever the buffer was
    moved, the calls of a frame write a frame of their chunks, on a stream that was just
    created and on one that was reset at any time. -/

namespace Zupt.VaptVupt

open Zupt.LittleEndian Zupt.Memory Zupt.Window

/-! ## Between two calls -/

/-- The stream between two calls of a frame that has come to the end of `hist`. -/
structure CStream.Behind (ctx : CStream) (hist : Bytes) : Prop where
  low : 10 ≤ ctx.wlog
  high : ctx.wlog ≤ 24
  wlog : ctx.m.wlog = ctx.wlog
  max_match : ctx.m.max_match = seqMax ctx.opts.effectiveFormatV2
  rep : (ctx.opts.mode = .extreme ∧ ctx.opts.effectiveFormatV2 = false) ∨ ctx.m.RepBound
  valid : ctx.opts.validCstream = true
  buffer : ctx.src_buf <:+ hist
  cks : ctx.opts.checksum = true → HashingFrom 0 ctx.cks hist

section Append

variable {ctx : CStream} {hist chunk : Bytes}

/-- What a compaction keeps. -/
theorem compact_keeps (ctx : CStream) (n : Nat) :
    ∃ d, ctx.compact n = { ctx with src_buf := ctx.src_buf.drop d, m := (ctx.compact n).m } ∧
      (ctx.compact n).m.wlog = ctx.m.wlog ∧ (ctx.compact n).m.max_match = ctx.m.max_match ∧
      (ctx.compact n).m.rep = ctx.m.rep := by
  by_cases h : ctx.Compacts n
  · rw [compact_of h]
    exact ⟨ctx.drop, rfl, rfl, rfl, rfl⟩
  · rw [compact_of_not h]
    exact ⟨0, rfl, rfl, rfl, rfl⟩

/-- A chunk is appended to the end of what was there. -/
theorem append_keeps (ctx : CStream) (hsome : chunk ≠ []) :
    ∃ d, ctx.append chunk = { ctx with
        src_buf := ctx.src_buf.drop d ++ chunk
        m := (ctx.append chunk).m
        global_offset := ctx.global_offset + chunk.length
        cks := if ctx.opts.checksum then xxh64Update ctx.cks chunk else ctx.cks } ∧
      (ctx.append chunk).m.wlog = ctx.m.wlog ∧ (ctx.append chunk).m.max_match = ctx.m.max_match ∧
      (ctx.append chunk).m.rep = ctx.m.rep := by
  obtain ⟨d, hcompact, hm⟩ := compact_keeps ctx chunk.length
  have happend : ctx.append chunk = { ctx.compact chunk.length with
      src_buf := (ctx.compact chunk.length).src_buf ++ chunk
      global_offset := (ctx.compact chunk.length).global_offset + chunk.length
      cks := if (ctx.compact chunk.length).opts.checksum then
        xxh64Update (ctx.compact chunk.length).cks chunk else (ctx.compact chunk.length).cks } := by
    rw [CStream.append, if_pos (List.length_pos_iff.mpr hsome)]
  refine ⟨d, ?_, ?_⟩
  · rw [happend, hcompact]
  · rw [happend]
    exact hm

/-- The chunk belongs to the history now. -/
theorem CStream.Behind.append (h : ctx.Behind hist) (chunk : Bytes) :
    (ctx.append chunk).Behind (hist ++ chunk) ∧
      (chunk ≠ [] → ∃ buf, (ctx.append chunk).src_buf = buf ++ chunk ∧ buf <:+ hist) := by
  by_cases hnone : chunk = []
  · subst hnone
    rw [List.append_nil]
    exact ⟨h, fun hsome => absurd rfl hsome⟩
  obtain ⟨d, happend, hwlog, hmax, hrep⟩ := append_keeps ctx hnone
  have hbuf : ctx.src_buf.drop d <:+ hist := (List.drop_suffix d _).trans h.buffer
  generalize (ctx.append chunk).m = m at happend hwlog hmax hrep
  rw [happend]
  refine ⟨⟨h.low, h.high, hwlog.trans h.wlog, hmax.trans h.max_match, ?_, h.valid, ?_, ?_⟩,
    fun _ => ⟨_, rfl, hbuf⟩⟩
  · rcases h.rep with hopt | hbound
    · exact Or.inl hopt
    · right
      intro i
      dsimp only
      rw [hrep, hwlog]
      exact hbound i
  · obtain ⟨pre, rfl⟩ := hbuf
    exact ⟨pre, (List.append_assoc _ _ _).symm⟩
  · intro hsum
    dsimp only at hsum ⊢
    rw [if_pos hsum]
    exact hashingFrom_update (h.cks hsum) chunk

end Append

/-! ## The block of a chunk -/

section Block

variable {ctx : CStream} {hist chunk : Bytes} {C : EntropyCoders} {fresh : FreshTables}

/-- Path B, where it runs for the block of a chunk, has few literals. -/
def CStream.Narrow (C : EntropyCoders) (fresh : FreshTables) (ctx : CStream) (c : ChunkCall) : Prop :=
  ((ctx.append c.chunk).blockArgs c.chunk.length c.dst_cap c.is_last).Narrow C
    (((ctx.append c.chunk).blockArgs c.chunk.length c.dst_cap c.is_last).parse fresh
      (ctx.append c.chunk).m).2

theorem streamArgs_v2 (ctx : CStream) (n cap : Nat) (last : Bool) :
    (ctx.blockArgs n cap last).v2 = ctx.opts.effectiveFormatV2 := by
  rw [EmitArgs.v2, CStream.blockArgs]
  dsimp only
  cases ctx.opts.effectiveFormatV2 <;> rfl

theorem streamArgs_optimal (ctx : CStream) (n cap : Nat) (last : Bool) :
    (ctx.blockArgs n cap last).Optimal ↔
      ctx.opts.mode = .extreme ∧ ctx.opts.effectiveFormatV2 = false := by
  rw [EmitArgs.Optimal, CStream.blockArgs]
  dsimp only
  cases ctx.opts.effectiveFormatV2 with
  | false => simp [minMatch]
  | true => simp [minMatch]

/-- The arguments of a block whose chunk was appended. -/
theorem CStream.Behind.ready (h : ctx.Behind hist) {buf : Bytes} (hbuf : ctx.src_buf = buf ++ chunk)
    (hsize : chunk.length ≤ maxBlockSize) (cap : Nat) (last : Bool) :
    (ctx.blockArgs chunk.length cap last).Ready ctx.m where
  inside := by
    show ctx.src_buf.length - chunk.length + chunk.length ≤ ctx.src_buf.length
    rw [hbuf, List.length_append]
    omega
  size := hsize
  low := h.low
  high := h.high
  min_match := by
    rw [streamArgs_v2, CStream.blockArgs]
    dsimp only
    cases ctx.opts.effectiveFormatV2 <;> rfl
  entropy hv2 := by
    rw [streamArgs_v2, Options.effectiveFormatV2] at hv2
    exact ((Bool.and_eq_true _ _).mp hv2).2
  wlog := h.wlog
  max_match := by
    rw [streamArgs_v2]
    exact h.max_match
  rep := by
    rw [streamArgs_optimal]
    exact h.rep

/-- What a block in front of the decoder decodes to, with any scratch. -/
def BlockFor (wlog max_offset : Nat) (hist block raw : Bytes) (last : Bool) : Prop :=
  ∀ st room rest, raw.length ≤ room →
    decodeBlock (naiveDecoders st) (windowBytes wlog) max_offset room hist (block ++ rest) =
      .ok ⟨raw, last, rest⟩

/-- **THE BLOCK OF A CHUNK** decodes behind all that came before, although the encoder has
    only the end of it. -/
theorem CStream.Behind.block (h : ctx.Behind (hist ++ chunk)) {buf : Bytes}
    (hbuf : ctx.src_buf = buf ++ chunk) (hsuffix : buf <:+ hist) (hC : C.Library)
    (hsize : chunk.length ≤ maxBlockSize) {cap : Nat} {last : Bool}
    (hnarrow : (ctx.blockArgs chunk.length cap last).Narrow C
      ((ctx.blockArgs chunk.length cap last).parse fresh ctx.m).2) {max_offset : Nat}
    (hmax : frameMaxOffset (UInt8.ofNat ctx.wlog) = some max_offset) {block : Bytes}
    (hblock : (emitBlock C fresh (ctx.blockArgs chunk.length cap last) ctx.m).2 = some block) :
    BlockFor ctx.wlog max_offset hist block chunk last := by
  intro st room rest hroom
  obtain ⟨pre, rfl⟩ := hsuffix
  have hready := h.ready hbuf hsize cap last
  have hstart : ctx.src_buf.length - chunk.length = buf.length := by
    rw [hbuf, List.length_append, Nat.add_sub_cancel]
  have hraw : (ctx.blockArgs chunk.length cap last).raw = chunk := by
    show (ctx.src_buf.drop (ctx.src_buf.length - chunk.length)).take chunk.length = chunk
    rw [hstart, hbuf, List.drop_left, List.take_length]
  have hfront : (ctx.blockArgs chunk.length cap last).src.take
      (ctx.blockArgs chunk.length cap last).block_start = buf := by
    show ctx.src_buf.take (ctx.src_buf.length - chunk.length) = buf
    rw [hstart, hbuf, List.take_left]
  have hdec := emitBlock_decodes hready hC fresh hnarrow hmax st pre block hblock room rest hroom
  rw [hraw, hfront] at hdec
  exact hdec

variable (C) (fresh) in
/-- A call keeps what the next one needs. -/
theorem CStream.Behind.emitted (h : ctx.Behind (hist ++ chunk)) {buf : Bytes}
    (hbuf : ctx.src_buf = buf ++ chunk) (hsize : chunk.length ≤ maxBlockSize) (cap : Nat)
    (last : Bool) :
    CStream.Behind { ctx with m := (emitBlock C fresh (ctx.blockArgs chunk.length cap last) ctx.m).1 }
      (hist ++ chunk) := by
  obtain ⟨hwlog, hmax, hrep⟩ := emitBlock_ready (h.ready hbuf hsize cap last) C fresh
  rw [streamArgs_v2] at hmax
  rw [streamArgs_optimal] at hrep
  exact ⟨h.low, h.high, hwlog, hmax, hrep, h.valid, h.buffer, h.cks⟩

end Block

/-! ## Calls -/

/-- What a call writes in front of its block. -/
def CStream.headerPart (ctx : CStream) : Bytes :=
  if ctx.header_emitted then [] else frameHeaderPut (ctx.opts.header ctx.wlog 0)

/-- What the last call of a frame that came to the end of `hist` writes behind its block. -/
def CStream.footerPart (ctx : CStream) (hist : Bytes) : Bytes :=
  (ctx.opts.header ctx.wlog 0).footer hist

/-- What a call does that does not fail. -/
structure CallDone (ctx ctx' : CStream) (hist : Bytes) (c : ChunkCall) (max_offset : Nat)
    (out : Bytes) : Prop where
  behind : ctx'.Behind (hist ++ c.chunk)
  emitted : ctx'.header_emitted = true
  opts : ctx'.opts = ctx.opts
  wlog : ctx'.wlog = ctx.wlog
  out : ∃ block, out = ctx.headerPart ++ block ++
      (if c.is_last then ctx.footerPart (hist ++ c.chunk) else []) ∧
    ((c.is_last = false ∧ c.chunk = [] ∧ block = []) ∨
      BlockFor ctx.wlog max_offset hist block c.chunk c.is_last)

section Calls

variable {ctx ctx' : CStream} {hist : Bytes} {C : EntropyCoders} {fresh : FreshTables}
  {c : ChunkCall} {max_offset : Nat}

/-- The header is written at most once. -/
theorem header_written {dst_cap : Nat} {header : Bytes} (h : ctx.header dst_cap = .ok (ctx', header)) :
    ctx' = { ctx with header_emitted := true } ∧ header = ctx.headerPart := by
  rw [CStream.header] at h
  rw [CStream.headerPart]
  by_cases hdone : ctx.header_emitted = true
  · rw [if_pos hdone] at h ⊢
    obtain ⟨rfl, rfl⟩ := Prod.mk.inj (Except.ok.inj h)
    refine ⟨?_, rfl⟩
    rw [← hdone]
  · rw [if_neg hdone] at h ⊢
    split at h
    · cases h
    · obtain ⟨rfl, rfl⟩ := Prod.mk.inj (Except.ok.inj h)
      exact ⟨rfl, rfl⟩

/-- The footer holds the checksum of all that was given. -/
theorem footer_written (h : ctx.Behind hist) (hsize : hist.length < 2 ^ 64) {cap : Nat} {last : Bool}
    {footer : Bytes} (hfooter : ctx.footer cap last = .ok footer) :
    footer = if last then ctx.footerPart hist else [] := by
  rw [CStream.footer] at hfooter
  rw [CStream.footerPart, FrameHeader.footer, header_hasChecksum]
  cases last with
  | false => exact (Except.ok.inj hfooter).symm
  | true =>
      by_cases hsum : ctx.opts.checksum = true
      · rw [if_pos ⟨rfl, hsum⟩] at hfooter
        split at hfooter
        · cases hfooter
        · rw [if_pos rfl, if_pos hsum, ← finalize_hashingFrom (h.cks hsum) hsize]
          exact (Except.ok.inj hfooter).symm
      · rw [if_neg fun hboth => hsum hboth.2] at hfooter
        rw [if_pos rfl, if_neg hsum]
        exact (Except.ok.inj hfooter).symm

/-- The header plays no part in what is behind it. -/
theorem CStream.Behind.header (h : ctx.Behind hist) :
    CStream.Behind { ctx with header_emitted := true } hist :=
  ⟨h.low, h.high, h.wlog, h.max_match, h.rep, h.valid, h.buffer, h.cks⟩

/-- The block of a call, without a chunk or with one. -/
theorem CStream.Behind.chunk (h : ctx.Behind hist) (hC : C.Library)
    (hsize : c.chunk.length ≤ maxBlockSize) (hnarrow : ctx.Narrow C fresh c)
    (hmax : frameMaxOffset (UInt8.ofNat ctx.wlog) = some max_offset) {cap : Nat} {block : Bytes}
    (hblock : (ctx.append c.chunk).block C fresh c.chunk.length cap c.is_last = (ctx', .ok block)) :
    ctx'.Behind (hist ++ c.chunk) ∧ ctx'.header_emitted = ctx.header_emitted ∧
      ctx'.opts = ctx.opts ∧ ctx'.wlog = ctx.wlog ∧
      ((c.is_last = false ∧ c.chunk = [] ∧ block = []) ∨
        BlockFor ctx.wlog max_offset hist block c.chunk c.is_last) := by
  obtain ⟨happended, hbuf⟩ := h.append c.chunk
  by_cases hnone : c.chunk = []
  · have happend : ctx.append [] = ctx := rfl
    rw [hnone, happend, List.length_nil, CStream.block, if_pos rfl] at hblock
    rw [hnone, List.append_nil]
    cases hlast : c.is_last with
    | false =>
        rw [hlast, if_neg Bool.false_ne_true] at hblock
        obtain ⟨rfl, hout⟩ := Prod.mk.inj hblock
        exact ⟨h, rfl, rfl, rfl, Or.inl ⟨rfl, rfl, (Except.ok.inj hout).symm⟩⟩
    | true =>
        rw [hlast, if_pos rfl] at hblock
        split at hblock
        · cases hblock
        · obtain ⟨rfl, hout⟩ := Prod.mk.inj hblock
          obtain rfl := Except.ok.inj hout
          exact ⟨h, rfl, rfl, rfl, Or.inr fun st room rest _ =>
            decodeBlock_empty (naiveDecoders st) _ _ room hist rest⟩
  · obtain ⟨buf, hsrc, hsuffix⟩ := hbuf hnone
    obtain ⟨d, happend, -⟩ := append_keeps ctx hnone
    have hopts : (ctx.append c.chunk).opts = ctx.opts := by rw [happend]
    have hwlog : (ctx.append c.chunk).wlog = ctx.wlog := by rw [happend]
    have hemit : (ctx.append c.chunk).header_emitted = ctx.header_emitted := by rw [happend]
    have hlen : ¬ c.chunk.length = 0 := mt List.length_eq_zero_iff.mp hnone
    have hnext := happended.emitted C fresh hsrc hsize cap c.is_last
    rw [CStream.block, if_neg hlen] at hblock
    rcases hr : emitBlock C fresh ((ctx.append c.chunk).blockArgs c.chunk.length cap c.is_last)
      (ctx.append c.chunk).m with ⟨m, r⟩
    rw [hr] at hblock hnext
    cases r with
    | none => cases hblock
    | some out =>
        obtain ⟨rfl, hout⟩ := Prod.mk.inj hblock
        obtain rfl := Except.ok.inj hout
        rw [← hwlog] at hmax
        have hfew : ((ctx.append c.chunk).blockArgs c.chunk.length cap c.is_last).Narrow C
            (((ctx.append c.chunk).blockArgs c.chunk.length cap c.is_last).parse fresh
              (ctx.append c.chunk).m).2 := hnarrow
        have hdec := happended.block hsrc hsuffix hC hsize hfew hmax (congrArg Prod.snd hr)
        rw [hwlog] at hdec
        exact ⟨hnext, hemit, hopts, hwlog, Or.inr hdec⟩

/-- **A CALL THAT DOES NOT FAIL** writes what its frame needs next. -/
theorem CStream.Behind.call (h : ctx.Behind hist) (hC : C.Library) (hnarrow : ctx.Narrow C fresh c)
    (hsize : (hist ++ c.chunk).length < 2 ^ 64)
    (hmax : frameMaxOffset (UInt8.ofNat ctx.wlog) = some max_offset) {out : Bytes}
    (hcall : ctx.compressChunk C fresh c = (ctx', .ok out)) :
    CallDone ctx ctx' hist c max_offset out := by
  rw [CStream.compressChunk] at hcall
  by_cases hlong : maxBlockSize < c.chunk.length
  · rw [if_pos hlong] at hcall
    cases hcall
  rw [if_neg hlong] at hcall
  cases hheader : ctx.header c.dst_cap with
  | error e =>
      rw [hheader] at hcall
      cases hcall
  | ok p =>
      obtain ⟨ctx1, header⟩ := p
      obtain ⟨rfl, rfl⟩ := header_written hheader
      rw [hheader] at hcall
      dsimp only at hcall
      rcases hblock : ({ ctx with header_emitted := true }.append c.chunk).block C fresh
        c.chunk.length (c.dst_cap - ctx.headerPart.length) c.is_last with ⟨ctx2, r⟩
      rw [hblock] at hcall
      cases r with
      | error e => cases hcall
      | ok block =>
          dsimp only at hcall
          have hnarrow1 : CStream.Narrow C fresh { ctx with header_emitted := true } c := by
            rw [CStream.Narrow, append_header]
            exact hnarrow
          obtain ⟨hbehind, hemitted, hopts, hwlog, hdec⟩ :=
            h.header.chunk hC (Nat.not_lt.mp hlong) hnarrow1 hmax hblock
          dsimp only at hemitted hopts hwlog hdec
          cases hfooter : ctx2.footer (c.dst_cap - ctx.headerPart.length - block.length) c.is_last with
          | error e =>
              rw [hfooter] at hcall
              cases hcall
          | ok footer =>
              rw [hfooter] at hcall
              obtain ⟨rfl, hout⟩ := Prod.mk.inj hcall
              obtain rfl := Except.ok.inj hout
              have hlast := footer_written hbehind hsize hfooter
              have hpart : ctx2.footerPart (hist ++ c.chunk) = ctx.footerPart (hist ++ c.chunk) := by
                rw [CStream.footerPart, CStream.footerPart, hopts, hwlog]
              rw [hpart] at hlast
              exact ⟨hbehind, hemitted, hopts, hwlog, block, by rw [hlast], hdec⟩

end Calls

/-! ## Frames of a stream -/

/-- Calls that do not fail, of which the last one alone is marked as the last, and all that they
    write. -/
inductive CStream.Writes (C : EntropyCoders) : CStream → List (FreshTables × ChunkCall) → Bytes → Prop
  | last {ctx : CStream} {fresh : FreshTables} {c : ChunkCall} {out : Bytes}
      (hcall : (ctx.compressChunk C fresh c).2 = .ok out) (hlast : c.is_last = true)
      (hnarrow : ctx.Narrow C fresh c) : CStream.Writes C ctx [(fresh, c)] out
  | more {ctx : CStream} {fresh : FreshTables} {c : ChunkCall}
      {rest : List (FreshTables × ChunkCall)} {out behind : Bytes}
      (hcall : (ctx.compressChunk C fresh c).2 = .ok out) (hmore : c.is_last = false)
      (hnarrow : ctx.Narrow C fresh c)
      (hrest : CStream.Writes C (ctx.compressChunk C fresh c).1 rest behind) :
      CStream.Writes C ctx ((fresh, c) :: rest) (out ++ behind)

/-- The chunks of calls. -/
def chunksOf (calls : List (FreshTables × ChunkCall)) : Bytes := calls.flatMap fun call => call.2.chunk

section Runs

variable {C : EntropyCoders} {max_offset : Nat}

/-- A chunk may be empty where it is not the last one: then there is no block for it. -/
theorem BlockChain.cons {wlog : Nat} {hist block raw stream out : Bytes} {c : ChunkCall}
    (hmore : c.is_last = false)
    (h : (c.is_last = false ∧ raw = [] ∧ block = []) ∨
      BlockFor wlog max_offset hist block raw c.is_last)
    (hchain : BlockChain wlog max_offset (hist ++ raw) stream out) :
    BlockChain wlog max_offset hist (block ++ stream) (raw ++ out) := by
  rcases h with ⟨-, rfl, rfl⟩ | hdec
  · rw [List.append_nil] at hchain
    exact hchain
  · rw [hmore] at hdec
    exact .more hdec hchain

/-- **THE CALLS OF A FRAME** write what is left of its header, a chain of blocks and its
    footer. -/
theorem CStream.Writes.chain (hC : C.Library) {ctx : CStream}
    {calls : List (FreshTables × ChunkCall)} {stream : Bytes} (h : ctx.Writes C calls stream)
    {hist : Bytes} (hbehind : ctx.Behind hist) (hsize : (hist ++ chunksOf calls).length < 2 ^ 64)
    (hmax : frameMaxOffset (UInt8.ofNat ctx.wlog) = some max_offset) :
    ∃ blocks, stream = ctx.headerPart ++ blocks ++ ctx.footerPart (hist ++ chunksOf calls) ∧
      BlockChain ctx.wlog max_offset hist blocks (chunksOf calls) := by
  induction h generalizing hist with
  | @last ctx fresh c out hcall hlast hnarrow =>
      have hchunks : chunksOf [(fresh, c)] = c.chunk := List.flatMap_singleton ..
      rw [hchunks] at hsize ⊢
      obtain ⟨-, -, -, -, block, hout, hdec⟩ :=
        hbehind.call hC hnarrow hsize hmax (Prod.ext rfl hcall)
      rw [hlast, if_pos rfl] at hout
      rw [hlast] at hdec
      exact ⟨block, hout, .last (hdec.resolve_left fun hmore => by cases hmore.1)⟩
  | @more ctx fresh c rest out behind hcall hmore hnarrow _ ih =>
      have hchunks : chunksOf ((fresh, c) :: rest) = c.chunk ++ chunksOf rest := List.flatMap_cons ..
      rw [hchunks] at hsize ⊢
      rw [← List.append_assoc] at hsize ⊢
      have hhere : (hist ++ c.chunk).length < 2 ^ 64 := by
        rw [List.length_append] at hsize
        omega
      obtain ⟨hnext, hemitted, hopts, hwlog, block, hout, hdec⟩ :=
        hbehind.call hC hnarrow hhere hmax (Prod.ext rfl hcall)
      rw [← hwlog] at hmax
      obtain ⟨blocks, hstream, hchain⟩ := ih hnext hsize hmax
      have hnoheader : (ctx.compressChunk C fresh c).1.headerPart = [] := by
        rw [CStream.headerPart, if_pos hemitted]
      have hsame : ∀ data, (ctx.compressChunk C fresh c).1.footerPart data = ctx.footerPart data := by
        intro data
        rw [CStream.footerPart, CStream.footerPart, hopts, hwlog]
      rw [hnoheader, hsame, List.nil_append] at hstream
      rw [hwlog] at hchain
      rw [hmore, if_neg Bool.false_ne_true, List.append_nil] at hout
      refine ⟨block ++ blocks, ?_, BlockChain.cons hmore hdec hchain⟩
      rw [hout, hstream]
      simp only [List.append_assoc]

/-- **A FRAME OF A STREAM** that has written nothing of it yet. -/
theorem CStream.Writes.frame (hC : C.Library) {ctx : CStream}
    {calls : List (FreshTables × ChunkCall)} {frame : Bytes} (h : ctx.Writes C calls frame)
    (hstart : ctx.Behind []) (hheader : ctx.header_emitted = false)
    (hsize : (chunksOf calls).length < 2 ^ 64) : FrameOf frame (chunksOf calls) := by
  obtain ⟨max_offset, hmax, -⟩ := frameMaxOffset_window hstart.low hstart.high
  obtain ⟨blocks, hframe, hchain⟩ := h.chain hC hstart hsize hmax
  have hvalid := hstart.valid
  rw [Options.validCstream] at hvalid
  simp only [Bool.and_eq_true, Bool.not_eq_true'] at hvalid
  obtain ⟨⟨hx86, harm⟩, -⟩ := hvalid
  have hnone : ∀ out, bcjInverse (ctx.opts.header ctx.wlog 0) out = out := by
    intro out
    rw [bcjInverse_header, hx86, harm]
    rfl
  have hput : ctx.headerPart = frameHeaderPut (ctx.opts.header ctx.wlog 0) := by
    rw [CStream.headerPart, hheader]
    rfl
  rw [hput, CStream.footerPart, List.nil_append] at hframe
  have hmade := FrameOf.made
    (checkHeader_put (fun hboth => by rw [hx86] at hboth; cases hboth.1) hmax 0)
    (header_offBytes (o := ctx.opts) hstart.low hstart.high 0) hchain
  rw [← hframe, hnone] at hmade
  exact hmade

end Runs

/-! ## Streams that were reset -/

/-- The states of a stream, through calls of any outcome and resets. -/
inductive CStream.Reached : CStream → Prop
  | create {fresh : FreshStream} {opts : Option Options} {ctx : CStream}
      (h : cstreamCreate fresh opts = some ctx) : CStream.Reached ctx
  | call {ctx : CStream} (h : ctx.Reached) (C : EntropyCoders) (fresh : FreshTables) (c : ChunkCall) :
      CStream.Reached (ctx.compressChunk C fresh c).1
  | reset {ctx ctx' : CStream} {opts : Option Options} (h : ctx.Reached)
      (hreset : ctx.reset opts = .ok ctx') : CStream.Reached ctx'

/-- A stream at the start of a frame: just created, or reset at any time. -/
inductive CStream.AtStart : CStream → Prop
  | create {fresh : FreshStream} {opts : Option Options} {ctx : CStream}
      (h : cstreamCreate fresh opts = some ctx) : CStream.AtStart ctx
  | reset {ctx ctx' : CStream} {opts : Option Options} (h : ctx.Reached)
      (hreset : ctx.reset opts = .ok ctx') : CStream.AtStart ctx'

/-- What no call takes away. -/
structure CStream.Sane (ctx : CStream) : Prop where
  low : 10 ≤ ctx.wlog
  high : ctx.wlog ≤ 24
  wlog : ctx.m.wlog = ctx.wlog
  valid : ctx.opts.validCstream = true

section Start

variable {ctx ctx' : CStream}

theorem streamLog_bounds {o : Options} (h : ¬ o.badWindow) : 10 ≤ o.streamLog ∧ o.streamLog ≤ 24 := by
  rw [Options.badWindow] at h
  rw [Options.streamLog]
  split <;> omega

/-- The start of a frame, with nothing behind it. -/
theorem startsBehind {ctx : CStream} (h : ctx.Sane)
    (hmax : ctx.m.max_match = seqMax ctx.opts.effectiveFormatV2) (hrep : ctx.m.rep = ![0, 0, 0])
    (hbuf : ctx.src_buf = []) (hcks : ctx.opts.checksum = true → HashingFrom 0 ctx.cks []) :
    ctx.Behind [] := by
  refine ⟨h.low, h.high, h.wlog, hmax, Or.inr ?_, h.valid, ?_, hcks⟩
  · intro i
    rw [hrep]
    match i with
    | 0 => exact Nat.zero_le _
    | 1 => exact Nat.zero_le _
    | 2 => exact Nat.zero_le _
  · rw [hbuf]

theorem create_starts {fresh : FreshStream} {opts : Option Options}
    (h : cstreamCreate fresh opts = some ctx) :
    ctx.Sane ∧ ctx.Behind [] ∧ ctx.header_emitted = false := by
  rw [cstreamCreate] at h
  generalize opts.getD defaultOptions = o at h
  dsimp only at h
  by_cases hrefused : ¬ o.validCstream = true ∨ o.badWindow
  · rw [if_pos hrefused] at h
    cases h
  rw [if_neg hrefused] at h
  obtain rfl := Option.some.inj h
  have hvalid : o.validCstream = true := by
    by_contra hinvalid
    exact hrefused (Or.inl hinvalid)
  have hlog := streamLog_bounds fun hbad => hrefused (Or.inr hbad)
  have hwlog : ∀ m : Matcher, m.wlog = o.streamLog →
      (if o.effectiveFormatV2 then m.setFormatV2.enableHash3 else m).wlog = o.streamLog := by
    intro m hm
    split
    · exact hm
    · exact hm
  refine ⟨⟨hlog.1, hlog.2, hwlog _ rfl, hvalid⟩,
    startsBehind ⟨hlog.1, hlog.2, hwlog _ rfl, hvalid⟩ ?_ ?_ rfl ?_, rfl⟩
  · dsimp only
    cases o.effectiveFormatV2 <;> rfl
  · dsimp only
    split <;> rfl
  · intro hsum
    dsimp only at hsum ⊢
    rw [if_pos hsum]
    exact hashingFrom_init _ _

theorem reset_starts (h : ctx.Sane) {opts : Option Options} (hreset : ctx.reset opts = .ok ctx') :
    ctx'.Sane ∧ ctx'.Behind [] ∧ ctx'.header_emitted = false := by
  have hdone : ∀ o : Options, o.validCstream = true → ctx' =
      { ctx with
        opts := o
        m := (o.configure { ctx.m with
          use_hash3 := o.effectiveFormatV2
          max_match := if o.effectiveFormatV2 then 65534 else 65535 }).reset
        src_buf := []
        global_offset := 0
        cks := if o.checksum then xxh64Init ctx.cks 0 else ctx.cks
        header_emitted := false } →
      ctx'.Sane ∧ ctx'.Behind [] ∧ ctx'.header_emitted = false := by
    intro o hvalid hctx
    subst hctx
    refine ⟨⟨h.low, h.high, h.wlog, hvalid⟩,
      startsBehind ⟨h.low, h.high, h.wlog, hvalid⟩ ?_ rfl rfl ?_, rfl⟩
    · show (if o.effectiveFormatV2 then 65534 else 65535) = seqMax o.effectiveFormatV2
      cases o.effectiveFormatV2 <;> rfl
    · intro hsum
      dsimp only at hsum ⊢
      rw [if_pos hsum]
      exact hashingFrom_init _ _
  cases opts with
  | none => exact hdone ctx.opts h.valid (Except.ok.inj hreset).symm
  | some o =>
      simp only [CStream.reset] at hreset
      split at hreset
      · cases hreset
      · rename_i hkept
        have hvalid : o.validCstream = true := by
          by_contra hinvalid
          exact hkept (decide_eq_true (Or.inl hinvalid))
        exact hdone o hvalid (Except.ok.inj hreset).symm

/-- A call keeps the window and the options, whatever its outcome. -/
theorem CStream.Sane.call (h : ctx.Sane) (C : EntropyCoders) (fresh : FreshTables) (c : ChunkCall) :
    (ctx.compressChunk C fresh c).1.Sane := by
  by_cases htakes : ctx.Takes c
  · obtain ⟨ps, -, rep, hm⟩ := compressChunk_inserts C fresh htakes
    have hsame := (ctx.append c.chunk).m.insertAll_same (ctx.append c.chunk).src_buf
      (ctx.append c.chunk).src_buf.length ps
    have hkeeps : (ctx.append c.chunk).wlog = ctx.wlog ∧ (ctx.append c.chunk).opts = ctx.opts ∧
        (ctx.append c.chunk).m.wlog = ctx.m.wlog := by
      by_cases hnone : c.chunk = []
      · rw [hnone]
        exact ⟨rfl, rfl, rfl⟩
      · obtain ⟨d, happend, hwlog, -⟩ := append_keeps ctx hnone
        exact ⟨by rw [happend], by rw [happend], hwlog⟩
    obtain ⟨hlog, hopts, hwlog⟩ := hkeeps
    rw [compressChunk_frame C fresh htakes, hm]
    refine ⟨?_, ?_, ?_, ?_⟩
    · show 10 ≤ (ctx.append c.chunk).wlog
      rw [hlog]
      exact h.low
    · show (ctx.append c.chunk).wlog ≤ 24
      rw [hlog]
      exact h.high
    · show ((ctx.append c.chunk).m.insertAll _ _ ps).wlog = (ctx.append c.chunk).wlog
      rw [hsame.wlog, hwlog, hlog]
      exact h.wlog
    · show (ctx.append c.chunk).opts.validCstream = true
      rw [hopts]
      exact h.valid
  · rw [compressChunk_refused C fresh htakes]
    exact h

theorem CStream.Reached.sane (h : ctx.Reached) : ctx.Sane := by
  induction h with
  | create h => exact (create_starts h).1
  | call _ C fresh c ih => exact ih.call C fresh c
  | reset _ hreset ih => exact (reset_starts ih hreset).1

theorem CStream.AtStart.behind (h : ctx.AtStart) : ctx.Behind [] ∧ ctx.header_emitted = false := by
  cases h with
  | create h => exact (create_starts h).2
  | reset h hreset => exact (reset_starts h.sane hreset).2

end Start

/-- **FEW LITERALS** in every block of a stream of the second format or without an entropy
    stage. -/
theorem streamNarrow_of {ctx : CStream} (h : ctx.opts.effectiveFormatV2 = true ∨
    ctx.opts.mode = .ultraFast) (C : EntropyCoders) (fresh : FreshTables) (c : ChunkCall) :
    ctx.Narrow C fresh c := by
  have hopts : (ctx.append c.chunk).opts = ctx.opts := by
    by_cases hnone : c.chunk = []
    · rw [hnone]
      rfl
    · obtain ⟨d, happend, -⟩ := append_keeps ctx hnone
      rw [happend]
  rcases h with hv2 | hfast
  · exact narrow_of_v2 (by rw [streamArgs_v2, hopts, hv2]) _
  · intro hmode
    have hsame : ((ctx.append c.chunk).blockArgs c.chunk.length c.dst_cap c.is_last).mode =
        ctx.opts.mode := by
      rw [← hopts]
      rfl
    rw [hsame, hfast] at hmode
    cases hmode

/-- The options of a stream that writes plain tokens. -/
def fastOptions : Options := { smallWindow with mode := .ultraFast }

/-- Its stream. -/
def fastStream : CStream :=
  { opts := fastOptions
    wlog := 10
    m := fastOptions.configure (matcherInit zeroTables 10 4 false none)
    src_cap := 2 ^ 10 * 2 + maxBlockSize
    src_buf := []
    global_offset := 0
    cks := xxh64Init zeroHash 0
    header_emitted := false }

/-- The stream after a call that had room for the header alone, and a reset. -/
def fastAgain : CStream :=
  match (fastStream.compressChunk noCoders zeroTables ⟨[9], 16, false⟩).1.reset none with
  | .ok ctx => ctx
  | .error _ => fastStream

theorem fastAgain_atStart : fastAgain.AtStart := by
  have hcreated : cstreamCreate ⟨zeroTables, zeroHash⟩ (some fastOptions) = some fastStream := rfl
  have hreached := (CStream.Reached.create hcreated).call noCoders zeroTables ⟨[9], 16, false⟩
  have hreset : (fastStream.compressChunk noCoders zeroTables ⟨[9], 16, false⟩).1.reset none =
      .ok fastAgain := rfl
  exact .reset hreached hreset

/-- Three calls of a frame, the second without a chunk. -/
def fastCalls : List (FreshTables × ChunkCall) :=
  [(zeroTables, ⟨List.replicate 20 7, 100, false⟩), (zeroTables, ⟨[], 0, false⟩),
    (zeroTables, ⟨List.replicate 12 7, 100, true⟩)]

/-- Their frame: the second block is a match with the first one. -/
def fastFrame : Bytes :=
  [0, 1, 86, 86, 1, 1, 0, 10, 0, 0, 0, 0, 0, 0, 0, 0, 161, 0, 0, 0, 6, 0, 0, 31, 7, 1, 0, 0, 0] ++
    ([] ++ [101, 0, 0, 0, 4, 0, 0, 8, 1, 0, 0, 167, 66, 208, 249, 39, 134, 102, 155, 68, 78, 86, 86])

set_option maxRecDepth 20000 in
theorem fastCalls_write : fastAgain.Writes noCoders fastCalls fastFrame := by
  have hnarrow : ∀ ctx : CStream, ctx.opts = fastOptions → ∀ c, ctx.Narrow noCoders zeroTables c := by
    intro ctx hopts c
    refine streamNarrow_of (Or.inr ?_) noCoders zeroTables c
    rw [hopts]
    rfl
  exact .more (by decide) rfl (hnarrow _ rfl _)
    (.more (by decide) rfl (hnarrow _ rfl _) (.last (by decide) rfl (hnarrow _ rfl _)))

end Zupt.VaptVupt
