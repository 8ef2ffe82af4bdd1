import Zupt.HashChain
import Zupt.VaptVupt.Encoder

/-! # The streaming encoder

    `vv_cstream_create`, `vv_cstream_reset` and `vv_cstream_compress_chunk` of
    `vv_encoder.c`.  A stream keeps the matcher and a source buffer from chunk to
    chunk; when the buffer is full, the last window of it is moved to the front
    and the tables of the matcher are based anew. -/

namespace Zupt.VaptVupt

open Zupt.LittleEndian Zupt.HashChain

/-- `struct vv_cstream_s`, without the scratch buffers, of which only the sizes
    matter.  `src_buf` is the part of the buffer that is filled. -/
structure CStream where
  opts : Options
  wlog : Nat
  m : Matcher
  src_cap : Nat
  src_buf : Bytes
  global_offset : Nat
  cks : Xxh64State
  header_emitted : Bool

/-- `valid_cstream_options`. -/
def Options.validCstream (o : Options) : Bool := !o.filter_x86 && !o.filter_arm64 && !o.filter_auto

/-- The window of a stream. -/
def Options.streamLog (o : Options) : Nat := if o.window_log = 0 then 16 else o.window_log

/-- The parts of a matcher that follow the options of a stream. -/
def Options.configure (o : Options) (m : Matcher) : Matcher :=
  { m with
    chain_depth := o.depth
    single_probe := o.mode = .ultraFast
    accel := o.effectiveAccel
    no_rep := o.no_rep }

/-- What `malloc` and `calloc` returned to a stream. -/
structure FreshStream where
  tables : FreshTables
  cks : Xxh64State

/-- `vv_cstream_create`, where every allocation is granted. -/
def cstreamCreate (fresh : FreshStream) (opts : Option Options) : Option CStream :=
  let o := opts.getD defaultOptions
  if ¬ o.validCstream ∨ o.badWindow then none
  else
    let wlog := o.streamLog
    let m := o.configure (matcherInit fresh.tables wlog o.depth false none)
    let m := if o.effectiveFormatV2 then m.setFormatV2.enableHash3 else m
    some
      { opts := o
        wlog := wlog
        m := m
        src_cap := 2 ^ wlog * 2 + maxBlockSize
        src_buf := []
        global_offset := 0
        cks := if o.checksum then xxh64Init fresh.cks 0 else fresh.cks
        header_emitted := false }

/-- `matcher_reset`. -/
def Matcher.reset (m : Matcher) : Matcher :=
  { m with
    table := fun _ => -1
    table4 := fun _ => -1
    table3 := fun _ => -1
    rep := ![0, 0, 0]
    use_hash4 := false }

/-- `vv_cstream_reset`. -/
def CStream.reset (ctx : CStream) (opts : Option Options) : Except VvError CStream :=
  let refused := match opts with
    | none => false
    | some o => decide (¬ o.validCstream ∨ o.badWindow ∨ o.streamLog ≠ ctx.wlog)
  if refused then .error .param
  else
    let o := opts.getD ctx.opts
    let use_v2 := o.effectiveFormatV2
    let m := o.configure
      { ctx.m with use_hash3 := use_v2, max_match := if use_v2 then 65534 else 65535 }
    .ok
      { ctx with
        opts := o
        m := m.reset
        src_buf := []
        global_offset := 0
        cks := if o.checksum then xxh64Init ctx.cks 0 else ctx.cks
        header_emitted := false }

/-! ## Compaction -/

/-- The adjustment of the matcher: the roots and the links of the first table
    and, where there is one, of the fourth. -/
def Matcher.shift (m : Matcher) (drop : Nat) : Matcher :=
  { m with
    table := fun h => rebase drop (m.table h)
    table4 := fun h => if m.use_hash4 then rebase drop (m.table4 h) else m.table4 h
    chain := fun i => rebase drop (m.chain i)
    hash4_chain := fun i => if m.use_hash4 then rebase drop (m.hash4_chain i) else m.hash4_chain i }

/-- How many bytes the compaction drops. -/
def CStream.drop (ctx : CStream) : Nat :=
  ctx.src_buf.length - (if 2 ^ ctx.wlog < ctx.src_buf.length then 2 ^ ctx.wlog
    else ctx.src_buf.length)

/-- The compaction, if the chunk does not fit behind what is there. -/
def CStream.compact (ctx : CStream) (chunk_len : Nat) : CStream :=
  if ctx.src_cap < ctx.src_buf.length + chunk_len then
    if 0 < ctx.drop then
      { ctx with src_buf := ctx.src_buf.drop ctx.drop, m := ctx.m.shift ctx.drop }
    else ctx
  else ctx

/-- The chunk into the buffer. -/
def CStream.append (ctx : CStream) (chunk : Bytes) : CStream :=
  if 0 < chunk.length then
    let ctx := ctx.compact chunk.length
    { ctx with
      src_buf := ctx.src_buf ++ chunk
      global_offset := ctx.global_offset + chunk.length
      cks := if ctx.opts.checksum then xxh64Update ctx.cks chunk else ctx.cks }
  else ctx

/-! ## A chunk -/

/-- The header, in the first call. -/
def CStream.header (ctx : CStream) (dst_cap : Nat) : Except VvError (CStream × Bytes) :=
  if ctx.header_emitted then .ok (ctx, [])
  else if dst_cap < 16 then .error .overflow
  else .ok ({ ctx with header_emitted := true }, frameHeaderPut (ctx.opts.header ctx.wlog 0))

/-- The block of a chunk that was appended, with `cap_left` bytes of room. -/
def CStream.blockArgs (ctx : CStream) (chunk_len cap_left : Nat) (is_last : Bool) : EmitArgs where
  src := ctx.src_buf
  block_start := ctx.src_buf.length - chunk_len
  braw := chunk_len
  last := is_last
  mode := ctx.opts.mode
  wlog := ctx.wlog
  tcap := maxBlockSize + maxBlockSize / 255 + 1024
  lit_cap := maxBlockSize
  ent_cap := 2 * vvaBound maxBlockSize
  dst_cap := cap_left
  min_match := if ctx.opts.effectiveFormatV2 then 3 else minMatch
  compat_v246_5 := ctx.opts.compat_v246_5_decoder

/-- The block; an empty last chunk gets an empty one. -/
def CStream.block (C : EntropyCoders) (fresh : FreshTables) (ctx : CStream) (chunk_len cap_left : Nat)
    (is_last : Bool) : CStream × Except VvError Bytes :=
  if chunk_len = 0 then
    if is_last then
      if cap_left < 4 then (ctx, .error .overflow) else (ctx, .ok (bhPut .raw true 0))
    else (ctx, .ok [])
  else
    match emitBlock C fresh (ctx.blockArgs chunk_len cap_left is_last) ctx.m with
    | (m, none) => ({ ctx with m := m }, .error .overflow)
    | (m, some block) => ({ ctx with m := m }, .ok block)

/-- The footer behind the last block. -/
def CStream.footer (ctx : CStream) (cap_left : Nat) (is_last : Bool) : Except VvError Bytes :=
  if is_last ∧ ctx.opts.checksum then
    if cap_left < 12 then .error .overflow else .ok (footerPut (xxh64Finalize ctx.cks))
  else .ok []

/-- The arguments of a call. -/
structure ChunkCall where
  chunk : Bytes
  dst_cap : Nat
  is_last : Bool
  deriving DecidableEq, Repr

/-- `vv_cstream_compress_chunk`: the stream as it leaves it, and what it wrote.
    Where it fails the stream stays as far as it had come. -/
def CStream.compressChunk (C : EntropyCoders) (fresh : FreshTables) (ctx : CStream) (c : ChunkCall) :
    CStream × Except VvError Bytes :=
  if maxBlockSize < c.chunk.length then (ctx, .error .param)
  else
    match ctx.header c.dst_cap with
    | .error e => (ctx, .error e)
    | .ok (ctx, header) =>
        let cap_left := c.dst_cap - header.length
        match (ctx.append c.chunk).block C fresh c.chunk.length cap_left c.is_last with
        | (ctx, .error e) => (ctx, .error e)
        | (ctx, .ok block) =>
            match ctx.footer (cap_left - block.length) c.is_last with
            | .error e => (ctx, .error e)
            | .ok footer => (ctx, .ok (header ++ block ++ footer))

end Zupt.VaptVupt
