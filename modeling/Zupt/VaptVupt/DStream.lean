import Zupt.VaptVupt.FrameMachine

/-! # Streaming decompression

    `vv_dstream_t` and its operations: an input buffer that grows and is
    compacted, the states of one frame, the running checksum, and the caller's
    destination, into which the output goes.

    The unread part of the input buffer is all the operations see of it
    (`pending`), so a context tracks the frame machine (`Tracks`), and a run
    over chunks is the machine on their concatenation. -/

namespace Zupt.VaptVupt

open Zupt.LittleEndian Zupt.Memory Zupt.Resumable

/-- `vv_dstream_state_t`. -/
inductive DState where
  | header | block | footer | done | error
  deriving DecidableEq, Repr

/-- `vv_dstream_t`.  Pointers of the caller are addresses. -/
structure DStream where
  state : DState
  fh : FrameHeader
  has_checksum : Bool
  off_bytes : Nat
  in_buf : Mem UInt8
  in_cap : Nat
  in_pos : Nat
  in_len : Nat
  max_offset : Nat
  output_pos : Nat
  dst_base_saved : Option Nat
  cks : Xxh64State

/-- `SIZE_MAX`. -/
def sizeMax : Nat := 2 ^ 64 - 1

/-- A header of zeroes, as `memset` and `calloc` leave it. -/
def zeroHeader : FrameHeader := ⟨0, 0, 0, 0, 0, 0⟩

/-- A hash state of zeroes. -/
def zeroHash : Xxh64State := ⟨⟨0, 0, 0, 0⟩, 0, fun _ => 0, 0, 0⟩

/-- `vv_dstream_create`; `junk` is what `malloc` finds in the input buffer. -/
def dstreamCreate (junk : Mem UInt8) : DStream where
  state := .header
  fh := zeroHeader
  has_checksum := false
  off_bytes := 0
  in_buf := junk
  in_cap := 65536
  in_pos := 0
  in_len := 0
  max_offset := 0
  output_pos := 0
  dst_base_saved := none
  cks := xxh64Init zeroHash 0

/-- `vv_dstream_reset`, which keeps the input buffer. -/
def dstreamReset (ctx : DStream) : DStream :=
  { ctx with
      state := .header, has_checksum := false, off_bytes := 0, max_offset := 0,
      in_pos := 0, in_len := 0, output_pos := 0, dst_base_saved := none,
      fh := zeroHeader, cks := xxh64Init ctx.cks 0 }

/-- The doubling loop of `dstream_reserve`; as the capacity is positive, the
    size of an address is enough turns. -/
def growCap (need : Nat) : (turns new_cap : Nat) → Nat
  | 0, _ => need
  | turns + 1, new_cap =>
      if new_cap < need then
        if sizeMax / 2 < new_cap then need else growCap need turns (new_cap * 2)
      else new_cap

/-- `dstream_reserve`.  `realloc` keeps what the buffer holds. -/
def dstreamReserve (ctx : DStream) (need : Nat) : DStream :=
  if need ≤ ctx.in_cap then ctx else { ctx with in_cap := growCap need 64 ctx.in_cap }

/-- The compaction of `dstream_append`. -/
def dstreamCompact (ctx : DStream) (src_len : Nat) : DStream :=
  if 0 < ctx.in_pos ∧ ctx.in_cap - (ctx.in_pos + ctx.in_len) < src_len then
    { ctx with in_buf := write ctx.in_buf 0 (read ctx.in_buf ctx.in_pos ctx.in_len), in_pos := 0 }
  else ctx

/-- The context in front of the `memcpy` of `dstream_append`. -/
def dstreamMakeRoom (ctx : DStream) (src_len : Nat) : DStream :=
  let ctx := dstreamCompact ctx src_len
  if ctx.in_cap - (ctx.in_pos + ctx.in_len) < src_len then
    dstreamReserve ctx (ctx.in_len + src_len)
  else ctx

/-- `dstream_append`. -/
def dstreamAppend (ctx : DStream) (src : Bytes) : Option DStream :=
  if sizeMax - ctx.in_len < src.length then none
  else
    let ctx := dstreamMakeRoom ctx src.length
    some { ctx with in_buf := write ctx.in_buf (ctx.in_pos + ctx.in_len) src,
                    in_len := ctx.in_len + src.length }

/-- `dstream_consume`. -/
def dstreamConsume (ctx : DStream) (n : Nat) : DStream :=
  if ctx.in_len ≤ n then { ctx with in_pos := 0, in_len := 0 }
  else { ctx with in_pos := ctx.in_pos + n, in_len := ctx.in_len - n }

/-- The unread part of the input buffer. -/
def pending (ctx : DStream) : Bytes := read ctx.in_buf ctx.in_pos ctx.in_len

/-- What a call answers: `VV_OK`, 1, or an error. -/
inductive Ret where
  | needMore
  | finished
  | fail (e : VvError)
  deriving DecidableEq, Repr

/-- A call that returned: its answer, `*consumed` and `*written`, the context
    and the destination behind it. -/
structure Call where
  ret : Ret
  consumed : Nat
  written : Nat
  ctx : DStream
  dst : Mem UInt8

/-- `ctx->state = VV_DSTREAM_ERROR; return e`. -/
def failed (ctx : DStream) (dst : Mem UInt8) (consumed : Nat) (e : VvError) : Call :=
  ⟨.fail e, consumed, 0, { ctx with state := .error }, dst⟩

/-- `*written = ctx->output_pos; return VV_OK`. -/
def waiting (ctx : DStream) (dst : Mem UInt8) (consumed : Nat) : Call :=
  ⟨.needMore, consumed, ctx.output_pos, ctx, dst⟩

/-- `dstream_finish`, and the return of 1 behind it. -/
def dstreamFinish (ctx : DStream) (dst : Mem UInt8) (consumed : Nat) : Call :=
  ⟨.finished, consumed, ctx.output_pos, { ctx with state := .done },
    write dst 0 (bcjInverse ctx.fh (read dst 0 ctx.output_pos))⟩

/-- The context behind a decoded block: its bytes went into the checksum, and
    its input is used up. -/
def advance (ctx : DStream) (new : Bytes) (taken : Nat) : DStream :=
  dstreamConsume
    { ctx with
        cks := if ctx.has_checksum ∧ 0 < new.length then xxh64Update ctx.cks new else ctx.cks,
        output_pos := ctx.output_pos + new.length }
    taken

/-- The context behind a header that passed its checks. -/
def enterBlocks (ctx : DStream) (max_offset : Nat) : DStream :=
  { dstreamConsume
      { ctx with max_offset := max_offset, has_checksum := ctx.fh.hasChecksum,
                 off_bytes := ctx.fh.offBytes } 16 with state := .block }

/-- The state machine of `vv_dstream_decompress_chunk`, one state a turn.  Each
    turn that goes on uses up input, so one turn more than there is input is
    enough. -/
def dstreamLoop (D : BlockDecoders) (dst_cap consumed : Nat) :
    (turns : Nat) → DStream → Mem UInt8 → Call
  | 0, ctx, dst => waiting ctx dst consumed
  | turns + 1, ctx, dst =>
      match ctx.state with
      | .header =>
          if ctx.in_len < 16 then waiting ctx dst consumed
          else
            let ctx := { ctx with fh := frameHeaderGet (pending ctx) }
            match checkHeader ctx.fh with
            | .error e => failed ctx dst consumed e
            | .ok max_offset =>
                dstreamLoop D dst_cap consumed turns (enterBlocks ctx max_offset) dst
      | .block =>
          match streamBlock D ctx.off_bytes ctx.max_offset (dst_cap - ctx.output_pos)
              (read dst 0 ctx.output_pos) (pending ctx) with
          | .needMore => waiting ctx dst consumed
          | .fail e => failed ctx dst consumed e
          | .done new last taken =>
              let dst := write dst ctx.output_pos new
              let ctx := advance ctx new taken
              if last then
                if ctx.has_checksum then
                  dstreamLoop D dst_cap consumed turns { ctx with state := .footer } dst
                else dstreamFinish ctx dst consumed
              else dstreamLoop D dst_cap consumed turns ctx dst
      | .footer =>
          if ctx.in_len < 12 then waiting ctx dst consumed
          else if le32Get ((pending ctx).drop 8) ≠ 0x56564E44 then
            failed ctx dst consumed .corrupt
          else if xxh64Finalize ctx.cks ≠ le64Get (pending ctx) then
            failed ctx dst consumed .corrupt
          else dstreamFinish (dstreamConsume ctx 12) dst consumed
      | .done => ⟨.finished, consumed, ctx.output_pos, ctx, dst⟩
      | .error => failed ctx dst consumed .corrupt

/-- The part of `vv_dstream_decompress_chunk` behind its checks. -/
def takeChunk (D : BlockDecoders) (ctx : DStream) (src : Bytes) (addr : Nat) (dst : Mem UInt8)
    (dst_cap : Nat) : Call :=
  match (if 0 < src.length then dstreamAppend ctx src else some ctx) with
  | none => failed ctx dst 0 .nomem
  | some ctx =>
      dstreamLoop D dst_cap src.length (ctx.in_len + 1)
        { ctx with dst_base_saved := some (ctx.dst_base_saved.getD addr) } dst

/-- `vv_dstream_decompress_chunk`, where `dst` is the caller's buffer at the
    address `addr`. -/
def decompressChunk (D : BlockDecoders) (ctx : DStream) (src : Bytes) (addr : Nat)
    (dst : Mem UInt8) (dst_cap : Nat) : Call :=
  match ctx.state with
  | .error => ⟨.fail .corrupt, 0, 0, ctx, dst⟩
  | .done => ⟨.finished, 0, ctx.output_pos, ctx, dst⟩
  | .header | .block | .footer =>
      if ctx.dst_base_saved ≠ none ∧ ctx.dst_base_saved ≠ some addr then
        ⟨.fail .param, 0, 0, ctx, dst⟩
      else if dst_cap < ctx.output_pos then ⟨.fail .overflow, 0, 0, ctx, dst⟩
      else takeChunk D ctx src addr dst dst_cap

/-- The calls over a sequence of chunks, all with one destination. -/
def runChunks (D : BlockDecoders) (addr dst_cap : Nat) :
    DStream → Mem UInt8 → List Bytes → List Call
  | _, _, [] => []
  | ctx, dst, src :: chunks =>
      let call := decompressChunk D ctx src addr dst dst_cap
      call :: runChunks D addr dst_cap call.ctx call.dst chunks

/-! ## What an operation leaves alone -/

section Fields

variable (ctx : DStream) (n : Nat)

@[simp] theorem consume_state : (dstreamConsume ctx n).state = ctx.state := by
  unfold dstreamConsume
  split <;> rfl

@[simp] theorem consume_fh : (dstreamConsume ctx n).fh = ctx.fh := by
  unfold dstreamConsume
  split <;> rfl

@[simp] theorem consume_has_checksum : (dstreamConsume ctx n).has_checksum = ctx.has_checksum := by
  unfold dstreamConsume
  split <;> rfl

@[simp] theorem consume_off_bytes : (dstreamConsume ctx n).off_bytes = ctx.off_bytes := by
  unfold dstreamConsume
  split <;> rfl

@[simp] theorem consume_max_offset : (dstreamConsume ctx n).max_offset = ctx.max_offset := by
  unfold dstreamConsume
  split <;> rfl

@[simp] theorem consume_output_pos : (dstreamConsume ctx n).output_pos = ctx.output_pos := by
  unfold dstreamConsume
  split <;> rfl

@[simp] theorem consume_dst_base_saved : (dstreamConsume ctx n).dst_base_saved = ctx.dst_base_saved := by
  unfold dstreamConsume
  split <;> rfl

@[simp] theorem consume_cks : (dstreamConsume ctx n).cks = ctx.cks := by
  unfold dstreamConsume
  split <;> rfl

end Fields

/-- Contexts that differ in their input buffers only. -/
structure SameFrame (c d : DStream) : Prop where
  state : c.state = d.state
  fh : c.fh = d.fh
  sum : c.has_checksum = d.has_checksum
  width : c.off_bytes = d.off_bytes
  window : c.max_offset = d.max_offset
  pos : c.output_pos = d.output_pos
  base : c.dst_base_saved = d.dst_base_saved
  cks : c.cks = d.cks

theorem SameFrame.refl (c : DStream) : SameFrame c c := ⟨rfl, rfl, rfl, rfl, rfl, rfl, rfl, rfl⟩

theorem SameFrame.trans {c d e : DStream} (h : SameFrame c d) (g : SameFrame d e) :
    SameFrame c e :=
  ⟨h.state.trans g.state, h.fh.trans g.fh, h.sum.trans g.sum, h.width.trans g.width,
    h.window.trans g.window, h.pos.trans g.pos, h.base.trans g.base, h.cks.trans g.cks⟩

theorem sameFrame_compact (ctx : DStream) (n : Nat) : SameFrame (dstreamCompact ctx n) ctx := by
  rw [dstreamCompact]
  split
  · exact ⟨rfl, rfl, rfl, rfl, rfl, rfl, rfl, rfl⟩
  · exact .refl _

theorem sameFrame_reserve (ctx : DStream) (n : Nat) : SameFrame (dstreamReserve ctx n) ctx := by
  rw [dstreamReserve]
  split
  · exact .refl _
  · exact ⟨rfl, rfl, rfl, rfl, rfl, rfl, rfl, rfl⟩

theorem sameFrame_append {ctx ctx' : DStream} {src : Bytes}
    (h : dstreamAppend ctx src = some ctx') : SameFrame ctx' ctx := by
  have hroom : SameFrame (dstreamMakeRoom ctx src.length) ctx := by
    rw [dstreamMakeRoom]
    split
    · exact (sameFrame_reserve _ _).trans (sameFrame_compact _ _)
    · exact sameFrame_compact _ _
  rw [dstreamAppend] at h
  split at h
  · cases h
  · obtain rfl := Option.some.inj h
    exact ⟨hroom.state, hroom.fh, hroom.sum, hroom.width, hroom.window, hroom.pos, hroom.base,
      hroom.cks⟩

/-! ## The input buffer -/

section Buffer

variable {ctx : DStream} {src : Bytes}

/-- The unread part lies within the buffer. -/
def Roomy (ctx : DStream) : Prop := ctx.in_pos + ctx.in_len ≤ ctx.in_cap

theorem le_growCap (need turns new_cap : Nat) : need ≤ growCap need turns new_cap := by
  induction turns generalizing new_cap with
  | zero => exact Nat.le_refl _
  | succ turns ih =>
      rw [growCap]
      by_cases hlt : new_cap < need
      · rw [if_pos hlt]
        by_cases hmax : sizeMax / 2 < new_cap
        · rw [if_pos hmax]
        · rw [if_neg hmax]
          exact ih _
      · rw [if_neg hlt]
        omega

@[simp] theorem pending_length (ctx : DStream) : (pending ctx).length = ctx.in_len :=
  read_length _ _ _

/-- Compaction moves the unread part to the front and changes nothing of it. -/
theorem pending_compact (n : Nat) : pending (dstreamCompact ctx n) = pending ctx := by
  rw [dstreamCompact]
  by_cases h : 0 < ctx.in_pos ∧ ctx.in_cap - (ctx.in_pos + ctx.in_len) < n
  · rw [if_pos h]
    exact read_write_self _ (read_length _ _ _)
  · rw [if_neg h]

theorem pending_reserve (n : Nat) : pending (dstreamReserve ctx n) = pending ctx := by
  rw [dstreamReserve]
  by_cases h : n ≤ ctx.in_cap
  · rw [if_pos h]
  · rw [if_neg h]
    rfl

theorem pending_makeRoom (n : Nat) : pending (dstreamMakeRoom ctx n) = pending ctx := by
  rw [dstreamMakeRoom]
  split
  · rw [pending_reserve, pending_compact]
  · exact pending_compact n

/-- Compaction happens exactly where the space behind the unread part is too
    small and there is some in front of it. -/
theorem compact_pos (n : Nat)
    (h : (dstreamCompact ctx n).in_cap -
      ((dstreamCompact ctx n).in_pos + (dstreamCompact ctx n).in_len) < n) :
    (dstreamCompact ctx n).in_pos = 0 := by
  rw [dstreamCompact] at h ⊢
  by_cases hc : 0 < ctx.in_pos ∧ ctx.in_cap - (ctx.in_pos + ctx.in_len) < n
  · rw [if_pos hc]
  · rw [if_neg hc] at h ⊢
    omega

theorem roomy_compact (n : Nat) (h : Roomy ctx) : Roomy (dstreamCompact ctx n) := by
  rw [dstreamCompact]
  by_cases hc : 0 < ctx.in_pos ∧ ctx.in_cap - (ctx.in_pos + ctx.in_len) < n
  · rw [if_pos hc]
    unfold Roomy at h ⊢
    dsimp only
    omega
  · rw [if_neg hc]
    exact h

/-- **THE COPY STAYS IN BOUNDS**: there is room for the input behind the unread
    part. -/
theorem makeRoom_fits (n : Nat) (h : Roomy ctx) :
    (dstreamMakeRoom ctx n).in_pos + (dstreamMakeRoom ctx n).in_len + n ≤
      (dstreamMakeRoom ctx n).in_cap := by
  have hroomy := roomy_compact n h
  unfold Roomy at hroomy
  rw [dstreamMakeRoom]
  split
  case isTrue hlt =>
    have hzero := compact_pos n hlt
    rw [dstreamReserve]
    split
    case isTrue hneed => omega
    case isFalse hneed =>
      have hgrown := le_growCap ((dstreamCompact ctx n).in_len + n) 64
        (dstreamCompact ctx n).in_cap
      dsimp only
      omega
  case isFalse hge => omega

theorem pending_append {ctx' : DStream} (h : dstreamAppend ctx src = some ctx') :
    pending ctx' = pending ctx ++ src := by
  rw [dstreamAppend] at h
  by_cases hmax : sizeMax - ctx.in_len < src.length
  · rw [if_pos hmax] at h
    cases h
  · rw [if_neg hmax] at h
    obtain rfl := Option.some.inj h
    have hkeep : pending (dstreamMakeRoom ctx src.length) = pending ctx := pending_makeRoom _
    rw [← hkeep]
    exact read_write_append _ _ _ _

theorem roomy_append {ctx' : DStream} (hroomy : Roomy ctx)
    (h : dstreamAppend ctx src = some ctx') : Roomy ctx' := by
  have hfits := makeRoom_fits src.length hroomy
  have hlen : (dstreamMakeRoom ctx src.length).in_len = ctx.in_len := by
    rw [← pending_length, pending_makeRoom, pending_length]
  rw [dstreamAppend] at h
  by_cases hmax : sizeMax - ctx.in_len < src.length
  · rw [if_pos hmax] at h
    cases h
  · rw [if_neg hmax] at h
    obtain rfl := Option.some.inj h
    unfold Roomy
    dsimp only
    omega

theorem pending_consume (n : Nat) : pending (dstreamConsume ctx n) = (pending ctx).drop n := by
  rw [dstreamConsume]
  by_cases h : ctx.in_len ≤ n
  · rw [if_pos h, List.drop_of_length_le (by rw [pending_length]; exact h)]
    rfl
  · rw [if_neg h]
    exact (read_drop _ _ _ _ (by omega)).symm

theorem roomy_consume (n : Nat) (h : Roomy ctx) : Roomy (dstreamConsume ctx n) := by
  rw [dstreamConsume]
  unfold Roomy at h ⊢
  split
  · exact Nat.zero_le _
  · dsimp only
    omega

end Buffer

end Zupt.VaptVupt
