import Zupt.VaptVupt.DStream

/-! # The stream tracks the frame machine

    A context between two calls stands for a state of the frame machine, the
    unread input for what the machine waits with.  Each turn of the loop is a
    step of the machine, so a call settles it. -/

namespace Zupt.VaptVupt

open Zupt.LittleEndian Zupt.Memory Zupt.Resumable

/-- What a frame has produced in a state. -/
def FrameState.out : FrameState → Bytes
  | .header => []
  | .block _ _ out => out
  | .footer _ out => out

/-- The destination holds `out`, and the running checksum has seen it. -/
structure HasWritten (dst_cap : Nat) (ctx : DStream) (dst : Mem UInt8) (out : Bytes) : Prop where
  pos : ctx.output_pos = out.length
  bytes : read dst 0 out.length = out
  fits : out.length ≤ dst_cap
  hashed : ctx.has_checksum = true → Hashing ctx.cks out

/-- A context that stands for a state of the machine. -/
def Tracks (dst_cap : Nat) (ctx : DStream) (dst : Mem UInt8) : FrameState → Prop
  | .header => ctx.state = .header ∧ ctx.output_pos = 0 ∧ Hashing ctx.cks []
  | .block fh maxOffset out =>
      ctx.state = .block ∧ ctx.fh = fh ∧ ctx.has_checksum = fh.hasChecksum ∧
        ctx.off_bytes = fh.offBytes ∧ ctx.max_offset = maxOffset ∧ HasWritten dst_cap ctx dst out
  | .footer fh out =>
      ctx.state = .footer ∧ ctx.fh = fh ∧ ctx.has_checksum = true ∧ HasWritten dst_cap ctx dst out

/-- A call that reported the end of a frame. -/
structure Ended (call : Call) (f : Finished) : Prop where
  ret : call.ret = .finished
  written : call.written = f.plain.length
  bytes : read call.dst 0 f.plain.length = f.out
  state : call.ctx.state = .done
  pos : call.ctx.output_pos = f.plain.length

/-- A call that did what the machine did. -/
def Follows (dst_cap : Nat) (call : Call) : Settled UInt8 FrameState Ending → Prop
  | .paused s p =>
      call.ret = .needMore ∧ call.written = s.out.length ∧
        Tracks dst_cap call.ctx call.dst s ∧ pending call.ctx = p
  | .halted (.error e) _ => call.ret = .fail e ∧ call.ctx.state = .error
  | .halted (.ok f) _ => Ended call f

section Turn

variable {D : BlockDecoders} {dst_cap : Nat} {ctx : DStream} {dst : Mem UInt8}

theorem Finished.out_length (f : Finished) : f.out.length = f.plain.length :=
  bcjInverse_length _ _

/-- The bytes of a decoded block behind those of the blocks before it. -/
theorem HasWritten.advance {out new : Bytes} (h : HasWritten dst_cap ctx dst out)
    (hnew : new.length ≤ dst_cap - out.length) (taken : Nat) :
    HasWritten dst_cap (advance ctx new taken) (write dst ctx.output_pos new) (out ++ new) := by
  have hfits := h.fits
  constructor
  · rw [VaptVupt.advance, consume_output_pos, List.length_append, ← h.pos]
  · rw [List.length_append, h.pos]
    have := read_write_append dst 0 out.length new
    rwa [Nat.zero_add, h.bytes] at this
  · rw [List.length_append]
    omega
  · rw [VaptVupt.advance, consume_has_checksum, consume_cks]
    dsimp only
    intro hsum
    by_cases hpos : 0 < new.length
    · rw [if_pos ⟨hsum, hpos⟩]
      exact hashing_update (h.hashed hsum) new
    · have hnil : new = [] := List.eq_nil_of_length_eq_zero (by omega)
      rw [if_neg (fun hboth => hpos hboth.2), hnil, List.append_nil]
      exact h.hashed hsum

/-- What a decoded block leaves alone. -/
theorem advance_fields (ctx : DStream) (new : Bytes) (taken : Nat) :
    (advance ctx new taken).state = ctx.state ∧ (advance ctx new taken).fh = ctx.fh ∧
      (advance ctx new taken).has_checksum = ctx.has_checksum ∧
      (advance ctx new taken).off_bytes = ctx.off_bytes ∧
      (advance ctx new taken).max_offset = ctx.max_offset :=
  ⟨consume_state _ _, consume_fh _ _, consume_has_checksum _ _, consume_off_bytes _ _,
    consume_max_offset _ _⟩

theorem pending_advance (new : Bytes) (taken : Nat) :
    pending (advance ctx new taken) = (pending ctx).drop taken :=
  pending_consume taken

theorem pending_enterBlocks (ctx : DStream) (m : Nat) : pending (enterBlocks ctx m) = (pending ctx).drop 16 :=
  pending_consume 16

/-- Finishing a frame undoes the branch filters over its output. -/
theorem ended_finish {fh : FrameHeader} {out : Bytes} (consumed : Nat) (hfh : ctx.fh = fh)
    (h : HasWritten dst_cap ctx dst out) : Ended (dstreamFinish ctx dst consumed) ⟨fh, out⟩ where
  ret := rfl
  written := h.pos
  bytes := by
    show read (write dst 0 (bcjInverse ctx.fh (read dst 0 ctx.output_pos))) 0 out.length = _
    rw [h.pos, h.bytes, hfh]
    exact read_write_self _ (bcjInverse_length _ _)
  state := rfl
  pos := h.pos

theorem holds_consume {out : Bytes} (n : Nat) (h : HasWritten dst_cap ctx dst out) :
    HasWritten dst_cap (dstreamConsume ctx n) dst out := by
  refine ⟨?_, h.bytes, h.fits, ?_⟩
  · rw [consume_output_pos]
    exact h.pos
  · rw [consume_has_checksum, consume_cks]
    exact h.hashed

/-! ## One call -/

/-- **THE LOOP IS THE MACHINE**: turn by turn, from a context that tracks it. -/
theorem dstreamLoop_follows (consumed turns : Nat) {s : FrameState}
    (h : Tracks dst_cap ctx dst s) (hcap : dst_cap < 2 ^ 64) :
    Follows dst_cap (dstreamLoop D dst_cap consumed turns ctx dst)
      ((frameMachine D dst_cap).settleIn turns s (pending ctx)) := by
  induction turns generalizing ctx dst s with
  | zero =>
      cases s with
      | header => exact ⟨rfl, h.2.1, h, rfl⟩
      | block fh m out => exact ⟨rfl, h.2.2.2.2.2.pos, h, rfl⟩
      | footer fh out => exact ⟨rfl, h.2.2.2.pos, h, rfl⟩
  | succ turns ih =>
      cases s with
      | header =>
          obtain ⟨hstate, hpos, hhash⟩ := h
          have hstep : (frameMachine D dst_cap).step .header (pending ctx) =
              headerStep (pending ctx) := rfl
          rw [headerStep, pending_length] at hstep
          rw [dstreamLoop, hstate]
          dsimp only
          by_cases h16 : ctx.in_len < 16
          · rw [if_pos h16] at hstep ⊢
            rw [Machine.settleIn_wait _ hstep]
            exact ⟨rfl, hpos, ⟨hstate, hpos, hhash⟩, rfl⟩
          rw [if_neg h16] at hstep ⊢
          cases hcheck : checkHeader (frameHeaderGet (pending ctx)) with
          | error e =>
              rw [hcheck] at hstep
              rw [Machine.settleIn_halt _ hstep]
              exact ⟨rfl, rfl⟩
          | ok m =>
              rw [hcheck] at hstep
              have hpending := pending_enterBlocks
                { ctx with state := .header, fh := frameHeaderGet (pending ctx) } m
              dsimp only
              rw [Machine.settleIn_next _ hstep]
              refine hpending ▸ ih (s := .block (frameHeaderGet (pending ctx)) m []) ⟨rfl, ?_⟩
              refine ⟨consume_fh _ _, consume_has_checksum _ _, consume_off_bytes _ _,
                consume_max_offset _ _, ?_⟩
              refine ⟨?_, rfl, Nat.zero_le _, fun _ => ?_⟩
              · exact (consume_output_pos _ _).trans hpos
              · exact (consume_cks _ _).symm ▸ hhash
      | block fh m out =>
          obtain ⟨hstate, hfh, hsum, hwidth, hwindow, hholds⟩ := h
          have hstep : (frameMachine D dst_cap).step (.block fh m out) (pending ctx) =
              blockStep D dst_cap fh m out (pending ctx) := rfl
          rw [blockStep] at hstep
          rw [dstreamLoop, hstate]
          dsimp only
          rw [hwidth, hwindow, hholds.pos, hholds.bytes]
          cases hblock : streamBlock D fh.offBytes m (dst_cap - out.length) out (pending ctx) with
          | needMore =>
              rw [hblock] at hstep
              rw [Machine.settleIn_wait _ hstep]
              exact ⟨rfl, hholds.pos, ⟨hstate, hfh, hsum, hwidth, hwindow, hholds⟩, rfl⟩
          | fail e =>
              rw [hblock] at hstep
              rw [Machine.settleIn_halt _ hstep]
              exact ⟨rfl, rfl⟩
          | done new last taken =>
              rw [hblock] at hstep
              have hdone := streamBlock_done hblock
              have hnext := hholds.advance hdone.2.2.2.2 taken
              rw [hholds.pos] at hnext
              obtain ⟨astate, afh, asum, awidth, awindow⟩ := advance_fields ctx new taken
              dsimp only at hstep ⊢
              rw [behindBlock] at hstep
              cases last with
              | false =>
                  rw [if_neg (by decide)] at hstep ⊢
                  rw [Machine.settleIn_next _ hstep, ← pending_advance new taken]
                  exact ih ⟨astate.trans hstate, afh.trans hfh, asum.trans hsum,
                    awidth.trans hwidth, awindow.trans hwindow, hnext⟩
              | true =>
                  rw [if_pos rfl] at hstep ⊢
                  by_cases hc : fh.hasChecksum = true
                  · rw [if_pos hc] at hstep
                    rw [if_pos (asum.trans (hsum.trans hc))]
                    rw [Machine.settleIn_next _ hstep, ← pending_advance new taken]
                    exact ih ⟨rfl, afh.trans hfh, asum.trans (hsum.trans hc),
                      ⟨hnext.pos, hnext.bytes, hnext.fits, hnext.hashed⟩⟩
                  · rw [if_neg hc] at hstep
                    rw [if_neg (fun hyes => hc ((asum.trans hsum).symm.trans hyes))]
                    rw [Machine.settleIn_halt _ hstep]
                    exact ended_finish consumed (afh.trans hfh) hnext
      | footer fh out =>
          obtain ⟨hstate, hfh, hsum, hholds⟩ := h
          have hstep : (frameMachine D dst_cap).step (.footer fh out) (pending ctx) =
              footerStep fh out (pending ctx) := rfl
          have hfits := hholds.fits
          have hhash : xxh64Finalize ctx.cks = xxh64 out 0 :=
            finalize_hashing (hholds.hashed hsum) (by omega)
          rw [footerStep, pending_length] at hstep
          rw [dstreamLoop, hstate]
          dsimp only
          rw [hhash]
          by_cases h12 : ctx.in_len < 12
          · rw [if_pos h12] at hstep ⊢
            rw [Machine.settleIn_wait _ hstep]
            exact ⟨rfl, hholds.pos, ⟨hstate, hfh, hsum, hholds⟩, rfl⟩
          rw [if_neg h12] at hstep ⊢
          by_cases hmagic : le32Get ((pending ctx).drop 8) ≠ 0x56564E44
          · rw [if_pos hmagic] at hstep ⊢
            rw [Machine.settleIn_halt _ hstep]
            exact ⟨rfl, rfl⟩
          rw [if_neg hmagic] at hstep ⊢
          by_cases hbad : xxh64 out 0 ≠ le64Get (pending ctx)
          · rw [if_pos hbad] at hstep ⊢
            rw [Machine.settleIn_halt _ hstep]
            exact ⟨rfl, rfl⟩
          · rw [if_neg hbad] at hstep ⊢
            rw [Machine.settleIn_halt _ hstep]
            exact ended_finish consumed ((consume_fh _ _).trans hfh) (holds_consume 12 hholds)

end Turn

end Zupt.VaptVupt
