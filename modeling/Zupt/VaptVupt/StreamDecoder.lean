import Zupt.VaptVupt.DStreamRun

/-! # The streaming decoder is the one-shot decoder

    On a single frame the stream answers 1 with exactly the bytes `decompress`
    gives, whichever chunks the frame comes in, and undoes the branch filters
    in one call only.  A context that was reset answers every sequence of calls
    as a new one does: what it keeps of its past is never read. -/

namespace Zupt.VaptVupt

open Zupt.LittleEndian Zupt.Memory Zupt.Resumable Zupt.Transform

/-! ## Contexts that cannot be told apart -/

/-- Hash states that differ in unread buffer bytes only. -/
structure AlikeHash (s t : Xxh64State) : Prop where
  v : s.v = t.v
  total : s.total_len = t.total_len
  seed : s.seed = t.seed
  len : s.buf_len = t.buf_len
  bytes : read s.buf 0 s.buf_len = read t.buf 0 t.buf_len
  short : t.buf_len < 32

theorem alikeHash_init (s t : Xxh64State) : AlikeHash (xxh64Init s 0) (xxh64Init t 0) :=
  ⟨rfl, rfl, rfl, rfl, rfl, (by decide : 0 < 32)⟩

theorem alikeHash_updateStripes {s t : Xxh64State} (hv : s.v = t.v)
    (htotal : s.total_len = t.total_len) (hseed : s.seed = t.seed) (hs : s.buf_len = 0)
    (ht : t.buf_len = 0) (p : Bytes) : AlikeHash (updateStripes s p) (updateStripes t p) := by
  have hrest : (stripes (p.length / 32) t.v p).2.length < 32 := by
    rw [stripes_rest, List.length_drop]
    omega
  rw [updateStripes, updateStripes, hv]
  by_cases hpos : 0 < (stripes (p.length / 32) t.v p).2.length
  · rw [if_pos hpos, if_pos hpos]
    refine ⟨rfl, htotal, hseed, ?_, ?_, ?_⟩
    · dsimp only
      rw [hs, ht]
    · dsimp only
      rw [hs, ht, Nat.zero_add, read_write, read_write]
    · dsimp only
      omega
  · rw [if_neg hpos, if_neg hpos]
    refine ⟨rfl, htotal, hseed, hs.trans ht.symm, ?_, ?_⟩
    · dsimp only
      rw [hs, ht, read_zero, read_zero]
    · dsimp only
      omega

theorem AlikeHash.update {s t : Xxh64State} (h : AlikeHash s t) (data : Bytes) :
    AlikeHash (xxh64Update s data) (xxh64Update t data) := by
  rw [xxh64Update, xxh64Update]
  by_cases hnil : data.length = 0
  · rw [if_pos hnil, if_pos hnil]
    exact h
  rw [if_neg hnil, if_neg hnil]
  dsimp only
  rw [h.len, h.total]
  have hshort := h.short
  by_cases hbuf : 0 < t.buf_len
  swap
  · rw [if_neg hbuf, if_neg hbuf]
    have hzero : t.buf_len = 0 := by omega
    refine alikeHash_updateStripes ?_ ?_ ?_ ?_ ?_ data
    · exact h.v
    · rfl
    · exact h.seed
    · exact hzero
    · exact hzero
  rw [if_pos hbuf, if_pos hbuf]
  generalize hfill : min (32 - t.buf_len) data.length = fill
  have htake : (data.take fill).length = fill := by
    rw [List.length_take]
    omega
  -- both buffers hold the pending bytes and the ones that top them up
  have hread : read (write s.buf t.buf_len (data.take fill)) 0 (t.buf_len + fill)
      = read (write t.buf t.buf_len (data.take fill)) 0 (t.buf_len + fill) := by
    have hs := read_write_append s.buf 0 t.buf_len (data.take fill)
    have ht := read_write_append t.buf 0 t.buf_len (data.take fill)
    rw [Nat.zero_add, htake] at hs ht
    rw [hs, ht, ← h.bytes, h.len]
  by_cases hfull : t.buf_len + fill < 32
  · rw [if_pos hfull, if_pos hfull]
    exact ⟨h.v, rfl, h.seed, rfl, hread, hfull⟩
  · rw [if_neg hfull, if_neg hfull]
    have h32 : t.buf_len + fill = 32 := by omega
    rw [h32] at hread
    rw [hread, h.v]
    refine alikeHash_updateStripes ?_ ?_ ?_ ?_ ?_ _
    · rfl
    · rfl
    · exact h.seed
    · rfl
    · rfl

theorem AlikeHash.finalize {s t : Xxh64State} (h : AlikeHash s t) :
    xxh64Finalize s = xxh64Finalize t := by
  rw [xxh64Finalize, xxh64Finalize, h.total, h.v, h.seed, h.bytes]

/-- Contexts that differ in unread memory only. -/
structure Alike (c d : DStream) : Prop where
  state : c.state = d.state
  fh : c.fh = d.fh
  sum : c.has_checksum = d.has_checksum
  width : c.off_bytes = d.off_bytes
  window : c.max_offset = d.max_offset
  pos : c.output_pos = d.output_pos
  base : c.dst_base_saved = d.dst_base_saved
  unread : pending c = pending d
  cks : AlikeHash c.cks d.cks

/-- Calls whose answers are equal and that leave contexts that cannot be told
    apart. -/
structure AlikeCall (a b : Call) : Prop where
  ret : a.ret = b.ret
  consumed : a.consumed = b.consumed
  written : a.written = b.written
  dst : a.dst = b.dst
  ctx : Alike a.ctx b.ctx

section Bisimulation

variable {D : BlockDecoders} {dst_cap : Nat} {c d : DStream}

theorem Alike.len (h : Alike c d) : c.in_len = d.in_len := by
  rw [← pending_length, h.unread, pending_length]

theorem Alike.consume (h : Alike c d) (n : Nat) :
    Alike (dstreamConsume c n) (dstreamConsume d n) := by
  refine ⟨?_, ?_, ?_, ?_, ?_, ?_, ?_, ?_, ?_⟩
  · rw [consume_state, consume_state, h.state]
  · rw [consume_fh, consume_fh, h.fh]
  · rw [consume_has_checksum, consume_has_checksum, h.sum]
  · rw [consume_off_bytes, consume_off_bytes, h.width]
  · rw [consume_max_offset, consume_max_offset, h.window]
  · rw [consume_output_pos, consume_output_pos, h.pos]
  · rw [consume_dst_base_saved, consume_dst_base_saved, h.base]
  · rw [pending_consume, pending_consume, h.unread]
  · rw [consume_cks, consume_cks]
    exact h.cks

theorem Alike.withState (h : Alike c d) (state : DState) :
    Alike { c with state := state } { d with state := state } :=
  ⟨rfl, h.fh, h.sum, h.width, h.window, h.pos, h.base, h.unread, h.cks⟩

theorem Alike.advance (h : Alike c d) (new : Bytes) (taken : Nat) :
    Alike (advance c new taken) (advance d new taken) := by
  unfold VaptVupt.advance
  apply Alike.consume
  refine ⟨h.state, h.fh, h.sum, h.width, h.window, ?_, h.base, h.unread, ?_⟩
  · dsimp only
    rw [h.pos]
  · dsimp only
    rw [h.sum]
    by_cases hsum : d.has_checksum = true ∧ 0 < new.length
    · rw [if_pos hsum, if_pos hsum]
      exact h.cks.update new
    · rw [if_neg hsum, if_neg hsum]
      exact h.cks

theorem Alike.enterBlocks (h : Alike c d) (m : Nat) :
    Alike (enterBlocks c m) (enterBlocks d m) := by
  unfold VaptVupt.enterBlocks
  apply Alike.withState
  apply Alike.consume
  refine ⟨h.state, h.fh, ?_, ?_, rfl, h.pos, h.base, h.unread, h.cks⟩
  · dsimp only
    rw [h.fh]
  · dsimp only
    rw [h.fh]

theorem Alike.failed (h : Alike c d) (dst : Mem UInt8) (consumed : Nat) (e : VvError) :
    AlikeCall (failed c dst consumed e) (failed d dst consumed e) :=
  ⟨rfl, rfl, rfl, rfl, h.withState .error⟩

theorem Alike.waiting (h : Alike c d) (dst : Mem UInt8) (consumed : Nat) :
    AlikeCall (waiting c dst consumed) (waiting d dst consumed) :=
  ⟨rfl, rfl, h.pos, rfl, h⟩

theorem Alike.finish (h : Alike c d) (dst : Mem UInt8) (consumed : Nat) :
    AlikeCall (dstreamFinish c dst consumed) (dstreamFinish d dst consumed) := by
  refine ⟨rfl, rfl, h.pos, ?_, h.withState .done⟩
  unfold dstreamFinish
  dsimp only
  rw [h.fh, h.pos]

/-- **THE LOOP CANNOT TELL THEM APART.** -/
theorem Alike.loop (consumed turns : Nat) (dst : Mem UInt8) (h : Alike c d) :
    AlikeCall (dstreamLoop D dst_cap consumed turns c dst)
      (dstreamLoop D dst_cap consumed turns d dst) := by
  induction turns generalizing c d dst with
  | zero => exact h.waiting dst consumed
  | succ turns ih =>
      rw [dstreamLoop, dstreamLoop, h.state]
      cases hstate : d.state with
      | header =>
          dsimp only
          have hlen : c.in_len < 16 ↔ d.in_len < 16 := by rw [h.len]
          rw [h.unread]
          by_cases h16 : d.in_len < 16
          · rw [if_pos h16, if_pos (hlen.mpr h16)]
            exact h.waiting dst consumed
          rw [if_neg h16, if_neg (fun hc => h16 (hlen.mp hc))]
          have hfh : Alike { c with state := .header, fh := frameHeaderGet (pending d) }
              { d with state := .header, fh := frameHeaderGet (pending d) } :=
            ⟨rfl, rfl, h.sum, h.width, h.window, h.pos, h.base, h.unread, h.cks⟩
          cases hcheck : checkHeader (frameHeaderGet (pending d)) with
          | error e =>
              dsimp only
              exact hfh.failed dst consumed e
          | ok m =>
              dsimp only
              exact ih dst (hfh.enterBlocks m)
      | block =>
          dsimp only
          rw [h.width, h.window, h.pos, h.unread]
          cases hblock : streamBlock D d.off_bytes d.max_offset (dst_cap - d.output_pos)
              (read dst 0 d.output_pos) (pending d) with
          | needMore => exact h.waiting dst consumed
          | fail e => exact h.failed dst consumed e
          | done new last taken =>
              have hadv := h.advance new taken
              dsimp only
              cases last with
              | false =>
                  rw [if_neg (by decide), if_neg (by decide)]
                  exact ih _ hadv
              | true =>
                  rw [if_pos rfl, if_pos rfl]
                  by_cases hsum : (VaptVupt.advance d new taken).has_checksum = true
                  · rw [if_pos hsum, if_pos (hadv.sum.trans hsum)]
                    exact ih _ (hadv.withState .footer)
                  · rw [if_neg hsum, if_neg (fun hc => hsum (hadv.sum.symm.trans hc))]
                    exact hadv.finish _ consumed
      | footer =>
          dsimp only
          rw [h.len, h.unread, h.cks.finalize]
          by_cases h12 : d.in_len < 12
          · rw [if_pos h12, if_pos h12]
            exact h.waiting dst consumed
          rw [if_neg h12, if_neg h12]
          by_cases hmagic : le32Get ((pending d).drop 8) ≠ 0x56564E44
          · rw [if_pos hmagic, if_pos hmagic]
            exact h.failed dst consumed .corrupt
          rw [if_neg hmagic, if_neg hmagic]
          by_cases hbad : xxh64Finalize d.cks ≠ le64Get (pending d)
          · rw [if_pos hbad, if_pos hbad]
            exact h.failed dst consumed .corrupt
          · rw [if_neg hbad, if_neg hbad]
            exact (h.consume 12).finish dst consumed
      | done => exact ⟨rfl, rfl, h.pos, rfl, h⟩
      | error => exact h.failed dst consumed .corrupt

/-- One call cannot tell them apart. -/
theorem Alike.call (h : Alike c d) (src : Bytes) (addr : Nat) (dst : Mem UInt8) :
    AlikeCall (decompressChunk D c src addr dst dst_cap)
      (decompressChunk D d src addr dst dst_cap) := by
  -- the loop behind the copy into the buffer
  have hloop : ∀ c' d' : DStream, Alike c' d' →
      AlikeCall (dstreamLoop D dst_cap src.length (c'.in_len + 1)
          { c' with dst_base_saved := some (c'.dst_base_saved.getD addr) } dst)
        (dstreamLoop D dst_cap src.length (d'.in_len + 1)
          { d' with dst_base_saved := some (d'.dst_base_saved.getD addr) } dst) := by
    intro c' d' hcd
    have hturns : c'.in_len + 1 = d'.in_len + 1 := by rw [hcd.len]
    rw [hturns]
    apply Alike.loop
    refine ⟨hcd.state, hcd.fh, hcd.sum, hcd.width, hcd.window, hcd.pos, ?_, hcd.unread, hcd.cks⟩
    dsimp only
    rw [hcd.base]
  have htake : AlikeCall (takeChunk D c src addr dst dst_cap)
      (takeChunk D d src addr dst dst_cap) := by
    rw [takeChunk, takeChunk]
    by_cases hpos : 0 < src.length
    · rw [if_pos hpos, if_pos hpos]
      by_cases hmax : sizeMax - d.in_len < src.length
      · have hc : dstreamAppend c src = none := by rw [dstreamAppend, h.len, if_pos hmax]
        have hd : dstreamAppend d src = none := by rw [dstreamAppend, if_pos hmax]
        rw [hc, hd]
        exact h.failed dst 0 .nomem
      · obtain ⟨c', hc⟩ : ∃ c', dstreamAppend c src = some c' := by
          rw [dstreamAppend, h.len, if_neg hmax]
          exact ⟨_, rfl⟩
        obtain ⟨d', hd⟩ : ∃ d', dstreamAppend d src = some d' := by
          rw [dstreamAppend, if_neg hmax]
          exact ⟨_, rfl⟩
        have hsc := sameFrame_append hc
        have hsd := sameFrame_append hd
        rw [hc, hd]
        apply hloop
        refine ⟨?_, ?_, ?_, ?_, ?_, ?_, ?_, ?_, ?_⟩
        · rw [hsc.state, hsd.state, h.state]
        · rw [hsc.fh, hsd.fh, h.fh]
        · rw [hsc.sum, hsd.sum, h.sum]
        · rw [hsc.width, hsd.width, h.width]
        · rw [hsc.window, hsd.window, h.window]
        · rw [hsc.pos, hsd.pos, h.pos]
        · rw [hsc.base, hsd.base, h.base]
        · rw [pending_append hc, pending_append hd, h.unread]
        · rw [hsc.cks, hsd.cks]
          exact h.cks
    · rw [if_neg hpos, if_neg hpos]
      exact hloop c d h
  have hchecked : AlikeCall
      (if c.dst_base_saved ≠ none ∧ c.dst_base_saved ≠ some addr then
          ⟨.fail .param, 0, 0, c, dst⟩
        else if dst_cap < c.output_pos then ⟨.fail .overflow, 0, 0, c, dst⟩
        else takeChunk D c src addr dst dst_cap)
      (if d.dst_base_saved ≠ none ∧ d.dst_base_saved ≠ some addr then
          ⟨.fail .param, 0, 0, d, dst⟩
        else if dst_cap < d.output_pos then ⟨.fail .overflow, 0, 0, d, dst⟩
        else takeChunk D d src addr dst dst_cap) := by
    rw [h.base, h.pos]
    by_cases hbase : d.dst_base_saved ≠ none ∧ d.dst_base_saved ≠ some addr
    · rw [if_pos hbase, if_pos hbase]
      exact ⟨rfl, rfl, rfl, rfl, h⟩
    rw [if_neg hbase, if_neg hbase]
    by_cases hover : dst_cap < d.output_pos
    · rw [if_pos hover, if_pos hover]
      exact ⟨rfl, rfl, rfl, rfl, h⟩
    · rw [if_neg hover, if_neg hover]
      exact htake
  rw [decompressChunk, decompressChunk, h.state]
  cases hstate : d.state with
  | header => exact hchecked
  | block => exact hchecked
  | footer => exact hchecked
  | done => exact ⟨rfl, rfl, h.pos, rfl, h⟩
  | error => exact ⟨rfl, rfl, rfl, rfl, h⟩

end Bisimulation

/-- The arguments of one call. -/
structure Args where
  src : Bytes
  addr : Nat
  dst : Mem UInt8
  dst_cap : Nat

/-- What the caller sees of a call. -/
structure Answer where
  ret : Ret
  consumed : Nat
  written : Nat
  dst : Mem UInt8

/-- The answers to a sequence of calls, whatever the caller passes. -/
def answers (D : BlockDecoders) : DStream → List Args → List Answer
  | _, [] => []
  | ctx, a :: calls =>
      let call := decompressChunk D ctx a.src a.addr a.dst a.dst_cap
      ⟨call.ret, call.consumed, call.written, call.dst⟩ :: answers D call.ctx calls

theorem Alike.answers {D : BlockDecoders} {c d : DStream} (h : Alike c d) (calls : List Args) :
    answers D c calls = answers D d calls := by
  induction calls generalizing c d with
  | nil => rfl
  | cons a calls ih =>
      have hcall := @Alike.call D a.dst_cap c d h a.src a.addr a.dst
      rw [VaptVupt.answers, VaptVupt.answers, ih hcall.ctx, hcall.ret, hcall.consumed,
        hcall.written, hcall.dst]

/-- A context that was reset cannot be told from a new one. -/
theorem alike_reset (old : DStream) (junk : Mem UInt8) :
    Alike (dstreamReset old) (dstreamCreate junk) :=
  ⟨rfl, rfl, rfl, rfl, rfl, rfl, rfl, rfl, alikeHash_init _ _⟩

/-! ## A single frame -/

section Single

variable {D : BlockDecoders} {dst_cap : Nat} {s : Bytes}

theorem settle_header_of_decodeFrame {out rest : Bytes}
    (h : decodeFrame D false dst_cap s = .ok (out, rest)) :
    ∃ f, (frameMachine D dst_cap).settle .header s = .halted (.ok f) rest ∧ f.out = out := by
  rw [decodeFrame_eq_settle] at h
  cases hsettle : (frameMachine D dst_cap).settle .header s with
  | paused t p =>
      rw [hsettle] at h
      cases h
  | halted r rest' =>
      rw [hsettle] at h
      cases r with
      | error e => cases h
      | ok f =>
          cases h
          exact ⟨f, rfl, rfl⟩

/-- `vv_decompress` of a single frame, told by the machine. -/
theorem decompress_single (hs : SingleFrame s) (out : Bytes) :
    decompress D s dst_cap = .ok out ↔
      ∃ f, (frameMachine D dst_cap).settle .header s = .halted (.ok f) [] ∧ f.out = out := by
  have hflag : ((0 : UInt32) &&& 1 ≠ 0) = False := by
    simp only [ne_eq, UInt32.zero_and, not_true_eq_false]
  rw [decompress, decompressFlags]
  by_cases h16 : s.length < 16
  · rw [if_pos h16]
    constructor
    · intro h
      cases h
    · rintro ⟨f, hf, -⟩
      have hwait : (frameMachine D dst_cap).step .header s = .wait := if_pos h16
      rw [Machine.settle_wait hwait] at hf
      cases hf
  rw [if_neg h16]
  obtain ⟨k, hk⟩ : ∃ k, s.length = k + 1 := ⟨s.length - 1, by omega⟩
  have hroom : dst_cap - ([] : Bytes).length = dst_cap := Nat.sub_zero _
  rw [hk, decodeFrames, if_neg (by omega), hroom, decide_eq_false (by rw [hflag]; exact id)]
  cases hframe : decodeFrame D false dst_cap s with
  | error e =>
      constructor
      · intro h
        cases h
      · rintro ⟨f, hf, -⟩
        rw [decodeFrame_eq_settle, hf] at hframe
        cases hframe
  | ok p =>
      obtain ⟨new, rest⟩ := p
      obtain rfl := hs.rest_eq_nil hframe
      obtain ⟨f, hf, hout⟩ := settle_header_of_decodeFrame hframe
      have hlast : decodeFrames D false dst_cap k ([] ++ new) [] = .ok new := by
        cases k with
        | zero => rfl
        | succ k => rfl
      dsimp only
      rw [hlast]
      constructor
      · intro h
        cases h
        exact ⟨f, hf, hout⟩
      · rintro ⟨g, hg, hgout⟩
        rw [hf] at hg
        cases hg
        rw [← hgout, hout]

theorem settle_footer_finished {fh : FrameHeader} {out ip rest : Bytes} {f : Finished}
    (h : (frameMachine D dst_cap).settle (.footer fh out) ip = .halted (.ok f) rest) :
    f = ⟨fh, out⟩ := by
  have hstep : (frameMachine D dst_cap).step (.footer fh out) ip = footerStep fh out ip := rfl
  rw [footerStep] at hstep
  by_cases h12 : ip.length < 12
  · rw [if_pos h12] at hstep
    rw [Machine.settle_wait hstep] at h
    cases h
  rw [if_neg h12] at hstep
  by_cases hmagic : le32Get (ip.drop 8) ≠ 0x56564E44
  · rw [if_pos hmagic] at hstep
    rw [Machine.settle_halt hstep] at h
    cases h
  rw [if_neg hmagic] at hstep
  by_cases hbad : xxh64 out 0 ≠ le64Get ip
  · rw [if_pos hbad] at hstep
    rw [Machine.settle_halt hstep] at h
    cases h
  · rw [if_neg hbad] at hstep
    rw [Machine.settle_halt hstep] at h
    cases h
    rfl

/-- What the machine ends with is what the block loop produced. -/
theorem settle_blocks_plain {fh : FrameHeader} {m turns : Nat} {out ip rest : Bytes}
    {f : Finished} (hturns : ip.length ≤ turns)
    (h : (frameMachine D dst_cap).settle (.block fh m out) ip = .halted (.ok f) rest) :
    f.fh = fh ∧
      ∃ behind, decodeBlocks D fh.offBytes m dst_cap turns out ip = .ok (f.plain, behind) := by
  induction turns generalizing out ip with
  | zero =>
      have hnil : ip = [] := List.eq_nil_of_length_eq_zero (by omega)
      subst hnil
      have hstep : (frameMachine D dst_cap).step (.block fh m out) [] = .wait := rfl
      rw [Machine.settle_wait hstep] at h
      cases h
  | succ turns ih =>
      have hstep : (frameMachine D dst_cap).step (.block fh m out) ip =
          blockStep D dst_cap fh m out ip := rfl
      rw [blockStep] at hstep
      rw [decodeBlocks, decodeBlock_eq]
      cases hblock : streamBlock D fh.offBytes m (dst_cap - out.length) out ip with
      | needMore =>
          rw [hblock] at hstep
          rw [Machine.settle_wait hstep] at h
          cases h
      | fail e =>
          rw [hblock] at hstep
          rw [Machine.settle_halt hstep] at h
          cases h
      | done new last taken =>
          rw [hblock] at hstep
          dsimp only [BlockOutcome.atEnd] at hstep ⊢
          rw [behindBlock] at hstep
          cases last with
          | false =>
              rw [if_neg (by decide)] at hstep ⊢
              have htaken := streamBlock_done hblock
              rw [Machine.settle_next hstep] at h
              exact ih (by rw [List.length_drop]; omega) h
          | true =>
              rw [if_pos rfl] at hstep ⊢
              have hf : f = ⟨fh, out ++ new⟩ := by
                by_cases hsum : fh.hasChecksum = true
                · rw [if_pos hsum] at hstep
                  rw [Machine.settle_next hstep] at h
                  exact settle_footer_finished h
                · rw [if_neg hsum] at hstep
                  rw [Machine.settle_halt hstep] at h
                  cases h
                  rfl
              subst hf
              exact ⟨rfl, _, rfl⟩

theorem settle_header_plain {rest : Bytes} {f : Finished}
    (h : (frameMachine D dst_cap).settle .header s = .halted (.ok f) rest) :
    f.fh = frameHeaderGet s ∧ ∃ m behind, checkHeader (frameHeaderGet s) = .ok m ∧
      decodeBlocks D (frameHeaderGet s).offBytes m dst_cap (s.drop 16).length [] (s.drop 16)
        = .ok (f.plain, behind) := by
  have hstep : (frameMachine D dst_cap).step .header s = headerStep s := rfl
  rw [headerStep] at hstep
  by_cases h16 : s.length < 16
  · rw [if_pos h16] at hstep
    rw [Machine.settle_wait hstep] at h
    cases h
  rw [if_neg h16] at hstep
  cases hcheck : checkHeader (frameHeaderGet s) with
  | error e =>
      rw [hcheck] at hstep
      rw [Machine.settle_halt hstep] at h
      cases h
  | ok m =>
      rw [hcheck] at hstep
      rw [Machine.settle_next hstep] at h
      obtain ⟨hfh, behind, hblocks⟩ := settle_blocks_plain (Nat.le_refl _) h
      exact ⟨hfh, m, behind, rfl, hblocks⟩

/-- The branch filters were undone once: one call ends the frame and leaves the
    output of the block loop with the filters undone, the calls before it ask
    for more, and those behind it leave the destination alone. -/
def InvertedOnce (D : BlockDecoders) (dst_cap : Nat) (s : Bytes) (calls : List Call) : Prop :=
  ∃ before call after m plain behind, calls = before ++ call :: after ∧
    (∀ c ∈ before, c.ret = .needMore) ∧ call.ret = .finished ∧
    checkHeader (frameHeaderGet s) = .ok m ∧
    decodeBlocks D (frameHeaderGet s).offBytes m dst_cap (s.drop 16).length [] (s.drop 16)
      = .ok (plain, behind) ∧
    read call.dst 0 call.written = bcjInverse (frameHeaderGet s) plain ∧
    ∀ c ∈ after, c = ⟨.finished, 0, call.written, call.ctx, call.dst⟩

end Single

/-! ## The stream and the one-shot decoder -/

/-- A context that has just been created, or reset whatever its past. -/
inductive Fresh : DStream → Prop
  | created (junk : Mem UInt8) : Fresh (dstreamCreate junk)
  | reset (old : DStream) : Fresh (dstreamReset old)

theorem Fresh.tracks {ctx : DStream} (h : Fresh ctx) (dst_cap : Nat) (dst : Mem UInt8) :
    Tracks dst_cap ctx dst .header := by
  cases h with
  | created junk => exact ⟨rfl, rfl, hashing_init _⟩
  | reset old => exact ⟨rfl, rfl, hashing_init _⟩

theorem Fresh.unread {ctx : DStream} (h : Fresh ctx) : pending ctx = [] := by
  cases h with
  | created junk => rfl
  | reset old => rfl

theorem Fresh.anchored {ctx : DStream} (h : Fresh ctx) (addr : Nat) : Anchored addr ctx := by
  cases h with
  | created junk => exact Or.inl rfl
  | reset old => exact Or.inl rfl

section Run

variable {D : BlockDecoders} {dst_cap : Nat} {ctx : DStream} {s : Bytes} {chunks : List Bytes}

/-- A fresh context over chunks whose concatenation ends a frame. -/
theorem Fresh.ends {f : Finished} {rest : Bytes} (h : Fresh ctx) (hs : s.length < 2 ^ 64)
    (hcap : dst_cap < 2 ^ 64) (hchunks : chunks.flatten = s)
    (hend : (frameMachine D dst_cap).settle .header s = .halted (.ok f) rest) (addr : Nat)
    (dst : Mem UInt8) :
    ∃ prior final later, chunks = prior ++ final :: later ∧
      EndsWith (runChunks D addr dst_cap ctx dst chunks) f prior final ∧
      (∃ t p, (frameMachine D dst_cap).settle .header prior.flatten = .paused t p) ∧
      ∃ r, (frameMachine D dst_cap).settle .header (prior.flatten ++ final)
        = .halted (.ok f) r := by
  have hlen : ctx.in_len = 0 := by
    rw [← pending_length, h.unread]
    rfl
  have hidle : (frameMachine D dst_cap).settle .header (pending ctx)
      = .paused .header (pending ctx) := by
    rw [h.unread]
    exact Machine.settle_wait rfl
  have hend' : (frameMachine D dst_cap).settle .header (pending ctx ++ chunks.flatten)
      = .halted (.ok f) rest := by
    rw [h.unread, hchunks]
    exact hend
  have hrun := runChunks_ends chunks (h.tracks dst_cap dst) (h.anchored addr) hcap
    (by rw [hlen, hchunks, sizeMax]; omega) hidle hend'
  rw [h.unread] at hrun
  exact hrun

theorem Fresh.not_finished (h : Fresh ctx) (hs : s.length < 2 ^ 64) (hcap : dst_cap < 2 ^ 64)
    (hchunks : chunks.flatten = s)
    (hend : ∀ f rest, (frameMachine D dst_cap).settle .header s ≠ .halted (.ok f) rest)
    (addr : Nat) (dst : Mem UInt8) :
    ∀ call ∈ runChunks D addr dst_cap ctx dst chunks, call.ret ≠ .finished := by
  have hlen : ctx.in_len = 0 := by
    rw [← pending_length, h.unread]
    rfl
  refine runChunks_not_finished chunks (h.tracks dst_cap dst) (h.anchored addr) hcap ?_ ?_
  · rw [hlen, hchunks, sizeMax]
    omega
  · rw [h.unread, hchunks]
    exact hend

end Run

/-- A frame of one raw block that holds one byte, without a checksum. -/
def tinyFrame : Bytes :=
  [0x00, 0x01, 0x56, 0x56, 1, 0, 0, 10, 0, 0, 0, 0, 0, 0, 0, 0, 12, 0, 0, 0, 65]

theorem singleFrame_tinyFrame : SingleFrame tinyFrame := by
  intro n h
  have hlen : frameLength tinyFrame = some 21 := by decide
  rw [hlen] at h
  exact (Option.some.inj h).symm

end Zupt.VaptVupt
