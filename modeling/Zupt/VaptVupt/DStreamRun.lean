import Zupt.VaptVupt.DStreamTracks

/-! # Runs of the streaming decoder

    A context that is fed chunk by chunk with one destination ends as the frame
    machine ends on all of the input: the call that brings the last byte of the
    frame reports its end, the calls before it ask for more, and those behind
    it change nothing.  With that the stream is `decompress` on a single
    frame, and a context that was reset is a new one. -/

namespace Zupt.VaptVupt

open Zupt.LittleEndian Zupt.Memory Zupt.Resumable

variable {D : BlockDecoders} {dst_cap addr : Nat} {ctx : DStream} {dst : Mem UInt8}

/-! ## What the loop leaves alone -/

theorem dstreamLoop_consumed (consumed turns : Nat) (ctx : DStream) (dst : Mem UInt8) :
    (dstreamLoop D dst_cap consumed turns ctx dst).consumed = consumed := by
  induction turns generalizing ctx dst with
  | zero => rfl
  | succ turns ih =>
      rw [dstreamLoop]
      split
      · split
        · rfl
        · dsimp only
          split
          · rfl
          · exact ih _ _
      · split
        · rfl
        · rfl
        · dsimp only
          split
          · split
            · exact ih _ _
            · rfl
          · exact ih _ _
      · split
        · rfl
        split
        · rfl
        split
        · rfl
        · rfl
      · rfl
      · rfl

theorem dstreamLoop_base (consumed turns : Nat) (ctx : DStream) (dst : Mem UInt8) :
    (dstreamLoop D dst_cap consumed turns ctx dst).ctx.dst_base_saved = ctx.dst_base_saved := by
  induction turns generalizing ctx dst with
  | zero => rfl
  | succ turns ih =>
      rw [dstreamLoop]
      split
      · split
        · rfl
        · dsimp only
          split
          · rfl
          · rw [ih]
            exact consume_dst_base_saved _ _
      · split
        · rfl
        · rfl
        · dsimp only
          split
          · split
            · rw [ih]
              exact consume_dst_base_saved _ _
            · exact consume_dst_base_saved _ _
          · rw [ih]
            exact consume_dst_base_saved _ _
      · split
        · rfl
        split
        · rfl
        split
        · rfl
        · exact consume_dst_base_saved _ _
      · rfl
      · rfl

theorem dstreamLoop_roomy (consumed turns : Nat) {ctx : DStream} (dst : Mem UInt8)
    (h : Roomy ctx) : Roomy (dstreamLoop D dst_cap consumed turns ctx dst).ctx := by
  induction turns generalizing ctx dst with
  | zero => exact h
  | succ turns ih =>
      rw [dstreamLoop]
      split
      · split
        · exact h
        · dsimp only
          split
          · exact h
          · exact ih _ (roomy_consume 16 h)
      · split
        · exact h
        · exact h
        · dsimp only
          split
          · split
            · exact ih _ (roomy_consume _ h)
            · exact roomy_consume _ h
          · exact ih _ (roomy_consume _ h)
      · split
        · exact h
        split
        · exact h
        split
        · exact h
        · exact roomy_consume 12 h
      · exact h
      · exact h

theorem takeChunk_roomy {src : Bytes} (h : Roomy ctx) :
    Roomy (takeChunk D ctx src addr dst dst_cap).ctx := by
  rw [takeChunk]
  by_cases hpos : 0 < src.length
  · rw [if_pos hpos]
    cases happend : dstreamAppend ctx src with
    | none => exact h
    | some c =>
        have hroomy : Roomy c := roomy_append h happend
        exact dstreamLoop_roomy _ _ dst hroomy
  · rw [if_neg hpos]
    exact dstreamLoop_roomy _ _ dst h

/-- **THE INPUT BUFFER IS NEVER OVERRUN**, whatever the caller passes. -/
theorem decompressChunk_roomy {src : Bytes} (h : Roomy ctx) :
    Roomy (decompressChunk D ctx src addr dst dst_cap).ctx := by
  rw [decompressChunk]
  split
  · exact h
  · exact h
  all_goals
    split
    · exact h
    split
    · exact h
    · exact takeChunk_roomy h

/-! ## One call -/

/-- The destination of a context is the one at `addr`, or not known yet. -/
def Anchored (addr : Nat) (ctx : DStream) : Prop :=
  ctx.dst_base_saved = none ∨ ctx.dst_base_saved = some addr

theorem Tracks.sameFrame {ctx' : DStream} {s : FrameState} (h : Tracks dst_cap ctx dst s)
    (hsame : SameFrame ctx' ctx) : Tracks dst_cap ctx' dst s := by
  have hholds : ∀ out, HasWritten dst_cap ctx dst out → HasWritten dst_cap ctx' dst out := by
    intro out hout
    refine ⟨hsame.pos.trans hout.pos, hout.bytes, hout.fits, ?_⟩
    rw [hsame.sum, hsame.cks]
    exact hout.hashed
  cases s with
  | header =>
      obtain ⟨h1, h2, h3⟩ := h
      exact ⟨hsame.state.trans h1, hsame.pos.trans h2, hsame.cks ▸ h3⟩
  | block fh m out =>
      obtain ⟨h1, h2, h3, h4, h5, h6⟩ := h
      exact ⟨hsame.state.trans h1, hsame.fh.trans h2, hsame.sum.trans h3, hsame.width.trans h4,
        hsame.window.trans h5, hholds out h6⟩
  | footer fh out =>
      obtain ⟨h1, h2, h3, h4⟩ := h
      exact ⟨hsame.state.trans h1, hsame.fh.trans h2, hsame.sum.trans h3, hholds out h4⟩

/-- Remembering the destination changes nothing the machine sees. -/
theorem Tracks.anchor {s : FrameState} (base : Option Nat) (h : Tracks dst_cap ctx dst s) :
    Tracks dst_cap { ctx with dst_base_saved := base } dst s := by
  have hholds : ∀ out, HasWritten dst_cap ctx dst out →
      HasWritten dst_cap { ctx with dst_base_saved := base } dst out :=
    fun out hout => ⟨hout.pos, hout.bytes, hout.fits, hout.hashed⟩
  cases s with
  | header => exact h
  | block fh m out =>
      obtain ⟨h1, h2, h3, h4, h5, h6⟩ := h
      exact ⟨h1, h2, h3, h4, h5, hholds out h6⟩
  | footer fh out =>
      obtain ⟨h1, h2, h3, h4⟩ := h
      exact ⟨h1, h2, h3, hholds out h4⟩

/-- **A CHUNK SETTLES THE MACHINE** on the unread input and the chunk. -/
theorem takeChunk_follows {s : FrameState} (src : Bytes) (h : Tracks dst_cap ctx dst s)
    (hanchored : Anchored addr ctx) (hcap : dst_cap < 2 ^ 64)
    (hsize : ctx.in_len + src.length ≤ sizeMax) :
    Follows dst_cap (takeChunk D ctx src addr dst dst_cap)
        ((frameMachine D dst_cap).settle s (pending ctx ++ src)) ∧
      (takeChunk D ctx src addr dst dst_cap).consumed = src.length ∧
      Anchored addr (takeChunk D ctx src addr dst dst_cap).ctx := by
  have hbase : some (ctx.dst_base_saved.getD addr) = some addr := by
    rcases hanchored with hnone | hsome
    · rw [hnone]
      rfl
    · rw [hsome]
      rfl
  -- the loop starts on the unread input with the chunk behind it
  have hloop : ∀ c : DStream, SameFrame c ctx → pending c = pending ctx ++ src →
      Follows dst_cap (dstreamLoop D dst_cap src.length (c.in_len + 1)
          { c with dst_base_saved := some (c.dst_base_saved.getD addr) } dst)
          ((frameMachine D dst_cap).settle s (pending ctx ++ src)) ∧
        (dstreamLoop D dst_cap src.length (c.in_len + 1)
          { c with dst_base_saved := some (c.dst_base_saved.getD addr) } dst).consumed
            = src.length ∧
        Anchored addr (dstreamLoop D dst_cap src.length (c.in_len + 1)
          { c with dst_base_saved := some (c.dst_base_saved.getD addr) } dst).ctx := by
    intro c hsame hpending
    refine ⟨?_, dstreamLoop_consumed _ _ _ _, Or.inr ?_⟩
    · have hfollows := dstreamLoop_follows (D := D) src.length (c.in_len + 1)
        ((h.sameFrame hsame).anchor (some (c.dst_base_saved.getD addr))) hcap
      rw [Machine.settle, ← hpending, pending_length]
      exact hfollows
    · rw [dstreamLoop_base, hsame.base]
      exact hbase
  rw [takeChunk]
  by_cases hpos : 0 < src.length
  · rw [if_pos hpos]
    cases happend : dstreamAppend ctx src with
    | none =>
        rw [dstreamAppend, if_neg (by omega)] at happend
        cases happend
    | some c => exact hloop c (sameFrame_append happend) (pending_append happend)
  · rw [if_neg hpos]
    have hnil : src = [] := List.eq_nil_of_length_eq_zero (by omega)
    refine hloop ctx (.refl _) ?_
    rw [hnil, List.append_nil]

/-- The checks in front of a chunk pass for a context that tracks the
    machine. -/
theorem decompressChunk_of_tracks {s : FrameState} {src : Bytes} (h : Tracks dst_cap ctx dst s)
    (hanchored : Anchored addr ctx) :
    decompressChunk D ctx src addr dst dst_cap = takeChunk D ctx src addr dst dst_cap := by
  have hbase : ¬ (ctx.dst_base_saved ≠ none ∧ ctx.dst_base_saved ≠ some addr) := by
    rintro ⟨hsome, hother⟩
    rcases hanchored with hn | hs
    · exact hsome hn
    · exact hother hs
  have hpos : ¬ dst_cap < ctx.output_pos := by
    cases s with
    | header =>
        have := h.2.1
        omega
    | block fh m out =>
        have h1 := h.2.2.2.2.2.pos
        have h2 := h.2.2.2.2.2.fits
        omega
    | footer fh out =>
        have h1 := h.2.2.2.pos
        have h2 := h.2.2.2.fits
        omega
  have hstate : ctx.state = .header ∨ ctx.state = .block ∨ ctx.state = .footer := by
    cases s with
    | header => exact Or.inl h.1
    | block fh m out => exact Or.inr (Or.inl h.1)
    | footer fh out => exact Or.inr (Or.inr h.1)
  rw [decompressChunk]
  rcases hstate with hst | hst | hst
  · rw [hst]
    dsimp only
    rw [if_neg hbase, if_neg hpos]
  · rw [hst]
    dsimp only
    rw [if_neg hbase, if_neg hpos]
  · rw [hst]
    dsimp only
    rw [if_neg hbase, if_neg hpos]

/-! ## Runs -/

/-- A finished context answers every further call alike. -/
theorem runChunks_done (chunks : List Bytes) (h : ctx.state = .done) :
    ∀ call ∈ runChunks D addr dst_cap ctx dst chunks,
      call = ⟨.finished, 0, ctx.output_pos, ctx, dst⟩ := by
  induction chunks with
  | nil =>
      intro call hcall
      cases hcall
  | cons src chunks ih =>
      have hcall : decompressChunk D ctx src addr dst dst_cap =
          ⟨.finished, 0, ctx.output_pos, ctx, dst⟩ := by
        rw [decompressChunk, h]
      intro call hmem
      rw [runChunks, hcall] at hmem
      rcases List.mem_cons.mp hmem with hhead | htail
      · exact hhead
      · exact ih call htail

/-- A failed context fails every further call. -/
theorem runChunks_error (chunks : List Bytes) (h : ctx.state = .error) :
    ∀ call ∈ runChunks D addr dst_cap ctx dst chunks, call.ret = .fail .corrupt := by
  induction chunks with
  | nil =>
      intro call hcall
      cases hcall
  | cons src chunks ih =>
      have hcall : decompressChunk D ctx src addr dst dst_cap =
          ⟨.fail .corrupt, 0, 0, ctx, dst⟩ := by
        rw [decompressChunk, h]
      intro call hmem
      rw [runChunks, hcall] at hmem
      rcases List.mem_cons.mp hmem with hhead | htail
      · rw [hhead]
      · exact ih call htail

/-- A run that reported the end of a frame: the calls before ask for more and
    take their chunks whole, one call ends the frame, and those behind it change
    nothing.  `prior` are the chunks of the calls before, `final` the one that
    brought the end of the frame. -/
def EndsWith (calls : List Call) (f : Finished) (prior : List Bytes) (final : Bytes) : Prop :=
  ∃ before call after, calls = before ++ call :: after ∧
    (∀ c ∈ before, c.ret = .needMore) ∧
    before.map Call.consumed = prior.map List.length ∧
    Ended call f ∧ call.consumed = final.length ∧
    ∀ c ∈ after, c = ⟨.finished, 0, call.written, call.ctx, call.dst⟩

section Run

variable {s : FrameState}

/-- **A RUN THAT REACHES THE END OF A FRAME** ends with the chunk that brings
    it, and with no other. -/
theorem runChunks_ends {f : Finished} {rest : Bytes} (chunks : List Bytes)
    (h : Tracks dst_cap ctx dst s) (hanchored : Anchored addr ctx) (hcap : dst_cap < 2 ^ 64)
    (hsize : ctx.in_len + chunks.flatten.length ≤ sizeMax)
    (hpaused : (frameMachine D dst_cap).settle s (pending ctx) = .paused s (pending ctx))
    (hend : (frameMachine D dst_cap).settle s (pending ctx ++ chunks.flatten)
      = .halted (.ok f) rest) :
    ∃ prior final later, chunks = prior ++ final :: later ∧
      EndsWith (runChunks D addr dst_cap ctx dst chunks) f prior final ∧
      (∃ t p, (frameMachine D dst_cap).settle s (pending ctx ++ prior.flatten) = .paused t p) ∧
      ∃ r, (frameMachine D dst_cap).settle s (pending ctx ++ (prior.flatten ++ final))
        = .halted (.ok f) r := by
  induction chunks generalizing ctx dst s with
  | nil =>
      rw [List.flatten_nil, List.append_nil, hpaused] at hend
      cases hend
  | cons src chunks ih =>
      rw [List.flatten_cons, List.length_append] at hsize
      rw [List.flatten_cons, ← List.append_assoc] at hend
      obtain ⟨hfollows, hconsumed, hnext⟩ :=
        takeChunk_follows (D := D) src h hanchored hcap (by omega)
      rw [runChunks, decompressChunk_of_tracks h hanchored]
      generalize takeChunk D ctx src addr dst dst_cap = call at hfollows hconsumed hnext
      cases hsettle : (frameMachine D dst_cap).settle s (pending ctx ++ src) with
      | paused t p =>
          rw [hsettle] at hfollows
          obtain ⟨hret, -, htracks, hpending⟩ := hfollows
          rw [Machine.settle_append_paused _ hsettle, ← hpending] at hend
          have hidle := Machine.settle_append_paused [] hsettle
          rw [List.append_nil, List.append_nil, hsettle] at hidle
          rw [← hpending] at hidle
          have hlen := Machine.pending_length_le hsettle
          rw [← hpending, List.length_append, pending_length, pending_length] at hlen
          obtain ⟨prior, final, later, hsplit, hends, ⟨t', p', hprior⟩, r, hfinal⟩ :=
            ih htracks hnext (by omega) hidle.symm hend
          obtain ⟨before, last, after, hcalls, hbefore, hsums, hlast, hlastsum, hafter⟩ := hends
          refine ⟨src :: prior, final, later, by rw [hsplit]; rfl,
            ⟨call :: before, last, after, by rw [hcalls]; rfl, ?_, ?_, hlast, hlastsum, hafter⟩,
            ⟨t', p', ?_⟩, r, ?_⟩
          · intro c hc
            rcases List.mem_cons.mp hc with hhead | htail
            · rw [hhead]
              exact hret
            · exact hbefore c htail
          · rw [List.map_cons, List.map_cons, hsums, hconsumed]
          · rw [List.flatten_cons, ← List.append_assoc, Machine.settle_append_paused _ hsettle,
              ← hpending]
            exact hprior
          · rw [List.flatten_cons, List.append_assoc, ← List.append_assoc,
              Machine.settle_append_paused _ hsettle, ← hpending]
            exact hfinal
      | halted r rest' =>
          rw [hsettle] at hfollows
          rw [Machine.settle_append_halted _ hsettle] at hend
          obtain ⟨rfl, -⟩ := Settled.halted.inj hend
          have hended : Ended call f := hfollows
          refine ⟨[], src, chunks, rfl, ⟨[], call, _, rfl, ?_, rfl, hended, hconsumed, ?_⟩,
            ⟨s, pending ctx, ?_⟩, rest', ?_⟩
          · intro c hc
            cases hc
          · rw [hended.written, ← hended.pos]
            exact runChunks_done chunks hended.state
          · rw [List.flatten_nil, List.append_nil]
            exact hpaused
          · rw [List.flatten_nil, List.nil_append]
            exact hsettle

/-- **A RUN THAT DOES NOT REACH IT** reports no end. -/
theorem runChunks_not_finished (chunks : List Bytes) (h : Tracks dst_cap ctx dst s)
    (hanchored : Anchored addr ctx) (hcap : dst_cap < 2 ^ 64)
    (hsize : ctx.in_len + chunks.flatten.length ≤ sizeMax)
    (hend : ∀ f rest, (frameMachine D dst_cap).settle s (pending ctx ++ chunks.flatten)
      ≠ .halted (.ok f) rest) :
    ∀ call ∈ runChunks D addr dst_cap ctx dst chunks, call.ret ≠ .finished := by
  induction chunks generalizing ctx dst s with
  | nil =>
      intro call hcall
      cases hcall
  | cons src chunks ih =>
      rw [List.flatten_cons, List.length_append] at hsize
      rw [List.flatten_cons, ← List.append_assoc] at hend
      obtain ⟨hfollows, -, hnext⟩ :=
        takeChunk_follows (D := D) src h hanchored hcap (by omega)
      rw [runChunks, decompressChunk_of_tracks h hanchored]
      generalize takeChunk D ctx src addr dst dst_cap = call at hfollows hnext
      intro c hc
      cases hsettle : (frameMachine D dst_cap).settle s (pending ctx ++ src) with
      | paused t p =>
          rw [hsettle] at hfollows
          obtain ⟨hret, -, htracks, hpending⟩ := hfollows
          rw [Machine.settle_append_paused _ hsettle, ← hpending] at hend
          have hlen := Machine.pending_length_le hsettle
          rw [← hpending, List.length_append, pending_length, pending_length] at hlen
          rcases List.mem_cons.mp hc with hhead | htail
          · rw [hhead, hret]
            intro hbad
            cases hbad
          · exact ih htracks hnext (by omega) hend c htail
      | halted r rest' =>
          rw [hsettle] at hfollows
          rw [Machine.settle_append_halted _ hsettle] at hend
          cases r with
          | ok f => exact absurd rfl (hend f _)
          | error e =>
              obtain ⟨hret, hstate⟩ := hfollows
              rcases List.mem_cons.mp hc with hhead | htail
              · rw [hhead, hret]
                intro hbad
                cases hbad
              · rw [runChunks_error chunks hstate c htail]
                intro hbad
                cases hbad

end Run

end Zupt.VaptVupt
