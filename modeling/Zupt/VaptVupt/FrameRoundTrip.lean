import Zupt.VaptVupt.BcjArm
import Zupt.VaptVupt.BlockRoundTrip

/-! # Frames round trip

    A frame is a chain of blocks, each of which decodes behind what the ones before it
    decode to.  The decoder goes along such a chain in the buffer of its caller, checks the
    footer and undoes the branch filter; so it gives back what `vv_compress` was given, frame
    after frame. -/

namespace Zupt.VaptVupt

open Zupt.LittleEndian Zupt.Memory Zupt.Window

/-! ## Chains of blocks -/

/-- Blocks up to the last one of a frame behind `hist`, and what they decode to, with any
    scratch and whatever follows. -/
inductive BlockChain (wlog max_offset : Nat) : (hist stream out : Bytes) → Prop
  | last {hist block out : Bytes}
      (h : ∀ st room rest, out.length ≤ room →
        decodeBlock (naiveDecoders st) (windowBytes wlog) max_offset room hist (block ++ rest) =
          .ok ⟨out, true, rest⟩) :
      BlockChain wlog max_offset hist block out
  | more {hist block raw stream out : Bytes}
      (h : ∀ st room rest, raw.length ≤ room →
        decodeBlock (naiveDecoders st) (windowBytes wlog) max_offset room hist (block ++ rest) =
          .ok ⟨raw, false, rest⟩)
      (hrest : BlockChain wlog max_offset (hist ++ raw) stream out) :
      BlockChain wlog max_offset hist (block ++ stream) (raw ++ out)

section Chain

variable {wlog max_offset dst_cap : Nat} {m0 : Mem UInt8} {c : Cursor}

/-- A block that decodes has a header. -/
theorem block_pos {D : BlockDecoders} {offBytes room : Nat} {hist block out : Bytes} {last : Bool}
    (h : decodeBlock D offBytes max_offset room hist (block ++ []) = .ok ⟨out, last, []⟩) :
    0 < block.length := by
  by_contra hnone
  have hshort : (block ++ []).length < 4 := by
    rw [List.append_nil]
    omega
  rw [decodeBlock, if_pos hshort] at h
  cases h

/-- One block in the buffer. -/
theorem blockAt_decodes (build : Build) (st : Scratch) {done hist block raw rest : Bytes}
    {last : Bool} (hdec : ∀ st room rest, raw.length ≤ room →
      decodeBlock (naiveDecoders st) (windowBytes wlog) max_offset room hist (block ++ rest) =
        .ok ⟨raw, last, rest⟩)
    (h : CursorAt dst_cap m0 c (done ++ hist) (block ++ rest))
    (hroom : done.length + hist.length + raw.length ≤ dst_cap) :
    ∃ m, decodeBlockAt build st (windowBytes wlog) max_offset ⟨dst_cap, done.length⟩ c.op c.m c.ip =
        .ok ⟨m, raw.length, last, rest⟩ ∧
      CursorAt dst_cap m0 ⟨m, c.op + raw.length, rest⟩ (done ++ (hist ++ raw)) rest := by
  have hop : c.op = done.length + hist.length := by
    rw [h.op, List.length_append]
  have htracks := blockAt_tracks build st (windowBytes wlog) max_offset h.holds (block ++ rest)
  rw [hdec st _ rest (by omega)] at htracks
  obtain ⟨m, hm, hholds⟩ := htracks
  rw [h.ip, hop]
  refine ⟨m, hm, ?_, ?_, rfl⟩
  · rw [← List.append_assoc]
    exact hholds
  · show done.length + hist.length + raw.length = _
    rw [List.length_append, List.length_append, Nat.add_assoc]

/-- **THE BLOCK LOOP** goes along a chain. -/
theorem BlockChain.decodes (build : Build) (heap : Heap) {hist stream out : Bytes}
    (hchain : BlockChain wlog max_offset hist stream out) {done rest : Bytes} {turns : Nat}
    (h : CursorAt dst_cap m0 c (done ++ hist) (stream ++ rest))
    (hroom : done.length + hist.length + out.length ≤ dst_cap) (hturns : stream.length ≤ turns) :
    ∃ c', decodeBlocksAt build heap (windowBytes wlog) max_offset ⟨dst_cap, done.length⟩ turns c =
        .ok c' ∧ CursorAt dst_cap m0 c' (done ++ (hist ++ out)) rest := by
  induction hchain generalizing c turns with
  | last hdec =>
      have hpos := block_pos (hdec clearScratch _ [] (Nat.le_refl _))
      obtain ⟨turns, rfl⟩ : ∃ k, turns = k + 1 := ⟨turns - 1, by omega⟩
      obtain ⟨m, hm, hat⟩ := blockAt_decodes build (heap c.ip.length) hdec h hroom
      rw [decodeBlocksAt, hm]
      exact ⟨_, rfl, hat⟩
  | @more hist block raw stream out hdec hchain ih =>
      have hpos := block_pos (hdec clearScratch _ [] (Nat.le_refl _))
      rw [List.length_append] at hroom hturns
      obtain ⟨turns, rfl⟩ : ∃ k, turns = k + 1 := ⟨turns - 1, by omega⟩
      rw [List.append_assoc] at h
      obtain ⟨m, hm, hat⟩ := blockAt_decodes build (heap c.ip.length) hdec h (by omega)
      have hmore : stream.length ≤ turns := by
        omega
      obtain ⟨c', hc', hend⟩ := ih hat (by rw [List.length_append]; omega) hmore
      rw [decodeBlocksAt, hm]
      refine ⟨c', ?_, ?_⟩
      · dsimp only
        rw [if_neg Bool.false_ne_true]
        exact hc'
      · rw [← List.append_assoc hist raw out]
        exact hend

end Chain

/-! ## Frames -/

/-- The header of a frame is read back. -/
theorem frameHeaderGet_put (fh : FrameHeader) (rest : Bytes) :
    frameHeaderGet (frameHeaderPut fh ++ rest) = fh := by
  obtain ⟨magic, version, flags, mode_hint, window_log, content_size⟩ := fh
  have hfour : ∀ i : Nat, ∀ tail : Bytes, charAt (le32Put magic ++ tail) (4 + i) = charAt tail i := by
    intro i tail
    rw [charAt, List.getD_append_right _ _ _ _ (by rw [le32Put_length]; omega), le32Put_length,
      Nat.add_sub_cancel_left, charAt]
  have height : (le32Put magic ++ [version, flags, mode_hint, window_log]).length = 8 := by
    rw [List.length_append, le32Put_length]
    rfl
  have hput : frameHeaderPut ⟨magic, version, flags, mode_hint, window_log, content_size⟩ ++ rest =
      le32Put magic ++ ([version, flags, mode_hint, window_log] ++ (le64Put content_size ++ rest)) := by
    simp only [frameHeaderPut, List.append_assoc]
  rw [hput, frameHeaderGet, FrameHeader.mk.injEq]
  refine ⟨le32Get_le32Put _ _, hfour 0 _, hfour 1 _, hfour 2 _, hfour 3 _, ?_⟩
  rw [← List.append_assoc, List.drop_left' height, le64Get_le64Put]

/-- The footer that a header calls for. -/
def FrameHeader.footer (fh : FrameHeader) (out : Bytes) : Bytes :=
  if fh.hasChecksum then footerPut (xxh64 out 0) else []

/-- The footer of the output passes, checked or not. -/
theorem finishFrame_footer (skip : Bool) (fh : FrameHeader) (out rest : Bytes) :
    finishFrame skip fh out (fh.footer out ++ rest) = .ok (bcjInverse fh out, rest) := by
  rw [finishFrame, FrameHeader.footer]
  by_cases hsum : fh.hasChecksum
  · have hlen : (footerPut (xxh64 out 0) ++ rest).length = 12 + rest.length := by
      rw [List.length_append, footerPut_length]
    have hmagic : le32Get ((footerPut (xxh64 out 0) ++ rest).drop 8) = 0x56564E44 := by
      rw [footerPut, List.append_assoc, List.drop_left' (le64Put_length _), le32Get_le32Put]
    have hkey : le64Get (footerPut (xxh64 out 0) ++ rest) = xxh64 out 0 := by
      rw [footerPut, List.append_assoc, le64Get_le64Put]
    rw [if_pos hsum, if_pos hsum, checkFooter, if_neg (by omega), hmagic,
      if_neg (fun h => h rfl), hkey, if_neg (fun h => h.2 rfl), List.drop_left' (footerPut_length _)]
  · rw [if_neg hsum, if_neg hsum, List.nil_append]

/-- A frame as the encoders write it, and what was encoded. -/
inductive FrameOf : (frame src : Bytes) → Prop
  | made {fh : FrameHeader} {wlog max_offset : Nat} {stream out : Bytes}
      (hcheck : checkHeader fh = .ok max_offset) (hbytes : fh.offBytes = windowBytes wlog)
      (hchain : BlockChain wlog max_offset [] stream out) :
      FrameOf (frameHeaderPut fh ++ stream ++ fh.footer out) (bcjInverse fh out)

/-- A frame has a header. -/
theorem FrameOf.pos {frame src : Bytes} (h : FrameOf frame src) : 16 ≤ frame.length := by
  cases h with
  | made hcheck hbytes hchain =>
      simp only [List.length_append, frameHeaderPut_length]
      omega

theorem frames_long {frames : List (Bytes × Bytes)} (h : ∀ p ∈ frames, FrameOf p.1 p.2) :
    16 * frames.length ≤ (frames.flatMap Prod.fst).length := by
  induction frames with
  | nil => exact Nat.zero_le _
  | cons p frames ih =>
      have hfirst := (h p List.mem_cons_self).pos
      have hrest := ih fun q hq => h q (List.mem_cons_of_mem _ hq)
      rw [List.flatMap_cons, List.length_append, List.length_cons]
      omega

section Frames

variable {dst_cap : Nat} {m0 : Mem UInt8} {c : Cursor}

/-- **A FRAME IN THE BUFFER** is decoded behind the frames before it. -/
theorem FrameOf.decodes (build : Build) (heap : Heap) (skip : Bool) {frame src : Bytes}
    (hframe : FrameOf frame src) {done rest : Bytes}
    (h : CursorAt dst_cap m0 c done (frame ++ rest)) (hroom : done.length + src.length ≤ dst_cap) :
    ∃ c', decodeFrameAt build heap skip dst_cap c = .ok c' ∧
      CursorAt dst_cap m0 c' (done ++ src) rest := by
  cases hframe with
  | @made fh wlog max_offset stream out hcheck hbytes hchain =>
      rw [bcjInverse_length] at hroom
      have hip : c.ip = frameHeaderPut fh ++ (stream ++ (fh.footer out ++ rest)) := by
        rw [h.ip]
        simp only [List.append_assoc]
      have hdrop : c.ip.drop 16 = stream ++ (fh.footer out ++ rest) := by
        rw [hip, List.drop_left' (frameHeaderPut_length fh)]
      have hlen : ¬ c.ip.length < 16 := by
        rw [hip, List.length_append, frameHeaderPut_length]
        omega
      have hstart : CursorAt dst_cap m0 ⟨c.m, c.op, c.ip.drop 16⟩ (done ++ [])
          (stream ++ (fh.footer out ++ rest)) := by
        rw [List.append_nil]
        exact ⟨h.holds, h.op, hdrop⟩
      obtain ⟨d, hd, hat⟩ := hchain.decodes build heap hstart
        (show done.length + 0 + out.length ≤ dst_cap by omega)
        (show stream.length ≤ (c.ip.drop 16).length by
          rw [hdrop, List.length_append]
          omega)
      rw [List.nil_append] at hat
      rw [h.op] at hd
      have hend := finishFrameAt_ends skip fh hat
      rw [finishFrame_footer] at hend
      obtain ⟨c', hc', htracks⟩ := hend
      refine ⟨c', ?_, htracks⟩
      rw [decodeFrameAt, if_neg hlen]
      dsimp only
      rw [hip, frameHeaderGet_put, hcheck, ← hip]
      dsimp only
      rw [hbytes, h.op, hd]
      exact hc'

/-- **THE FRAME LOOP** over frames behind each other. -/
theorem frames_decode (build : Build) (heap : Heap) (skip : Bool) {frames : List (Bytes × Bytes)}
    (hframes : ∀ p ∈ frames, FrameOf p.1 p.2) {done : Bytes} {turns : Nat}
    (h : CursorAt dst_cap m0 c done (frames.flatMap Prod.fst))
    (hroom : done.length + (frames.flatMap Prod.snd).length ≤ dst_cap)
    (hturns : frames.length < turns) :
    ∃ c', decodeFramesAt build heap skip dst_cap turns c = .ok c' ∧
      CursorAt dst_cap m0 c' (done ++ frames.flatMap Prod.snd) [] := by
  induction frames generalizing c done turns with
  | nil =>
      obtain ⟨turns, rfl⟩ : ∃ k, turns = k + 1 := ⟨turns - 1, by omega⟩
      have hip : c.ip.length = 0 := by
        rw [h.ip]
        rfl
      rw [decodeFramesAt, if_pos hip]
      refine ⟨c, rfl, ?_⟩
      rw [List.flatMap_nil, List.append_nil]
      exact h
  | cons p frames ih =>
      obtain ⟨turns, rfl⟩ : ∃ k, turns = k + 1 := ⟨turns - 1, by omega⟩
      rw [List.flatMap_cons] at h hroom
      rw [List.length_append] at hroom
      rw [List.length_cons] at hturns
      have hframe := hframes p List.mem_cons_self
      have hsome : c.ip.length ≠ 0 := by
        rw [h.ip, List.length_append]
        have hpos := hframe.pos
        omega
      obtain ⟨c1, hc1, hat⟩ := hframe.decodes build heap skip h (by omega)
      obtain ⟨c2, hc2, hend⟩ := ih (fun q hq => hframes q (List.mem_cons_of_mem _ hq)) hat
        (by rw [List.length_append]; omega) (Nat.lt_of_succ_lt_succ hturns)
      rw [decodeFramesAt, if_neg hsome, hc1]
      refine ⟨c2, hc2, ?_⟩
      rw [List.flatMap_cons, ← List.append_assoc]
      exact hend

end Frames

/-! ## The blocks of a frame -/

/-- The literals that are extracted fit what was allowed for them. -/
theorem extractLoop_le {lit_cap off_bytes turns : Nat} {tp lits stripped lits' stripped' : Bytes}
    (hle : lits.length ≤ lit_cap)
    (h : extractLoop lit_cap off_bytes turns tp lits stripped = some (lits', stripped')) :
    lits'.length ≤ lit_cap := by
  induction turns generalizing tp lits stripped with
  | zero =>
      cases h
      exact hle
  | succ turns ih =>
      cases tp with
      | nil =>
          cases h
          exact hle
      | cons token tp =>
          rw [extractLoop] at h
          dsimp only at h
          split at h
          · cases h
          rename_i ll ext rest _
          split at h
          · cases h
          split at h
          · cases h
          rename_i hfits
          have hnext : (lits ++ rest.take ll).length ≤ lit_cap := by
            rw [List.length_append, List.length_take]
            omega
          split at h
          · cases h
            exact hnext
          split at h
          · cases h
          split at h
          · cases h
          exact ih hnext h

theorem codeLiterals_le {C : EntropyCoders} {a : EmitArgs} {off_bytes : Nat} {tokens : Bytes}
    {c : CodedLiterals} (h : a.codeLiterals C off_bytes tokens = some c) :
    c.lit_count ≤ a.lit_cap := by
  rw [EmitArgs.codeLiterals, extractLiterals] at h
  cases hloop : extractLoop a.lit_cap off_bytes tokens.length tokens [] [] with
  | none =>
      rw [hloop] at h
      cases h
  | some p =>
      obtain ⟨lits, stripped⟩ := p
      have hle := extractLoop_le (Nat.zero_le _) hloop
      rw [hloop] at h
      dsimp only at h
      by_cases hnone : lits.length = 0
      · rw [if_pos hnone] at h
        cases h
      rw [if_neg hnone] at h
      dsimp only at h
      split at h
      · obtain rfl := Option.some.inj h
        exact hle
      · split at h
        · obtain rfl := Option.some.inj h
          exact hle
        · cases h

/-- The second format has no path B. -/
theorem narrow_of_v2 {C : EntropyCoders} {a : EmitArgs} (hv2 : a.v2 = true) (tokens : Option Bytes) :
    a.Narrow C tokens := by
  intro _ tmp _ c hc
  have hv1 := (pathB_some hc).1
  rw [hv2] at hv1
  cases hv1

/-- Blocks of less than 64 KiB have few literals. -/
theorem narrow_of_short {C : EntropyCoders} {a : EmitArgs} (hshort : a.lit_cap < 2 ^ 16)
    (tokens : Option Bytes) : a.Narrow C tokens := by
  intro _ tmp _ c hc
  exact (codeLiterals_le (pathB_some hc).2).trans_lt hshort

section Blocks

variable {o : Options} {p : Plan} {src : Bytes} {C : EntropyCoders} {fresh : Nat → FreshTables}

/-- In every block of a frame, path B, where it runs, has a number of literals that fits its
    field.  The blocks are those of `Options.blocks`. -/
def Options.NarrowBlocks (o : Options) (C : EntropyCoders) (fresh : Nat → FreshTables) (p : Plan)
    (src : Bytes) : (turns start : Nat) → Matcher → (room : Nat) → Prop
  | 0, _, _, _ => True
  | turns + 1, start, m, room =>
      start < src.length →
        (o.blockArgs p src start room).Narrow C
            ((o.blockArgs p src start room).parse (fresh start) m).2 ∧
          ∀ block, (emitBlock C (fresh start) (o.blockArgs p src start room) m).2 = some block →
            o.NarrowBlocks C fresh p src turns (start + min (src.length - start) maxBlockSize)
              (emitBlock C (fresh start) (o.blockArgs p src start room) m).1 (room - block.length)

theorem blockArgs_v2 (o : Options) (p : Plan) (src : Bytes) (start room : Nat) :
    (o.blockArgs p src start room).v2 = p.use_v2_fmt := by
  rw [EmitArgs.v2, Options.blockArgs]
  dsimp only
  cases p.use_v2_fmt <;> rfl

/-- **FEW LITERALS**: the second format, the mode without an entropy stage, and any source of
    less than 64 KiB. -/
theorem narrowBlocks_of (h : p.use_v2_fmt = true ∨ o.mode = .ultraFast ∨ src.length < 2 ^ 16)
    (turns start : Nat)
    (m : Matcher) (room : Nat) : o.NarrowBlocks C fresh p src turns start m room := by
  induction turns generalizing start m room with
  | zero => trivial
  | succ turns ih =>
      intro _
      refine ⟨?_, fun block _ => ih _ _ _⟩
      rcases h with hv2 | hfast | hshort
      · exact narrow_of_v2 (by rw [blockArgs_v2, hv2]) _
      · intro hmode
        rw [show (o.blockArgs p src start room).mode = o.mode from rfl, hfast] at hmode
        cases hmode
      · refine narrow_of_short ?_ _
        show min src.length maxBlockSize < 2 ^ 16
        omega

/-- What the plan of a frame sees to. -/
structure Plan.Good (p : Plan) (o : Options) : Prop where
  low : 10 ≤ p.wlog
  high : p.wlog ≤ 24
  entropy : p.use_v2_fmt = true → o.mode.entropy = true

/-- The matcher between two blocks. -/
structure Matcher.Ready (m : Matcher) (o : Options) (p : Plan) : Prop where
  wlog : m.wlog = p.wlog
  max_match : m.max_match = seqMax p.use_v2_fmt
  rep : (o.mode = .extreme ∧ p.use_v2_fmt = false) ∨ m.RepBound

theorem blockArgs_optimal (start room : Nat) :
    (o.blockArgs p src start room).Optimal ↔ o.mode = .extreme ∧ p.use_v2_fmt = false := by
  rw [EmitArgs.Optimal, Options.blockArgs]
  dsimp only
  cases p.use_v2_fmt with
  | false => simp [minMatch]
  | true => simp [minMatch]

theorem Matcher.Ready.block {m : Matcher} (h : m.Ready o p) (hp : p.Good o) {start : Nat}
    (hstart : start ≤ src.length) (room : Nat) : (o.blockArgs p src start room).Ready m where
  inside := by
    show start + min (src.length - start) maxBlockSize ≤ src.length
    omega
  size := Nat.min_le_right _ _
  low := hp.low
  high := hp.high
  min_match := by
    rw [blockArgs_v2, Options.blockArgs]
    dsimp only
    cases p.use_v2_fmt <;> rfl
  entropy hv2 := by
    rw [blockArgs_v2] at hv2
    exact hp.entropy hv2
  wlog := h.wlog
  max_match := by
    rw [blockArgs_v2]
    exact h.max_match
  rep := by
    rw [blockArgs_optimal]
    exact h.rep

theorem Matcher.Ready.next {m : Matcher} (h : m.Ready o p) (hp : p.Good o) {start : Nat}
    (hstart : start ≤ src.length) (room : Nat) (fresh : FreshTables) :
    (emitBlock C fresh (o.blockArgs p src start room) m).1.Ready o p := by
  obtain ⟨hwlog, hmax, hrep⟩ := emitBlock_ready (h.block hp hstart room) C fresh
  rw [blockArgs_v2] at hmax
  rw [blockArgs_optimal] at hrep
  exact ⟨hwlog, hmax, hrep⟩

/-- A block of a frame decodes, with any scratch. -/
theorem Matcher.Ready.emitted {m : Matcher} (h : m.Ready o p) (hp : p.Good o) (hC : C.Library)
    {max_offset : Nat} (hmax : frameMaxOffset (UInt8.ofNat p.wlog) = some max_offset) {start : Nat}
    (hstart : start ≤ src.length) {room : Nat} {fresh : FreshTables} {block : Bytes}
    (hnarrow : (o.blockArgs p src start room).Narrow C
      ((o.blockArgs p src start room).parse fresh m).2)
    (hblock : (emitBlock C fresh (o.blockArgs p src start room) m).2 = some block)
    (st : Scratch) (cap : Nat) (rest : Bytes)
    (hcap : ((src.drop start).take maxBlockSize).length ≤ cap) :
    decodeBlock (naiveDecoders st) (windowBytes p.wlog) max_offset cap (src.take start)
      (block ++ rest) =
        .ok ⟨(src.drop start).take maxBlockSize, src.length - start ≤ maxBlockSize, rest⟩ := by
  have hready : (o.blockArgs p src start room).Ready m := h.block hp hstart room
  have hraw : (o.blockArgs p src start room).raw = (src.drop start).take maxBlockSize := by
    show (src.drop start).take (min (src.length - start) maxBlockSize) = _
    rw [← List.length_drop, Nat.min_comm, ← List.take_take, List.take_length]
  have hlen := EmitArgs.raw_length hready.inside
  rw [hraw] at hlen
  have hdec := emitBlock_decodes hready hC fresh hnarrow hmax st [] block hblock cap rest (by omega)
  rw [hraw] at hdec
  exact hdec

/-- **THE BLOCKS OF A FRAME** are a chain that decodes to the source. -/
theorem blocks_chain (hC : C.Library) (hp : p.Good o) {max_offset : Nat}
    (hmax : frameMaxOffset (UInt8.ofNat p.wlog) = some max_offset) {turns start room : Nat}
    {m : Matcher} (hm : m.Ready o p) {stream : Bytes}
    (h : o.blocks C fresh p src turns start m room = .ok stream) (hstart : start < src.length)
    (hturns : src.length - start ≤ turns * maxBlockSize)
    (hnarrow : o.NarrowBlocks C fresh p src turns start m room) :
    BlockChain p.wlog max_offset (src.take start) stream (src.drop start) := by
  induction turns generalizing start m room stream with
  | zero =>
      rw [Nat.zero_mul] at hturns
      omega
  | succ turns ih =>
      rw [Nat.succ_mul] at hturns
      have hnext := hm.next (C := C) hp hstart.le room (fresh start)
      obtain ⟨hhere, hmore⟩ := hnarrow hstart
      rw [Options.blocks, if_pos hstart] at h
      rcases hemit : emitBlock C (fresh start) (o.blockArgs p src start room) m with ⟨m', r⟩
      rw [hemit] at h hnext hmore
      cases r with
      | none => cases h
      | some block =>
          dsimp only at h hnext hmore
          have hblock := hm.emitted hp hC hmax hstart.le hhere (congrArg Prod.snd hemit)
          cases hrest : o.blocks C fresh p src turns (start + min (src.length - start) maxBlockSize)
              m' (room - block.length) with
          | error e =>
              rw [hrest] at h
              cases h
          | ok rest =>
              rw [hrest] at h
              obtain rfl := Except.ok.inj h
              by_cases hlast : src.length - start ≤ maxBlockSize
              · -- nothing is left for the turns behind the last block
                have hnone : rest = [] := by
                  rw [Nat.min_eq_left hlast] at hrest
                  cases turns with
                  | zero => exact (Except.ok.inj hrest).symm
                  | succ turns =>
                      rw [Options.blocks, if_neg (by omega)] at hrest
                      exact (Except.ok.inj hrest).symm
                rw [decide_eq_true hlast,
                  List.take_of_length_le (by rw [List.length_drop]; exact hlast)] at hblock
                rw [hnone, List.append_nil]
                exact .last hblock
              · rw [Nat.min_eq_right (Nat.not_le.mp hlast).le] at hrest hmore
                rw [decide_eq_false hlast] at hblock
                have hchain := ih hnext hrest (by omega) (by omega) (hmore block rfl)
                have hhist : src.take (start + maxBlockSize) =
                    src.take start ++ (src.drop start).take maxBlockSize := List.take_add
                have hbehind : src.drop start = (src.drop start).take maxBlockSize ++
                    src.drop (start + maxBlockSize) := by
                  rw [← List.drop_drop, List.take_append_drop]
                rw [hhist] at hchain
                rw [hbehind]
                exact .more hblock hchain

end Blocks

/-! ## The encoder -/

section Header

variable {o : Options} {wlog : Nat}

/-- The header of the encoder passes the checks of the decoder. -/
theorem checkHeader_put (hfilters : ¬ (o.filter_x86 = true ∧ o.filter_arm64 = true)) {max_offset : Nat}
    (hmax : frameMaxOffset (UInt8.ofNat wlog) = some max_offset) (size : Nat) :
    checkHeader (o.header wlog size) = .ok max_offset := by
  have hflags : (o.header wlog size).flags &&& 0x0C ≠ 0x0C := by
    rw [Options.header]
    dsimp only
    revert hfilters
    cases o.checksum <;> cases o.filter_x86 <;> cases o.filter_arm64 <;> decide
  have hwindow : frameMaxOffset (o.header wlog size).window_log = some max_offset := hmax
  rw [checkHeader, if_neg (fun h => h rfl), if_neg (fun h => h rfl), if_neg hflags, hwindow]

theorem header_offBytes (hlow : 10 ≤ wlog) (hhigh : wlog ≤ 24) (size : Nat) :
    (o.header wlog size).offBytes = windowBytes wlog := by
  show (if 16 < UInt8.ofNat wlog then 3 else 2) = _
  rw [windowBytes]
  interval_cases wlog <;> rfl

/-- The flags of a header. -/
theorem header_flags (o : Options) (wlog size : Nat) :
    ((o.header wlog size).flags &&& 1 ≠ 0 ↔ o.checksum = true) ∧
      ((o.header wlog size).flags &&& 4 ≠ 0 ↔ o.filter_x86 = true) ∧
      ((o.header wlog size).flags &&& 8 ≠ 0 ↔ o.filter_arm64 = true) := by
  rw [Options.header]
  dsimp only
  cases o.checksum <;> cases o.filter_x86 <;> cases o.filter_arm64 <;> decide

theorem header_hasChecksum (size : Nat) : (o.header wlog size).hasChecksum = o.checksum := by
  rw [Bool.eq_iff_iff, FrameHeader.hasChecksum, decide_eq_true_iff]
  exact (header_flags o wlog size).1

theorem bcjInverse_header (size : Nat) (out : Bytes) :
    bcjInverse (o.header wlog size) out =
      if o.filter_arm64 then bcjArm64 (if o.filter_x86 then bcjX86 out 0 false else out) 0 false
      else if o.filter_x86 then bcjX86 out 0 false else out := by
  obtain ⟨-, hx86, harm⟩ := header_flags o wlog size
  rw [bcjInverse]
  simp only [hx86, harm]

end Header

theorem wantLog_bounds (s : Nat) : 20 ≤ wantLog s ∧ wantLog s ≤ 24 := by
  rw [wantLog]
  split_ifs <;> omega

theorem trial_window (o : Options) (fresh16 fresh20 : FreshTables) (src : Bytes) :
    (o.trial fresh16 fresh20 src).1 = 20 ∨
      (o.trial fresh16 fresh20 src).1 = if o.window_log = 0 then 16 else o.window_log := by
  rw [Options.trial]
  split
  · dsimp only
    split
    · exact Or.inl rfl
    · exact Or.inr rfl
  · exact Or.inr rfl

/-- The plan of a frame is good. -/
theorem plan_good {o : Options} (hwindow : ¬ o.badWindow) (fresh16 fresh20 : FreshTables)
    (src : Bytes) : (o.plan fresh16 fresh20 src).Good o := by
  have htrial := trial_window o fresh16 fresh20 src
  have hbounds := wantLog_bounds src.length
  rw [Options.badWindow] at hwindow
  have hfirst : 10 ≤ (o.trial fresh16 fresh20 src).1 ∧ (o.trial fresh16 fresh20 src).1 ≤ 24 := by
    split at htrial <;> omega
  constructor
  · rw [Options.plan]
    split_ifs <;> (dsimp only; omega)
  · rw [Options.plan]
    split_ifs <;> (dsimp only; omega)
  · intro hv2
    rw [Options.plan] at hv2
    rw [Options.effectiveFormatV2] at hv2
    revert hv2
    cases o.mode.entropy <;> simp

/-- The first matcher of a frame is ready. -/
theorem matcher_ready (o : Options) (fresh : FreshTables) (p : Plan) (src : Bytes) :
    (o.matcher fresh p src).Ready o p where
  wlog := by
    rw [Options.matcher]
    split_ifs <;> rfl
  max_match := by
    rw [Options.matcher]
    cases p.use_v2_fmt with
    | false => rfl
    | true => cases p.enable_hash4 <;> rfl
  rep := by
    right
    intro i
    have hrep : (o.matcher fresh p src).rep = ![0, 0, 0] := by
      rw [Options.matcher]
      split_ifs <;> rfl
    rw [hrep]
    match i with
    | 0 => exact Nat.zero_le _
    | 1 => exact Nat.zero_le _
    | 2 => exact Nat.zero_le _

/-- Path B never has more literals than its field counts, in any block of the frame. -/
def Options.NarrowFrame (o : Options) (C : EntropyCoders) (fresh : FreshFrame) (src : Bytes)
    (dst_cap : Nat) : Prop :=
  o.NarrowBlocks C fresh.prepass (o.plan fresh.trial16 fresh.trial20 src) src
    (src.length / maxBlockSize + 1) 0
    (o.matcher fresh.matcher (o.plan fresh.trial16 fresh.trial20 src) src) (dst_cap - 16)

/-- **A FRAME OF `vv_compress_inner`**. -/
theorem vvCompressInner_frame {C : EntropyCoders} (hC : C.Library) {fresh : FreshFrame}
    {src frame : Bytes} {dst_cap : Nat} {opts : Option Options} {o : Options}
    (ho : opts.getD defaultOptions = o) (hfilters : ¬ (o.filter_x86 = true ∧ o.filter_arm64 = true))
    (hnarrow : o.NarrowFrame C fresh src dst_cap)
    (h : vvCompressInner C fresh src dst_cap opts = .ok frame) :
    FrameOf frame (bcjInverse
      (o.header (o.plan fresh.trial16 fresh.trial20 src).wlog src.length) src) := by
  rw [vvCompressInner, ho] at h
  split at h
  · cases h
  by_cases hwindow : o.badWindow
  · rw [if_pos hwindow] at h
    cases h
  rw [if_neg hwindow] at h
  dsimp only at h
  have hp := plan_good hwindow fresh.trial16 fresh.trial20 src
  have hm := matcher_ready o fresh.matcher (o.plan fresh.trial16 fresh.trial20 src) src
  rw [Options.NarrowFrame] at hnarrow
  generalize o.plan fresh.trial16 fresh.trial20 src = p at h hp hm hnarrow ⊢
  obtain ⟨max_offset, hmax, -⟩ := frameMaxOffset_window hp.low hp.high
  have hcheck := checkHeader_put hfilters hmax src.length
  have hbytes := header_offBytes (o := o) hp.low hp.high src.length
  rw [frameHeaderPut_length] at h
  -- the blocks
  have hchain : ∀ stream, (if src.length = 0 then .ok (bhPut .raw true 0)
      else o.blocks C fresh.prepass p src (src.length / maxBlockSize + 1) 0
        (o.matcher fresh.matcher p src) (dst_cap - 16)) = Except.ok stream →
          BlockChain p.wlog max_offset [] stream src := by
    intro stream hstream
    by_cases hnone : src.length = 0
    · rw [if_pos hnone] at hstream
      obtain rfl := Except.ok.inj hstream
      obtain rfl := List.length_eq_zero_iff.mp hnone
      exact .last fun st room rest _ => decodeBlock_empty (naiveDecoders st) _ _ room [] rest
    · rw [if_neg hnone] at hstream
      have hblocks := blocks_chain hC hp hmax hm hstream (Nat.pos_of_ne_zero hnone)
        (by
          have hmod := Nat.div_add_mod src.length maxBlockSize
          have hlt := Nat.mod_lt src.length (show 0 < maxBlockSize by decide)
          rw [Nat.succ_mul, Nat.mul_comm]
          omega) hnarrow
      exact hblocks
  generalize (if src.length = 0 then .ok (bhPut .raw true 0)
      else o.blocks C fresh.prepass p src (src.length / maxBlockSize + 1) 0
        (o.matcher fresh.matcher p src) (dst_cap - 16)) = blocks at h hchain
  cases blocks with
  | error e => cases h
  | ok stream =>
      dsimp only at h
      have hframe : frame = frameHeaderPut (o.header p.wlog src.length) ++ stream ++
          (o.header p.wlog src.length).footer src := by
        rw [FrameHeader.footer, header_hasChecksum]
        by_cases hsum : o.checksum
        · rw [if_pos hsum] at h ⊢
          split at h
          · cases h
          · exact (Except.ok.inj h).symm
        · rw [if_neg hsum] at h ⊢
          rw [List.append_nil]
          exact (Except.ok.inj h).symm
      rw [hframe]
      exact .made hcheck hbytes (hchain stream rfl)

/-- What `vv_compress` hands on: the options and the filtered source. -/
def handedOn (opts : Option Options) (src : Bytes) : Options × Bytes :=
  match opts with
  | none => (defaultOptions, src)
  | some o =>
      let eff := o.effectiveFilters src
      if 0 < src.length ∧ eff.filter_x86 then (eff, bcjX86 src 0 true)
      else if 0 < src.length ∧ eff.filter_arm64 then (eff, bcjArm64 src 0 true)
      else (o, src)

theorem effectiveFilters_one {o : Options} (h : ¬ (o.filter_x86 = true ∧ o.filter_arm64 = true))
    (src : Bytes) : ¬ ((o.effectiveFilters src).filter_x86 = true ∧
      (o.effectiveFilters src).filter_arm64 = true) := by
  rw [Options.effectiveFilters]
  split
  · rename_i hauto
    split
    · exact fun hboth => hauto.2.2 hboth.2
    · exact fun hboth => hauto.2.1 hboth.1
    · exact h
  · exact h

/-- A filter that was chosen by the options stays chosen. -/
theorem effectiveFilters_keeps (o : Options) (src : Bytes) :
    (o.filter_x86 = true → (o.effectiveFilters src).filter_x86 = true) ∧
      (o.filter_arm64 = true → (o.effectiveFilters src).filter_arm64 = true) := by
  rw [Options.effectiveFilters]
  split
  · rename_i hauto
    exact ⟨fun hx86 => absurd hx86 hauto.2.1, fun harm => absurd harm hauto.2.2⟩
  · exact ⟨id, id⟩

/-- A call of `vv_compress`. -/
structure CompressCall where
  coders : EntropyCoders
  fresh : FreshFrame
  src : Bytes
  dst_cap : Nat
  opts : Option Options

/-- What it returns. -/
def CompressCall.result (c : CompressCall) : Except VvError Bytes :=
  vvCompress c.coders c.fresh c.src c.dst_cap c.opts

/-- Path B never has more literals than its field counts. -/
def CompressCall.Narrow (c : CompressCall) : Prop :=
  (handedOn c.opts c.src).1.NarrowFrame c.coders c.fresh (handedOn c.opts c.src).2 c.dst_cap

theorem handedOn_length (opts : Option Options) (src : Bytes) :
    (handedOn opts src).2.length = src.length := by
  cases opts with
  | none => rfl
  | some o =>
      rw [handedOn]
      split_ifs
      · exact bcjX86_length src 0 true
      · exact bcjArm64_length src 0 true
      · rfl

/-- **FEW LITERALS** in all of these calls. -/
theorem CompressCall.narrow_of {c : CompressCall}
    (h : (handedOn c.opts c.src).1.effectiveFormatV2 = true ∨
      (handedOn c.opts c.src).1.mode = .ultraFast ∨ c.src.length < 2 ^ 16) : c.Narrow := by
  refine narrowBlocks_of ?_ _ _ _ _
  rcases h with hv2 | hfast | hshort
  · left
    rw [Options.plan]
    dsimp only
    rw [hv2, Bool.true_or]
  · exact Or.inr (Or.inl hfast)
  · right
    right
    rw [handedOn_length]
    exact hshort

/-- **A FRAME OF `vv_compress`** stands for its source, whichever filter went over it. -/
theorem CompressCall.frame {c : CompressCall} (hC : c.coders.Library) (hnarrow : c.Narrow)
    {frame : Bytes} (h : c.result = .ok frame) : FrameOf frame c.src := by
  obtain ⟨C, fresh, src, dst_cap, opts⟩ := c
  rw [CompressCall.result] at h
  rw [CompressCall.Narrow] at hnarrow
  dsimp only at h hnarrow hC ⊢
  cases opts with
  | none =>
      have hdefault : (none : Option Options).getD defaultOptions = defaultOptions := rfl
      have hinner : vvCompressInner C fresh src dst_cap none = .ok frame := h
      have hframe := vvCompressInner_frame hC hdefault (fun hboth => by cases hboth.1) hnarrow hinner
      rw [bcjInverse_header] at hframe
      exact hframe
  | some o =>
      rw [vvCompress] at h
      split at h
      · cases h
      by_cases hboth : o.filter_x86 = true ∧ o.filter_arm64 = true
      · rw [if_pos hboth] at h
        cases h
      rw [if_neg hboth] at h
      have hone := effectiveFilters_one hboth src
      have hself : ∀ o : Options, (some o).getD defaultOptions = o := fun o => rfl
      obtain ⟨hkeepx86, hkeeparm⟩ := effectiveFilters_keeps o src
      rw [handedOn] at hnarrow
      by_cases hx86 : 0 < src.length ∧ (o.effectiveFilters src).filter_x86 = true
      · rw [if_pos hx86] at h hnarrow
        have hframe := vvCompressInner_frame hC (hself _) hone hnarrow h
        have harm : ¬ (o.effectiveFilters src).filter_arm64 = true := fun harm => hone ⟨hx86.2, harm⟩
        have hback : bcjX86 (bcjX86 src 0 true) 0 false = src := (bcjX86_undone src 0 true).1
        rw [bcjInverse_header, if_neg harm, if_pos hx86.2] at hframe
        rwa [← hback]
      rw [if_neg hx86] at h hnarrow
      by_cases harm : 0 < src.length ∧ (o.effectiveFilters src).filter_arm64 = true
      · rw [if_pos harm] at h hnarrow
        have hframe := vvCompressInner_frame hC (hself _) hone hnarrow h
        have hnox86 : ¬ (o.effectiveFilters src).filter_x86 = true := fun hx => hx86 ⟨harm.1, hx⟩
        have hback : bcjArm64 (bcjArm64 src 0 true) 0 false = src := (bcjArmLoop_undone true 0 src).1
        rw [bcjInverse_header, if_pos harm.2, if_neg hnox86] at hframe
        rwa [← hback]
      · rw [if_neg harm] at h hnarrow
        have hframe := vvCompressInner_frame hC (hself o) hboth hnarrow h
        rw [bcjInverse_header] at hframe
        by_cases hnone : src.length = 0
        · obtain rfl := List.length_eq_zero_iff.mp hnone
          have hsame : bcjX86 [] 0 false = [] ∧ bcjArm64 [] 0 false = [] := ⟨rfl, rfl⟩
          simpa only [hsame, ite_self] using hframe
        · have hpos := Nat.pos_of_ne_zero hnone
          rw [if_neg fun ha => harm ⟨hpos, hkeeparm ha⟩, if_neg fun hx => hx86 ⟨hpos, hkeepx86 hx⟩]
            at hframe
          exact hframe

/-- **FRAMES BEHIND EACH OTHER** are decompressed to what they stand for, into any buffer with
    room for it, and nothing else of the buffer is written. -/
theorem decompressInto_frames {frames : List (Bytes × Bytes)} (hne : frames ≠ [])
    (hframes : ∀ p ∈ frames, FrameOf p.1 p.2) (build : Build) (heap : Heap) (m : Mem UInt8)
    (flags : UInt32) {dst_cap : Nat} (hroom : (frames.flatMap Prod.snd).length ≤ dst_cap) :
    ∃ m', decompressInto build heap m (frames.flatMap Prod.fst) dst_cap flags =
        .ok (m', (frames.flatMap Prod.snd).length) ∧
      Holds ⟨0, dst_cap⟩ m m' (frames.flatMap Prod.snd) := by
  have hlong := frames_long hframes
  have hsome : 0 < frames.length := List.length_pos_iff.mpr hne
  have hstart : CursorAt dst_cap m ⟨m, 0, frames.flatMap Prod.fst⟩ [] (frames.flatMap Prod.fst) :=
    ⟨⟨Nat.zero_le _, rfl, fun _ _ => rfl⟩, rfl, rfl⟩
  obtain ⟨c', hc', hat⟩ := frames_decode build heap (flags &&& 1 ≠ 0) hframes hstart
    (by rw [List.length_nil]; omega)
    (show frames.length < (frames.flatMap Prod.fst).length by omega)
  rw [List.nil_append] at hat
  rw [decompressInto, if_neg (by omega), hc']
  refine ⟨c'.m, ?_, hat.holds⟩
  dsimp only
  rw [hat.op]

/-- Options for small windows. -/
def smallWindow : Options := { defaultOptions with window_log := 10 }

/-- Two calls and their frames: tokens, and a call that was filtered and stored. -/
def twoCalls : List (CompressCall × Bytes) :=
  [(⟨noCoders, ⟨zeroTables, zeroTables, zeroTables, fun _ => zeroTables⟩, List.replicate 24 7, 100,
      some { smallWindow with mode := .ultraFast, checksum := false }⟩,
    [0, 1, 86, 86, 1, 0, 0, 10, 24, 0, 0, 0, 0, 0, 0, 0, 197, 0, 0, 0, 6, 0, 0, 31, 7, 1, 0, 4, 0]),
   (⟨noCoders, ⟨zeroTables, zeroTables, zeroTables, fun _ => zeroTables⟩, [0xE8, 1, 0, 0, 0, 5], 100,
      some { smallWindow with filter_x86 := true }⟩,
    [0, 1, 86, 86, 1, 5, 1, 10, 6, 0, 0, 0, 0, 0, 0, 0, 52, 0, 0, 0, 232, 6, 0, 0, 0, 5, 5, 14, 184,
     207, 154, 84, 156, 105, 68, 78, 86, 86])]

theorem noCoders_library : noCoders.Library where
  sequences h := by cases h
  encode4 h := by cases h
  encode h := by cases h

set_option maxRecDepth 20000 in
theorem twoCalls_made :
    ∀ c ∈ twoCalls, c.1.coders.Library ∧ c.1.Narrow ∧ c.1.result = .ok c.2 := by
  intro c hc
  rcases List.mem_cons.mp hc with rfl | hc
  · exact ⟨noCoders_library, CompressCall.narrow_of (Or.inr (Or.inl rfl)), by decide⟩
  · obtain rfl := List.mem_singleton.mp hc
    exact ⟨noCoders_library, CompressCall.narrow_of (Or.inr (Or.inr (by decide))), by decide⟩

end Zupt.VaptVupt
