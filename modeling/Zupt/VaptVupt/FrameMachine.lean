import Zupt.VaptVupt.Parse

/-! # The frame machine

    The states a stream goes through in one frame, as a resumable parser.
    Ending it at the end of its input is `decodeFrame`. -/

namespace Zupt.VaptVupt

open Zupt.LittleEndian Zupt.Resumable

/-- The states of a frame that is being read, with what it has produced. -/
inductive FrameState where
  | header
  | block (fh : FrameHeader) (maxOffset : Nat) (out : Bytes)
  | footer (fh : FrameHeader) (out : Bytes)
  deriving DecidableEq, Repr

/-- A frame that was read to its end: its header, and its output before the
    branch filters are undone. -/
structure Finished where
  fh : FrameHeader
  plain : Bytes
  deriving DecidableEq, Repr

/-- The output of a frame: the branch filters undone, once. -/
def Finished.out (f : Finished) : Bytes := bcjInverse f.fh f.plain

/-- How reading a frame ends. -/
abbrev Ending := Except VvError Finished

/-- The step in front of a header. -/
def headerStep (b : Bytes) : Outcome FrameState Ending :=
  if b.length < 16 then .wait
  else
    match checkHeader (frameHeaderGet b) with
    | .error e => .halt (.error e) 0
    | .ok max_offset => .next (.block (frameHeaderGet b) max_offset []) 16

/-- The step behind a block. -/
def behindBlock (fh : FrameHeader) (maxOffset : Nat) (out : Bytes) (last : Bool) (taken : Nat) :
    Outcome FrameState Ending :=
  if last then
    if fh.hasChecksum then .next (.footer fh out) taken else .halt (.ok ⟨fh, out⟩) taken
  else .next (.block fh maxOffset out) taken

/-- The step in front of a block. -/
def blockStep (D : BlockDecoders) (dst_cap : Nat) (fh : FrameHeader) (maxOffset : Nat)
    (out b : Bytes) : Outcome FrameState Ending :=
  match streamBlock D fh.offBytes maxOffset (dst_cap - out.length) out b with
  | .needMore => .wait
  | .fail e => .halt (.error e) 0
  | .done new last taken => behindBlock fh maxOffset (out ++ new) last taken

/-- The step in front of a footer. -/
def footerStep (fh : FrameHeader) (out b : Bytes) : Outcome FrameState Ending :=
  if b.length < 12 then .wait
  else if le32Get (b.drop 8) ≠ 0x56564E44 then .halt (.error .corrupt) 0
  else if xxh64 out 0 ≠ le64Get b then .halt (.error .corrupt) 0
  else .halt (.ok ⟨fh, out⟩) 12

/-- The step of each state. -/
def frameStep (D : BlockDecoders) (dst_cap : Nat) : FrameState → Bytes → Outcome FrameState Ending
  | .header, b => headerStep b
  | .block fh maxOffset out, b => blockStep D dst_cap fh maxOffset out b
  | .footer fh out, b => footerStep fh out b

/-! ## The laws of a resumable parser -/

section Laws

variable {D : BlockDecoders} {dst_cap : Nat}

theorem behindBlock_next {fh : FrameHeader} {m taken n : Nat} {out : Bytes} {last : Bool}
    {t : FrameState} (h : behindBlock fh m out last taken = .next t n) : n = taken := by
  rw [behindBlock] at h
  cases last with
  | false =>
      rw [if_neg (by decide)] at h
      exact ((Outcome.next.inj h).2).symm
  | true =>
      rw [if_pos rfl] at h
      by_cases hsum : fh.hasChecksum = true
      · rw [if_pos hsum] at h
        exact ((Outcome.next.inj h).2).symm
      · rw [if_neg hsum] at h
        cases h

theorem behindBlock_halt {fh : FrameHeader} {m taken n : Nat} {out : Bytes} {last : Bool}
    {r : Ending} (h : behindBlock fh m out last taken = .halt r n) : n = taken := by
  rw [behindBlock] at h
  cases last with
  | false =>
      rw [if_neg (by decide)] at h
      cases h
  | true =>
      rw [if_pos rfl] at h
      by_cases hsum : fh.hasChecksum = true
      · rw [if_pos hsum] at h
        cases h
      · rw [if_neg hsum] at h
        exact ((Outcome.halt.inj h).2).symm

theorem behindBlock_ne_wait (fh : FrameHeader) (m taken : Nat) (out : Bytes) (last : Bool) :
    behindBlock fh m out last taken ≠ .wait := by
  intro h
  rw [behindBlock] at h
  cases last with
  | false =>
      rw [if_neg (by decide)] at h
      cases h
  | true =>
      rw [if_pos rfl] at h
      by_cases hsum : fh.hasChecksum = true
      · rw [if_pos hsum] at h
        cases h
      · rw [if_neg hsum] at h
        cases h

theorem frameStep_next {s t : FrameState} {b : Bytes} {n : Nat}
    (h : frameStep D dst_cap s b = .next t n) : 0 < n ∧ n ≤ b.length := by
  cases s with
  | header =>
      rw [frameStep, headerStep] at h
      by_cases h16 : b.length < 16
      · rw [if_pos h16] at h
        cases h
      rw [if_neg h16] at h
      cases hcheck : checkHeader (frameHeaderGet b) with
      | error e =>
          rw [hcheck] at h
          cases h
      | ok m =>
          rw [hcheck] at h
          obtain ⟨-, rfl⟩ := Outcome.next.inj h
          omega
  | block fh m out =>
      rw [frameStep, blockStep] at h
      cases hblock : streamBlock D fh.offBytes m (dst_cap - out.length) out b with
      | needMore =>
          rw [hblock] at h
          cases h
      | fail e =>
          rw [hblock] at h
          cases h
      | done new last taken =>
          rw [hblock] at h
          obtain rfl := behindBlock_next h
          have := streamBlock_done hblock
          omega
  | footer fh out =>
      rw [frameStep, footerStep] at h
      by_cases h12 : b.length < 12
      · rw [if_pos h12] at h
        cases h
      rw [if_neg h12] at h
      split at h
      · cases h
      split at h
      · cases h
      · cases h

theorem frameStep_halt {s : FrameState} {r : Ending} {b : Bytes} {n : Nat}
    (h : frameStep D dst_cap s b = .halt r n) : n ≤ b.length := by
  cases s with
  | header =>
      rw [frameStep, headerStep] at h
      by_cases h16 : b.length < 16
      · rw [if_pos h16] at h
        cases h
      rw [if_neg h16] at h
      cases hcheck : checkHeader (frameHeaderGet b) with
      | error e =>
          rw [hcheck] at h
          obtain ⟨-, rfl⟩ := Outcome.halt.inj h
          omega
      | ok m =>
          rw [hcheck] at h
          cases h
  | block fh m out =>
      rw [frameStep, blockStep] at h
      cases hblock : streamBlock D fh.offBytes m (dst_cap - out.length) out b with
      | needMore =>
          rw [hblock] at h
          cases h
      | fail e =>
          rw [hblock] at h
          obtain ⟨-, rfl⟩ := Outcome.halt.inj h
          omega
      | done new last taken =>
          rw [hblock] at h
          obtain rfl := behindBlock_halt h
          have := streamBlock_done hblock
          omega
  | footer fh out =>
      rw [frameStep, footerStep] at h
      by_cases h12 : b.length < 12
      · rw [if_pos h12] at h
        cases h
      rw [if_neg h12] at h
      split at h
      · obtain ⟨-, rfl⟩ := Outcome.halt.inj h
        omega
      split at h
      · obtain ⟨-, rfl⟩ := Outcome.halt.inj h
        omega
      · obtain ⟨-, rfl⟩ := Outcome.halt.inj h
        omega

theorem frameHeaderGet_append {b : Bytes} (c : Bytes) (h : 16 ≤ b.length) :
    frameHeaderGet (b ++ c) = frameHeaderGet b := by
  rw [frameHeaderGet, frameHeaderGet, le32Get_append c (by omega), charAt_append c (by omega),
    charAt_append c (by omega), charAt_append c (by omega), charAt_append c (by omega),
    List.drop_append_of_le_length (by omega),
    le64Get_append (by rw [List.length_drop]; omega)]

theorem frameStep_stable {s : FrameState} {b : Bytes} (c : Bytes)
    (h : frameStep D dst_cap s b ≠ .wait) :
    frameStep D dst_cap s (b ++ c) = frameStep D dst_cap s b := by
  cases s with
  | header =>
      rw [frameStep, headerStep] at h
      rw [frameStep, frameStep, headerStep, headerStep]
      by_cases h16 : b.length < 16
      · rw [if_pos h16] at h
        exact absurd rfl h
      · rw [if_neg h16, if_neg (by rw [List.length_append]; omega),
          frameHeaderGet_append c (by omega)]
  | block fh m out =>
      rw [frameStep, blockStep] at h
      rw [frameStep, frameStep, blockStep, blockStep, streamBlock_append c]
      intro hmore
      rw [hmore] at h
      exact h rfl
  | footer fh out =>
      rw [frameStep, footerStep] at h
      rw [frameStep, frameStep, footerStep, footerStep]
      by_cases h12 : b.length < 12
      · rw [if_pos h12] at h
        exact absurd rfl h
      · rw [if_neg h12, if_neg (by rw [List.length_append]; omega),
          List.drop_append_of_le_length (by omega),
          le32Get_append c (by rw [List.length_drop]; omega), le64Get_append (by omega)]

end Laws

/-- The machine that reads a frame. -/
def frameMachine (D : BlockDecoders) (dst_cap : Nat) : Machine UInt8 FrameState Ending where
  step := frameStep D dst_cap
  next_taken := frameStep_next
  halt_taken := frameStep_halt
  stable := frameStep_stable

/-! ## The machine is the decoder of a whole frame -/

/-- The end of the input while a frame is being read: a frame that is not
    complete is corrupt. -/
def atEnd : Settled UInt8 FrameState Ending → Except VvError (Bytes × Bytes)
  | .paused _ _ => .error .corrupt
  | .halted (.error e) _ => .error e
  | .halted (.ok f) rest => .ok (f.out, rest)

section Whole

variable {D : BlockDecoders} {dst_cap : Nat}

theorem settle_footer (fh : FrameHeader) (out ip : Bytes) (h : fh.hasChecksum = true) :
    finishFrame false fh out ip = atEnd ((frameMachine D dst_cap).settle (.footer fh out) ip) := by
  have hstep : (frameMachine D dst_cap).step (.footer fh out) ip = footerStep fh out ip := rfl
  rw [finishFrame, if_pos h, checkFooter]
  rw [footerStep] at hstep
  by_cases h12 : ip.length < 12
  · rw [if_pos h12] at hstep ⊢
    rw [Machine.settle_wait hstep]
    rfl
  rw [if_neg h12] at hstep ⊢
  by_cases hmagic : le32Get (ip.drop 8) ≠ 0x56564E44
  · rw [if_pos hmagic] at hstep ⊢
    rw [Machine.settle_halt hstep]
    rfl
  rw [if_neg hmagic] at hstep ⊢
  by_cases hsum : xxh64 out 0 ≠ le64Get ip
  · rw [if_pos hsum] at hstep
    have hbad : ¬ (false = true) ∧ xxh64 out 0 ≠ le64Get ip := ⟨Bool.false_ne_true, hsum⟩
    rw [if_pos hbad, Machine.settle_halt hstep]
    rfl
  · rw [if_neg hsum] at hstep
    rw [if_neg (fun hbad => hsum hbad.2), Machine.settle_halt hstep]
    rfl

/-- The block loop and what follows it, against the machine in front of a
    block. -/
theorem settle_blocks (fh : FrameHeader) (m turns : Nat) (out ip : Bytes)
    (hturns : ip.length ≤ turns) :
    finishBlocks false fh (decodeBlocks D fh.offBytes m dst_cap turns out ip) =
      atEnd ((frameMachine D dst_cap).settle (.block fh m out) ip) := by
  induction turns generalizing out ip with
  | zero =>
      -- no input is left: the machine waits for a block header
      have hnil : ip = [] := List.eq_nil_of_length_eq_zero (by omega)
      subst hnil
      have hstep : (frameMachine D dst_cap).step (.block fh m out) [] = .wait := rfl
      rw [Machine.settle_wait hstep]
      rfl
  | succ turns ih =>
      have hstep : (frameMachine D dst_cap).step (.block fh m out) ip =
          blockStep D dst_cap fh m out ip := rfl
      rw [blockStep] at hstep
      rw [decodeBlocks, decodeBlock_eq]
      cases hblock : streamBlock D fh.offBytes m (dst_cap - out.length) out ip with
      | needMore =>
          rw [hblock] at hstep
          rw [Machine.settle_wait hstep]
          rfl
      | fail e =>
          rw [hblock] at hstep
          rw [Machine.settle_halt hstep]
          rfl
      | done new last taken =>
          rw [hblock] at hstep
          dsimp only [BlockOutcome.atEnd] at hstep ⊢
          rw [behindBlock] at hstep
          cases last with
          | false =>
              rw [if_neg (by decide)] at hstep ⊢
              have htaken := streamBlock_done hblock
              rw [Machine.settle_next hstep]
              exact ih (out ++ new) (ip.drop taken) (by rw [List.length_drop]; omega)
          | true =>
              rw [if_pos rfl] at hstep ⊢
              by_cases hsum : fh.hasChecksum = true
              · rw [if_pos hsum] at hstep
                rw [Machine.settle_next hstep]
                exact settle_footer fh (out ++ new) (ip.drop taken) hsum
              · rw [if_neg hsum] at hstep
                rw [Machine.settle_halt hstep, finishBlocks, finishFrame, if_neg hsum]
                rfl

/-- **THE DECODER OF A WHOLE FRAME** is the machine at the end of its input. -/
theorem decodeFrame_eq_settle (ip : Bytes) :
    decodeFrame D false dst_cap ip = atEnd ((frameMachine D dst_cap).settle .header ip) := by
  have hstep : (frameMachine D dst_cap).step .header ip = headerStep ip := rfl
  rw [headerStep] at hstep
  rw [decodeFrame]
  by_cases h16 : ip.length < 16
  · rw [if_pos h16] at hstep ⊢
    rw [Machine.settle_wait hstep]
    rfl
  rw [if_neg h16] at hstep ⊢
  dsimp only
  cases hcheck : checkHeader (frameHeaderGet ip) with
  | error e =>
      rw [hcheck] at hstep
      rw [Machine.settle_halt hstep]
      rfl
  | ok m =>
      rw [hcheck] at hstep
      rw [Machine.settle_next hstep]
      exact settle_blocks (frameHeaderGet ip) m _ [] (ip.drop 16) (Nat.le_refl _)

end Whole

/-! ## Where a frame ends

    The length of the first frame of a buffer, told by its headers alone:
    whether it can be decoded does not matter. -/

/-- The length of the blocks up to the last one. -/
def blocksLength : (turns : Nat) → Bytes → Option Nat
  | 0, _ => none
  | turns + 1, b =>
      match blockDataSize b with
      | none => none
      | some size =>
          if b.length < 4 + size then none
          else if bhLast (le32Get b) then some (4 + size)
          else (blocksLength turns (b.drop (4 + size))).map (4 + size + ·)

/-- The length of the first frame, where all of it is there. -/
def frameLength (b : Bytes) : Option Nat :=
  if b.length < 16 then none
  else
    match blocksLength (b.drop 16).length (b.drop 16) with
    | none => none
    | some n =>
        let total := 16 + n + (if (frameHeaderGet b).hasChecksum then 12 else 0)
        if b.length < total then none else some total

/-- A byte string that is one frame, complete or cut off: no bytes follow the
    end of its first frame. -/
def SingleFrame (s : Bytes) : Prop := ∀ n, frameLength s = some n → n = s.length

section Extent

variable {D : BlockDecoders}

theorem decodeBlocks_length {offBytes m room turns : Nat} {out ip out' rest : Bytes}
    (h : decodeBlocks D offBytes m room turns out ip = .ok (out', rest)) :
    ∃ n, blocksLength turns ip = some n ∧ n ≤ ip.length ∧ rest = ip.drop n := by
  induction turns generalizing out ip with
  | zero => cases h
  | succ turns ih =>
      rw [decodeBlocks, decodeBlock_eq] at h
      rw [blocksLength]
      cases hblock : streamBlock D offBytes m (room - out.length) out ip with
      | needMore =>
          rw [hblock] at h
          cases h
      | fail e =>
          rw [hblock] at h
          cases h
      | done new last taken =>
          rw [hblock] at h
          obtain ⟨hsize, h4, htaken, hlast, -⟩ := streamBlock_done hblock
          have hsum : 4 + (taken - 4) = taken := by omega
          rw [hsize]
          dsimp only [BlockOutcome.atEnd] at h ⊢
          rw [hsum, if_neg (by omega), ← hlast]
          cases last with
          | true =>
              rw [if_pos rfl] at h ⊢
              cases h
              exact ⟨taken, rfl, htaken, rfl⟩
          | false =>
              rw [if_neg (by decide)] at h ⊢
              obtain ⟨n, hn, hle, hrest⟩ := ih h
              rw [List.length_drop] at hle
              refine ⟨taken + n, ?_, by omega, ?_⟩
              · rw [hn]
                rfl
              · rw [hrest, List.drop_drop]

/-- **A DECODED FRAME ENDS WHERE ITS HEADERS SAY.** -/
theorem decodeFrame_length {skip : Bool} {room : Nat} {ip out rest : Bytes}
    (h : decodeFrame D skip room ip = .ok (out, rest)) :
    ∃ n, frameLength ip = some n ∧ n ≤ ip.length ∧ rest = ip.drop n := by
  rw [decodeFrame] at h
  rw [frameLength]
  by_cases h16 : ip.length < 16
  · rw [if_pos h16] at h
    cases h
  rw [if_neg h16] at h ⊢
  dsimp only at h
  cases hcheck : checkHeader (frameHeaderGet ip) with
  | error e =>
      rw [hcheck] at h
      cases h
  | ok m =>
      rw [hcheck] at h
      dsimp only at h
      cases hblocks : decodeBlocks D (frameHeaderGet ip).offBytes m room (ip.drop 16).length []
          (ip.drop 16) with
      | error e =>
          rw [hblocks] at h
          cases h
      | ok p =>
          obtain ⟨plain, behind⟩ := p
          obtain ⟨n, hn, hle, hbehind⟩ := decodeBlocks_length hblocks
          rw [hblocks, finishBlocks, finishFrame] at h
          rw [hn]
          rw [List.length_drop] at hle
          rw [List.drop_drop] at hbehind
          dsimp only
          by_cases hsum : (frameHeaderGet ip).hasChecksum = true
          · rw [if_pos hsum, checkFooter] at h
            rw [if_pos hsum]
            by_cases h12 : behind.length < 12
            · rw [if_pos h12] at h
              cases h
            rw [if_neg h12] at h
            have hlen : behind.length = ip.length - (16 + n) := by
              rw [hbehind, List.length_drop]
            by_cases hmagic : le32Get (behind.drop 8) ≠ 0x56564E44
            · rw [if_pos hmagic] at h
              cases h
            rw [if_neg hmagic] at h
            by_cases hbad : ¬ skip = true ∧ xxh64 plain 0 ≠ le64Get behind
            · rw [if_pos hbad] at h
              cases h
            rw [if_neg hbad] at h
            cases h
            refine ⟨16 + n + 12, if_neg (by omega), by omega, ?_⟩
            rw [hbehind, List.drop_drop]
          · rw [if_neg hsum] at h
            rw [if_neg hsum]
            cases h
            exact ⟨16 + n + 0, if_neg (by omega), by omega, hbehind⟩

/-- A single frame that is decoded is used up. -/
theorem SingleFrame.rest_eq_nil {s out rest : Bytes} {skip : Bool} {room : Nat}
    (hs : SingleFrame s) (h : decodeFrame D skip room s = .ok (out, rest)) : rest = [] := by
  obtain ⟨n, hn, -, hrest⟩ := decodeFrame_length h
  rw [hrest, hs n hn, List.drop_length]

end Extent

end Zupt.VaptVupt
