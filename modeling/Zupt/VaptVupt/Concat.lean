import Zupt.VaptVupt.FrameMachine

/-! # Concatenated frames

    A buffer of several frames decodes to what they decode to one by one: a
    frame ends where it ends alone, sees only what it produced itself, and needs
    no more room than its output. -/

namespace Zupt.VaptVupt

open Zupt.LittleEndian Zupt.Resumable

/-! ## Room -/

section Room

variable {D : BlockDecoders} {offBytes m room room' : Nat}

/-- A block needs room for its own bytes only. -/
theorem decodeBlock_room {history ip : Bytes} {d : Decoded}
    (h : decodeBlock D offBytes m room history ip = .ok d) (hroom : d.out.length ≤ room') :
    decodeBlock D offBytes m room' history ip = .ok d := by
  rw [decodeBlock_eq] at h ⊢
  rw [streamBlock] at h ⊢
  by_cases h4 : ip.length < 4
  · rw [if_pos h4] at h
    cases h
  rw [if_neg h4] at h ⊢
  dsimp only at h ⊢
  by_cases hmax : maxBlockSize < bhSize (le32Get ip)
  · rw [if_pos hmax] at h
    cases h
  rw [if_neg hmax] at h ⊢
  by_cases hover : room < bhSize (le32Get ip)
  · rw [if_pos hover] at h
    cases h
  rw [if_neg hover] at h
  have hsize : d.out.length = bhSize (le32Get ip) := by
    cases hdata : blockDataSize ip with
    | none =>
        rw [hdata] at h
        cases h
    | some size =>
        rw [hdata] at h
        dsimp only at h
        by_cases hlen : ip.length < 4 + size
        · rw [if_pos hlen] at h
          cases h
        rw [if_neg hlen] at h
        have hraw : bhType (le32Get ip) = .raw → 4 + bhSize (le32Get ip) ≤ ip.length := by
          intro htype
          rw [blockDataSize, htype] at hdata
          obtain rfl := Option.some.inj hdata
          omega
        cases hwhole : decodeWhole D offBytes m history ip (4 + size) with
        | needMore =>
            rw [hwhole] at h
            cases h
        | fail e =>
            rw [hwhole] at h
            cases h
        | done out last taken =>
            rw [hwhole] at h
            cases h
            exact (decodeWhole_done hraw hwhole).2.2
  rw [if_neg (by omega)]
  exact h

/-- A decoded block is added to what the frame produced before. -/
theorem decodeBlocks_room {turns : Nat} {out ip out' rest : Bytes}
    (h : decodeBlocks D offBytes m room turns out ip = .ok (out', rest)) :
    out.length ≤ out'.length ∧
      (out'.length ≤ room' →
        decodeBlocks D offBytes m room' turns out ip = .ok (out', rest)) := by
  induction turns generalizing out ip with
  | zero => cases h
  | succ turns ih =>
      rw [decodeBlocks] at h
      rw [decodeBlocks]
      cases hblock : decodeBlock D offBytes m (room - out.length) out ip with
      | error e =>
          rw [hblock] at h
          cases h
      | ok d =>
          rw [hblock] at h
          dsimp only at h
          by_cases hlast : d.last = true
          · rw [if_pos hlast] at h
            cases h
            refine ⟨by rw [List.length_append]; omega, fun hroom => ?_⟩
            rw [List.length_append] at hroom
            have hfits : d.out.length ≤ room' - out.length := by omega
            rw [decodeBlock_room hblock hfits]
            exact if_pos hlast
          · rw [if_neg hlast] at h
            obtain ⟨hle, hsame⟩ := ih h
            rw [List.length_append] at hle
            refine ⟨by omega, fun hroom => ?_⟩
            have hfits : d.out.length ≤ room' - out.length := by omega
            rw [decodeBlock_room hblock hfits]
            dsimp only
            rw [if_neg hlast]
            exact hsame hroom

theorem finishFrame_length {skip : Bool} {fh : FrameHeader} {plain ip out rest : Bytes}
    (h : finishFrame skip fh plain ip = .ok (out, rest)) : out.length = plain.length := by
  rw [finishFrame] at h
  by_cases hsum : fh.hasChecksum = true
  · rw [if_pos hsum] at h
    cases hfoot : checkFooter skip plain ip with
    | error e =>
        rw [hfoot] at h
        cases h
    | ok behind =>
        rw [hfoot] at h
        cases h
        exact bcjInverse_length _ _
  · rw [if_neg hsum] at h
    cases h
    exact bcjInverse_length _ _

/-- A frame needs no more room than its output. -/
theorem decodeFrame_room {D : BlockDecoders} {skip : Bool} {room room' : Nat}
    {ip out rest : Bytes} (h : decodeFrame D skip room ip = .ok (out, rest))
    (hroom : out.length ≤ room') : decodeFrame D skip room' ip = .ok (out, rest) := by
  rw [decodeFrame] at h ⊢
  by_cases h16 : ip.length < 16
  · rw [if_pos h16] at h
    cases h
  rw [if_neg h16] at h ⊢
  dsimp only at h ⊢
  cases hcheck : checkHeader (frameHeaderGet ip) with
  | error e =>
      rw [hcheck] at h
      cases h
  | ok m =>
      rw [hcheck] at h
      dsimp only at h ⊢
      cases hblocks : decodeBlocks D (frameHeaderGet ip).offBytes m room (ip.drop 16).length []
          (ip.drop 16) with
      | error e =>
          rw [hblocks] at h
          cases h
      | ok p =>
          obtain ⟨plain, behind⟩ := p
          rw [hblocks, finishBlocks] at h
          have hlen : out.length = plain.length := finishFrame_length h
          rw [(decodeBlocks_room hblocks).2 (by omega), finishBlocks]
          exact h

/-- All frames need no more room than their output. -/
theorem decodeFrames_room {D : BlockDecoders} {skip : Bool} {dst_cap dst_cap' turns : Nat}
    {out ip res : Bytes} (h : decodeFrames D skip dst_cap turns out ip = .ok res) :
    out.length ≤ res.length ∧
      (res.length ≤ dst_cap' → decodeFrames D skip dst_cap' turns out ip = .ok res) := by
  induction turns generalizing out ip with
  | zero =>
      obtain rfl := Except.ok.inj h
      exact ⟨Nat.le_refl _, fun _ => rfl⟩
  | succ turns ih =>
      rw [decodeFrames] at h
      rw [decodeFrames]
      by_cases hzero : ip.length = 0
      · rw [if_pos hzero] at h ⊢
        obtain rfl := Except.ok.inj h
        exact ⟨Nat.le_refl _, fun _ => rfl⟩
      rw [if_neg hzero] at h ⊢
      cases hframe : decodeFrame D skip (dst_cap - out.length) ip with
      | error e =>
          rw [hframe] at h
          cases h
      | ok p =>
          obtain ⟨new, rest⟩ := p
          rw [hframe] at h
          obtain ⟨hle, hsame⟩ := ih h
          rw [List.length_append] at hle
          refine ⟨by omega, fun hroom => ?_⟩
          have hfits : new.length ≤ dst_cap' - out.length := by omega
          rw [decodeFrame_room hframe hfits]
          exact hsame hroom

/-- **MORE CAPACITY CHANGES NOTHING**, nor less of it down to the output. -/
theorem decompressFlags_room {D : BlockDecoders} {dst_cap dst_cap' : Nat} {src out : Bytes}
    {flags : UInt32} (h : decompressFlags D src dst_cap flags = .ok out)
    (hroom : out.length ≤ dst_cap') : decompressFlags D src dst_cap' flags = .ok out := by
  rw [decompressFlags] at h ⊢
  by_cases h16 : src.length < 16
  · rw [if_pos h16] at h
    cases h
  · rw [if_neg h16] at h ⊢
    exact (decodeFrames_room h).2 hroom

end Room

/-! ## Frame after frame -/

section Concat

variable {D : BlockDecoders}

/-- A frame leaves what follows it alone. -/
theorem decodeFrame_append {room : Nat} {ip out rest : Bytes} (c : Bytes)
    (h : decodeFrame D false room ip = .ok (out, rest)) :
    decodeFrame D false room (ip ++ c) = .ok (out, rest ++ c) := by
  rw [decodeFrame_eq_settle] at h ⊢
  cases hsettle : (frameMachine D room).settle .header ip with
  | paused t p =>
      rw [hsettle] at h
      cases h
  | halted r rest' =>
      rw [hsettle] at h
      rw [Machine.settle_append_halted c hsettle]
      cases r with
      | error e => cases h
      | ok f =>
          cases h
          rfl

/-- A frame has a header at least. -/
theorem le_frameLength {ip : Bytes} {n : Nat} (h : frameLength ip = some n) : 16 ≤ n := by
  rw [frameLength] at h
  by_cases h16 : ip.length < 16
  · rw [if_pos h16] at h
    cases h
  rw [if_neg h16] at h
  cases hblocks : blocksLength (ip.drop 16).length (ip.drop 16) with
  | none =>
      rw [hblocks] at h
      cases h
  | some k =>
      rw [hblocks] at h
      dsimp only at h
      generalize (if (frameHeaderGet ip).hasChecksum = true then 12 else 0) = footer at h
      by_cases hlen : ip.length < 16 + k + footer
      · rw [if_pos hlen] at h
        cases h
      · rw [if_neg hlen] at h
        obtain rfl := Option.some.inj h
        omega

/-- **THE FRAME LOOP OVER A BUFFER AND MORE**: it comes to the end of the buffer
    with the output of the buffer, and goes on from there. -/
theorem decodeFrames_append {dst_cap turns : Nat} {out ip res : Bytes}
    (hturns : ip.length ≤ turns) (h : decodeFrames D false dst_cap turns out ip = .ok res) :
    ∃ new, res = out ++ new ∧
      ∀ dst_cap' out' c turns', out'.length + new.length ≤ dst_cap' →
        (ip ++ c).length ≤ turns' →
        ∃ turns'', c.length ≤ turns'' ∧
          decodeFrames D false dst_cap' turns' out' (ip ++ c) =
            decodeFrames D false dst_cap' turns'' (out' ++ new) c := by
  induction turns generalizing out ip with
  | zero =>
      have hnil : ip = [] := List.eq_nil_of_length_eq_zero (by omega)
      subst hnil
      obtain rfl := Except.ok.inj h
      refine ⟨[], (List.append_nil _).symm, fun dst_cap' out' c turns' _ hle => ⟨turns', hle, ?_⟩⟩
      rw [List.nil_append, List.append_nil]
  | succ turns ih =>
      rw [decodeFrames] at h
      by_cases hzero : ip.length = 0
      · have hnil : ip = [] := List.eq_nil_of_length_eq_zero hzero
        subst hnil
        obtain rfl := Except.ok.inj h
        refine ⟨[], (List.append_nil _).symm,
          fun dst_cap' out' c turns' _ hle => ⟨turns', hle, ?_⟩⟩
        rw [List.nil_append, List.append_nil]
      rw [if_neg hzero] at h
      cases hframe : decodeFrame D false (dst_cap - out.length) ip with
      | error e =>
          rw [hframe] at h
          cases h
      | ok p =>
          obtain ⟨first, rest⟩ := p
          rw [hframe] at h
          obtain ⟨n, hn, hle, hrest⟩ := decodeFrame_length hframe
          have h16 := le_frameLength hn
          have hrestlen : rest.length = ip.length - n := by rw [hrest, List.length_drop]
          obtain ⟨new, hres, hmore⟩ := ih (by omega) h
          refine ⟨first ++ new, by rw [hres, List.append_assoc], ?_⟩
          intro dst_cap' out' c turns' hcap hlen
          rw [List.length_append] at hcap hlen
          obtain ⟨k, rfl⟩ : ∃ k, turns' = k + 1 := ⟨turns' - 1, by omega⟩
          have hstep := decodeFrame_append c (decodeFrame_room hframe
            (by omega : first.length ≤ dst_cap' - out'.length))
          obtain ⟨turns'', hle'', heq⟩ := hmore dst_cap' (out' ++ first) c k
            (by rw [List.length_append]; omega) (by rw [List.length_append]; omega)
          refine ⟨turns'', hle'', ?_⟩
          rw [decodeFrames, if_neg (by rw [List.length_append]; omega), hstep]
          dsimp only
          rw [heq, List.append_assoc]

/-- `vv_decompress` is the frame loop on input that holds a header. -/
theorem decompress_eq_frames {s : Bytes} {dst_cap : Nat} (h : 16 ≤ s.length) :
    decompress D s dst_cap = decodeFrames D false dst_cap s.length [] s := by
  have hflag : decide ((0 : UInt32) &&& 1 ≠ 0) = false := by
    simp only [ne_eq, UInt32.zero_and, not_true_eq_false, decide_false]
  rw [decompress, decompressFlags, if_neg (by omega), hflag]

theorem le_of_decompress {s out : Bytes} {dst_cap : Nat} (h : decompress D s dst_cap = .ok out) :
    16 ≤ s.length := by
  by_contra hlt
  rw [decompress, decompressFlags, if_pos (by omega)] at h
  cases h

/-- The frame loop over frames that are valid one by one, with their outputs. -/
theorem decodeFrames_flatten (frames : List (Bytes × Bytes))
    (hvalid : ∀ p ∈ frames, ∃ cap, decompress D p.1 cap = .ok p.2) (dst_cap turns : Nat)
    (out : Bytes) (hcap : out.length + (frames.map Prod.snd).flatten.length ≤ dst_cap)
    (hturns : (frames.map Prod.fst).flatten.length ≤ turns) :
    decodeFrames D false dst_cap turns out (frames.map Prod.fst).flatten
      = .ok (out ++ (frames.map Prod.snd).flatten) := by
  induction frames generalizing out turns with
  | nil =>
      rw [List.map_nil, List.map_nil, List.flatten_nil, List.append_nil]
      cases turns with
      | zero => rfl
      | succ turns => rfl
  | cons p frames ih =>
      obtain ⟨cap, hp⟩ := hvalid p (List.mem_cons_self ..)
      rw [decompress_eq_frames (le_of_decompress hp)] at hp
      obtain ⟨new, hnew, hmore⟩ := decodeFrames_append (Nat.le_refl _) hp
      rw [List.nil_append] at hnew
      subst hnew
      rw [List.map_cons, List.map_cons, List.flatten_cons, List.flatten_cons] at *
      rw [List.length_append] at hcap
      obtain ⟨turns', hle, heq⟩ := hmore dst_cap out _ turns (by omega) hturns
      rw [heq, ih (fun q hq => hvalid q (List.mem_cons_of_mem _ hq)) turns' (out ++ p.2)
        (by rw [List.length_append]; omega) hle, List.append_assoc]

/-- **CONCATENATED FRAMES DECODE TO THE CONCATENATION** of what they decode to,
    for any list of valid frames but the empty one: without a header there is no
    stream. -/
theorem decompress_flatten_iff (frames : List (Bytes × Bytes))
    (hvalid : ∀ p ∈ frames, ∃ cap, decompress D p.1 cap = .ok p.2) {dst_cap : Nat}
    (hcap : (frames.map Prod.snd).flatten.length ≤ dst_cap) :
    decompress D (frames.map Prod.fst).flatten dst_cap = .ok (frames.map Prod.snd).flatten ↔
      frames ≠ [] := by
  cases frames with
  | nil =>
      constructor
      · intro h
        cases h
      · intro h
        exact absurd rfl h
  | cons p frames =>
      have hlen : 16 ≤ (((p :: frames).map Prod.fst).flatten).length := by
        obtain ⟨cap, hp⟩ := hvalid p (List.mem_cons_self ..)
        have := le_of_decompress hp
        rw [List.map_cons, List.flatten_cons, List.length_append]
        omega
      constructor
      · intro _ hnil
        cases hnil
      · intro _
        rw [decompress_eq_frames hlen, decodeFrames_flatten _ hvalid _ _ _ _ (Nat.le_refl _)]
        · rfl
        · rw [List.length_nil, Nat.zero_add]
          exact hcap

end Concat

end Zupt.VaptVupt
