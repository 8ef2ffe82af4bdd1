import Zupt.VaptVupt.Concat
import Zupt.VaptVupt.Heap
import Zupt.VaptVupt.SequencesStorage
import Zupt.VaptVupt.TokensExact

/-! # The decoder over raw storage is the decoder over lists

    Run on a buffer, with the scratch of each block as the allocator hands it
    out, `vv_decompress_flags` answers what `decompressFlags` answers with naive
    block decoders that are given the same scratch. -/

namespace Zupt.VaptVupt

open Zupt.LittleEndian Zupt.Memory Zupt.Window

/-! ## Block decoders -/

/-- A block decoder at `dst` against a naive one behind `history`. -/
def BlockEnds (b : Bounds) (m : Mem UInt8) (history : Bytes) (r : Except Stop (Mem UInt8 × Nat)) :
    Except VvError Bytes → Prop
  | .error _ => ∃ e, r = .error (.err e)
  | .ok new => ∃ m', r = .ok (m', new.length) ∧ Holds b m m' (history ++ new)

section Blocks

variable {b : Bounds} {dst : Nat} {m : Mem UInt8} {history : Bytes}

/-- The bytes behind the history, once it is known to be kept. -/
theorem TokOutcome.ends {r : Except Stop (Mem UInt8 × Nat)} {naive : Except VvError Bytes}
    (h : TokOutcome b dst m r naive) (hdst : dst = b.lo + history.length)
    (hkept : ∀ out, naive = .ok out → history <+: out) :
    BlockEnds b m history r (behind history naive) := by
  cases naive with
  | error e => exact h
  | ok out =>
      obtain ⟨m', hr, hholds⟩ := h
      obtain ⟨new, rfl⟩ := hkept out rfl
      rw [behind, List.drop_left]
      refine ⟨m', ?_, hholds⟩
      rw [hr, hdst, List.length_append, ← Nat.add_assoc, Nat.add_sub_cancel_left]

/-- **A TOKEN BLOCK** in place. -/
theorem blockTokens_ends (build : Build) {payload : Bytes} (offBytes maxOffset : Nat)
    (h : Holds b m m history) (hdst : dst = b.lo + history.length) (hhi : dst ≤ b.hi)
    (hlt : payload.length < 2 ^ 24) :
    BlockEnds b m history (decodeBlockTokens build payload b dst m offBytes maxOffset)
      (naiveTokens payload history (b.hi - dst) offBytes maxOffset) := by
  have hcap : history.length + (b.hi - dst) = b.hi - b.lo := by omega
  rw [naiveTokens, hcap]
  exact (decodeBlockTokens_eq_naive build offBytes maxOffset h hdst hlt).ends hdst
    fun out hout => NaiveTokens.run_prefix hout

/-- **LITERALS AND STRIPPED TOKENS** in place, for a decoder that gives as many
    literals as it is asked for. -/
theorem blockLits_ends {decode : Bytes → (dst_cap n : Nat) → Except VvError (Bytes × Nat)}
    (hlen : ∀ {src n out consumed}, decode src n n = .ok (out, consumed) → out.length = n)
    (lits : Mem UInt8) (build : Build) (data : Bytes) (offBytes maxOffset : Nat)
    (h : Holds b m m history) (hdst : dst = b.lo + history.length) (hhi : dst ≤ b.hi) :
    BlockEnds b m history (decodeBlockLits decode lits build data b dst m offBytes maxOffset)
      (naiveLits decode data history (b.hi - dst) offBytes maxOffset) := by
  have hcap : history.length + (b.hi - dst) = b.hi - b.lo := by omega
  rw [decodeBlockLits, naiveLits]
  by_cases hshort : data.length < 4
  · rw [if_pos hshort, if_pos hshort]
    exact ⟨_, rfl⟩
  rw [if_neg hshort, if_neg hshort]
  dsimp only
  by_cases hsec : data.length < 4 + u16At data 2
  · rw [if_pos hsec, if_pos hsec]
    exact ⟨_, rfl⟩
  rw [if_neg hsec, if_neg hsec]
  cases hdec : decode ((data.drop 4).take (u16At data 2)) (u16At data 0) (u16At data 0) with
  | error e => exact ⟨_, rfl⟩
  | ok p =>
      obtain ⟨xs, consumed⟩ := p
      dsimp only
      rw [read_write_self _ (hlen hdec), hcap]
      exact (decodeStrippedTokens_eq_naive build _ xs offBytes maxOffset h hdst).ends hdst
        fun out hout => NaiveTokens.stripped_prefix hout

/-- **A SEQUENCE BLOCK** in place. -/
theorem blockSequences_ends (st : SeqStorage) (v2 : Bool) (bdata : Bytes) (maxOffset : Nat)
    (h : Holds b m m history) (hdst : dst = b.lo + history.length) :
    BlockEnds b m history
      (orCorruptAt (vvaDecodeSequences st (if v2 then mlBaseV2 else mlBase) maxOffset bdata b dst m))
      (orCorrupt (naiveSequenceBlock st (if v2 then mlBaseV2 else mlBase) bdata history
        (b.hi - dst) maxOffset)) := by
  have htab : (if v2 then mlBaseV2 else mlBase) = mlBase ∨ (if v2 then mlBaseV2 else mlBase) = mlBaseV2 := by
    cases v2 with
    | false => exact Or.inl rfl
    | true => exact Or.inr rfl
  have hexact := sequences_outcome st htab maxOffset bdata h hdst
  rw [naiveSequenceBlock]
  cases hnaive : naiveSequences st (if v2 then mlBaseV2 else mlBase) maxOffset bdata history
      (b.hi - dst) with
  | error e =>
      rw [hnaive] at hexact
      obtain ⟨hfault, hr⟩ := hexact
      rw [hr]
      cases e with
      | err e => exact ⟨_, rfl⟩
      | fault => exact absurd rfl hfault
  | ok out =>
      rw [hnaive] at hexact
      obtain ⟨m', hr, -, hholds⟩ := hexact
      obtain ⟨new, rfl⟩ := naiveSequences_prefix hnaive
      dsimp only
      rw [hr, List.drop_left]
      refine ⟨m', ?_, hholds⟩
      rw [orCorruptAt, hdst, List.length_append, ← Nat.add_assoc, Nat.add_sub_cancel_left]

/-- **AN ENTROPY BLOCK** in place, whatever its tag. -/
theorem entropy_ends (build : Build) (st : Scratch) (tag : UInt8) (bdata : Bytes)
    (offBytes maxOffset : Nat) (h : Holds b m m history) (hdst : dst = b.lo + history.length)
    (hhi : dst ≤ b.hi) :
    BlockEnds b m history (decodeEntropyAt build st tag bdata b dst m offBytes maxOffset)
      (decodeEntropy (naiveDecoders st) tag bdata history (b.hi - dst) offBytes maxOffset) := by
  rw [decodeEntropyAt, decodeEntropy]
  by_cases hans : tag = 0x41
  · rw [if_pos hans, if_pos hans]
    exact blockLits_ends vvaDecode_length _ _ _ _ _ h hdst hhi
  rw [if_neg hans, if_neg hans]
  by_cases hans4 : tag = 0x49
  · rw [if_pos hans4, if_pos hans4]
    exact blockLits_ends vvaDecode4_length _ _ _ _ _ h hdst hhi
  rw [if_neg hans4, if_neg hans4]
  by_cases hctx : tag = 0x43
  · rw [if_pos hctx, if_pos hctx]
    exact blockLits_ends vvaDecodeCtx_length _ _ _ _ _ h hdst hhi
  rw [if_neg hctx, if_neg hctx]
  by_cases hseq : tag = 0x53
  · rw [if_pos hseq, if_pos hseq]
    exact blockSequences_ends st.seq false bdata maxOffset h hdst
  rw [if_neg hseq, if_neg hseq]
  by_cases hseq2 : tag = 0x54
  · rw [if_pos hseq2, if_pos hseq2]
    exact blockSequences_ends st.seq true bdata maxOffset h hdst
  rw [if_neg hseq2, if_neg hseq2]
  by_cases hhuff : tag = 0x48
  · rw [if_pos hhuff, if_pos hhuff]
    exact blockLits_ends vvhDecode_length _ _ _ _ _ h hdst hhi
  · rw [if_neg hhuff, if_neg hhuff]
    exact ⟨_, rfl⟩

end Blocks

/-! ## The block loop -/

/-- A block in place against one over lists: the buffer held `front`, which is
    the frames before and what the frame has produced. -/
def BlockTracks (dst_cap : Nat) (m0 : Mem UInt8) (front : Bytes) (r : Except Stop DecodedAt) :
    Except VvError Decoded → Prop
  | .error _ => ∃ e, r = .error (.err e)
  | .ok d => ∃ m, r = .ok ⟨m, d.out.length, d.last, d.rest⟩ ∧
      Holds ⟨0, dst_cap⟩ m0 m (front ++ d.out)

section Loop

variable {dst_cap : Nat} {m0 m : Mem UInt8} {done history : Bytes}

theorem cszGet_lt (b : Bytes) : cszGet b < 2 ^ 24 := by
  have hlt := leGet_lt (b.take 3)
  have hlen : (b.take 3).length ≤ 3 := List.length_take_le _ _
  have hpow : 256 ^ (b.take 3).length ≤ 256 ^ 3 := Nat.pow_le_pow_right (by omega) hlen
  rw [cszGet]
  omega

/-- Bytes that are known go behind what is there. -/
theorem storedAt_tracks (h : Holds ⟨0, dst_cap⟩ m0 m (done ++ history)) (xs : Bytes)
    (hroom : xs.length ≤ dst_cap - (done.length + history.length)) (last : Bool) (rest : Bytes) :
    BlockTracks dst_cap m0 (done ++ history)
      (storedAt dst_cap (done.length + history.length) m xs last rest) (.ok ⟨xs, last, rest⟩) := by
  have hfits : 0 + (done ++ history).length ≤ dst_cap := h.fits
  rw [List.length_append] at hfits
  have hstore := h.store_all (by rw [List.length_append, Nat.zero_add] : _ = _) xs
    (by
      show done.length + history.length + xs.length ≤ dst_cap
      omega)
  obtain ⟨m', hm', hholds⟩ := hstore
  rw [storedAt, hm']
  exact ⟨m', rfl, hholds⟩

/-- A sized block in place. -/
theorem BlockEnds.sized {r : Except Stop (Mem UInt8 × Nat)} {naive : Except VvError Bytes}
    {dsz : Nat} (hend : BlockEnds ⟨done.length, done.length + history.length + dsz⟩ m history r naive)
    (h : Holds ⟨0, dst_cap⟩ m0 m (done ++ history))
    (hroom : done.length + history.length + dsz ≤ dst_cap) (last : Bool) (rest : Bytes) :
    BlockTracks dst_cap m0 (done ++ history) (sizedAt dsz r last rest)
      (sized dsz naive last rest) := by
  cases naive with
  | error e =>
      obtain ⟨e', rfl⟩ := hend
      exact ⟨e', rfl⟩
  | ok new =>
      obtain ⟨m', rfl, hholds⟩ := hend
      rw [sizedAt, VaptVupt.sized]
      by_cases hlen : new.length ≠ dsz
      · rw [if_pos hlen, if_pos hlen]
        exact ⟨_, rfl⟩
      · rw [if_neg hlen, if_neg hlen]
        have hsame : new.length = dsz := by omega
        refine ⟨m', by rw [← hsame], ?_⟩
        rw [List.append_assoc]
        exact h.outer hholds (Nat.zero_add _).symm hroom

/-- **A BLOCK IN PLACE** is the block over lists, with the same scratch. -/
theorem blockAt_tracks (build : Build) (st : Scratch) (offBytes maxOffset : Nat)
    (h : Holds ⟨0, dst_cap⟩ m0 m (done ++ history)) (ip : Bytes) :
    BlockTracks dst_cap m0 (done ++ history)
      (decodeBlockAt build st offBytes maxOffset ⟨dst_cap, done.length⟩
        (done.length + history.length) m ip)
      (decodeBlock (naiveDecoders st) offBytes maxOffset (dst_cap - done.length - history.length)
        history ip) := by
  have hroomsub : dst_cap - done.length - history.length =
      dst_cap - (done.length + history.length) := Nat.sub_sub _ _ _
  have hfits : 0 + (done ++ history).length ≤ dst_cap := h.fits
  rw [List.length_append] at hfits
  rw [decodeBlockAt, decodeBlock, hroomsub]
  by_cases h4 : ip.length < 4
  · rw [if_pos h4, if_pos h4]
    exact ⟨_, rfl⟩
  rw [if_neg h4, if_neg h4]
  dsimp only
  by_cases hmax : maxBlockSize < bhSize (le32Get ip)
  · rw [if_pos hmax, if_pos hmax]
    exact ⟨_, rfl⟩
  rw [if_neg hmax, if_neg hmax]
  by_cases hover : dst_cap - (done.length + history.length) < bhSize (le32Get ip)
  · rw [if_pos hover, if_pos hover]
    exact ⟨_, rfl⟩
  rw [if_neg hover, if_neg hover]
  generalize bhSize (le32Get ip) = dsz at hover ⊢
  have hend : done.length + history.length + dsz ≤ dst_cap := by
    have hle : done.length + history.length ≤ dst_cap := by omega
    omega
  have hinner : Holds ⟨done.length, done.length + history.length + dsz⟩ m m history :=
    h.inner (Nat.zero_add _).symm (Nat.le_add_right _ _)
  have hdsz : done.length + history.length + dsz - (done.length + history.length) = dsz := by omega
  cases bhType (le32Get ip) with
  | raw =>
      dsimp only
      by_cases hlen : (ip.drop 4).length < dsz
      · rw [if_pos hlen, if_pos hlen]
        exact ⟨_, rfl⟩
      · rw [if_neg hlen, if_neg hlen]
        exact storedAt_tracks h _ (by rw [List.length_take]; omega) _ _
  | rle =>
      dsimp only
      by_cases hlen : (ip.drop 4).length = 0
      · rw [if_pos hlen, if_pos hlen]
        exact ⟨_, rfl⟩
      · rw [if_neg hlen, if_neg hlen]
        exact storedAt_tracks h _ (by rw [List.length_replicate]; omega) _ _
  | compressed =>
      dsimp only
      by_cases h3 : (ip.drop 4).length < 3
      · rw [if_pos h3, if_pos h3]
        exact ⟨_, rfl⟩
      rw [if_neg h3, if_neg h3]
      by_cases hlen : ((ip.drop 4).drop 3).length < cszGet (ip.drop 4)
      · rw [if_pos hlen, if_pos hlen]
        exact ⟨_, rfl⟩
      rw [if_neg hlen, if_neg hlen]
      refine BlockEnds.sized ?_ h hend _ _
      have hblock := blockTokens_ends build offBytes maxOffset hinner rfl (Nat.le_add_right _ _)
        (show (((ip.drop 4).drop 3).take (cszGet (ip.drop 4))).length < 2 ^ 24 by
          have := cszGet_lt (ip.drop 4)
          rw [List.length_take]
          omega)
      rw [hdsz] at hblock
      exact hblock
  | entropy =>
      dsimp only
      by_cases h3 : (ip.drop 4).length < 3
      · rw [if_pos h3, if_pos h3]
        exact ⟨_, rfl⟩
      rw [if_neg h3, if_neg h3]
      by_cases hlen : cszGet (ip.drop 4) < 1 ∨ ((ip.drop 4).drop 3).length < cszGet (ip.drop 4)
      · rw [if_pos hlen, if_pos hlen]
        exact ⟨_, rfl⟩
      rw [if_neg hlen, if_neg hlen]
      refine BlockEnds.sized ?_ h hend _ _
      have hblock := entropy_ends build st (charAt ((ip.drop 4).drop 3) 0)
        ((((ip.drop 4).drop 3).take (cszGet (ip.drop 4))).drop 1) offBytes maxOffset hinner rfl
        (Nat.le_add_right _ _)
      rw [hdsz] at hblock
      exact hblock

end Loop

/-! ## The loops -/

/-- The decoder has produced `all` and stands in front of `ip`. -/
structure CursorAt (dst_cap : Nat) (m0 : Mem UInt8) (c : Cursor) (all ip : Bytes) : Prop where
  holds : Holds ⟨0, dst_cap⟩ m0 c.m all
  op : c.op = all.length
  ip : c.ip = ip

/-- A loop in place against one over lists, behind `front`. -/
def CursorEnds (dst_cap : Nat) (m0 : Mem UInt8) (front : Bytes) (r : Except Stop Cursor) :
    Except VvError (Bytes × Bytes) → Prop
  | .error _ => ∃ e, r = .error (.err e)
  | .ok p => ∃ c, r = .ok c ∧ CursorAt dst_cap m0 c (front ++ p.1) p.2

/-- At the blocks that meet `p` the scratch of the run makes the block decoders
    those of `D`. -/
def DecodesAs (D : BlockDecoders) (heap : Heap) (p : Bytes → Bool) : Prop :=
  ∀ b, p b = true → ∀ offBytes maxOffset room history,
    decodeBlock (naiveDecoders (heap b.length)) offBytes maxOffset room history b =
      decodeBlock D offBytes maxOffset room history b

section Loops

variable {dst_cap : Nat} {m0 : Mem UInt8} {c : Cursor} {D : BlockDecoders} {heap : Heap}
  {p : Bytes → Bool}

/-- Behind a block that is not the last one the next block meets `p` as well. -/
theorem allBlocks_next {offBytes maxOffset room turns : Nat} {history ip : Bytes} {d : Decoded}
    (hall : allBlocks p (turns + 1) ip = true)
    (hblock : decodeBlock D offBytes maxOffset room history ip = .ok d) (hlast : ¬ d.last = true) :
    allBlocks p turns d.rest = true := by
  rw [allBlocks] at hall
  obtain ⟨-, hmore⟩ := (Bool.and_eq_true _ _).mp hall
  rw [decodeBlock_eq] at hblock
  cases hstream : streamBlock D offBytes maxOffset room history ip with
  | needMore =>
      rw [hstream] at hblock
      cases hblock
  | fail e =>
      rw [hstream] at hblock
      cases hblock
  | done out last taken =>
      rw [hstream] at hblock
      obtain rfl := Except.ok.inj hblock
      obtain ⟨hsize, h4, htaken, hbit, -⟩ := streamBlock_done hstream
      have hsum : 4 + (taken - 4) = taken := by omega
      rw [hsize] at hmore
      dsimp only at hmore hlast ⊢
      rw [hsum, ← hbit] at hmore
      simp only [Bool.or_eq_true, decide_eq_true_eq] at hmore
      rcases hmore with (hshort | hend) | hrest
      · omega
      · exact absurd hend hlast
      · exact hrest

/-- **THE BLOCK LOOP IN PLACE**. -/
theorem blocksAt_ends (build : Build) (hD : DecodesAs D heap p) (offBytes maxOffset turns : Nat)
    {done out ip : Bytes} (h : CursorAt dst_cap m0 c (done ++ out) ip)
    (hall : allBlocks p turns ip = true) :
    CursorEnds dst_cap m0 done
      (decodeBlocksAt build heap offBytes maxOffset ⟨dst_cap, done.length⟩ turns c)
      (decodeBlocks D offBytes maxOffset (dst_cap - done.length) turns out ip) := by
  induction turns generalizing c out ip with
  | zero => exact ⟨_, rfl⟩
  | succ turns ih =>
      have hop : c.op = done.length + out.length := by
        rw [h.op, List.length_append]
      have hmeets : p ip = true := by
        rw [allBlocks] at hall
        exact ((Bool.and_eq_true _ _).mp hall).1
      have hblock := blockAt_tracks build (heap ip.length) offBytes maxOffset h.holds ip
      rw [hD ip hmeets] at hblock
      rw [decodeBlocksAt, decodeBlocks, h.ip, hop]
      cases hd : decodeBlock D offBytes maxOffset (dst_cap - done.length - out.length) out ip with
      | error e =>
          rw [hd] at hblock
          obtain ⟨e', he⟩ := hblock
          rw [he]
          exact ⟨e', rfl⟩
      | ok d =>
          rw [hd] at hblock
          obtain ⟨m, hm, hholds⟩ := hblock
          rw [hm]
          dsimp only
          have hnext : CursorAt dst_cap m0 ⟨m, done.length + out.length + d.out.length, d.rest⟩
              (done ++ (out ++ d.out)) d.rest := by
            refine ⟨?_, ?_, rfl⟩
            · rw [← List.append_assoc]
              exact hholds
            · show done.length + out.length + d.out.length = (done ++ (out ++ d.out)).length
              rw [List.length_append, List.length_append, Nat.add_assoc]
          by_cases hlast : d.last = true
          · rw [if_pos hlast, if_pos hlast]
            exact ⟨_, rfl, hnext⟩
          · rw [if_neg hlast, if_neg hlast]
            exact ih hnext (allBlocks_next hall hd hlast)

/-- **THE END OF A FRAME IN PLACE**. -/
theorem finishFrameAt_ends (skip : Bool) (fh : FrameHeader) {done out ip : Bytes}
    (h : CursorAt dst_cap m0 c (done ++ out) ip) :
    CursorEnds dst_cap m0 done (finishFrameAt skip fh done.length c)
      (finishFrame skip fh out ip) := by
  have hop : c.op - done.length = out.length := by
    rw [h.op, List.length_append, Nat.add_sub_cancel_left]
  have hfits : 0 + (done ++ out).length ≤ dst_cap := h.holds.fits
  have hinner : Holds ⟨done.length, done.length + out.length⟩ c.m c.m out :=
    h.holds.inner (Nat.zero_add _).symm (Nat.le_refl _)
  rw [List.length_append] at hfits
  rw [finishFrameAt, hop, hinner.reads, h.ip]
  cases hfinish : finishFrame skip fh out ip with
  | error e => exact ⟨e, rfl⟩
  | ok q =>
      obtain ⟨plain, rest⟩ := q
      have hlen : plain.length = out.length := finishFrame_length hfinish
      dsimp only
      have hplain : Holds ⟨done.length, done.length + out.length⟩ c.m
          (write c.m done.length plain) plain := by
        refine ⟨?_, read_write _ _ _, ?_⟩
        · show done.length + plain.length ≤ done.length + out.length
          omega
        · intro i hi
          rcases hi with hlo | hhi
          · exact write_of_lt _ _ hlo
          · have hbehind : done.length + out.length ≤ i := hhi
            exact write_of_ge _ _ (by omega)
      refine ⟨_, rfl, h.holds.outer hplain (Nat.zero_add _).symm ?_, ?_, rfl⟩
      · show done.length + out.length ≤ dst_cap
        omega
      · show c.op = (done ++ plain).length
        rw [h.op, List.length_append, List.length_append, hlen]

/-- **A FRAME IN PLACE**. -/
theorem frameAt_ends (build : Build) (hD : DecodesAs D heap p) (skip : Bool) {all ip : Bytes}
    (h : CursorAt dst_cap m0 c all ip)
    (hall : allBlocks p (ip.drop 16).length (ip.drop 16) = true) :
    CursorEnds dst_cap m0 all (decodeFrameAt build heap skip dst_cap c)
      (decodeFrame D skip (dst_cap - all.length) ip) := by
  rw [decodeFrameAt, decodeFrame, h.ip]
  by_cases h16 : ip.length < 16
  · rw [if_pos h16, if_pos h16]
    exact ⟨_, rfl⟩
  rw [if_neg h16, if_neg h16]
  dsimp only
  cases hcheck : checkHeader (frameHeaderGet ip) with
  | error e => exact ⟨_, rfl⟩
  | ok max_offset =>
      dsimp only
      have hstart : CursorAt dst_cap m0 ⟨c.m, all.length, ip.drop 16⟩ (all ++ [])
          (ip.drop 16) := by
        rw [List.append_nil]
        exact ⟨h.holds, rfl, rfl⟩
      have hblocks := blocksAt_ends build hD (frameHeaderGet ip).offBytes max_offset
        (ip.drop 16).length hstart hall
      rw [h.op]
      cases hpure : decodeBlocks D (frameHeaderGet ip).offBytes max_offset (dst_cap - all.length)
          (ip.drop 16).length [] (ip.drop 16) with
      | error e =>
          rw [hpure] at hblocks
          obtain ⟨e', he⟩ := hblocks
          rw [he]
          exact ⟨e', rfl⟩
      | ok q =>
          rw [hpure] at hblocks
          obtain ⟨c', hc', htracks⟩ := hblocks
          rw [hc']
          exact finishFrameAt_ends skip (frameHeaderGet ip) htracks

/-- **THE FRAME LOOP IN PLACE**. -/
theorem framesAt_ends (build : Build) (hD : DecodesAs D heap p) (skip : Bool) (turns : Nat)
    {all ip : Bytes} (h : CursorAt dst_cap m0 c all ip) (hall : allFrames p turns ip = true) :
    (∃ e e', decodeFramesAt build heap skip dst_cap turns c = .error (.err e) ∧
        decodeFrames D skip dst_cap turns all ip = .error e') ∨
      ∃ c' out rest, decodeFramesAt build heap skip dst_cap turns c = .ok c' ∧
        decodeFrames D skip dst_cap turns all ip = .ok out ∧ CursorAt dst_cap m0 c' out rest := by
  induction turns generalizing c all ip with
  | zero => exact Or.inr ⟨c, all, ip, rfl, rfl, h⟩
  | succ turns ih =>
      rw [allFrames] at hall
      obtain ⟨hblocks, hmore⟩ := (Bool.and_eq_true _ _).mp hall
      rw [decodeFramesAt, decodeFrames, h.ip]
      by_cases hzero : ip.length = 0
      · rw [if_pos hzero, if_pos hzero]
        exact Or.inr ⟨c, all, ip, rfl, rfl, h⟩
      rw [if_neg hzero, if_neg hzero]
      have hframe := frameAt_ends build hD skip h hblocks
      cases hpure : decodeFrame D skip (dst_cap - all.length) ip with
      | error e =>
          rw [hpure] at hframe
          obtain ⟨e', he⟩ := hframe
          rw [he]
          exact Or.inl ⟨e', e, rfl, rfl⟩
      | ok q =>
          obtain ⟨new, rest⟩ := q
          rw [hpure] at hframe
          obtain ⟨c', hc', hat⟩ := hframe
          obtain ⟨n, hn, -, hrest⟩ := decodeFrame_length hpure
          rw [hc']
          dsimp only
          rw [hn] at hmore
          exact ih hat (by rw [hrest]; exact hmore)

/-- **THE WHOLE BUFFER**: where the scratch makes the block decoders those of
    `D`, what is accepted in place is what `D` accepts, and no access fails. -/
theorem decompressInto_accepted (build : Build) (hD : DecodesAs D heap p) (m : Mem UInt8)
    {src : Bytes} (dst_cap : Nat) (flags : UInt32) (hall : allFrames p src.length src = true) :
    decompressInto build heap m src dst_cap flags ≠ .error .fault ∧
      accepted (decompressInto build heap m src dst_cap flags) =
        (decompressFlags D src dst_cap flags).toOption := by
  rw [decompressInto, decompressFlags]
  by_cases h16 : src.length < 16
  · rw [if_pos h16, if_pos h16]
    refine ⟨?_, rfl⟩
    intro hc
    cases hc
  rw [if_neg h16, if_neg h16]
  have hstart : CursorAt dst_cap m ⟨m, 0, src⟩ [] src :=
    ⟨⟨Nat.zero_le _, rfl, fun _ _ => rfl⟩, rfl, rfl⟩
  rcases framesAt_ends build hD (flags &&& 1 ≠ 0) src.length hstart hall with
    ⟨e, e', hr, hpure⟩ | ⟨c', out, rest, hr, hpure, hat⟩
  · rw [hr, hpure]
    refine ⟨?_, rfl⟩
    intro hc
    cases hc
  · rw [hr, hpure]
    refine ⟨?_, ?_⟩
    · intro hc
      cases hc
    · have hreads := hat.holds.reads
      show some (read c'.m 0 c'.op) = some out
      rw [hat.op, hreads]

end Loops

end Zupt.VaptVupt
