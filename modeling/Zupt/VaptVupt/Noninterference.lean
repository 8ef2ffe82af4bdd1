import Zupt.VaptVupt.HeapExact

/-! # What the decoder takes from raw storage

    Two runs over the same input, with other scratch and another buffer, accept
    alike and give the same bytes, as long as no sequence block announces
    literals without encoding any.  Such a block hands out its literal buffer as
    the allocator gave it. -/

namespace Zupt.VaptVupt

open Zupt.LittleEndian Zupt.Memory Zupt.Window

/-- **TWO RUNS AGREE**, whatever the scratch, the buffer and the build. -/
def Noninterfering (src : Bytes) (dst_cap : Nat) (flags : UInt32) : Prop :=
  ∀ (build build' : Build) (heap heap' : Heap) (m m' : Mem UInt8),
    accepted (decompressInto build heap m src dst_cap flags) =
      accepted (decompressInto build' heap' m' src dst_cap flags)

/-! ## Supplied blocks -/

theorem naiveSequenceBlock_storage (st st' : SeqStorage) (ml_base_tab : List Nat)
    {bdata : Bytes} (history : Bytes) (dsz maxOffset : Nat) (h : litsSupplied bdata = true) :
    naiveSequenceBlock st ml_base_tab bdata history dsz maxOffset =
      naiveSequenceBlock st' ml_base_tab bdata history dsz maxOffset := by
  rw [litsSupplied] at h
  simp only [Bool.or_eq_true, decide_eq_true_eq] at h
  rw [naiveSequenceBlock, naiveSequenceBlock,
    naiveSequences_storage st st' ml_base_tab maxOffset history dsz h]

theorem naiveLits_congr {decode decode' : Bytes → (dst_cap n : Nat) → Except VvError (Bytes × Nat)}
    (h : ∀ src dst_cap n, decode src dst_cap n = decode' src dst_cap n) :
    naiveLits decode = naiveLits decode' := by
  have hsame : decode = decode' := by
    funext src dst_cap n
    exact h src dst_cap n
  rw [hsame]

/-- **AN ENTROPY BLOCK** decodes alike in any scratch, sequences with literals
    that are not encoded apart. -/
theorem decodeEntropy_storage (st st' : Scratch) (tag : UInt8) {bdata : Bytes} (history : Bytes)
    (dsz offBytes maxOffset : Nat)
    (h : tag = 0x53 ∨ tag = 0x54 → litsSupplied bdata = true) :
    decodeEntropy (naiveDecoders st) tag bdata history dsz offBytes maxOffset =
      decodeEntropy (naiveDecoders st') tag bdata history dsz offBytes maxOffset := by
  have hans : (naiveDecoders st).ans = (naiveDecoders st').ans :=
    naiveLits_congr (vvaDecode_storage st.seq.ansWork st'.seq.ansWork)
  have hans4 : (naiveDecoders st).ans4 = (naiveDecoders st').ans4 :=
    naiveLits_congr (vvaDecode4_storage st.seq.ansWork st'.seq.ansWork)
  have hctx : (naiveDecoders st).ctx = (naiveDecoders st').ctx :=
    naiveLits_congr (vvaDecodeCtx_storage st.ctx st'.ctx)
  have hhuff : (naiveDecoders st).huffman = (naiveDecoders st').huffman :=
    naiveLits_congr (vvhDecode_storage st.seq.huffWork st'.seq.huffWork)
  rw [decodeEntropy, decodeEntropy, hans, hans4, hctx, hhuff]
  by_cases hseq : tag = 0x53
  · have hsame : (naiveDecoders st).sequences bdata history dsz maxOffset =
        (naiveDecoders st').sequences bdata history dsz maxOffset :=
      naiveSequenceBlock_storage st.seq st'.seq mlBase history dsz maxOffset (h (Or.inl hseq))
    have hother : tag ≠ 0x54 := by
      rw [hseq]
      decide
    simp only [if_neg hother, hsame]
  · by_cases hseq2 : tag = 0x54
    · have hsame : (naiveDecoders st).sequencesV2 bdata history dsz maxOffset =
          (naiveDecoders st').sequencesV2 bdata history dsz maxOffset :=
        naiveSequenceBlock_storage st.seq st'.seq mlBaseV2 history dsz maxOffset (h (Or.inr hseq2))
      simp only [if_neg hseq, hsame]
    · simp only [if_neg hseq, if_neg hseq2]

/-- **A SUPPLIED BLOCK** decodes alike in any scratch. -/
theorem decodes_as_clear (heap : Heap) :
    DecodesAs (naiveDecoders clearScratch) heap blockSupplied := by
  intro b hb offBytes maxOffset room history
  have htokens : (naiveDecoders (heap b.length)).tokens = (naiveDecoders clearScratch).tokens := rfl
  rw [blockSupplied] at hb
  rw [decodeBlock, decodeBlock, htokens]
  dsimp only
  cases htype : bhType (le32Get b) with
  | raw => rfl
  | compressed => rfl
  | rle => rfl
  | entropy =>
      rw [htype] at hb
      dsimp only at hb ⊢
      rw [decodeEntropy_storage (heap b.length) clearScratch]
      intro htag
      rw [if_pos htag] at hb
      exact hb

/-- A slot of a table is some entry of its symbol. -/
theorem fillSpread_entry (norm : Norm) (sp : Mem UInt8) (dec : Mem DecEntry) {n i : Nat}
    (hi : i < n) :
    ∃ k, (fillSpread norm sp dec n).1 i = entryAt (sp i) (norm (sp i).toNat) k := by
  induction n with
  | zero => exact absurd hi (Nat.not_lt_zero i)
  | succ n ih =>
      rw [fillSpread]
      dsimp only
      by_cases hin : i = n
      · subst hin
        rw [Function.update_self]
        exact ⟨_, rfl⟩
      · rw [Function.update_of_ne hin]
        exact ih (by omega)

/-- The frequencies of a header with one symbol. -/
def singleNorm (s : UInt8) : Norm := Function.update (fun _ => 0) s.toNat ansL

/-- The table of a header with one symbol. -/
theorem buildDecDirect_single (s : UInt8) (dec : Mem DecEntry)
    (hsum : normSum (singleNorm s) 256 = ansL) {x : Nat} (hx : x < ansL) :
    buildDecDirect (singleNorm s) dec x = ⟨s, 0, 0⟩ := by
  have hocc := buildDecDirect_occurs hsum dec hx
  have hsym : (buildDecDirect (singleNorm s) dec x).symbol = s := by
    by_contra hne
    have hother : (buildDecDirect (singleNorm s) dec x).symbol.toNat ≠ s.toNat :=
      fun hc => hne (UInt8.toNat_inj.mp hc)
    exact hocc (Function.update_of_ne hother _ _)
  rw [buildDecDirect_eq, buildDec] at hsym ⊢
  obtain ⟨k, hk⟩ := fillSpread_entry (singleNorm s)
    (spreadSymbols (singleNorm s) (symbols dec)) (placeRuns (singleNorm s) dec 256).1 hx
  rw [hk, entryAt_symbol] at hsym
  rw [hk, hsym, singleNorm, Function.update_self, entryAt, nbMax, if_pos (Or.inr rfl),
    if_pos rfl]

/-- A sequence payload of one literal that is not encoded: no matches, and a
    table in which every literal run has length 1. -/
def bareLiteral : Bytes :=
  [1, 0, 0, 0, 0, 0, 0, 0, 0, 0, 0, 0, 0, 0, 0, 0, 0, 2, 0, 1, 1, 0, 0, 0, 0, 0, 0, 0, 0, 0, 0]

/-- A frame with that payload as its only block. -/
def bareFrame : Bytes :=
  [0x00, 0x01, 0x56, 0x56, 1, 0, 0, 16, 0, 0, 0, 0, 0, 0, 0, 0, 15, 0, 0, 0, 32, 0, 0, 0x53] ++
    bareLiteral

/-- A loop over one literal, without matches: the first turn takes it, and
    nothing is left for a second one. -/
theorem NaiveParams.loop_one {P : NaiveParams} {c : SeqCoder} (x : UInt8) {history : Bytes}
    (htable : P.tables.ll 0 = ⟨1, 0, 0⟩) (hstate : c.state_ll = 0) (hmatch : P.match_count = 0)
    (hcap : history.length < P.cap) (iters : Nat) :
    P.loop (iters + 1) ⟨c, [x], 0, history⟩ = .ok (history ++ [x]) := by
  have hzero : c.state_ll % ansL = 0 := by rw [hstate, Nat.zero_mod]
  have hlit : c.litlen P.tables = some (1, { c with r := ansBrFill c.r, state_ll := 0 }) := by
    rw [SeqCoder.litlen, hzero, htable]
    rfl
  have hshort : ¬ [x].length < 1 := Nat.lt_irrefl 1
  have hroom : ¬ P.cap < history.length + 1 := by omega
  have hturn : P.turn ⟨c, [x], 0, history⟩ =
      .ok ⟨{ c with r := ansBrFill c.r, state_ll := 0 }, [], 0, history ++ [x]⟩ := by
    rw [NaiveParams.turn, hlit]
    dsimp only
    rw [if_neg hshort, if_neg hroom, hmatch, if_pos (Nat.le_refl 0)]
    rfl
  have hmore : 0 < [x].length ∨ 0 < P.match_count := Or.inl Nat.one_pos
  have hdone : ¬ (0 < ([] : Bytes).length ∨ 0 < P.match_count) := by
    rw [hmatch]
    simp
  rw [NaiveParams.loop]
  dsimp only
  rw [if_pos hmore, hturn]
  dsimp only
  cases iters with
  | zero =>
      rw [NaiveParams.loop]
      dsimp only
      rw [if_neg hdone]
  | succ iters =>
      rw [NaiveParams.loop]
      dsimp only
      rw [if_neg hdone]

/-- **THE LITERAL COMES OUT OF THE STORAGE**. -/
theorem bareLiteral_out (st : SeqStorage) :
    naiveSequences st mlBase 0xFFFF bareLiteral [] 1 = .ok [st.lits 0] := by
  have hsum : normSum (singleNorm 1) 256 = ansL := by decide +kernel
  have hvalid : seqNormsValid 1 0 (fun _ => 0) (fun _ => 0) (singleNorm 1) = true := by
    decide +kernel
  have hsec : readLitSection bareLiteral 1 = .ok ⟨1, 0, [], bareLiteral.drop 9⟩ := rfl
  have hfill : fillLits st ⟨1, 0, [], bareLiteral.drop 9⟩ = .ok st.lits := rfl
  have hml : readSeqNorm ((bareLiteral.drop 9).drop 4) =
      .ok (fun _ => 0, bareLiteral.drop 15) := rfl
  have hof : readSeqNorm (bareLiteral.drop 15) = .ok (fun _ => 0, bareLiteral.drop 17) := rfl
  have hll : readSeqNorm (bareLiteral.drop 17) = .ok (singleNorm 1, bareLiteral.drop 21) := rfl
  have hstates : readSeqStates 0 (fun _ => 0) (fun _ => 0) (singleNorm 1) (bareLiteral.drop 21) =
      .ok ⟨0, fun _ => 0, fun _ => 0, singleNorm 1, 0, 0, 0, []⟩ := rfl
  have hhdr : readSeqHeader 1 1 (bareLiteral.drop 9) =
      .ok ⟨0, fun _ => 0, fun _ => 0, singleNorm 1, 0, 0, 0, []⟩ := by
    have hcount : u32At (bareLiteral.drop 9) 0 = 0 := rfl
    have hlen : ¬ (bareLiteral.drop 9).length < 4 := by decide
    rw [readSeqHeader, if_neg hlen]
    dsimp only
    rw [hcount, if_neg (Nat.not_lt_zero 1), hml]
    dsimp only
    rw [hof]
    dsimp only
    rw [hll]
    dsimp only
    rw [if_pos hvalid, hstates]
  have htable : (seqTables st 1 ⟨0, fun _ => 0, fun _ => 0, singleNorm 1, 0, 0, 0, []⟩).ll 0 =
      ⟨1, 0, 0⟩ := by
    have hpos : 0 < ansL := by decide
    rw [seqTables, if_pos (Or.inl Nat.one_pos), if_neg (Nat.lt_irrefl 0)]
    dsimp only
    rw [buildDecDirect_single 1 st.ll hsum hpos]
  rw [naiveSequences, hsec]
  dsimp only
  rw [hfill]
  dsimp only
  rw [hhdr]
  dsimp only
  have hwindow : ¬ (0xFFFF = 0 ∨ 2 ^ 24 < 0xFFFF) := by decide
  rw [if_neg hwindow]
  refine NaiveParams.loop_one (st.lits 0) ?_ rfl rfl ?_ 16
  · exact htable
  · exact Nat.one_pos

/-- The only block of the frame. -/
theorem bareFrame_block (st : Scratch) (offBytes : Nat) :
    decodeBlock (naiveDecoders st) offBytes 0xFFFF 1 [] (bareFrame.drop 16) =
      .ok ⟨[st.seq.lits 0], true, []⟩ := by
  have hlen : ¬ (bareFrame.drop 16).length < 4 := by decide
  have hsize : bhSize (le32Get (bareFrame.drop 16)) = 1 := by decide
  have htype : bhType (le32Get (bareFrame.drop 16)) = .entropy := by decide
  have hlast : bhLast (le32Get (bareFrame.drop 16)) = true := by decide
  have hthree : ¬ ((bareFrame.drop 16).drop 4).length < 3 := by decide
  have hcsz : cszGet ((bareFrame.drop 16).drop 4) = 32 := by decide
  have hwhole : ¬ (32 < 1 ∨ (((bareFrame.drop 16).drop 4).drop 3).length < 32) := by decide
  have htag : charAt (((bareFrame.drop 16).drop 4).drop 3) 0 = 0x53 := by decide
  have hpayload : ((((bareFrame.drop 16).drop 4).drop 3).take 32).drop 1 = bareLiteral := rfl
  have hrest : (((bareFrame.drop 16).drop 4).drop 3).drop 32 = [] := rfl
  have hseq : decodeEntropy (naiveDecoders st) 0x53 bareLiteral [] 1 offBytes 0xFFFF =
      .ok [st.seq.lits 0] := by
    have hans : ¬ (0x53 : UInt8) = 0x41 := by decide
    have hans4 : ¬ (0x53 : UInt8) = 0x49 := by decide
    have hctx : ¬ (0x53 : UInt8) = 0x43 := by decide
    have hsequences : (naiveDecoders st).sequences bareLiteral [] 1 0xFFFF =
        .ok [st.seq.lits 0] := by
      rw [naiveDecoders]
      dsimp only
      rw [naiveSequenceBlock, bareLiteral_out]
      rfl
    rw [decodeEntropy, if_neg hans, if_neg hans4, if_neg hctx, if_pos rfl, hsequences]
    rfl
  rw [decodeBlock, if_neg hlen]
  dsimp only
  rw [hsize, htype, hlast, hcsz, htag, hpayload, hrest, if_neg hthree, if_neg hwhole, hseq]
  rfl

/-- **THE FRAME** decodes to the first literal that its scratch happens to
    hold. -/
theorem bareFrame_out (st : Scratch) (flags : UInt32) :
    decompressFlags (naiveDecoders st) bareFrame 1 flags = .ok [st.seq.lits 0] := by
  have hlen : ¬ bareFrame.length < 16 := by decide
  have hsome : ¬ bareFrame.length = 0 := by decide
  have hheader : checkHeader (frameHeaderGet bareFrame) = .ok 0xFFFF := by decide
  have hsum : ¬ (frameHeaderGet bareFrame).hasChecksum = true := by decide
  have hplain : (frameHeaderGet bareFrame).flags = 0 := by decide
  have hturns : bareFrame.length = 54 + 1 := rfl
  have hblocks : (bareFrame.drop 16).length = 38 + 1 := rfl
  have hbcj : bcjInverse (frameHeaderGet bareFrame) [st.seq.lits 0] = [st.seq.lits 0] := by
    rw [bcjInverse, hplain]
    rfl
  have hframe (skip : Bool) : decodeFrame (naiveDecoders st) skip 1 bareFrame =
      .ok ([st.seq.lits 0], []) := by
    rw [decodeFrame, if_neg hlen]
    dsimp only
    rw [hheader]
    dsimp only
    rw [hblocks, decodeBlocks, List.length_nil, Nat.sub_zero, bareFrame_block]
    dsimp only
    rw [if_pos rfl, finishBlocks, List.nil_append, finishFrame, if_neg hsum, hbcj]
  rw [decompressFlags, if_neg hlen, hturns, decodeFrames, if_neg hsome, List.length_nil,
    Nat.sub_zero, hframe]
  rfl

/-- Scratch in which every literal is `x`. -/
def litScratch (x : UInt8) : Scratch :=
  { clearScratch with seq := { clearScratch.seq with lits := fun _ => x } }

/-- A run over the frame in such scratch. -/
theorem bareFrame_accepted (x : UInt8) {dst_cap : Nat} (hcap : 1 ≤ dst_cap) (flags : UInt32) :
    accepted (decompressInto ⟨false, .scalar⟩ (fun _ => litScratch x) (fun _ => 0) bareFrame dst_cap
      flags) = some [x] := by
  have hall : allFrames (fun _ => true) bareFrame.length bareFrame = true := by decide
  have hroom := decompressFlags_room (bareFrame_out (litScratch x) flags) hcap
  have hD : DecodesAs (naiveDecoders (litScratch x)) (fun _ => litScratch x) fun _ => true := by
    intro b _ offBytes maxOffset room history
    rfl
  rw [(decompressInto_accepted ⟨false, .scalar⟩ hD _ dst_cap flags hall).2, hroom]
  rfl

/-- The same frame with its literal encoded. -/
def codedFrame : Bytes :=
  [0x00, 0x01, 0x56, 0x56, 1, 0, 0, 16, 0, 0, 0, 0, 0, 0, 0, 0, 15, 0, 0, 0, 33, 0, 0, 0x53,
    1, 0, 0, 0, 0, 1, 0, 0, 0, 0x61] ++ bareLiteral.drop 9

end Zupt.VaptVupt
