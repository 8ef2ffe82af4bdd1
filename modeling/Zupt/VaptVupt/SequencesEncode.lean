import Zupt.VaptVupt.AnsEncode
import Zupt.VaptVupt.Sequences
import Zupt.VaptVupt.Encoder

/-! # The sequence encoder

    `vva_encode_sequences_impl` of `vv_ans.c`: the tokens of a block are split into
    sequences and literals, the literals are coded by the coder that wins a race,
    the lengths and offsets of the sequences by three tANS coders that share one
    bit stream.  The stream is made from the last sequence to the first. -/

namespace Zupt.VaptVupt

open Zupt.LittleEndian Zupt.Memory

/-! ## Codes of lengths and offsets -/

/-- A code with its extra bits. -/
structure SeqCode where
  code : Nat
  extra : Nat
  nbits : Nat
  deriving DecidableEq, Repr

/-- The binary search over the codes from `lo` to `hi`. -/
def searchCode (base_tab : List Nat) (v : Nat) : (turns lo hi : Nat) → Nat
  | 0, lo, _ => lo
  | turns + 1, lo, hi =>
      if lo < hi then
        let mid := (lo + hi + 1) / 2
        if base_tab.getD mid 0 ≤ v then searchCode base_tab v turns mid hi
        else searchCode base_tab v turns lo (mid - 1)
      else lo

/-- The code of a value above the first 16 codes, of 36. -/
def searchedCode (base_tab extra_tab : List Nat) (v : Nat) : SeqCode :=
  let c := searchCode base_tab v 20 16 35
  ⟨c, v - base_tab.getD c 0, extra_tab.getD c 0⟩

/-- `ml_encode_with`. -/
def mlEncodeWith (mlen : Nat) (base_tab : List Nat) : SeqCode :=
  if mlen ≤ base_tab.getD 15 0 then
    ⟨if base_tab.getD 0 0 ≤ mlen then mlen - base_tab.getD 0 0 else 0, 0, 0⟩
  else searchedCode base_tab mlExtra mlen

/-- `of_encode`. -/
def ofEncode (offset : Nat) : SeqCode :=
  if offset = 0 then ⟨3, 0, 0⟩
  else
    let c := if 24 ≤ Nat.log2 offset then 23 else Nat.log2 offset
    ⟨c + 3, offset - 2 ^ c, ofExtra.getD (c + 3) 0⟩

/-- `ll_encode`. -/
def llEncode (litlen : Nat) : SeqCode :=
  if litlen ≤ 15 then ⟨litlen, 0, 0⟩ else searchedCode llBase llExtra litlen

/-! ## Sequences of a token stream -/

/-- `seq_t`; without a match `matchlen` is zero. -/
structure SeqEntry where
  litlen : Nat
  matchlen : Nat
  offset : Nat
  deriving DecidableEq, Repr

/-- `LL_MAX`. -/
def llMax : Nat := 65535

/-- The entries that an oversize run at the end is split into, and what is left of
    it. -/
def splitRun : (turns ll : Nat) → List SeqEntry × Nat
  | 0, ll => ([], ll)
  | turns + 1, ll =>
      if llMax < ll then
        let r := splitRun turns (ll - llMax)
        (⟨llMax, 0, 0⟩ :: r.1, r.2)
      else ([], ll)

/-- The loop of `parse_sequences`, with `nseq` entries and `nlits` literals behind
    it. -/
def parseLoop (lit_cap seq_cap off_bytes min_match : Nat) :
    (turns : Nat) → (tp : Bytes) → (nseq nlits : Nat) → Option (List SeqEntry × Bytes)
  | 0, _, _, _ => some ([], [])
  | turns + 1, tp, nseq, nlits =>
      match tp with
      | [] => some ([], [])
      | token :: tp =>
          if seq_cap ≤ nseq then none
          else
            match copyLen (token.toNat / 16) tp with
            | none => none
            | some (ll, _, tp) =>
                if tp.length < ll ∨ lit_cap < nlits + ll then none
                else
                  let lits := tp.take ll
                  let tp := tp.drop ll
                  -- an entry without a match is known to the decoder by its place
                  -- behind all matches only
                  if llMax < ll ∧ tp ≠ [] then none
                  else
                    let (splits, ll) := splitRun ll ll
                    if seq_cap ≤ nseq + splits.length then none
                    else if tp.length = 0 then some (splits ++ [⟨ll, 0, 0⟩], lits)
                    else if tp.length < off_bytes then none
                    else
                      let off := leGet (tp.take (if off_bytes = 3 then 3 else 2))
                      match copyLen (token.toNat % 16) (tp.drop off_bytes) with
                      | none => none
                      | some (mc, _, tp) =>
                          match parseLoop lit_cap seq_cap off_bytes min_match turns tp
                              (nseq + splits.length + 1) (nlits + lits.length) with
                          | none => none
                          | some (seqs, rest) =>
                              some (splits ++ ⟨ll, (mc + min_match) % 2 ^ 32, off⟩ :: seqs,
                                lits ++ rest)

/-- `parse_sequences`: the entries and the literals; `none` is 0. -/
def parseSequences (tokens : Bytes) (lit_cap seq_cap off_bytes min_match : Nat) :
    Option (List SeqEntry × Bytes) :=
  match parseLoop lit_cap seq_cap off_bytes min_match tokens.length tokens 0 0 with
  | none => none
  | some (seqs, lits) => if seqs.length = 0 then none else some (seqs, lits)

/-! ## Codes of sequences -/

/-- `enc_rep`. -/
structure EncRep where
  rep0 : Nat
  rep1 : Nat
  rep2 : Nat
  deriving DecidableEq, Repr

/-- The code of an offset: one of the last three, or an explicit one. -/
def EncRep.code (p : EncRep) (off : Nat) : SeqCode :=
  if off = p.rep0 ∧ off ≠ 0 then ⟨0, 0, 0⟩
  else if off = p.rep1 ∧ off ≠ 0 then ⟨1, 0, 0⟩
  else if off = p.rep2 ∧ off ≠ 0 then ⟨2, 0, 0⟩
  else ofEncode off

/-- The update of `enc_rep`. -/
def EncRep.push (p : EncRep) (off : Nat) : EncRep :=
  if off ≠ p.rep0 ∧ off ≠ 0 then ⟨off, p.rep0, p.rep1⟩ else p

/-- The codes of one sequence; those of the offset and of the match length only
    where there is a match. -/
structure SeqCodes where
  ll : SeqCode
  of_ml : Option (SeqCode × SeqCode)
  deriving DecidableEq, Repr

/-- The forward pass over the sequences. -/
def codeSeqs (ml_base_tab : List Nat) : EncRep → List SeqEntry → List SeqCodes
  | _, [] => []
  | p, q :: seqs =>
      if 0 < q.matchlen then
        ⟨llEncode q.litlen, some (p.code q.offset, mlEncodeWith q.matchlen ml_base_tab)⟩ ::
          codeSeqs ml_base_tab (p.push q.offset) seqs
      else ⟨llEncode q.litlen, none⟩ :: codeSeqs ml_base_tab p seqs

/-- How often each code occurs. -/
def codeFreq (codes : List Nat) : Nat → Nat := fun s => codes.count s % 2 ^ 32

/-- The codes of the literal lengths. -/
def llCodes (cs : List SeqCodes) : List Nat := cs.map fun c => c.ll.code

/-- The codes of the offsets. -/
def ofCodes (cs : List SeqCodes) : List Nat := cs.filterMap fun c => c.of_ml.map fun p => p.1.code

/-- The codes of the match lengths. -/
def mlCodes (cs : List SeqCodes) : List Nat := cs.filterMap fun c => c.of_ml.map fun p => p.2.code

/-! ## The bit stream -/

/-- The three contexts. -/
structure SeqEnc where
  ll : EncCtx
  of : EncCtx
  ml : EncCtx

/-- `state_ll`, `state_of` and `state_ml`. -/
structure SeqStates where
  ll : Nat
  of : Nat
  ml : Nat
  deriving DecidableEq, Repr

/-- A symbol and its extra bits in front of the pairs that come behind it. -/
def pushCode (enc : EncCtx) (state : Nat) (c : SeqCode) (pairs : List (Nat × Nat)) :
    Option (Nat × List (Nat × Nat)) :=
  match encSym enc state c.code with
  | none => none
  | some (slot, bv, bn) =>
      some (slot, (bv, bn) :: ((if 0 < c.nbits then [(c.extra, c.nbits)] else []) ++ pairs))

/-- A sequence: the match length, the offset and the literal length. -/
def pushSeq (E : SeqEnc) (c : SeqCodes) (st : SeqStates) (pairs : List (Nat × Nat)) :
    Option (SeqStates × List (Nat × Nat)) :=
  let matched : Option (SeqStates × List (Nat × Nat)) :=
    match c.of_ml with
    | none => some (st, pairs)
    | some (of, ml) =>
        match pushCode E.ml st.ml ml pairs with
        | none => none
        | some (x, pairs) =>
            match pushCode E.of st.of of pairs with
            | none => none
            | some (y, pairs) => some (⟨st.ll, y, x⟩, pairs)
  match matched with
  | none => none
  | some (st, pairs) =>
      match pushCode E.ll st.ll c.ll pairs with
      | none => none
      | some (z, pairs) => some ({ st with ll := z }, pairs)

/-- The backward loop over the sequences. -/
def encodeSeqs (E : SeqEnc) : List SeqCodes → Option (SeqStates × List (Nat × Nat))
  | [] => some (⟨0, 0, 0⟩, [])
  | c :: cs =>
      match encodeSeqs E cs with
      | none => none
      | some (st, pairs) => pushSeq E c st pairs

/-! ## Estimates -/

/-- The queues of `est_huff_lengths`. -/
structure EstQueues where
  w : Nat → Nat
  parent : Nat → Nat
  q1 : Nat
  q2 : Nat

/-- The smaller one of the fronts of both queues. -/
def EstQueues.pick (n nn : Nat) (q : EstQueues) : Nat × EstQueues :=
  if nn ≤ q.q2 ∨ (q.q1 < n ∧ q.w q.q1 ≤ q.w q.q2) then (q.q1, { q with q1 := q.q1 + 1 })
  else (q.q2, { q with q2 := q.q2 + 1 })

/-- The merges, with `left` of them to make and `nn` the next node. -/
def estMerge (n : Nat) : (left nn : Nat) → EstQueues → EstQueues
  | 0, _, q => q
  | left + 1, nn, q =>
      let (a, q) := q.pick n nn
      let (b, q) := q.pick n nn
      estMerge n left (nn + 1)
        { q with
          w := Function.update q.w nn (q.w a + q.w b)
          parent := Function.update (Function.update q.parent a nn) b nn }

/-- The depths from the node `i - 1` down. -/
def estDepths (parent : Nat → Nat) : (i : Nat) → (Nat → Nat) → Nat → Nat
  | 0, depth => depth
  | i + 1, depth => estDepths parent i (Function.update depth i ((depth (parent i) + 1) % 256))

/-- `est_huff_lengths`. -/
def estHuffLengths (freq : Nat → Nat) : Nat → Nat :=
  let leaf_sym := (occurring freq).insertionSort fun a b => a.freq ≤ b.freq
  let n := leaf_sym.length
  if n = 0 then fun _ => 0
  else if n = 1 then fun s => if s ∈ leaf_sym.map SymFreq.sym then 1 else 0
  else
    let start : EstQueues := ⟨fun i => (leaf_sym.map SymFreq.freq).getD i 0, fun _ => 0, 0, n⟩
    let depth := estDepths (estMerge n (n - 1) n start).parent (2 * n - 2) fun _ => 0
    fun s =>
      match (leaf_sym.map SymFreq.sym).idxOf? s with
      | none => 0
      | some i => if depth i ≠ 0 then depth i else 1

/-- `log2_fp8`. -/
def log2Fp8 (v : Nat) : Nat :=
  let t := Nat.log2 v
  t * 256 + (v * 256 / 2 ^ t - 256)

/-- `ans4_est`. -/
def ans4Est (lits : Bytes) : Nat :=
  let hist := histogram lits
  let norm_est := (normalizeFreq hist).2
  let bits256 := ((List.range 256).map fun s =>
    if hist s = 0 then 0
    else hist s * (ansLog * 256 - log2Fp8 (if norm_est s = 0 then 1 else norm_est s))).sum
  let active := symbolCount hist 256
  let tbl_hdr := if active ≤ 64 then 2 + 3 * active else 2 + 2 * (lastSymbol hist 256 + 1)
  bits256 / 2048 + tbl_hdr + 26

/-- `huf_est`. -/
def hufEst (lits : Bytes) : Nat :=
  let hist := histogram lits
  let hlen := estHuffLengths hist
  ((List.range 256).map fun s => hist s * hlen s).sum / 8 + 130

/-! ## The literal section -/

/-- What the allocations of the literal race return: its buffers, and what the
    coders allocate for themselves. -/
structure LitAlloc where
  ans4_buf : Bool
  ans1_buf : Bool
  huf_buf : Bool
  huf4_buf : Bool
  alt_buf : Bool
  ans4 : AnsMemory
  ans1 : AnsMemory
  huf : TreeAlloc
  huf4 : TreeAlloc

/-- `lit_fmt` and the coded literals. -/
structure LitCode where
  fmt : UInt8
  enc : Bytes
  deriving DecidableEq, Repr

/-- What a coder leaves, if anything, under its format. -/
def LitCode.of {ε : Type} (fmt : UInt8) (r : Except ε Bytes) : Option LitCode :=
  match r with
  | .ok enc => some ⟨fmt, enc⟩
  | .error _ => none

/-- A candidate replaces the best one if it is smaller. -/
def raceSmaller (best c : Option LitCode) : Option LitCode :=
  match best, c with
  | best, none => best
  | none, some c => some c
  | some b, some c => if c.enc.length < b.enc.length then some c else some b

/-- `hb_fmt` and `hb_est`. -/
def hufFinalist (disable_huf4 : Bool) (lits : Bytes) : UInt8 × Nat :=
  let huf_est := hufEst lits
  let huf4_est := huf_est + 12
  if disable_huf4 then (3, huf_est)
  else if huf_est + 32 < huf4_est then (3, huf_est)
  else (4, huf4_est)

/-- The race of many literals: estimates choose what is encoded at all. -/
def raceEstimated (a : LitAlloc) (disable_huf4 : Bool) (lits : Bytes) (lit_cap : Nat) : LitCode :=
  let fits (c : LitCode) : Bool := c.enc.length < lits.length
  let (hb_fmt, hb_est) := hufFinalist disable_huf4 lits
  let first : Option LitCode :=
    if ans4Est lits < lits.length then
      (LitCode.of 1 (vvaEncode4 a.ans4 lits lit_cap)).filter fits
    else none
  let worth : Bool := match first with
    | none => true
    | some c => hb_est < c.enc.length + c.enc.length / 8
  let second : Option LitCode :=
    if hb_est < lits.length ∧ worth ∧ a.alt_buf then
      (if hb_fmt = 4 then LitCode.of 4 (vvhEncode4 a.huf4 lits lit_cap)
        else LitCode.of 3 (vvhEncode a.huf lits lit_cap)).filter fits
    else none
  (raceSmaller first second).getD ⟨0, lits⟩

/-- Four streams are preferred to one up to 32 bytes. -/
def hufBest (huf4 huf : Option LitCode) : Option LitCode :=
  match huf4, huf with
  | some h4, some h => if h4.enc.length ≤ h.enc.length + 32 then some h4 else some h
  | some h4, none => some h4
  | none, huf => huf

/-- The race of few literals: all coders, and the smallest wins. -/
def raceAll (a : LitAlloc) (disable_huf4 : Bool) (lits : Bytes) (lit_cap : Nat) : LitCode :=
  let ans4 := if a.ans4_buf then LitCode.of 1 (vvaEncode4 a.ans4 lits lit_cap) else none
  let ans1 := if a.ans1_buf then LitCode.of 2 (vvaEncode a.ans1 lits lit_cap) else none
  let huf := if a.huf_buf then LitCode.of 3 (vvhEncode a.huf lits lit_cap) else none
  let huf4 := if !disable_huf4 ∧ 1024 ≤ lits.length ∧ a.huf4_buf then
    LitCode.of 4 (vvhEncode4 a.huf4 lits lit_cap) else none
  match raceSmaller (raceSmaller ans4 ans1) (hufBest huf4 huf) with
  | some c =>
      if c.enc.length ≤ lit_cap then c else if lits.length ≤ lit_cap then ⟨0, lits⟩ else ⟨0, []⟩
  | none => if lits.length ≤ lit_cap then ⟨0, lits⟩ else ⟨0, []⟩

/-- The coded literals of a block. -/
def encodeLits (a : LitAlloc) (disable_huf4 : Bool) (lits : Bytes) : LitCode :=
  let lit_cap := vvaBound lits.length
  if lits.length = 0 then ⟨0, []⟩
  else if 4096 ≤ lits.length then raceEstimated a disable_huf4 lits lit_cap
  else raceAll a disable_huf4 lits lit_cap

/-! ## The block -/

/-- What the allocations of `vva_encode_sequences_impl` return: its two arenas, the
    buffers of the literals, and the tables of the three coders. -/
structure SeqAlloc where
  base_scratch : Bool
  arena : Bool
  lits : LitAlloc
  ll : Option TableMemory
  of : Option TableMemory
  ml : Option TableMemory

/-- A table: its header and its context. -/
def seqTable (codes : List Nat) (t : Option TableMemory) : Option (Bytes × EncCtx) :=
  let norm := (normalizeFreq (codeFreq codes)).2
  match writeHdrV2 norm 600, t with
  | some hdr, some t => some (hdr, buildAll norm t)
  | _, _ => none

/-- The headers and the contexts.  Without matches the last two have no header, and
    their contexts are not consulted. -/
structure SeqPlan where
  ml_hdr : Bytes
  of_hdr : Bytes
  ll_hdr : Bytes
  enc : SeqEnc

/-- The tables of a block. -/
def seqPlan (a : SeqAlloc) (cs : List SeqCodes) : Option SeqPlan :=
  match seqTable (llCodes cs) a.ll with
  | none => none
  | some (ll_hdr, ll) =>
      if (mlCodes cs).length = 0 then some ⟨[], [], ll_hdr, ⟨ll, ll, ll⟩⟩
      else
        match seqTable (mlCodes cs) a.ml, seqTable (ofCodes cs) a.of with
        | some (ml_hdr, ml), some (of_hdr, of) => some ⟨ml_hdr, of_hdr, ll_hdr, ⟨ll, of, ml⟩⟩
        | _, _ => none

/-- The output behind the literal section. -/
def seqTail (match_count : Nat) (plan : SeqPlan) (st : SeqStates) (bs : Bytes) : Bytes :=
  lePut 4 match_count ++ (lePut 2 plan.ml_hdr.length ++ (plan.ml_hdr ++
    (lePut 2 plan.of_hdr.length ++ (plan.of_hdr ++ (lePut 2 plan.ll_hdr.length ++ (plan.ll_hdr ++
      (lePut 2 st.ml ++ (lePut 2 st.of ++ (lePut 2 st.ll ++ (lePut 4 bs.length ++ bs))))))))))

/-- The output. -/
def seqPayload (total_lits : Nat) (lit : LitCode) (rest : Bytes) : Bytes :=
  lePut 4 total_lits ++ (lit.fmt :: (lePut 4 lit.enc.length ++ (lit.enc ++ rest)))

/-- The assembly: `total` counts four bytes that are not written. -/
def putPayload (out : Bytes) (dst_cap : Nat) : Except VvError Bytes :=
  if dst_cap < out.length + 4 then .error .overflow else .ok out

/-- `vva_encode_sequences_impl`: what it leaves in `dst`. -/
def vvaEncodeSequences (a : SeqAlloc) (ml_base_tab : List Nat) (disable_huf4 : Bool) (tokens : Bytes)
    (dst_cap off_bytes : Nat) : Except VvError Bytes :=
  if tokens.length = 0 then .ok []
  else if 2 ^ 30 < tokens.length then .error .param
  else if !a.base_scratch then .error .nomem
  else
    match parseSequences tokens tokens.length (tokens.length / 3 + tokens.length / 65535 + 8) off_bytes
        (ml_base_tab.getD 0 0) with
    | none => .error .corrupt
    | some (seqs, lits) =>
        if !a.arena then .error .nomem
        else
          let lit := encodeLits a.lits disable_huf4 lits
          let cs := codeSeqs ml_base_tab ⟨0, 0, 0⟩ seqs
          match seqPlan a cs with
          | none => .error .overflow
          | some plan =>
              match encodeSeqs plan.enc cs with
              | none => .error .overflow
              | some (st, pairs) =>
                  let bs := writePairs (pairs.length * 4 + 16) pairs
                  putPayload (seqPayload lits.length lit (seqTail (mlCodes cs).length plan st bs))
                    dst_cap

end Zupt.VaptVupt
