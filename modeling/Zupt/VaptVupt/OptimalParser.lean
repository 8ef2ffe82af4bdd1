import Mathlib
import Zupt.VaptVupt.Parser

/-! # The optimal block parser

    `compress_block_optimal` of `vv_encoder.c`, for the mode that spends the most
    on text: a forward dynamic program over the bytes of the block, whose prices
    come from a greedy parse of the same block, and a walk back along the
    cheapest path. -/

namespace Zupt.VaptVupt

open Zupt.LittleEndian

/-! ## Fresh memory -/

/-- What `malloc` returned for the tables of a matcher. -/
structure FreshTables where
  table : Nat → Int
  chain : Nat → Int
  table4 : Nat → Int
  hash4_chain : Nat → Int
  table3 : Nat → Int
  hash3_chain : Nat → Int

/-- The roots that a small input can reach, set to none. -/
def clearRoots (src : Bytes) (len : Nat) (table : Nat → Int) : Nat → Int := fun h =>
  if ∃ pos < len, pos + 4 ≤ len ∧ hashSafe src pos (len - pos) = h then -1 else table h

/-- The slots of the chains: the window, or what a small input can fill. -/
def chainSlots (small_len : Nat) : (log : Nat) → Nat
  | 0 => 1
  | log + 1 => if small_len ≤ 2 ^ log then chainSlots small_len log else 2 ^ (log + 1)

/-- `matcher_init_for_input` with `matcher_prepare`, where every allocation is
    granted; `small` is the input whose roots alone are cleared. -/
def matcherInit (fresh : FreshTables) (window_log depth : Nat) (use_hash4 : Bool)
    (small : Option Bytes) : Matcher where
  table := match small with
    | some src => clearRoots src src.length fresh.table
    | none => fun _ => -1
  chain := fresh.chain
  roots16 := none
  table4 := fun _ => -1
  hash4_chain := fresh.hash4_chain
  table3 := fresh.table3
  hash3_chain := fresh.hash3_chain
  chain_mask := (match small with
    | some src => chainSlots src.length window_log
    | none => 2 ^ window_log) - 1
  chain_depth := depth
  rep := ![0, 0, 0]
  wlog := window_log
  use_hash4 := use_hash4
  use_hash3 := false
  single_probe := false
  max_match := 65535
  accel := 0
  no_rep := false

/-- `matcher_set_format_v2`. -/
def Matcher.setFormatV2 (m : Matcher) : Matcher := { m with max_match := 65534 }

/-- `matcher_enable_hash3` on a matcher that has no third table yet. -/
def Matcher.enableHash3 (m : Matcher) : Matcher :=
  { m with table3 := fun _ => -1, use_hash3 := true }

/-! ## Prices -/

/-- The histograms of a token stream: its literals, its offset codes, and the
    number of its sequences. -/
structure TokHist where
  lit : Nat → Nat
  off : Nat → Nat
  nlit : Nat
  nseq : Nat
  rep : Fin 3 → Nat

/-- One more. -/
def bump (f : Nat → Nat) (i : Nat) : Nat → Nat := put f i (f i + 1)

/-- There is a first of the three offsets. -/
local instance threeNeZero : NeZero 3 := ⟨by decide⟩

/-- The code of an offset, given those used before. -/
def offsetCode (rep : Fin 3 → Nat) (off : Nat) : Nat :=
  if off = rep 0 then 0
  else if off = rep 1 then 1
  else if off = rep 2 then 2
  else min (3 + encIlog2 off) 26

/-- `opt_rep_push`. -/
def repPush (rep : Fin 3 → Nat) (off : Nat) : Fin 3 → Nat :=
  if off = rep 0 then rep else ![off, rep 0, rep 1]

/-- A length extension, where the end of the stream may cut it off behind a
    full byte: its value and what is behind it. -/
def scanExt : Bytes → Option (Nat × Bytes)
  | [] => none
  | b :: p =>
      if b < 255 then some (b.toNat, p)
      else
        match p with
        | [] => some (255, [])
        | _ => (scanExt p).map fun r => (255 + r.1, r.2)

/-- A length nibble with such an extension. -/
def scanLen (nibble : Nat) (tp : Bytes) : Option (Nat × Bytes) :=
  if nibble = 15 then (scanExt tp).map fun r => (15 + r.1, r.2) else some (nibble, tp)

/-- The sequence that `tok_lit_hist` counts. -/
def TokHist.addSeq (h : TokHist) (off : Nat) : TokHist :=
  if off = 0 then h
  else
    { h with
      off := bump h.off (offsetCode h.rep off)
      nseq := h.nseq + 1
      rep := repPush h.rep off }

/-- `tok_lit_hist`; `none` is a malformed stream. -/
def tokLitHist (off_bytes : Nat) : (turns : Nat) → Bytes → TokHist → Option TokHist
  | 0, _, h => some h
  | turns + 1, tp, h =>
      match tp with
      | [] => some h
      | token :: tp =>
          match scanLen (token.toNat / 16) tp with
          | none => none
          | some (ll, tp) =>
              if tp.length < ll then none
              else
                let h := { h with
                  lit := (tp.take ll).foldl (fun f b => bump f b.toNat) h.lit
                  nlit := h.nlit + ll }
                let tp := tp.drop ll
                if tp.length = 0 then some h
                else if tp.length < off_bytes then none
                else
                  let h := h.addSeq (leGet (tp.take off_bytes))
                  match scanLen (token.toNat % 16) (tp.drop off_bytes) with
                  | none => none
                  | some (_, tp) => tokLitHist off_bytes turns tp h

/-- The rounded logarithm of `n / count`, between bounds. -/
def costBits (n count lo hi : Nat) : Nat :=
  let ratio8 := n * 256 / count % 2 ^ 32
  let t := encIlog2 ratio8
  let bits : Int := (t : Int) - 8 + (if 1 ≤ t ∧ ratio8 / 2 ^ (t - 1) % 2 = 1 then 1 else 0)
  (max (lo : Int) (min (hi : Int) bits)).toNat

/-- `opt_build_lit_prices_from_hist`, with `VV_OPT_LIT_BLEND` and
    `VV_OPT_LIT_MIN` as they are set. -/
def litPrice (hist : Nat → Nat) (n s : Nat) : Nat :=
  if hist s = 0 ∨ n = 0 then 14 else (6 * costBits n (hist s) 2 14 + (8 - 6) * 8) / 8

/-- `opt_build_of_prices`, with `VV_OPT_OF_BLEND` as it is set. -/
def ofPrice (of_hist : Nat → Nat) (nseq x : Nat) : Nat :=
  let prior := if x < 3 then 2 else 6
  let bits := if nseq = 0 ∨ of_hist x = 0 then 12 else costBits nseq (of_hist x) 1 12
  (0 * bits + (8 - 0) * prior) / 8

/-- The prices of a block. -/
structure Prices where
  lit : Nat → Nat
  off : Nat → Nat

/-- `opt_match_price`. -/
def Prices.matchPrice (P : Prices) (reps : Fin 3 → Nat) (off len : Nat) : Nat :=
  let x := offsetCode reps off
  let v := len - minMatch
  8 + P.off x + (if 3 ≤ x then encIlog2 off else 0) + (if 15 ≤ v then 8 * (v / 255 + 1) else 0)

/-- The matcher of the prepass, over memory of its own. -/
def prepassMatcher (fresh : FreshTables) (A : BlockArgs) (m : Matcher) : Matcher :=
  { matcherInit fresh (min m.wlog 20) 4 false
      (if A.start_pos = 0 ∧ A.block_len ≤ 4096 then some (A.src.take A.block_len) else none) with
    accel := 2
    max_match := m.max_match }

/-- The prices from the tokens of a greedy parse or, without one or without
    literals in it, from the bytes of the block. -/
def blockPrices (fresh : FreshTables) (A : BlockArgs) (m : Matcher) : Prices :=
  let prepass : BlockArgs :=
    { A with dst_cap := A.block_len + A.block_len / 255 + 1024, mode := .ultraFast }
  let zero : TokHist := ⟨fun _ => 0, fun _ => 0, 0, 0, ![0, 0, 0]⟩
  let h := match compressBlock prepass (prepassMatcher fresh A m) with
    | some (_, some tok) => (tokLitHist m.offBytes tok.length tok zero).getD zero
    | _ => zero
  if h.nlit = 0 then
    { lit := litPrice ((bytesAt A.src A.start_pos A.block_len).foldl
        (fun f b => bump f b.toNat) fun _ => 0) A.block_len
      off := ofPrice h.off h.nseq }
  else { lit := litPrice h.lit h.nlit, off := ofPrice h.off h.nseq }

/-! ## Candidates -/

/-- `opt_cand_t`. -/
structure Cand where
  off : Nat
  len : Nat
  deriving DecidableEq, Repr

/-- `VV_OPT_MAX_CAND`. -/
def maxCand : Nat := 16

/-- `VV_OPT_LONG_MATCH`. -/
def longMatch : Nat := 512

/-- A candidate among those there are: the longer one for its distance. -/
def addCand (cands : List Cand) (c : Cand) : List Cand :=
  match cands.findIdx? (fun d => d.off = c.off) with
  | some k => cands.modify k fun d => if d.len < c.len then c else d
  | none => if minMatch ≤ c.len then cands ++ [c] else cands

/-- The candidates at offsets of the path, and whether one of them is long. -/
def repCands (src : Bytes) (pos max_len : Nat) : List Nat → List Cand → List Cand × Bool
  | [], cands => (cands, false)
  | roff :: rest, cands =>
      if roff = 0 ∨ pos < roff then repCands src pos max_len rest cands
      else
        let l := extendMatch src pos (pos - roff) max_len
        let cands := if minMatch ≤ l ∧ cands.length < maxCand then cands ++ [⟨roff, l⟩] else cands
        if longMatch ≤ l then (cands, true) else repCands src pos max_len rest cands

/-- The candidates along the chain. -/
def Matcher.chainCands (m : Matcher) (src : Bytes) (pos max_len : Nat) :
    (depth : Nat) → (ref : Int) → List Cand → List Cand
  | 0, _, cands => cands
  | depth + 1, ref, cands =>
      if (m.limit pos : Int) ≤ ref ∧ ref < (pos : Int) ∧ cands.length < maxCand then
        let next := m.chain (ref.toNat &&& m.chain_mask)
        if load32 src pos = load32 src ref.toNat then
          let l := 4 + extendMatch src (pos + 4) (ref.toNat + 4) (max_len - 4)
          let cands := addCand cands ⟨pos - ref.toNat, l⟩
          if longMatch ≤ l then cands else m.chainCands src pos max_len depth next cands
        else m.chainCands src pos max_len depth next cands
      else cands

/-- `opt_collect`. -/
def Matcher.optCollect (m : Matcher) (src : Bytes) (pos «end» : Nat) (reps : Fin 3 → Nat) :
    List Cand :=
  if «end» < pos + 4 then []
  else
    let max_len := m.maxLen pos «end»
    match repCands src pos max_len [reps 0, reps 1, reps 2] [] with
    | (cands, true) => cands
    | (cands, false) =>
        m.chainCands src pos max_len m.chain_depth (m.table (hashSafe src pos («end» - pos))) cands

/-! ## The dynamic program -/

/-- `VV_OPT_PRICE_INF`. -/
def priceInf : Nat := 0x3FFFFFFF

/-- The cheapest path to a position: its price, its last step, and the offsets
    along it. -/
structure Reached where
  price : Nat
  len : Nat
  off : Nat
  reps : Fin 3 → Nat

/-- What the program moves along. -/
structure Program where
  cells : Nat → Reached
  m : Matcher

/-- A step to position `j`, if it is cheaper than what is there. -/
def relax (cells : Nat → Reached) (j : Nat) (r : Reached) : Nat → Reached :=
  if r.price < (cells j).price then put cells j r else cells

/-- The lengths of a candidate that are tried: all short ones, and of the long
    ones the longest two. -/
def triedLens (min_match mlen : Nat) : (turns L : Nat) → List Nat
  | 0, _ => []
  | turns + 1, L =>
      if L < min_match ∨ L = 0 then []
      else if min_match + 8 < L ∧ L < mlen then L :: triedLens min_match mlen turns (min_match + 8)
      else L :: triedLens min_match mlen turns (L - 1)

/-- The edges of one candidate. -/
def relaxCand (P : Prices) (min_match N i : Nat) (from_ : Reached) (cells : Nat → Reached)
    (c : Cand) : Nat → Reached :=
  let mlen := min c.len (N - i)
  if mlen < min_match then cells
  else
    (triedLens min_match mlen (mlen + 1) mlen).foldl (fun cells L =>
      relax cells (i + L)
        ⟨from_.price + P.matchPrice from_.reps c.off L, L, c.off, repPush from_.reps c.off⟩) cells

/-- The longest candidate, of equal ones the first. -/
def longest (cands : List Cand) : Cand :=
  cands.foldl (fun best c => if best.len < c.len then c else best) ⟨0, 0⟩

/-- The program at position `i` of the block: what it leaves, and the position
    it goes on with. -/
def BlockArgs.advance (A : BlockArgs) (P : Prices) (s : Program) (i : Nat) : Program × Nat :=
  let ip := A.start_pos + i
  let here := s.cells i
  if priceInf ≤ here.price then (⟨s.cells, s.m.insert A.src ip A.end⟩, i + 1)
  else
    let cells := relax s.cells (i + 1)
      ⟨here.price + P.lit (charAt A.src ip).toNat, 1, 0, here.reps⟩
    if A.end < ip + A.min_match then (⟨cells, s.m.insert A.src ip A.end⟩, i + 1)
    else
      let cands := s.m.optCollect A.src ip A.end here.reps
      let best := longest cands
      if longMatch ≤ best.len then
        let use := min best.len (A.block_len - i)
        let cells := relax cells (i + use)
          ⟨here.price + P.matchPrice here.reps best.off use, use, best.off,
            repPush here.reps best.off⟩
        let m := (s.m.insertRange A.src A.end (ip + 3) ip 3).insertRange A.src A.end (ip + use)
          (ip + use - 3) 3
        (⟨cells, m⟩, i + use)
      else
        let cells := cands.foldl (relaxCand P A.min_match A.block_len i here) cells
        (⟨cells, s.m.insert A.src ip A.end⟩, i + 1)

/-- The forward loop; each turn passes a byte of the block. -/
def BlockArgs.forward (A : BlockArgs) (P : Prices) : (turns : Nat) → Program → (i : Nat) → Program
  | 0, s, _ => s
  | turns + 1, s, i =>
      if i < A.block_len then
        match A.advance P s i with
        | (s, i) => A.forward P turns s i
      else s

/-- The walk back from `cur`: the steps in the order they are emitted. -/
def backtrack (cells : Nat → Reached) : (turns cur : Nat) → List Cand → List Cand
  | 0, _, steps => steps
  | turns + 1, cur, steps =>
      if cur = 0 then steps
      else
        let L := if (cells cur).len = 0 then 1 else (cells cur).len
        backtrack cells turns (cur - L) (⟨(cells cur).off, L⟩ :: steps)

/-- The emission of the steps: literals wait for the next match. -/
def BlockArgs.emitSteps (A : BlockArgs) : List Cand → Parse → Except Matcher Parse
  | [], s => .ok s
  | step :: rest, s =>
      if step.off = 0 then A.emitSteps rest { s with pos := s.pos + 1 }
      else
        let ll := s.pos - s.lit_start
        let needed := 1 + extNeeded ll + ll + 2 + (step.len / 255 + 2)
        if A.dst_cap < s.out.length + needed then .error s.m
        else
          A.emitSteps rest
            { s with
              pos := s.pos + step.len
              lit_start := s.pos + step.len
              m := s.m.updateRep step.off
              out := s.out ++ emitSeq (A.lits s.lit_start s.pos) step.len step.off s.m.offBytes
                A.min_match }

/-- What the program starts with. -/
def programStart (m : Matcher) : Program where
  cells i := if i = 0 then ⟨0, 0, 0, ![0, 0, 0]⟩ else ⟨priceInf, 0, 0, ![0, 0, 0]⟩
  m := m

/-- `compress_block_optimal`, where every allocation is granted. -/
def compressBlockOptimal (fresh : FreshTables) (A : BlockArgs) (m : Matcher) :
    Matcher × Option Bytes :=
  -- `INT32_MAX`
  if A.min_match < 1 ∨ 2 ^ 31 - 1 < A.block_len ∨ 2 ^ 31 - 1 - A.block_len < A.start_pos then
    (m, none)
  else
    let P := blockPrices fresh A m
    let s := A.forward P A.block_len (programStart m) 0
    match A.emitSteps (backtrack s.cells A.block_len A.block_len []) (A.start s.m) with
    | .error m => (m, none)
    | .ok s => (s.m, A.finish s)

end Zupt.VaptVupt
