import Zupt.VaptVupt.Emit
import Zupt.VaptVupt.Matcher

/-! # The greedy and lazy block parser

    `compress_block` of `vv_encoder.c`: at each position an offset that was used
    before, then the chains; in the modes with an entropy stage a look one byte
    ahead; and then either a sequence is emitted or a literal is left for the
    next one. -/

namespace Zupt.VaptVupt

/-- `vv_mode_t`. -/
inductive Mode where
  | ultraFast | balanced | extreme
  deriving DecidableEq, Repr

/-- `mode >= VV_MODE_BALANCED`. -/
def Mode.entropy (mode : Mode) : Bool := mode ≠ .ultraFast

/-- The arguments of `compress_block` that do not change. -/
structure BlockArgs where
  src : Bytes
  start_pos : Nat
  block_len : Nat
  dst_cap : Nat
  mode : Mode
  min_match : Nat
  deriving DecidableEq, Repr

/-- The end of the block. -/
def BlockArgs.end (A : BlockArgs) : Nat := A.start_pos + A.block_len

/-- `off_bytes`. -/
def Matcher.offBytes (m : Matcher) : Nat := if 16 < m.wlog then 3 else 2

/-- A match to be taken: `mlen`, zero for none, `moff` and `rep_idx`. -/
structure Found where
  mlen : Nat
  moff : Nat
  rep_idx : Option (Fin 3)
  deriving DecidableEq, Repr

/-- The search of the chains that the matcher is set to. -/
def Matcher.search (m : Matcher) (src : Bytes) (pos «end» : Nat) : Best :=
  if m.single_probe then m.singleProbeMatch src pos «end» else m.chainMatch src pos «end»

/-- `try_rep_match`, unless it is switched off. -/
def Matcher.tryRep (m : Matcher) (src : Bytes) (pos «end» : Nat) : Option (Fin 3 × Nat) :=
  if m.no_rep then none else m.tryRepMatch src pos «end»

/-- Step 1: an offset that was used before. -/
def BlockArgs.findRep (A : BlockArgs) (m : Matcher) (pos : Nat) : Found :=
  match m.tryRep A.src pos A.end with
  | some (i, len) => if A.min_match ≤ len then ⟨len, m.rep i, some i⟩ else ⟨0, 0, some i⟩
  | none => ⟨0, 0, none⟩

/-- Steps 1 and 2: the chains, unless the offset reached far. -/
def BlockArgs.find (A : BlockArgs) (m : Matcher) (pos : Nat) : Found :=
  let rep := A.findRep m pos
  if rep.mlen < 8 then
    let chain := m.search A.src pos A.end
    if rep.mlen < chain.len then ⟨chain.len, chain.off, none⟩ else rep
  else rep

/-- The bits of a match in the comparison of step 3. -/
def matchBits (mode : Mode) (f : Found) : Nat :=
  if f.rep_idx.isSome then 2 else (if mode = .extreme then 14 else 18) + Nat.log2 f.moff

/-- The match one byte ahead.  An offset that was found there counts as such in
    the comparison also where the chains reached further. -/
def BlockArgs.findNext (A : BlockArgs) (m : Matcher) (pos : Nat) : Found :=
  let chain := m.chainMatch A.src (pos + 1) A.end
  match m.tryRep A.src (pos + 1) A.end with
  | some (i, len) =>
      if chain.len < len then ⟨len, m.rep i, some i⟩ else ⟨chain.len, chain.off, some i⟩
  | none => ⟨chain.len, chain.off, none⟩

/-- What step 3 leaves: where the match is, the match, whether its position was
    inserted, and the matcher. -/
structure Chosen where
  pos : Nat
  found : Found
  pos_inserted : Bool
  m : Matcher

/-- Step 3: a match of moderate length yields to one at the next position whose
    bits for each byte are fewer. -/
def BlockArgs.choose (A : BlockArgs) (m : Matcher) (pos : Nat) : Chosen :=
  let f := A.find m pos
  if A.mode.entropy ∧ A.min_match ≤ f.mlen ∧ f.mlen < 8 ∧ pos + 1 + A.min_match < A.end then
    let m := m.insert A.src pos A.end
    let next := A.findNext m pos
    if A.min_match ≤ next.mlen ∧
        (6 + matchBits A.mode next) * f.mlen < matchBits A.mode f * (next.mlen + 1) then
      ⟨pos + 1, next, false, m⟩
    else ⟨pos, f, true, m⟩
  else ⟨pos, f, false, m⟩

/-- The insertions behind a match: the positions from `lo` to `hi` that have five
    bytes. -/
def Matcher.insertRange (m : Matcher) (src : Bytes) («end» hi : Nat) : (lo n : Nat) → Matcher
  | _, 0 => m
  | lo, n + 1 =>
      if lo < hi ∧ lo + 5 ≤ «end» then
        (m.insertFast src lo).insertRange src «end» hi (lo + 1) n
      else m

/-- All positions of a short match, or those at the ends of a long one. -/
def Matcher.insertMatch (m : Matcher) (src : Bytes) («end» ins_first pos mlen : Nat) : Matcher :=
  if 16 ≤ mlen then
    (m.insertRange src «end» (pos + 3) ins_first 3).insertRange src «end» (pos + mlen)
      (pos + mlen - 3) 3
  else m.insertRange src «end» (pos + mlen) ins_first mlen

/-- What the loop moves along. -/
structure Parse where
  pos : Nat
  lit_start : Nat
  failures : Nat
  nmatch : Nat
  m : Matcher
  out : Bytes

/-- The literals that wait. -/
def BlockArgs.lits (A : BlockArgs) (lit_start pos : Nat) : Bytes := bytesAt A.src lit_start (pos - lit_start)

/-- What a length field may need, as the parser reckons it. -/
def extNeeded (ll : Nat) : Nat := if 15 ≤ ll then ll / 255 + 2 else 0

/-- Step 4 with a match.  The error is the `return 0`, which leaves the matcher
    as it is. -/
def BlockArgs.emitMatch (A : BlockArgs) (s : Parse) (c : Chosen) : Except Matcher Parse :=
  let ll := c.pos - s.lit_start
  let needed := 1 + extNeeded ll + ll + 2 + (c.found.mlen / 255 + 2)
  if A.dst_cap < s.out.length + needed then .error c.m
  else
    let m := c.m.insertMatch A.src A.end (if c.pos_inserted then c.pos + 1 else c.pos) c.pos
      c.found.mlen
    .ok
      { pos := c.pos + c.found.mlen
        lit_start := c.pos + c.found.mlen
        failures := 0
        nmatch := s.nmatch + 1
        m := m.updateRep c.found.moff
        out := s.out ++ emitSeq (A.lits s.lit_start c.pos) c.found.mlen c.found.moff m.offBytes
          A.min_match }

/-- The stride over positions without a match. -/
def BlockArgs.stride (A : BlockArgs) (m : Matcher) (failures : Nat) : Nat :=
  let step := 1 + failures * m.accel % 2 ^ 32 / 64
  if A.mode.entropy ∧ 8 < step then 8 else step

/-- Step 4 without a match: a literal, or several of them. -/
def BlockArgs.skip (A : BlockArgs) (s : Parse) (c : Chosen) : Except Matcher Parse :=
  let m := if c.pos_inserted then c.m else c.m.insert A.src c.pos A.end
  if m.accel = 0 then .ok { s with pos := c.pos + 1, m := m }
  else
    let pos := c.pos + A.stride m s.failures
    -- without a match in the first 128 KiB the block will be stored
    if s.nmatch = 0 ∧ 2 ^ 17 ≤ pos - A.start_pos then .error m
    else .ok { s with pos := pos, failures := s.failures + 1, m := m }

/-- A turn of the loop. -/
def BlockArgs.turn (A : BlockArgs) (s : Parse) : Except Matcher Parse :=
  let c := A.choose s.m s.pos
  if A.min_match ≤ c.found.mlen then A.emitMatch s c else A.skip s c

/-- The loop; `none` where the fuel does not suffice. -/
def BlockArgs.loop (A : BlockArgs) : (fuel : Nat) → Parse → Option (Except Matcher Parse)
  | 0, _ => none
  | fuel + 1, s =>
      if s.pos + A.min_match < A.end then
        match A.turn s with
        | .error m => some (.error m)
        | .ok s => A.loop fuel s
      else some (.ok s)

/-- The literals that end the block. -/
def BlockArgs.finish (A : BlockArgs) (s : Parse) : Option Bytes :=
  let ll := A.end - s.lit_start
  let needed := 1 + extNeeded ll + ll
  if A.dst_cap < s.out.length + needed then none
  else some (s.out ++ emitSeq (A.lits s.lit_start A.end) 0 0 s.m.offBytes A.min_match)

/-- What `compress_block` starts with. -/
def BlockArgs.start (A : BlockArgs) (m : Matcher) : Parse :=
  { pos := A.start_pos, lit_start := A.start_pos, failures := 0, nmatch := 0, m := m, out := [] }

/-- `compress_block`: the matcher as it leaves it, and the token stream, of which
    `none` is the `return 0`.  Each turn passes a byte of the block at least. -/
def compressBlock (A : BlockArgs) (m : Matcher) : Option (Matcher × Option Bytes) :=
  match A.loop (A.block_len + 1) (A.start m) with
  | none => none
  | some (.error m) => some (m, none)
  | some (.ok s) => some (s.m, A.finish s)

end Zupt.VaptVupt
