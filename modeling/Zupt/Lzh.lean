import Zupt.LzhHuffman
import Zupt.VaptVupt.MatchSound

/-! # Zupt-LZH

    `zupt_lzh.c`: runs of zeros are shortened first, the rest is parsed into
    literals and matches over hash chains, with up to three lazy steps, and these
    are written with two Huffman codes whose lengths stand in front. -/

namespace Zupt.Lzh

open Zupt.LittleEndian Zupt.Window Zupt.VaptVupt

/-! ## Tables -/

/-- `LZH_MAX_LITLEN`. -/
def maxLitlen : Nat := 293

/-- `LZH_MAX_DIST`. -/
def maxDist : Nat := 40

/-- `LZH_MAX_MATCH`. -/
def maxMatch : Nat := 4322

/-- `LEN_BASE`. -/
def lenBase : List Nat :=
  [3, 4, 5, 6, 7, 8, 9, 10, 11, 13, 15, 17, 19, 23, 27, 31, 35, 43, 51, 59, 67, 83, 99, 115, 131,
    163, 195, 227, 258, 259, 291, 355, 483, 739, 1251, 2275]

/-- `LEN_EXTRA`. -/
def lenExtra : List Nat :=
  [0, 0, 0, 0, 0, 0, 0, 0, 1, 1, 1, 1, 2, 2, 2, 2, 3, 3, 3, 3, 4, 4, 4, 4, 5, 5, 5, 5, 0,
    5, 6, 7, 8, 9, 10, 11]

/-- `LEN_CODES`. -/
def lenCodes : Nat := 36

/-- `DIST_BASE`. -/
def distBase : List Nat :=
  [1, 2, 3, 4, 5, 7, 9, 13, 17, 25, 33, 49, 65, 97, 129, 193, 257, 385, 513, 769, 1025, 1537, 2049,
    3073, 4097, 6145, 8193, 12289, 16385, 24577, 32769, 49153, 65537, 98305, 131073, 196609, 262145,
    393217, 524289, 786433]

/-- `DIST_EXTRA`. -/
def distExtra : List Nat :=
  [0, 0, 0, 0, 1, 1, 2, 2, 3, 3, 4, 4, 5, 5, 6, 6, 7, 7, 8, 8, 9, 9, 10, 10, 11, 11, 12, 12, 13, 13,
    14, 14, 15, 15, 16, 16, 17, 17, 18, 18]

/-- The last of the first `n` bases that is not above `v`, or the first one. -/
def lastBase (base : List Nat) (v : Nat) : (n : Nat) → Nat
  | 0 => 0
  | n + 1 => if base.getD n 0 ≤ v then n else lastBase base v n

/-- `len_to_code`. -/
def lenToCode (len : Nat) : Nat := 257 + lastBase lenBase len lenCodes

/-- `dist_to_code`. -/
def distToCode (d : Nat) : Nat := lastBase distBase d maxDist

/-- `lzh_config_t`; the hash always has 20 bits. -/
structure Config where
  win_size : Nat
  max_chain : Nat
  lazy_depth : Nat
  min_match : Nat
  deriving DecidableEq, Repr

/-- `lzh_config`, at a level from 1 to 9. -/
def lzhConfig : (level : Nat) → Config
  | 1 => ⟨65536, 12, 0, 4⟩
  | 2 => ⟨131072, 24, 1, 4⟩
  | 3 => ⟨131072, 48, 1, 3⟩
  | 4 => ⟨262144, 96, 2, 3⟩
  | 5 => ⟨524288, 160, 2, 3⟩
  | 6 => ⟨524288, 256, 3, 3⟩
  | 7 => ⟨1048576, 384, 3, 3⟩
  | 8 => ⟨1048576, 512, 4, 3⟩
  | 9 => ⟨1048576, 768, 5, 3⟩
  | _ => ⟨524288, 256, 3, 3⟩

/-! ## Runs of zeros -/

/-- How many of the first `limit` values are `v`. -/
def runOf {α : Type} [DecidableEq α] (v : α) : (limit : Nat) → List α → Nat
  | limit + 1, x :: s => if x = v then runOf v limit s + 1 else 0
  | _, _ => 0

/-- The inner loop of `rle_encode`: a run in pieces of at most 255 zeros. -/
def rlePieces (dc : Nat) : (turns run : Nat) → (out : Bytes) → Option Bytes
  | 0, _, out => some out
  | turns + 1, run, out =>
      if 0 < run then
        let ch := min run 255
        if dc < out.length + 2 then none
        else rlePieces dc turns (run - ch) (out ++ [0, UInt8.ofNat ch])
      else some out

/-- The loop of `rle_encode` over `s[ip..n)`; `out` is `d[0..op)`. -/
def rleLoop (dc : Nat) : (turns : Nat) → (s out : Bytes) → Option Bytes
  | 0, _, out => some out
  | _ + 1, [], out => some out
  | turns + 1, b :: s, out =>
      if b = 0 then
        let run := runOf 0 65535 (b :: s)
        if run = 1 then
          if dc < out.length + 2 then none else rleLoop dc turns s (out ++ [0, 0])
        else
          match rlePieces dc run run out with
          | none => none
          | some out => rleLoop dc turns ((b :: s).drop run) out
      else if dc < out.length + 1 then none
      else rleLoop dc turns s (out ++ [b])

/-- `rle_encode`; `none` is 0. -/
def rleEncode (s : Bytes) (dc : Nat) : Option Bytes :=
  match rleLoop dc s.length s [] with
  | none => none
  | some out => if out.length < s.length then some out else none

/-- `rle_decode`; `none` is the `return 0` where a run does not fit. -/
def rleDecode (dc : Nat) : (s out : Bytes) → Option Bytes
  | [], out => some out
  | [b], out => if out.length < dc then some (out ++ [b]) else some out
  | b :: c :: s, out =>
      if out.length < dc then
        if b = 0 then
          if c = 0 then rleDecode dc s (out ++ [0])
          else if dc < out.length + c.toNat then none
          else rleDecode dc s (out ++ List.replicate c.toNat 0)
        else rleDecode dc (c :: s) (out ++ [b])
      else some out

/-! ## Bits -/

/-- `bitwr_t`; `out` is `buf[0..pos)`.  The accumulator has 64 bits; behind the
    capacity, where it would overflow, nothing of it is read any more. -/
structure BitWr where
  acc : Nat
  nb : Nat
  out : Bytes

/-- The loop of `bw_put`. -/
def BitWr.drain (cap : Nat) : (turns : Nat) → BitWr → BitWr
  | 0, w => w
  | turns + 1, w =>
      if w.out.length < cap then
        BitWr.drain cap turns ⟨w.acc / 256, w.nb - 8, w.out ++ [UInt8.ofNat (w.acc % 256)]⟩
      else w

/-- `bw_put`. -/
def BitWr.put (cap : Nat) (w : BitWr) (v n : Nat) : BitWr :=
  BitWr.drain cap ((w.nb + n) / 8) ⟨w.acc ||| v <<< w.nb, w.nb + n, w.out⟩

/-- `bw_flush`: as many bytes as the bits take, the last one padded. -/
def BitWr.flush (cap : Nat) (w : BitWr) : BitWr := w.drain cap ((w.nb + 7) / 8)

/-- `bitrd_t`; `s` is `buf[pos..len)`. -/
structure BitRd where
  acc : Nat
  nb : Int
  s : Bytes

/-- `br_init`. -/
def BitRd.init (s : Bytes) : BitRd := ⟨0, 0, s⟩

/-- The loop of `br_peek`. -/
def fillBits (n : Nat) : (s : Bytes) → (acc : Nat) → (nb : Int) → BitRd
  | [], acc, nb => ⟨acc, nb, []⟩
  | b :: s, acc, nb =>
      if nb < n then fillBits n s (acc ||| b.toNat <<< nb.toNat) (nb + 8) else ⟨acc, nb, b :: s⟩

/-- `br_peek`: the bits, and the reader behind the loop. -/
def BitRd.peek (r : BitRd) (n : Nat) : Nat × BitRd :=
  let r := fillBits n r.s r.acc r.nb
  (r.acc % 2 ^ n, r)

/-- `br_skip`. -/
def BitRd.skip (r : BitRd) (n : Nat) : BitRd := ⟨r.acc / 2 ^ n, r.nb - n, r.s⟩

/-- `br_get`. -/
def BitRd.get (r : BitRd) (n : Nat) : Nat × BitRd :=
  let (v, r) := r.peek n
  (v, r.skip n)

/-- `huff_dec`; `none` is -1. -/
def huffDec (r : BitRd) (lut : Nat → Option (Nat × Nat)) : Option (Nat × BitRd) :=
  let (bits, r) := r.peek maxCodelen
  match lut bits with
  | none => none
  | some (sym, len) => some (sym, r.skip len)

/-! ## Code lengths -/

/-- The loop of `cl_encode` over a run of zeros. -/
def clZeros (ocap : Nat) : (turns run : Nat) → (out : Bytes) → Option Bytes
  | 0, _, out => some out
  | turns + 1, run, out =>
      if 0 < run then
        if 11 ≤ run then
          let r := min run 138
          if ocap < out.length + 2 then none
          else clZeros ocap turns (run - r) (out ++ [18, UInt8.ofNat (r - 11)])
        else if 3 ≤ run then
          if ocap < out.length + 2 then none
          else clZeros ocap turns (run - run) (out ++ [17, UInt8.ofNat (run - 3)])
        else if ocap < out.length + 1 then none
        else clZeros ocap turns (run - 1) (out ++ [0])
      else some out

/-- The loops of `cl_encode` over a run of a length that was written. -/
def clRepeats (ocap v : Nat) : (turns run : Nat) → (out : Bytes) → Option Bytes
  | 0, _, out => some out
  | turns + 1, run, out =>
      if 3 ≤ run then
        let r := min run 6
        if ocap < out.length + 2 then none
        else clRepeats ocap v turns (run - r) (out ++ [16, UInt8.ofNat (r - 3)])
      else if 0 < run then
        if ocap < out.length + 1 then none
        else clRepeats ocap v turns (run - 1) (out ++ [UInt8.ofNat v])
      else some out

/-- The loop of `cl_encode`; `none` is its `return 0`. -/
def clLoop (ocap : Nat) : (turns : Nat) → (lens : List Nat) → (out : Bytes) → Option Bytes
  | 0, _, out => some out
  | _ + 1, [], out => some out
  | turns + 1, v :: lens, out =>
      if out.length < ocap then
        if v = 0 then
          let run := runOf 0 138 (v :: lens)
          match clZeros ocap run run out with
          | none => none
          | some out => clLoop ocap turns ((v :: lens).drop run) out
        else if ocap < out.length + 1 then none
        else
          let run := runOf v 6 lens
          match clRepeats ocap v run run (out ++ [UInt8.ofNat v]) with
          | none => none
          | some out => clLoop ocap turns (lens.drop run) out
      else some out

/-- `cl_encode`; the empty list is 0. -/
def clEncode (lens : List Nat) (ocap : Nat) : Bytes := (clLoop ocap lens.length lens []).getD []

/-- `cl_decode`: the lengths in front of `lens[li]`, of which there are at most
    `count`; `none` is -1. -/
def clDecode (count : Nat) : (s : Bytes) → (prev : Nat) → (lens : List Nat) → Option (List Nat)
  | [], _, lens => some lens
  | [c], _, lens =>
      if lens.length < count then if c ≤ 15 then some (lens ++ [c.toNat]) else none else some lens
  | c :: x :: s, prev, lens =>
      if lens.length < count then
        if c ≤ 15 then clDecode count (x :: s) c.toNat (lens ++ [c.toNat])
        else if c = 16 then
          clDecode count s prev (lens ++ List.replicate (min (3 + x.toNat) (count - lens.length)) prev)
        else if c = 17 then
          clDecode count s prev (lens ++ List.replicate (min (3 + x.toNat) (count - lens.length)) 0)
        else if c = 18 then
          clDecode count s prev (lens ++ List.replicate (min (11 + x.toNat) (count - lens.length)) 0)
        else none
      else some lens

/-! ## The matcher -/

/-- `lzh_hash` of 20 bits. -/
def lzhHash (src : Bytes) (p : Nat) : Nat := load32 src p * 2654435761 % 2 ^ 32 / 2 ^ (32 - 20)

/-- `ht` and `ch`. -/
structure Tables where
  ht : Nat → Int
  ch : Nat → Int

/-- The tables behind `calloc` and the `memset` of the roots. -/
def Tables.fresh : Tables := ⟨fun _ => -1, fun _ => 0⟩

/-- The comparison of a candidate from `len` on: eight bytes at a time, and the
    last ones alone. -/
def matchLen (src : Bytes) (ref ip mx : Nat) : (turns len : Nat) → Nat
  | 0, len => len + agree src (ref + len) (ip + len) (mx - len)
  | turns + 1, len =>
      if len + 8 ≤ mx ∧ bytesAt src (ref + len) 8 = bytesAt src (ip + len) 8 then
        matchLen src ref ip mx turns (len + 8)
      else len + agree src (ref + len) (ip + len) (mx - len)

/-- The walk of `find_match` along a chain, of which `cnt` links were seen. -/
def findLoop (src : Bytes) (t : Tables) (cfg : Config) (ip : Nat) :
    (left cnt : Nat) → (ref : Int) → (best : Nat) → Best → Best
  | 0, _, _, _, m => m
  | left + 1, cnt, ref, best, m =>
      if 0 ≤ ref ∧ ref < ip ∧ (ip : Int) - ref ≤ cfg.win_size then
        let r := ref.toNat
        let next := t.ch (r % cfg.win_size)
        if best < src.length - ip ∧ charAt src (r + best) = charAt src (ip + best) ∧
            charAt src r = charAt src ip ∧ charAt src (r + 1) = charAt src (ip + 1) then
          let mx := min (src.length - ip) maxMatch
          let len := matchLen src r ip mx mx 0
          if best < len then
            if maxMatch ≤ len ∨ (512 ≤ len ∧ cfg.max_chain / 4 < cnt) then ⟨len, ip - r⟩
            else findLoop src t cfg ip left (cnt + 1) next len ⟨len, ip - r⟩
          else findLoop src t cfg ip left (cnt + 1) next best m
        else findLoop src t cfg ip left (cnt + 1) next best m
      else m

/-- `find_match`. -/
def findMatch (src : Bytes) (ip : Nat) (t : Tables) (cfg : Config) : Best :=
  if src.length < ip + 4 then ⟨0, 0⟩
  else
    let m := findLoop src t cfg ip cfg.max_chain 0 (t.ht (lzhHash src ip)) (cfg.min_match - 1) ⟨0, 0⟩
    if cfg.min_match ≤ m.len then m else ⟨0, 0⟩

/-- `insert_hash`; the position is cut to an `int32_t`. -/
def insertHash (src : Bytes) (cfg : Config) (t : Tables) (ip : Nat) : Tables :=
  if ip + 4 ≤ src.length then
    let h := lzhHash src ip
    ⟨Function.update t.ht h (Int.bmod ip (2 ^ 32)),
      Function.update t.ch (ip % cfg.win_size) (t.ht h)⟩
  else t

/-- The `for` loop that inserts the positions of a match. -/
def insertRange (src : Bytes) (cfg : Config) : (n : Nat) → (j : Nat) → Tables → Tables
  | 0, _, t => t
  | n + 1, j, t =>
      if j + 4 ≤ src.length then insertRange src cfg n (j + 1) (insertHash src cfg t j) else t

/-! ## The parse -/

/-- `lzsym_t`. -/
structure LzSym where
  litlen : Nat
  dist_code : Nat
  match_len : Nat
  match_dist : Nat
  deriving DecidableEq, Repr

/-- A literal. -/
def literal (b : UInt8) : LzSym := ⟨b.toNat, 0, 0, 0⟩

/-- A match. -/
def matchSym (m : Best) : LzSym := ⟨lenToCode m.len, distToCode m.off, m.len, m.off⟩

/-- The end of the block. -/
def eob : LzSym := ⟨256, 0, 0, 0⟩

/-- What the loop of the parse changes. -/
structure Parse where
  ip : Nat
  syms : List LzSym
  tables : Tables

/-- The lazy steps of these depths: while the match of the next position is much
    better, this one becomes a literal. -/
def lazySteps (src : Bytes) (cfg : Config) : (depths : List Nat) → Parse → Best → Parse × Best
  | [], p, m => (p, m)
  | depth :: depths, p, m =>
      if depth ≤ cfg.lazy_depth ∧ p.ip + 1 < src.length then
        let t := insertHash src cfg p.tables p.ip
        let next := findMatch src (p.ip + 1) t cfg
        if m.len + 1 < next.len then
          lazySteps src cfg depths ⟨p.ip + 1, p.syms ++ [literal (charAt src p.ip)], t⟩ next
        else ({ p with tables := t }, m)
      else (p, m)

/-- A turn of the parse. -/
def parseTurn (src : Bytes) (cfg : Config) (p : Parse) : Parse :=
  let m := findMatch src p.ip p.tables cfg
  if m.len = 0 then
    ⟨p.ip + 1, p.syms ++ [literal (charAt src p.ip)], insertHash src cfg p.tables p.ip⟩
  else
    let (p, m) := lazySteps src cfg [1, 2, 3] p m
    let t := if cfg.lazy_depth < 1 then insertHash src cfg p.tables p.ip else p.tables
    ⟨p.ip + m.len, p.syms ++ [matchSym m], insertRange src cfg (m.len - 1) (p.ip + 1) t⟩

/-- The loop of the parse.  Each turn moves `ip`, so `lz_len` turns are enough. -/
def parseLoop (src : Bytes) (cfg : Config) : (turns : Nat) → Parse → Parse
  | 0, p => p
  | turns + 1, p => if p.ip < src.length then parseLoop src cfg turns (parseTurn src cfg p) else p

/-- `syms[0..ns)`. -/
def lzSyms (src : Bytes) (cfg : Config) : List LzSym :=
  (parseLoop src cfg src.length ⟨0, [], .fresh⟩).syms ++ [eob]

/-! ## Compression -/

/-- `zupt_lzh_bound`. -/
def lzhBound (slen : Nat) : Nat := slen + slen / 8 + 2048

/-- Which of the allocations of `zupt_lzh_compress` succeed. -/
structure Alloc where
  rle_buf : Bool
  ht : Bool
  ch : Bool
  syms : Bool
  ll : BuildAlloc
  d : BuildAlloc
  deriving DecidableEq, Repr

/-- What the parse reads, and `rle_on`. -/
def rlePrepare (rle_buf : Bool) (src : Bytes) : Bytes × Bool :=
  if src.length / 8 < src.count 0 then
    if rle_buf then
      match rleEncode src src.length with
      | none => (src, false)
      | some rle =>
          if 0 < rle.length ∧ rle.length < src.length * 9 / 10 then (rle, true) else (src, false)
    else (src, false)
  else (src, false)

/-- `ll_freq`. -/
def llFreq (syms : List LzSym) (i : Nat) : Nat :=
  (syms.countP fun s => decide (s.litlen < maxLitlen ∧ s.litlen = i)) % 2 ^ 32

/-- `d_freq`. -/
def dFreq (syms : List LzSym) (i : Nat) : Nat :=
  (syms.countP fun s => decide (257 ≤ s.litlen ∧ s.litlen ≤ 292 ∧ s.dist_code = i)) % 2 ^ 32

/-- One more than the highest symbol from `low` on, below `low + n`, that occurs, or
    `none` of them. -/
def highest (freq : Nat → Nat) (low : Nat) : (n : Nat) → Option Nat
  | 0 => none
  | n + 1 => if 0 < freq (low + n) then some (low + n + 1) else highest freq low n

/-- `ll_cnt`. -/
def llCount (syms : List LzSym) : Nat := (highest (llFreq syms) 257 (maxLitlen - 257)).getD 257

/-- `d_cnt`. -/
def dCount (syms : List LzSym) : Nat := (highest (dFreq syms) 0 maxDist).getD 1

/-- The codes of the two alphabets. -/
structure Codes where
  ll_cnt : Nat
  ll : HCodes
  d_cnt : Nat
  d : HCodes

/-- The codes of a parse; the end of the block always has one. -/
def buildCodes (a : Alloc) (syms : List LzSym) : Codes :=
  let ll := huffBuild a.ll (llFreq syms) (llCount syms)
  { ll_cnt := llCount syms
    ll :=
      if ll.len 256 = 0 then
        ⟨Function.update ll.len 256 1, Function.update ll.code 256 0⟩
      else ll
    d_cnt := dCount syms
    d := huffBuild a.d (dFreq syms) (dCount syms) }

/-- Bytes behind what was written, where the capacity has room for `need`. -/
def append (dcap : Nat) (out : Bytes) (need : Nat) (bytes : Bytes) : Option Bytes :=
  if dcap < out.length + need then none else some (out ++ bytes)

/-- The code lengths behind their size, of which the highest bit says that they are
    compressed.  Raw lengths ask for the room of `more` others behind them. -/
def putLens (dcap : Nat) (lens : List Nat) (more : Nat) (out : Bytes) : Option Bytes :=
  let cl := clEncode lens 2048
  if cl.length = 0 then
    append dcap out (2 + lens.length + more) (lePut 2 lens.length ++ lens.map UInt8.ofNat)
  else append dcap out (2 + cl.length) (lePut 2 (cl.length ||| 0x8000) ++ cl)

/-- The first `cnt` lengths. -/
def lensOf (c : HCodes) (cnt : Nat) : List Nat := (List.range cnt).map c.len

/-- The size of the source, where runs were shortened. -/
def putSize (dcap : Nat) (rle_on : Bool) (slen : Nat) (out : Bytes) : Option Bytes :=
  if rle_on then append dcap out 4 (lePut 4 slen) else some out

/-- What stands in front of the symbols; `none` is no room for it. -/
def lzhHeader (dcap : Nat) (rle_on : Bool) (slen : Nat) (c : Codes) : Option Bytes :=
  append dcap [] 1 [if rle_on then 1 else 0]
    |>.bind (putSize dcap rle_on slen)
    |>.bind (fun out => append dcap out 4 (lePut 2 c.ll_cnt ++ lePut 2 c.d_cnt))
    |>.bind (putLens dcap (lensOf c.ll c.ll_cnt) c.d_cnt)
    |>.bind (putLens dcap (lensOf c.d c.d_cnt) 0)

/-- `bw_put` of a code, if the symbol has one. -/
def putCode (cap : Nat) (c : HCodes) (cnt s : Nat) (w : BitWr) : BitWr :=
  if s < cnt ∧ 0 < c.len s then w.put cap (c.code s) (c.len s) else w

/-- `bw_put` of extra bits, if the code has some. -/
def putExtra (cap v n : Nat) (w : BitWr) : BitWr := if 0 < n then w.put cap v n else w

/-- A turn of the loop over the symbols. -/
def putSym (cap : Nat) (c : Codes) (sym : LzSym) (w : BitWr) : BitWr :=
  let w := putCode cap c.ll c.ll_cnt sym.litlen w
  if 257 ≤ sym.litlen ∧ sym.litlen ≤ 292 then
    let li := sym.litlen - 257
    let w := putExtra cap (sym.match_len - lenBase.getD li 0) (lenExtra.getD li 0) w
    let w := putCode cap c.d c.d_cnt sym.dist_code w
    putExtra cap (sym.match_dist - distBase.getD sym.dist_code 0) (distExtra.getD sym.dist_code 0) w
  else w

/-- The Huffman bitstream: what the capacity has room for. -/
def putSyms (cap : Nat) (c : Codes) (syms : List LzSym) : Bytes :=
  ((syms.foldl (fun w sym => putSym cap c sym w) ⟨0, 0, []⟩).flush cap).out

/-- `zupt_lzh_compress`: the bytes it leaves in `dst`, `none` where it returns 0. -/
def lzhCompress (a : Alloc) (src : Bytes) (dcap : Nat) (level : Int) : Option Bytes :=
  if src.length = 0 then none
  else
    let cfg := lzhConfig (max 1 (min level 9)).toNat
    let (lz_in, rle_on) := rlePrepare a.rle_buf src
    if a.ht && a.ch && a.syms then
      let syms := lzSyms lz_in cfg
      let c := buildCodes a syms
      match lzhHeader dcap rle_on (src.length % 2 ^ 32) c with
      | none => none
      | some hdr =>
          let out := hdr ++ putSyms (dcap - hdr.length) c syms
          if out.length < src.length then some out else none
    else none

/-! ## Decompression -/

/-- Which of the allocations of `zupt_lzh_decompress` succeed. -/
structure UnpackAlloc where
  ll_lut : Bool
  d_lut : Bool
  rle_tmp : Bool
  deriving DecidableEq, Repr

/-- A block of code lengths for `cnt` symbols of at most `most`: the lengths and
    the input behind them. -/
def readLens (cnt most : Nat) (s : Bytes) : Option ((Nat → Nat) × Bytes) :=
  if s.length < 2 then none
  else
    let hdr := leGet (s.take 2)
    let s := s.drop 2
    if 0x8000 ≤ hdr then
      let cl_len := hdr % 0x8000
      if s.length < cl_len then none
      else
        match clDecode cnt (s.take cl_len) 0 [] with
        | none => none
        | some lens => some (fun i => lens.getD i 0, s.drop cl_len)
    else if most < hdr ∨ s.length < hdr then none
    else if ∃ b ∈ s.take hdr, maxCodelen < b.toNat then none
    else some (fun i => ((s.take hdr).map UInt8.toNat).getD i 0, s.drop hdr)

/-- A match of the decoder: the reader behind it, its length and its distance. -/
def readMatch (d_lut : Nat → Option (Nat × Nat)) (li : Nat) (r : BitRd) :
    Option (BitRd × Nat × Nat) :=
  let extra := lenExtra.getD li 0
  let (more, r) := if 0 < extra then r.get extra else (0, r)
  let length := lenBase.getD li 0 + more
  match huffDec r d_lut with
  | none => none
  | some (dsym, r) =>
      if maxDist ≤ dsym then none
      else
        let extra := distExtra.getD dsym 0
        let (more, r) := if 0 < extra then r.get extra else (0, r)
        some (r, length, distBase.getD dsym 0 + more)

/-- A turn of the decoder over the reader and `out_buf[0..op)`; `none` is a
    `break`. -/
def unpackTurn (ll_lut d_lut : Nat → Option (Nat × Nat)) (out_cap : Nat) (r : BitRd)
    (out : Bytes) : Option (BitRd × Bytes) :=
  match huffDec r ll_lut with
  | none => none
  | some (sym, r) =>
      if maxLitlen ≤ sym then none
      else if sym < 256 then
        if out_cap ≤ out.length then none else some (r, out ++ [UInt8.ofNat sym])
      else if sym = 256 then none
      else if lenCodes ≤ sym - 257 then none
      else
        match readMatch d_lut (sym - 257) r with
        | none => none
        | some (r, length, distance) =>
            if distance = 0 ∨ out.length < distance ∨ out_cap < out.length + length then none
            else some (r, extend out distance length)

/-- The loop of the decoder.  Each turn that goes on makes a byte, so `out_cap + 1`
    turns are enough. -/
def unpackLoop (ll_lut d_lut : Nat → Option (Nat × Nat)) (out_cap : Nat) :
    (turns : Nat) → BitRd → (out : Bytes) → Bytes
  | 0, _, out => out
  | turns + 1, r, out =>
      match unpackTurn ll_lut d_lut out_cap r out with
      | none => out
      | some (r, out) => unpackLoop ll_lut d_lut out_cap turns r out

/-- `zupt_lzh_decompress` behind its flags. -/
def unpackBody (a : UnpackAlloc) (rle_on : Bool) (s : Bytes) (dlen : Nat) : Bytes :=
  if s.length < 4 then []
  else
    let ll_cnt := leGet (s.take 2)
    let d_cnt := leGet ((s.drop 2).take 2)
    if maxLitlen < ll_cnt ∨ maxDist < d_cnt then []
    else
      match readLens ll_cnt maxLitlen (s.drop 4) with
      | none => []
      | some (ll_lens, s) =>
          match readLens d_cnt maxDist s with
          | none => []
          | some (d_lens, s) =>
              if a.ll_lut && a.d_lut && (!rle_on || a.rle_tmp) then
                let out := unpackLoop (huffLut ll_lens ll_cnt) (huffLut d_lens d_cnt) dlen (dlen + 1)
                  (.init s) []
                if rle_on then (rleDecode dlen out []).getD [] else out
              else []

/-- `zupt_lzh_decompress`: what it leaves in `dst`. -/
def lzhDecompress (a : UnpackAlloc) (src : Bytes) (dlen : Nat) : Bytes :=
  if src.length < 5 then []
  else
    let rle_on := decide ((charAt src 0).toNat % 2 = 1)
    unpackBody a rle_on (src.drop (if rle_on then 5 else 1)) dlen

end Zupt.Lzh
