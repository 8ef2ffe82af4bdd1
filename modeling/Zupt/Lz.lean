import Zupt.VaptVupt.MatchSound

/-! # Zupt-LZ

    `zupt_lz.c`: tokens with a run of literals and a match each, found over hash
    chains, with one position of lazy matching from level 3 on. -/

namespace Zupt.Lz

open Zupt.LittleEndian Zupt.Window Zupt.VaptVupt

/-- `LZ_MIN_MATCH`. -/
def minMatch : Nat := 3

/-- `LZ_MAX_OFFSET`. -/
def maxOffset : Nat := 65535

/-- `LZ_HASH_BITS`. -/
def hashBits : Nat := 18

/-- `LZ_WINDOW_SIZE`. -/
def windowSize : Nat := 65535

/-- `lz_hash4`. -/
def lzHash4 (src : Bytes) (p : Nat) : Nat :=
  load32 src p * 2654435761 % 2 ^ 32 / 2 ^ (32 - hashBits)

/-! ## Extended lengths -/

/-- `lz_write_extra`, which stops at the capacity. -/
def lzWriteExtra : (cap len : Nat) → Bytes
  | 0, _ => []
  | cap + 1, len => if 255 ≤ len then 0xFF :: lzWriteExtra cap (len - 255) else [UInt8.ofNat len]

/-- `lz_read_extra`: the sum, and the input behind it; `none` is `(size_t)-1`.
    An input that ends within the length ends the length. -/
def lzReadExtra : (t : Nat) → Bytes → Option (Nat × Bytes)
  | t, [] => some (t, [])
  | t, b :: s =>
      if 0xFFFFFFFF - 255 < t then none
      else if b < 255 then some (t + b.toNat, s)
      else lzReadExtra (t + b.toNat) s

/-! ## The matcher -/

/-- `hash_table` and `chain`. -/
structure Tables where
  hash_table : Nat → Int
  chain : Nat → Int

/-- The tables behind `calloc` and the `memset` of the roots. -/
def Tables.fresh : Tables := ⟨fun _ => -1, fun _ => 0⟩

/-- `lz_insert_hash`; the position is cut to an `int32_t`. -/
def lzInsertHash (src : Bytes) (t : Tables) (ip : Nat) : Tables :=
  if ip + 4 ≤ src.length then
    let h := lzHash4 src ip
    ⟨Function.update t.hash_table h (Int.bmod ip (2 ^ 32)),
      Function.update t.chain (ip % windowSize) (t.hash_table h)⟩
  else t

/-- The candidate `ref` of `lz_find_match`; its flag ends the walk. -/
def lzLook (src : Bytes) (ip ref : Nat) (best : Best) : Best × Bool :=
  if best.len < src.length - ip ∧ charAt src (ref + best.len) = charAt src (ip + best.len) ∧
      charAt src ref = charAt src ip then
    let mlen := agree src ref ip (min (src.length - ip) 65535)
    if best.len < mlen then (⟨mlen, ip - ref⟩, decide (256 ≤ mlen)) else (best, false)
  else (best, false)

/-- `lz_find_match`.  A link that is negative, not in front of `ip` or too far
    behind it ends the walk. -/
def lzFindMatch (src : Bytes) (ip : Nat) (t : Tables) (max_chain : Nat) : Best :=
  if src.length < ip + 4 then ⟨0, 0⟩
  else
    let best := walk (ip - maxOffset) ip (fun ref => t.chain (ref % windowSize)) (lzLook src ip)
      max_chain (t.hash_table (lzHash4 src ip)) ⟨minMatch - 1, 0⟩
    if minMatch ≤ best.len then best else ⟨0, best.off⟩

/-! ## The compressor -/

/-- The `for` loop that inserts the positions of a match. -/
def lzInsertRange (src : Bytes) : (n : Nat) → (ip : Nat) → Tables → Tables
  | 0, _, t => t
  | n + 1, ip, t =>
      if ip + 4 ≤ src.length then lzInsertRange src n (ip + 1) (lzInsertHash src t ip) else t

/-- What the loop of `zupt_lz_compress` changes; `out` is `dst[0..op)`. -/
structure State where
  ip : Nat
  anchor : Nat
  out : Bytes
  tables : Tables

/-- The token, the literals with their extended length. -/
def putLits (src : Bytes) (dst_cap : Nat) (out : Bytes) (anchor lit_len tm : Nat) : Bytes :=
  let out := out ++ [UInt8.ofNat (min lit_len 15 * 16 + tm)]
  let out := if 15 ≤ lit_len then out ++ lzWriteExtra (dst_cap - out.length) (lit_len - 15) else out
  out ++ bytesAt src anchor lit_len

/-- A sequence: the literals from `anchor` to `ip`, and the match behind them. -/
def putSeq (src : Bytes) (dst_cap : Nat) (out : Bytes) (anchor ip : Nat) (m : Best) :
    Option Bytes :=
  let lit_len := ip - anchor
  let match_extra := m.len - minMatch
  if dst_cap < out.length + 1 + lit_len / 255 + 1 + lit_len + 2 + match_extra / 255 + 1 then none
  else
    let out := putLits src dst_cap out anchor lit_len (min match_extra 15)
    let out := out ++ lePut 2 m.off
    some (if 15 ≤ match_extra then out ++ lzWriteExtra (dst_cap - out.length) (match_extra - 15)
      else out)

/-- Where the match begins and what it is: at `ip`, or at the next position where
    that is better.  The look at the next position inserts this one. -/
def lzChoose (src : Bytes) (max_chain : Nat) (lazy : Bool) (ip : Nat) (t : Tables) (m : Best) :
    Nat × Best × Tables :=
  if lazy ∧ ip + 1 + minMatch ≤ src.length then
    let t := lzInsertHash src t ip
    let next := lzFindMatch src (ip + 1) t max_chain
    if m.len + 1 < next.len then (ip + 1, next, t) else (ip, m, t)
  else (ip, m, t)

/-- A turn of the loop; `none` is its `return 0`. -/
def lzTurn (src : Bytes) (dst_cap max_chain : Nat) (lazy : Bool) (s : State) : Option State :=
  let m := lzFindMatch src s.ip s.tables max_chain
  if m.len = 0 then
    some { s with ip := s.ip + 1, tables := lzInsertHash src s.tables s.ip }
  else
    let (ip, m, t) := lzChoose src max_chain lazy s.ip s.tables m
    match putSeq src dst_cap s.out s.anchor ip m with
    | none => none
    | some out =>
        let t := if lazy then t else lzInsertHash src t ip
        some ⟨ip + m.len, ip + m.len, out, lzInsertRange src (m.len - 1) (ip + 1) t⟩

/-- The loop of `zupt_lz_compress`.  Each turn moves `ip`, so `src_len` turns are
    enough. -/
def lzLoop (src : Bytes) (dst_cap max_chain : Nat) (lazy : Bool) :
    (turns : Nat) → State → Option State
  | 0, s => some s
  | turns + 1, s =>
      if s.ip + minMatch ≤ src.length then
        match lzTurn src dst_cap max_chain lazy s with
        | none => none
        | some s => lzLoop src dst_cap max_chain lazy turns s
      else some s

/-- The final literals. -/
def putLast (src : Bytes) (dst_cap : Nat) (s : State) : Option Bytes :=
  let lit_len := src.length - s.anchor
  if dst_cap < s.out.length + 1 + lit_len / 255 + 1 + lit_len then none
  else some (putLits src dst_cap s.out s.anchor lit_len 0)

/-- `zupt_lz_compress`: the bytes it leaves in `dst`, `none` where it returns 0.
    `allocated` says whether both tables could be allocated. -/
def zuptLzCompress (src : Bytes) (dst_cap : Nat) (level : Int) (allocated : Bool) : Option Bytes :=
  if src.length = 0 then none
  else
    let level := (max 1 (min level 9)).toNat
    let max_chain := 4 + level * level * 3
    if allocated then
      match lzLoop src dst_cap max_chain (decide (3 ≤ level)) src.length ⟨0, 0, [], .fresh⟩ with
      | none => none
      | some s => putLast src dst_cap s
    else none

/-! ## The decompressor -/

/-- A length nibble with its extension. -/
def lzReadLen (nibble init : Nat) (s : Bytes) : Option (Nat × Bytes) :=
  if nibble = 15 then lzReadExtra (15 + init) s else some (nibble + init, s)

/-- The literals of a token; `none` is `return 0`. -/
def takeLits (dst_len lit_len : Nat) (s out : Bytes) : Option (Bytes × Bytes) :=
  if 0 < lit_len then
    if s.length < lit_len ∨ dst_len < out.length + lit_len then none
    else some (s.drop lit_len, out ++ s.take lit_len)
  else some (s, out)

/-- The match of a token. -/
def takeMatch (dst_len match_code : Nat) (s out : Bytes) : Option (Bytes × Bytes) :=
  if s.length < 2 then none
  else
    let offset := leGet (s.take 2)
    if offset = 0 ∨ out.length < offset then none
    else
      match lzReadLen match_code minMatch (s.drop 2) with
      | none => none
      | some (match_len, s) =>
          if dst_len < out.length + match_len then none
          else some (s, extend out offset match_len)

/-- The loop of `zupt_lz_decompress` over the unread input and `dst[0..op)`. -/
def lzUnpack (dst_len : Nat) : (turns : Nat) → (s out : Bytes) → Option Bytes
  | 0, _, out => some out
  | _ + 1, [], out => some out
  | turns + 1, token :: s, out =>
      match lzReadLen (token.toNat / 16) 0 s with
      | none => none
      | some (lit_len, s) =>
          match takeLits dst_len lit_len s out with
          | none => none
          | some (s, out) =>
              if s.length = 0 then some out
              else
                match takeMatch dst_len (token.toNat % 16) s out with
                | none => none
                | some (s, out) => lzUnpack dst_len turns s out

/-- `zupt_lz_decompress`: the bytes it leaves in `dst`, `none` where it gives up.
    Each turn takes a token, so `src_len` turns are enough. -/
def zuptLzDecompress (src : Bytes) (dst_len : Nat) : Option Bytes :=
  lzUnpack dst_len src.length src []

end Zupt.Lz
