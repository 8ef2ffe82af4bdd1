import Zupt.VaptVupt.Tokens

/-! # The matcher

    Hash roots and chains of `vv_encoder.c`, the insertion of positions into them
    and the searches that walk them.  A position that a search finds is compared
    with the source before it counts; what the tables hold only decides where the
    search looks.

    Positions are `int32_t` in C; roots and links may be any such number, and one
    that is not a position in front of the search ends a walk. -/

namespace Zupt.VaptVupt

open Zupt.LittleEndian

/-! ## Reading the source -/

/-- The `n` bytes at `pos`. -/
def bytesAt (src : Bytes) (pos n : Nat) : Bytes := (src.drop pos).take n

/-- `memcpy` of four bytes at `pos` into a `uint32_t`. -/
def load32 (src : Bytes) (pos : Nat) : Nat := leGet (bytesAt src pos 4)

/-- The three bytes at `pos` in the low bits of a `uint32_t`. -/
def load24 (src : Bytes) (pos : Nat) : Nat := leGet (bytesAt src pos 3)

/-- `VV_HC_BITS`. -/
def hcBits : Nat := 18

/-- `hash5`: the top bits of a 64-bit product. -/
def hash5 (src : Bytes) (pos : Nat) : Nat :=
  leGet (bytesAt src pos 5) * 889523592379 % 2 ^ 64 / 2 ^ (64 - hcBits)

/-- `hash4`. -/
def hash4 (src : Bytes) (pos : Nat) : Nat := load32 src pos * 2654435761 % 2 ^ 32 / 2 ^ (32 - hcBits)

/-- `hash_safe`: five bytes where they are there, else four. -/
def hashSafe (src : Bytes) (pos remain : Nat) : Nat :=
  if 5 ≤ remain then hash5 src pos else hash4 src pos

/-- `hash4_short`, of `VV_HC4_BITS`. -/
def hash4Short (src : Bytes) (pos : Nat) : Nat := load32 src pos * 2654435761 % 2 ^ 32 / 2 ^ (32 - 16)

/-- `hash3_short`, of `VV_HC3_BITS`. -/
def hash3Short (src : Bytes) (pos : Nat) : Nat := load24 src pos * 2654435761 % 2 ^ 32 / 2 ^ (32 - 14)

/-- How many of the `n` bytes at `a` and at `b` agree from the front.  Of two
    words of eight bytes it is a third of the trailing zeros of their `xor`. -/
def agree (src : Bytes) : (a b n : Nat) → Nat
  | _, _, 0 => 0
  | a, b, n + 1 => if charAt src a = charAt src b then agree src (a + 1) (b + 1) n + 1 else 0

/-- The strides of `extend_match`, eight bytes each, and its last loop. -/
def extendStrides (src : Bytes) (a b max_len : Nat) : (turns len : Nat) → Nat
  | 0, len => len + agree src (a + len) (b + len) (max_len - len)
  | turns + 1, len =>
      if len + 8 ≤ max_len then
        let same := agree src (a + len) (b + len) 8
        if same < 8 then len + same else extendStrides src a b max_len turns (len + 8)
      else len + agree src (a + len) (b + len) (max_len - len)

/-- `extend_match`, in the baseline build without wider strides. -/
def extendMatch (src : Bytes) (a b max_len : Nat) : Nat :=
  if 8 ≤ max_len then
    let same := agree src a b 8
    if same < 8 then same else extendStrides src a b max_len max_len 8
  else extendStrides src a b max_len max_len 0

/-- `enc_ilog2`: the floor of the logarithm, of zero zero. -/
def encIlog2 (v : Nat) : Nat := Nat.log2 v

/-! ## Tables -/

/-- The 16-bit roots and links of a context for small inputs. -/
structure Roots16 where
  table16 : Nat → UInt16
  chain16 : Nat → UInt16

/-- `matcher_t`.  Where a table was not allocated its flag is off. -/
structure Matcher where
  table : Nat → Int
  chain : Nat → Int
  roots16 : Option Roots16
  table4 : Nat → Int
  hash4_chain : Nat → Int
  table3 : Nat → Int
  hash3_chain : Nat → Int
  chain_mask : Nat
  chain_depth : Nat
  rep : Fin 3 → Nat
  wlog : Nat
  use_hash4 : Bool
  use_hash3 : Bool
  single_probe : Bool
  max_match : Nat
  accel : Nat
  no_rep : Bool

/-- A cell written. -/
def put {α : Type} (f : Nat → α) (i : Nat) (x : α) : Nat → α := fun j => if j = i then x else f j

/-- What both insertions do: the position becomes the root of each of its
    hashes, of which `h` is the primary one, and its link the root that was
    there. -/
def Matcher.insertHashed (m : Matcher) (src : Bytes) (pos : Nat) (h : Nat) : Matcher :=
  match m.roots16 with
  | some r =>
      { m with
        roots16 := some
          { table16 := put r.table16 h (UInt16.ofNat pos)
            chain16 := put r.chain16 (pos &&& m.chain_mask) (r.table16 h) } }
  | none =>
      let h4 := hash4Short src pos
      let h3 := hash3Short src pos
      let cell := pos &&& m.chain_mask
      { m with
        chain := put m.chain cell (m.table h)
        table := put m.table h pos
        hash4_chain := if m.use_hash4 then put m.hash4_chain cell (m.table4 h4) else m.hash4_chain
        table4 := if m.use_hash4 then put m.table4 h4 pos else m.table4
        hash3_chain := if m.use_hash3 then put m.hash3_chain cell (m.table3 h3) else m.hash3_chain
        table3 := if m.use_hash3 then put m.table3 h3 pos else m.table3 }

/-- `matcher_insert_fast`, where five bytes are there. -/
def Matcher.insertFast (m : Matcher) (src : Bytes) (pos : Nat) : Matcher :=
  m.insertHashed src pos (hash5 src pos)

/-- `matcher_insert`. -/
def Matcher.insert (m : Matcher) (src : Bytes) (pos «end» : Nat) : Matcher :=
  if «end» < pos + 4 then m else m.insertHashed src pos (hashSafe src pos («end» - pos))

/-- Two matchers that differ in nothing but roots and links. -/
structure Matcher.SameSettings (m m' : Matcher) : Prop where
  chain_mask : m'.chain_mask = m.chain_mask
  chain_depth : m'.chain_depth = m.chain_depth
  rep : m'.rep = m.rep
  wlog : m'.wlog = m.wlog
  use_hash4 : m'.use_hash4 = m.use_hash4
  use_hash3 : m'.use_hash3 = m.use_hash3
  single_probe : m'.single_probe = m.single_probe
  max_match : m'.max_match = m.max_match
  accel : m'.accel = m.accel
  no_rep : m'.no_rep = m.no_rep

theorem Matcher.SameSettings.refl (m : Matcher) : m.SameSettings m :=
  ⟨rfl, rfl, rfl, rfl, rfl, rfl, rfl, rfl, rfl, rfl⟩

theorem Matcher.SameSettings.trans {m m' m'' : Matcher} (h : m.SameSettings m')
    (h' : m'.SameSettings m'') : m.SameSettings m'' where
  chain_mask := h'.chain_mask.trans h.chain_mask
  chain_depth := h'.chain_depth.trans h.chain_depth
  rep := h'.rep.trans h.rep
  wlog := h'.wlog.trans h.wlog
  use_hash4 := h'.use_hash4.trans h.use_hash4
  use_hash3 := h'.use_hash3.trans h.use_hash3
  single_probe := h'.single_probe.trans h.single_probe
  max_match := h'.max_match.trans h.max_match
  accel := h'.accel.trans h.accel
  no_rep := h'.no_rep.trans h.no_rep

theorem Matcher.insertHashed_same (m : Matcher) (src : Bytes) (pos h : Nat) :
    m.SameSettings (m.insertHashed src pos h) := by
  rw [Matcher.insertHashed]
  cases m.roots16 with
  | some r => exact ⟨rfl, rfl, rfl, rfl, rfl, rfl, rfl, rfl, rfl, rfl⟩
  | none => exact ⟨rfl, rfl, rfl, rfl, rfl, rfl, rfl, rfl, rfl, rfl⟩

theorem Matcher.insert_same (m : Matcher) (src : Bytes) (pos «end» : Nat) :
    m.SameSettings (m.insert src pos «end») := by
  rw [Matcher.insert]
  split
  · exact Matcher.SameSettings.refl m
  · exact m.insertHashed_same src pos _

/-! ## Searches -/

/-- The best match so far: its length, zero for none, and its distance. -/
structure Best where
  len : Nat
  off : Nat
  deriving DecidableEq, Repr

/-- The walk along a chain: while the link is a position of the window and the
    depth lasts, the position is looked at.  `look` also says whether the walk
    is over. -/
def walk (limit pos : Nat) (next : Nat → Int) (look : Nat → Best → Best × Bool) :
    (depth : Nat) → (ref : Int) → Best → Best
  | 0, _, best => best
  | depth + 1, ref, best =>
      if (limit : Int) ≤ ref ∧ ref < (pos : Int) then
        match look ref.toNat best with
        | (best, true) => best
        | (best, false) => walk limit pos next look depth (next ref.toNat) best
      else best

/-- The longest match a search may report at `pos`. -/
def Matcher.maxLen (m : Matcher) (pos «end» : Nat) : Nat := min («end» - pos) m.max_match

/-- `limit`: the first position of the window. -/
def Matcher.limit (m : Matcher) (pos : Nat) : Nat := pos - (2 ^ m.wlog - 1)

/-- A candidate of the hash5 or hash4 walk: the four bytes are compared, the
    match is extended, and a longer one is taken unless the bits of its distance
    outweigh the literals it saves. -/
def Matcher.look4 (m : Matcher) (src : Bytes) (pos «end» : Nat) (ref : Nat) (best : Best) :
    Best × Bool :=
  if load32 src pos = load32 src ref then
    let len := 4 + extendMatch src (pos + 4) (ref + 4) (m.maxLen pos «end» - 4)
    if best.len < len then
      if 4 ≤ best.len ∧ ((len - best.len) * 6 : Int) < encIlog2 (pos - ref) - encIlog2 best.off then
        (best, false)
      else (⟨len, pos - ref⟩, 256 ≤ len)
    else (best, false)
  else (best, false)

/-- A candidate of the hash3 walk; three bytes are worth no far distance. -/
def Matcher.look3 (m : Matcher) (src : Bytes) (pos «end» : Nat) (ref : Nat) (best : Best) :
    Best × Bool :=
  if load24 src pos = load24 src ref then
    let len := 3 + extendMatch src (pos + 3) (ref + 3) (m.maxLen pos «end» - 3)
    if len = 3 ∧ 4096 < pos - ref then (best, false)
    else if best.len < len then (⟨len, pos - ref⟩, 8 ≤ len)
    else (best, false)
  else (best, false)

/-- A candidate of the lean search: strictly longer is better. -/
def Matcher.lookLean (m : Matcher) (src : Bytes) (pos «end» : Nat) (ref : Nat) (best : Best) :
    Best × Bool :=
  if load32 src pos = load32 src ref then
    let len := 4 + extendMatch src (pos + 4) (ref + 4) (m.maxLen pos «end» - 4)
    if best.len < len then (⟨len, pos - ref⟩, 256 ≤ len) else (best, false)
  else (best, false)

/-- The hash5 walk of `chain_match_ex` and, where it found nothing, the hash4
    walk. -/
def Matcher.search4 (m : Matcher) (src : Bytes) (pos «end» : Nat) : Best :=
  let best := walk (m.limit pos) pos (fun ref => m.chain (ref &&& m.chain_mask))
    (m.look4 src pos «end») m.chain_depth (m.table (hashSafe src pos («end» - pos))) ⟨0, 0⟩
  if m.use_hash4 ∧ best.len = 0 then
    walk (m.limit pos) pos (fun ref => m.hash4_chain (ref &&& m.chain_mask))
      (m.look4 src pos «end») 8 (m.table4 (hash4Short src pos)) best
  else best

/-- The hash3 walk of `chain_match_ex`. -/
def Matcher.search3 (m : Matcher) (src : Bytes) (pos «end» : Nat) (best : Best) : Best :=
  walk (m.limit pos) pos (fun ref => m.hash3_chain (ref &&& m.chain_mask))
    (m.look3 src pos «end») 4 (m.table3 (hash3Short src pos)) best

/-- `chain_match`.  A match of 256 bytes ends the search at once, and the
    conditions of the later walks do not hold for it either. -/
def Matcher.chainMatch (m : Matcher) (src : Bytes) (pos «end» : Nat) : Best :=
  if «end» < pos + (if m.use_hash3 then 3 else 4) then ⟨0, 0⟩
  else
    let best := if pos + 4 ≤ «end» then m.search4 src pos «end» else ⟨0, 0⟩
    if m.use_hash3 ∧ best.len < 4 ∧ pos + 3 ≤ «end» then m.search3 src pos «end» best else best

/-- A 16-bit root or link; 0xffff is empty. -/
def link16 (v : UInt16) : Int := if v = 0xFFFF then -1 else v.toNat

/-- `single_probe_match`. -/
def Matcher.singleProbeMatch (m : Matcher) (src : Bytes) (pos «end» : Nat) : Best :=
  if «end» < pos + 4 then ⟨0, 0⟩
  else
    let h := hashSafe src pos («end» - pos)
    match m.roots16 with
    | some r =>
        walk (m.limit pos) pos (fun ref => link16 (r.chain16 (ref &&& m.chain_mask)))
          (m.lookLean src pos «end») m.chain_depth (link16 (r.table16 h)) ⟨0, 0⟩
    | none =>
        walk (m.limit pos) pos (fun ref => m.chain (ref &&& m.chain_mask))
          (m.lookLean src pos «end») m.chain_depth (m.table h) ⟨0, 0⟩

/-- An offset that was used before reaches `n` equal bytes. -/
def Matcher.repAgrees (m : Matcher) (src : Bytes) (pos n : Nat) (i : Fin 3) : Bool :=
  m.rep i ≠ 0 ∧ m.rep i ≤ pos ∧
    leGet (bytesAt src pos n) = leGet (bytesAt src (pos - m.rep i) n)

/-- `try_rep_match`: the index of the offset, the first that fits, and the
    length. -/
def Matcher.tryRepMatch (m : Matcher) (src : Bytes) (pos «end» : Nat) : Option (Fin 3 × Nat) :=
  match [0, 1, 2].find? (m.repAgrees src pos 4) with
  | some i =>
      some (i, 4 + extendMatch src (pos + 4) (pos - m.rep i + 4) (m.maxLen pos «end» - 4))
  | none =>
      if m.use_hash3 ∧ pos + 3 ≤ «end» then
        match [0, 1, 2].find? (m.repAgrees src pos 3) with
        | some i => some (i, 3)
        | none => none
      else none

/-- `update_rep`. -/
def Matcher.updateRep (m : Matcher) (offset : Nat) : Matcher :=
  if offset = m.rep 0 then m else { m with rep := ![offset, m.rep 0, m.rep 1] }

end Zupt.VaptVupt
