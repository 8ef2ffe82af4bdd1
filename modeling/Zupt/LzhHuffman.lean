import Zupt.VaptVupt.Huffman
import Zupt.CodeLengths
import Mathlib.Data.List.Sort

/-! # The Huffman code of Zupt-LZH

    `zupt_lzh.c`: the code of a histogram by a heap, with the depths clamped at 15
    bits and the surplus taken back by splitting shorter codes, and the table that
    decodes 15 bits at a time. -/

namespace Zupt.Lzh

open Zupt.Canonical Zupt.VaptVupt

/-- `LZH_MAX_CODELEN`. -/
def maxCodelen : Nat := 15

/-! ## The heap -/

/-- `hnode_t`. -/
structure HNode where
  f : Nat
  s : Int
  deriving DecidableEq, Repr

/-- An entry of the heap. -/
def nodeAt (h : List HNode) (i : Nat) : HNode := h.getD i ⟨0, 0⟩

/-- The exchange of two entries. -/
def exchange (h : List HNode) (i j : Nat) : List HNode :=
  (h.set i (nodeAt h j)).set j (nodeAt h i)

/-- The smallest of an entry and its children. -/
def smallest (h : List HNode) (i : Nat) : Nat :=
  let b := if 2 * i + 1 < h.length ∧ (nodeAt h (2 * i + 1)).f < (nodeAt h i).f then 2 * i + 1 else i
  if 2 * i + 2 < h.length ∧ (nodeAt h (2 * i + 2)).f < (nodeAt h b).f then 2 * i + 2 else b

/-- `h_down`.  The place of the entry grows, so the size of the heap is enough
    turns. -/
def hDown : (turns : Nat) → List HNode → (i : Nat) → List HNode
  | 0, h, _ => h
  | turns + 1, h, i =>
      let b := smallest h i
      if b = i then h else hDown turns (exchange h i b) b

/-- `h_up`.  The place of the entry falls, so the place is enough turns. -/
def hUp : (turns : Nat) → List HNode → (i : Nat) → List HNode
  | 0, h, _ => h
  | turns + 1, h, i =>
      if 0 < i then
        let p := (i - 1) / 2
        if (nodeAt h p).f ≤ (nodeAt h i).f then h else hUp turns (exchange h i p) p
      else h

/-- An entry is put behind the others and goes up. -/
def push (h : List HNode) (e : HNode) : List HNode := hUp h.length (h ++ [e]) h.length

/-- The first entry is taken, and the last one goes down in its place. -/
def pop : List HNode → HNode × List HNode
  | [] => (⟨0, 0⟩, [])
  | a :: rest =>
      match rest.getLast? with
      | none => (a, [])
      | some last => (a, hDown rest.length (last :: rest.dropLast) 0)

/-! ## The tree -/

/-- What the loop over the heap changes: `hp`, `L`, `R` and `ni`. -/
structure Forest where
  hp : List HNode
  l : Nat → Int
  r : Nat → Int
  ni : Nat

/-- A turn of the loop: the two cheapest entries become the children of the node
    `ni`, which stands in the heap as `-(ni + 1)`. -/
def Forest.join (t : Forest) : Forest :=
  let (a, hp) := pop t.hp
  let (b, hp) := pop hp
  { hp := push hp ⟨(a.f + b.f) % 2 ^ 32, -((t.ni : Int) + 1)⟩
    l := Function.update t.l t.ni a.s
    r := Function.update t.r t.ni b.s
    ni := t.ni + 1 }

/-- The loop while two entries are left. -/
def joinAll : (turns : Nat) → Forest → Forest
  | 0, t => t
  | turns + 1, t => if 1 < t.hp.length then joinAll turns t.join else t

/-- `tree_depths`.  A node has children of smaller numbers, so `ns` levels are
    enough. -/
def treeDepths (l r : Nat → Int) (ns : Nat) : (levels : Nat) → (nd : Int) → (depth : Nat) →
    (Nat → Nat) → (Nat → Nat)
  | 0, _, _, dp => dp
  | levels + 1, nd, depth, dp =>
      if 0 ≤ nd ∧ nd < ns then Function.update dp nd.toNat (min depth maxCodelen)
      else
        let x := (-nd - 1).toNat
        treeDepths l r ns levels (r x) (depth + 1)
          (treeDepths l r ns levels (l x) (depth + 1) dp)

/-- The symbols that occur. -/
def active (freq : Nat → Nat) (ns : Nat) : List Nat := (List.range ns).filter fun i => 0 < freq i

/-- The heap of the symbols that occur. -/
def leafHeap (freq : Nat → Nat) (ns : Nat) : List HNode :=
  (active freq ns).foldl (fun hp (i : Nat) => push hp ⟨freq i, i⟩) []

/-- The clamped depths of the tree. -/
def heapDepths (freq : Nat → Nat) (ns : Nat) : Nat → Nat :=
  let hp := leafHeap freq ns
  let t := joinAll hp.length ⟨hp, fun _ => 0, fun _ => 0, 0⟩
  if t.hp.length = 1 then treeDepths t.l t.r ns (ns + 1) (nodeAt t.hp 0).s 0 fun _ => 0
  else fun _ => 0

/-! ## The redistribution -/

/-- `lcount[b]`. -/
def lengthCount (dp : Nat → Nat) (ns b : Nat) : Nat := blCount dp b ns

/-- The integer Kraft sum. -/
def countsKraft (lcount : Nat → Nat) : Nat :=
  weigh (fun b => 2 ^ (maxCodelen - b)) lcount maxCodelen

/-- A code of length `bits` is split into two, and one of the longest is taken
    away. -/
def splitCode (lcount : Nat → Nat) (bits : Nat) : Nat → Nat :=
  let lcount := Function.update lcount bits (lcount bits - 1)
  let lcount := Function.update lcount (bits + 1) (lcount (bits + 1) + 2)
  Function.update lcount maxCodelen (lcount maxCodelen - 1)

/-- The loop while the sum is over its target by a surplus. -/
def splitLoop : (surplus : Nat) → (Nat → Nat) → (Nat → Nat)
  | 0, lcount => lcount
  | surplus + 1, lcount =>
      match deepest lcount (maxCodelen - 1) with
      | none => lcount
      | some bits => splitLoop surplus (splitCode lcount bits)

/-- The symbols with a code, the most frequent first. -/
def sorted (freq dp : Nat → Nat) (ns : Nat) : List Nat :=
  ((List.range ns).filter fun i => 0 < dp i).insertionSort fun a b => freq b ≤ freq a

/-- The lengths behind the redistribution, which needs `sorted` only where the
    depths are over-subscribed. -/
def redistribute (sorted_ok : Bool) (freq dp : Nat → Nat) (ns : Nat) : Nat → Nat :=
  let lcount := fun b => lengthCount dp ns b
  let target := 2 ^ maxCodelen
  if target < countsKraft lcount then
    if sorted_ok then
      give (sorted freq dp ns) (spread (splitLoop (countsKraft lcount - target) lcount) maxCodelen) dp
    else dp
  else dp

/-! ## Codes -/

/-- `nc[b]` at the start. -/
def nextCode (dp : Nat → Nat) (ns : Nat) : (b : Nat) → Nat
  | 0 => 0
  | b + 1 => (nextCode dp ns b + lengthCount dp ns b) * 2

/-- The codes counted out over the first `n` of `ns` symbols, and `nc`. -/
def countCodes (dp : Nat → Nat) (ns : Nat) : (n : Nat) → (Nat → Nat) × (Nat → Nat)
  | 0 => (fun _ => 0, nextCode dp ns)
  | n + 1 =>
      let st := countCodes dp ns n
      let len := dp n
      if 0 < len then
        (Function.update st.1 n (st.2 len % 2 ^ 16), Function.update st.2 len (st.2 len + 1))
      else st

/-- The loop that turns the bits of a code around, up to the bit `b`. -/
def turnBits (c bits : Nat) : (b : Nat) → Nat
  | 0 => 0
  | b + 1 => turnBits c bits b ||| ((c >>> b) % 2) <<< (bits - 1 - b)

/-- `hcode_t codes[ns]`. -/
structure HCodes where
  len : Nat → Nat
  code : Nat → Nat

/-- The codes of lengths. -/
def codesOf (dp : Nat → Nat) (ns : Nat) : HCodes where
  len i := if i < ns then dp i else 0
  code i := if i < ns ∧ 0 < dp i then turnBits ((countCodes dp ns ns).1 i) (dp i) (dp i) else 0

/-- Which of the allocations of `huff_build` succeed. -/
structure BuildAlloc where
  l : Bool
  r : Bool
  hp : Bool
  dp : Bool
  sorted : Bool
  deriving DecidableEq, Repr

/-- `huff_build`. -/
def huffBuild (a : BuildAlloc) (freq : Nat → Nat) (ns : Nat) : HCodes :=
  let none : HCodes := ⟨fun _ => 0, fun _ => 0⟩
  match active freq ns with
  | [] => none
  | [i] => ⟨Function.update (fun _ => 0) i 1, fun _ => 0⟩
  | _ =>
      if a.l && a.r && a.hp then
        if a.dp then codesOf (redistribute a.sorted freq (heapDepths freq ns) ns) ns else none
      else none

/-! ## The decoder's table -/

/-- The entries of a code; a symbol of -1 is none. -/
def fillLut (rev bits sym : Nat) (lut : Nat → Option (Nat × Nat)) :
    (fill : Nat) → (Nat → Option (Nat × Nat))
  | 0 => lut
  | j + 1 => Function.update (fillLut rev bits sym lut j) (rev ||| j <<< bits) (some (sym, bits))

/-- `huff_lut` over the first `n` of `ns` symbols.  Every caller checks that no
    length is over 15. -/
def lutOf (lengths : Nat → Nat) (ns : Nat) : (n : Nat) → (Nat → Option (Nat × Nat))
  | 0 => fun _ => none
  | n + 1 =>
      let lut := lutOf lengths ns n
      let bits := lengths n
      if bits = 0 ∨ maxCodelen < bits then lut
      else
        fillLut (turnBits ((countCodes lengths ns ns).1 n) bits bits) bits n lut
          (2 ^ (maxCodelen - bits))

/-- `huff_lut`. -/
def huffLut (lengths : Nat → Nat) (ns : Nat) : Nat → Option (Nat × Nat) := lutOf lengths ns ns

end Zupt.Lzh
