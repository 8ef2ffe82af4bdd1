import Zupt.VaptVupt.Frame
import Zupt.Memory

/-! # The Huffman decoders

    `vv_huffman.c`: the code lengths of a header, the decode table over them,
    and the decoders of one stream and of four.  The table is storage as the
    allocator hands it out: its fast half is cleared first, and of the arrays of
    long codes only what was counted is read. -/

namespace Zupt.VaptVupt

open Zupt.LittleEndian Zupt.Memory

/-! ## Bits -/

/-- `br_t`: the accumulator, the bits in it and the bytes from `pos` on. -/
structure HuffBr where
  bits : Nat
  nbits : Int
  s : Bytes
  pos : Nat

/-- `br_init`. -/
def huffBrInit (src : Bytes) : HuffBr := ⟨0, 0, src, 0⟩

/-- The loop of `br_refill` near the end of the stream. -/
def huffRefillTail : (s : Bytes) → (bits : Nat) → (nbits : Int) → (pos : Nat) → HuffBr
  | [], bits, nbits, pos => ⟨bits, nbits, [], pos⟩
  | b :: s, bits, nbits, pos =>
      if nbits ≤ 56 then
        huffRefillTail s (bits ||| b.toNat <<< nbits.toNat) (nbits + 8) (pos + 1)
      else ⟨bits, nbits, b :: s, pos⟩

/-- `br_refill`. -/
def huffRefill (r : HuffBr) : HuffBr :=
  if 8 ≤ r.s.length then
    let absorbed := (63 - r.nbits).toNat / 8
    ⟨r.bits ||| (leGet (r.s.take 8) % 2 ^ (absorbed * 8)) <<< r.nbits.toNat,
      r.nbits + absorbed * 8, r.s.drop absorbed, r.pos + absorbed⟩
  else huffRefillTail r.s r.bits r.nbits r.pos

/-- `br_peek`. -/
def huffPeek (r : HuffBr) (n : Nat) : Nat := r.bits % 2 ^ n

/-- `br_consume`. -/
def huffConsume (r : HuffBr) (n : Nat) : HuffBr := ⟨r.bits / 2 ^ n, r.nbits - n, r.s, r.pos⟩

/-! ## Codes -/

/-- `VVH_DECODE_BITS`. -/
def huffDecodeBits : Nat := 12

/-- `VVH_MAX_CODE_LEN`. -/
def huffMaxCodeLen : Nat := 15

/-- The code lengths of a header, `uint8_t lengths[VVH_SYMBOLS]`. -/
abbrev CodeLengths := Nat → Nat

/-- `read_header`: the size of the header and its lengths; `none` is 0. -/
def readHeader (src : Bytes) : Option (Nat × CodeLengths) :=
  if src.length < 1 then none
  else
    let max_sym := (charAt src 0).toNat
    let hdr_size := 1 + (max_sym + 2) / 2
    if src.length < hdr_size then none
    else some (hdr_size, fun i =>
      if max_sym < i then 0
      else
        let packed := (charAt src (1 + i / 2)).toNat
        if i % 2 = 0 then packed / 16 else packed % 16)

/-- Whether one of the first `n` symbols has a code. -/
def hasSym (lengths : CodeLengths) : (n : Nat) → Bool
  | 0 => false
  | n + 1 => hasSym lengths n || decide (0 < lengths n)

/-- `bl_count[len]` over the first `n` symbols. -/
def blCount (lengths : CodeLengths) (len : Nat) : (n : Nat) → Nat
  | 0 => 0
  | n + 1 => blCount lengths len n + if 0 < lengths n ∧ lengths n = len then 1 else 0

/-- `next_code[bits]` at the start. -/
def firstCode (lengths : CodeLengths) : (bits : Nat) → Nat
  | 0 => 0
  | bits + 1 => (firstCode lengths bits + blCount lengths bits 256) * 2 % 65536

/-- `assign_canonical_codes` over the first `n` symbols: their codes, and the
    next one of each length. -/
def canonicalCodes (lengths : CodeLengths) : (n : Nat) → (Nat → Nat) × (Nat → Nat)
  | 0 => (fun _ => 0, firstCode lengths)
  | n + 1 =>
      let st := canonicalCodes lengths n
      let len := lengths n
      if 0 < len then
        (Function.update st.1 n (st.2 len), Function.update st.2 len ((st.2 len + 1) % 65536))
      else (Function.update st.1 n 0, st.2)

/-- `reverse_bits`. -/
def reverseBits : (len : Nat) → (code rev : Nat) → Nat
  | 0, _, rev => rev
  | len + 1, code, rev => reverseBits len (code / 2) (((rev <<< 1) ||| (code % 2)) % 65536)

/-! ## The decode table -/

/-- `vvh_dec_table_t`. -/
structure HuffTable where
  table : Mem Nat
  slow_count : Nat
  slow_code : Mem Nat
  slow_len : Mem Nat
  slow_sym : Mem UInt8

/-- The first `fill` entries of a short code. -/
def fillFast (rev len sym : Nat) (table : Mem Nat) : (fill : Nat) → Mem Nat
  | 0 => table
  | j + 1 =>
      Function.update (fillFast rev len sym table j) (rev ||| j <<< len) (sym ||| len <<< 8)

/-- The turn of `build_dec_table` for a symbol. -/
def addCode (dec : HuffTable) (sym len rev : Nat) : HuffTable :=
  if len = 0 then dec
  else if len ≤ huffDecodeBits then
    { dec with table := fillFast rev len sym dec.table (2 ^ (huffDecodeBits - len)) }
  else
    { dec with
      slow_count := dec.slow_count + 1
      slow_code := Function.update dec.slow_code dec.slow_count rev
      slow_len := Function.update dec.slow_len dec.slow_count len
      slow_sym := Function.update dec.slow_sym dec.slow_count (UInt8.ofNat sym) }

/-- `build_dec_table` over the first `n` symbols. -/
def addCodes (lengths : CodeLengths) (dec : HuffTable) : (n : Nat) → HuffTable
  | 0 => dec
  | n + 1 =>
      addCode (addCodes lengths dec n) n (lengths n)
        (reverseBits (lengths n) ((canonicalCodes lengths 256).1 n) 0)

/-- `build_dec_table`. -/
def buildDecTable (lengths : CodeLengths) (dec : HuffTable) : HuffTable :=
  addCodes lengths
    { dec with
      table := fun i => if i < 2 ^ huffDecodeBits then 0 else dec.table i
      slow_count := 0 } 256

/-! ## Symbols -/

/-- The linear scan of the long codes from place `s` on, of which `left` are
    left; `checked` is whether the bits must be there. -/
def slowScan (checked : Bool) (dec : HuffTable) (r : HuffBr) :
    (left s : Nat) → Option (UInt8 × HuffBr)
  | 0, _ => none
  | left + 1, s =>
      let slen := dec.slow_len s
      if (checked → (slen : Int) ≤ r.nbits) ∧ huffPeek r slen = dec.slow_code s then
        some (dec.slow_sym s, huffConsume r slen)
      else slowScan checked dec r left (s + 1)

/-- A symbol from the accumulator: by the table, or by the scan. -/
def huffSymbol (checked : Bool) (dec : HuffTable) (r : HuffBr) : Option (UInt8 × HuffBr) :=
  let entry := dec.table (huffPeek r huffDecodeBits)
  let len := (entry >>> 8) % 16
  if 0 < len then
    if checked ∧ r.nbits < len then none
    else some (UInt8.ofNat (entry % 256), huffConsume r len)
  else slowScan checked dec r dec.slow_count 0

/-- `DEC_ONE`, and a turn of the loop of `vvh_decode_impl`. -/
def decOne (dec : HuffTable) (r : HuffBr) : Option (UInt8 × HuffBr) :=
  huffSymbol true dec (if r.nbits < huffMaxCodeLen then huffRefill r else r)

/-- `DEC_ONE_NR`. -/
def decOneNr (dec : HuffTable) (r : HuffBr) : Option (UInt8 × HuffBr) := huffSymbol false dec r

/-! ## One stream -/

/-- The loop of `vvh_decode_impl`. -/
def huffLoop (dec : HuffTable) : (n : Nat) → HuffBr → Option (Bytes × HuffBr)
  | 0, r => some ([], r)
  | n + 1, r =>
      match decOne dec r with
      | none => none
      | some (sym, r) =>
          match huffLoop dec n r with
          | none => none
          | some (out, r) => some (sym :: out, r)

/-- What was consumed, without the bytes still in the accumulator. -/
def huffConsumed (hdr_sz : Nat) (r : HuffBr) : Nat :=
  let consumed := hdr_sz + r.pos
  if 8 ≤ r.nbits then
    let excess := r.nbits.toNat / 8
    if excess ≤ consumed then consumed - excess else consumed
  else consumed

/-- `vvh_decode_impl` behind its header. -/
def vvhDecodeBody (workspace : HuffTable) (lengths : CodeLengths) (src : Bytes)
    (hdr_sz num_literals : Nat) : Except VvError (Bytes × Nat) :=
  match huffLoop (buildDecTable lengths workspace) num_literals
      (huffRefill (huffBrInit (src.drop hdr_sz))) with
  | none => .error .corrupt
  | some (out, r) => .ok (out, huffConsumed hdr_sz r)

/-- The start that both Huffman decoders share. -/
def vvhDecodeWith
    (body : HuffTable → CodeLengths → Bytes → (hdr_sz n : Nat) → Except VvError (Bytes × Nat))
    (workspace : HuffTable) (src : Bytes) (dst_cap num_literals : Nat) :
    Except VvError (Bytes × Nat) :=
  if num_literals = 0 then .ok ([], 0)
  else if dst_cap < num_literals then .error .overflow
  else
    match readHeader src with
    | none => .error .corrupt
    | some (hdr_sz, lengths) =>
        if hasSym lengths 256 then body workspace lengths src hdr_sz num_literals
        else .error .corrupt

/-- `vvh_decode_impl`: the literals and the bytes consumed. -/
def vvhDecode (workspace : HuffTable) (src : Bytes) (dst_cap num_literals : Nat) :
    Except VvError (Bytes × Nat) :=
  vvhDecodeWith vvhDecodeBody workspace src dst_cap num_literals

/-! ## Four streams -/

/-- Four readers. -/
structure HuffLanes where
  r0 : HuffBr
  r1 : HuffBr
  r2 : HuffBr
  r3 : HuffBr

/-- A symbol of each lane. -/
def HuffLanes.quad (one : HuffBr → Option (UInt8 × HuffBr)) (l : HuffLanes) :
    Option (Bytes × HuffLanes) :=
  match one l.r0, one l.r1, one l.r2, one l.r3 with
  | some (y0, r0), some (y1, r1), some (y2, r2), some (y3, r3) =>
      some ([y0, y1, y2, y3], ⟨r0, r1, r2, r3⟩)
  | _, _, _, _ => none

/-- `n` quads. -/
def HuffLanes.quads (one : HuffBr → Option (UInt8 × HuffBr)) :
    (n : Nat) → HuffLanes → Option (Bytes × HuffLanes)
  | 0, l => some ([], l)
  | n + 1, l =>
      match l.quad one with
      | none => none
      | some (out, l) =>
          match HuffLanes.quads one n l with
          | none => none
          | some (more, l) => some (out ++ more, l)

/-- The condition of the rounds without refill checks. -/
def HuffLanes.bulk (l : HuffLanes) : Bool :=
  8 ≤ l.r0.s.length && 8 ≤ l.r1.s.length && 8 ≤ l.r2.s.length && 8 ≤ l.r3.s.length

/-- A refill of all lanes. -/
def HuffLanes.refill (l : HuffLanes) : HuffLanes :=
  ⟨huffRefill l.r0, huffRefill l.r1, huffRefill l.r2, huffRefill l.r3⟩

/-- The rounds of three quads for each refill: their output, the quads that are
    left and the lanes. -/
def fastRounds (dec : HuffTable) : (left : Nat) → HuffLanes → Option (Bytes × Nat × HuffLanes)
  | left + 3, l =>
      if l.bulk then
        match HuffLanes.quads (decOneNr dec) 3 l.refill with
        | none => none
        | some (out, l) =>
            match fastRounds dec left l with
            | none => none
            | some (more, left, l) => some (out ++ more, left, l)
      else some ([], left + 3, l)
  | left, l => some ([], left, l)

/-- The last symbols, one of each of the first `tail` lanes. -/
def huffTail (dec : HuffTable) : (tail : Nat) → List HuffBr → Option Bytes
  | 0, _ => some []
  | _ + 1, [] => none
  | tail + 1, r :: lanes =>
      match decOne dec r with
      | none => none
      | some (y, _) =>
          match huffTail dec tail lanes with
          | none => none
          | some out => some (y :: out)

/-- The hot loops of `vvh_decode4_impl`. -/
def huffLanesLoop (dec : HuffTable) (n : Nat) (l : HuffLanes) : Option Bytes :=
  match fastRounds dec (n / 4) l with
  | none => none
  | some (out, left, l) =>
      match HuffLanes.quads (decOne dec) left l with
      | none => none
      | some (more, l) =>
          match huffTail dec (n % 4) [l.r0, l.r1, l.r2, l.r3] with
          | none => none
          | some tail => some (out ++ more ++ tail)

/-- A 24-bit stream size. -/
def u24At (s : Bytes) (pos : Nat) : Nat := leGet ((s.drop pos).take 3)

/-- `vvh_decode4_impl` behind its header: three stream sizes, of which the
    first one follows, and four streams. -/
def vvhDecode4Body (workspace : HuffTable) (lengths : CodeLengths) (src : Bytes)
    (hdr_sz num_literals : Nat) : Except VvError (Bytes × Nat) :=
  if src.length < hdr_sz + 9 then .error .corrupt
  else
    let s1 := u24At src hdr_sz
    let s2 := u24At src (hdr_sz + 3)
    let s3 := u24At src (hdr_sz + 6)
    let streams := src.drop (hdr_sz + 9)
    if streams.length < s1 + s2 + s3 then .error .corrupt
    else
      let s0 := streams.length - s1 - s2 - s3
      if 4 ≤ num_literals ∧ (s0 = 0 ∨ s1 = 0 ∨ s2 = 0 ∨ s3 = 0) then .error .corrupt
      else
        let lane (start len : Nat) : HuffBr :=
          huffRefill (huffBrInit ((streams.drop start).take len))
        match huffLanesLoop (buildDecTable lengths workspace) num_literals
            ⟨lane 0 s0, lane s0 s1, lane (s0 + s1) s2, lane (s0 + s1 + s2) s3⟩ with
        | none => .error .corrupt
        | some out => .ok (out, hdr_sz + 9 + s0 + s1 + s2 + s3)

/-- `vvh_decode4_impl`. -/
def vvhDecode4 (workspace : HuffTable) (src : Bytes) (dst_cap num_literals : Nat) :
    Except VvError (Bytes × Nat) :=
  vvhDecodeWith vvhDecode4Body workspace src dst_cap num_literals

/-! ## Lengths -/

theorem huffLoop_length {dec : HuffTable} {n : Nat} {r r' : HuffBr} {out : Bytes}
    (h : huffLoop dec n r = some (out, r')) : out.length = n := by
  induction n generalizing r out r' with
  | zero =>
      obtain ⟨rfl, -⟩ := Prod.mk.inj (Option.some.inj h)
      rfl
  | succ n ih =>
      rw [huffLoop] at h
      split at h
      · cases h
      · split at h
        · cases h
        · rename_i rest r'' hrest
          obtain ⟨rfl, -⟩ := Prod.mk.inj (Option.some.inj h)
          rw [List.length_cons, ih hrest]

theorem HuffLanes.quad_length {one : HuffBr → Option (UInt8 × HuffBr)} {l l' : HuffLanes}
    {out : Bytes} (h : l.quad one = some (out, l')) : out.length = 4 := by
  rw [HuffLanes.quad] at h
  split at h
  · obtain ⟨rfl, -⟩ := Prod.mk.inj (Option.some.inj h)
    rfl
  · cases h

theorem HuffLanes.quads_length {one : HuffBr → Option (UInt8 × HuffBr)} {n : Nat}
    {l l' : HuffLanes} {out : Bytes} (h : HuffLanes.quads one n l = some (out, l')) :
    out.length = 4 * n := by
  induction n generalizing l out l' with
  | zero =>
      obtain ⟨rfl, -⟩ := Prod.mk.inj (Option.some.inj h)
      rfl
  | succ n ih =>
      rw [HuffLanes.quads] at h
      split at h
      · cases h
      · rename_i first l1 hfirst
        split at h
        · cases h
        · rename_i more l2 hmore
          obtain ⟨rfl, -⟩ := Prod.mk.inj (Option.some.inj h)
          rw [List.length_append, HuffLanes.quad_length hfirst, ih hmore]
          omega

theorem fastRounds_length {dec : HuffTable} {left left' : Nat} {l l' : HuffLanes} {out : Bytes}
    (h : fastRounds dec left l = some (out, left', l')) : out.length + 4 * left' = 4 * left := by
  induction left using Nat.strong_induction_on generalizing l out left' l' with
  | _ left ih =>
      have hstop : (some ([], left, l) : Option (Bytes × Nat × HuffLanes)) = some (out, left', l') →
          out.length + 4 * left' = 4 * left := by
        intro h
        obtain ⟨rfl, hrest⟩ := Prod.mk.inj (Option.some.inj h)
        obtain ⟨rfl, -⟩ := Prod.mk.inj hrest
        rw [List.length_nil, Nat.zero_add]
      match left, ih, hstop with
      | 0, _, hstop => exact hstop h
      | 1, _, hstop => exact hstop h
      | 2, _, hstop => exact hstop h
      | left + 3, ih, hstop =>
          rw [fastRounds] at h
          by_cases hbulk : l.bulk = true
          · rw [if_pos hbulk] at h
            split at h
            · cases h
            rename_i first l1 hfirst
            split at h
            · cases h
            · rename_i more left'' l2 hmore
              obtain ⟨rfl, hrest⟩ := Prod.mk.inj (Option.some.inj h)
              obtain ⟨rfl, -⟩ := Prod.mk.inj hrest
              have hthree := HuffLanes.quads_length hfirst
              have hmore' := ih left (by omega) hmore
              rw [List.length_append]
              omega
          · rw [if_neg hbulk] at h
            exact hstop h

theorem huffTail_length {dec : HuffTable} {tail : Nat} {lanes : List HuffBr} {out : Bytes}
    (h : huffTail dec tail lanes = some out) : out.length = tail := by
  induction tail generalizing lanes out with
  | zero =>
      obtain rfl := Option.some.inj h
      rfl
  | succ tail ih =>
      cases lanes with
      | nil => cases h
      | cons r lanes =>
          rw [huffTail] at h
          split at h
          · cases h
          · split at h
            · cases h
            · rename_i rest hrest
              obtain rfl := Option.some.inj h
              rw [List.length_cons, ih hrest]

theorem huffLanesLoop_length {dec : HuffTable} {n : Nat} {l : HuffLanes} {out : Bytes}
    (h : huffLanesLoop dec n l = some out) : out.length = n := by
  rw [huffLanesLoop] at h
  split at h
  · cases h
  rename_i first left l1 hfirst
  split at h
  · cases h
  rename_i more l2 hmore
  split at h
  · cases h
  · rename_i tail htail
    obtain rfl := Option.some.inj h
    have hrounds := fastRounds_length hfirst
    rw [List.length_append, List.length_append, HuffLanes.quads_length hmore,
      huffTail_length htail]
    omega

theorem vvhDecodeWith_length
    {body : HuffTable → CodeLengths → Bytes → (hdr_sz n : Nat) → Except VvError (Bytes × Nat)}
    (hbody : ∀ {dec lengths src hdr_sz n out consumed},
      body dec lengths src hdr_sz n = .ok (out, consumed) → out.length = n)
    {workspace : HuffTable} {src : Bytes} {dst_cap n : Nat} {out : Bytes} {consumed : Nat}
    (h : vvhDecodeWith body workspace src dst_cap n = .ok (out, consumed)) : out.length = n := by
  rw [vvhDecodeWith] at h
  by_cases hn : n = 0
  · rw [if_pos hn] at h
    obtain ⟨rfl, -⟩ := Prod.mk.inj (Except.ok.inj h)
    exact hn.symm
  rw [if_neg hn] at h
  split at h
  · cases h
  split at h
  · cases h
  split at h
  · exact hbody h
  · cases h

theorem vvhDecode_length {workspace : HuffTable} {src : Bytes} {dst_cap n : Nat} {out : Bytes}
    {consumed : Nat} (h : vvhDecode workspace src dst_cap n = .ok (out, consumed)) :
    out.length = n := by
  refine vvhDecodeWith_length ?_ h
  intro dec lengths src hdr_sz n out consumed h
  rw [vvhDecodeBody] at h
  split at h
  · cases h
  · rename_i out' r hloop
    obtain ⟨rfl, -⟩ := Prod.mk.inj (Except.ok.inj h)
    exact huffLoop_length hloop

theorem vvhDecode4_length {workspace : HuffTable} {src : Bytes} {dst_cap n : Nat} {out : Bytes}
    {consumed : Nat} (h : vvhDecode4 workspace src dst_cap n = .ok (out, consumed)) :
    out.length = n := by
  refine vvhDecodeWith_length ?_ h
  intro dec lengths src hdr_sz n out consumed h
  rw [vvhDecode4Body] at h
  split at h
  · cases h
  dsimp only at h
  split at h
  · cases h
  split at h
  · cases h
  split at h
  · cases h
  · rename_i out' hloop
    obtain ⟨rfl, -⟩ := Prod.mk.inj (Except.ok.inj h)
    exact huffLanesLoop_length hloop

/-! ## The storage of the table -/

/-- Two tables agree where they are read. -/
structure HuffTable.Agree (a b : HuffTable) : Prop where
  table : ∀ i, i < 2 ^ huffDecodeBits → a.table i = b.table i
  slow_count : a.slow_count = b.slow_count
  slow_code : ∀ i, i < a.slow_count → a.slow_code i = b.slow_code i
  slow_len : ∀ i, i < a.slow_count → a.slow_len i = b.slow_len i
  slow_sym : ∀ i, i < a.slow_count → a.slow_sym i = b.slow_sym i

section Storage

variable {a b : HuffTable}

theorem fillFast_agree {t t' : Mem Nat} (h : ∀ i, i < 2 ^ huffDecodeBits → t i = t' i)
    (rev len sym fill : Nat) :
    ∀ i, i < 2 ^ huffDecodeBits → fillFast rev len sym t fill i = fillFast rev len sym t' fill i := by
  induction fill with
  | zero => exact h
  | succ j ih =>
      intro i hi
      rw [fillFast, fillFast]
      by_cases hsame : i = rev ||| j <<< len
      · rw [hsame, Function.update_self, Function.update_self]
      · rw [Function.update_of_ne hsame, Function.update_of_ne hsame, ih i hi]

/-- A cell is added behind the counted ones of both. -/
theorem update_agree {α : Type} {f g : Mem α} {n : Nat} (h : ∀ i, i < n → f i = g i) (x : α) :
    ∀ i, i < n + 1 → Function.update f n x i = Function.update g n x i := by
  intro i hi
  by_cases hsame : i = n
  · rw [hsame, Function.update_self, Function.update_self]
  · rw [Function.update_of_ne hsame, Function.update_of_ne hsame, h i (by omega)]

theorem addCode_agree (h : a.Agree b) (sym len rev : Nat) :
    (addCode a sym len rev).Agree (addCode b sym len rev) := by
  rw [addCode, addCode]
  by_cases hzero : len = 0
  · rw [if_pos hzero, if_pos hzero]
    exact h
  rw [if_neg hzero, if_neg hzero]
  by_cases hshort : len ≤ huffDecodeBits
  · rw [if_pos hshort, if_pos hshort]
    exact ⟨fillFast_agree h.table rev len sym _, h.slow_count, h.slow_code, h.slow_len,
      h.slow_sym⟩
  · rw [if_neg hshort, if_neg hshort, ← h.slow_count]
    exact ⟨h.table, rfl, update_agree h.slow_code rev, update_agree h.slow_len len,
      update_agree h.slow_sym _⟩

theorem buildDecTable_agree (lengths : CodeLengths) (a b : HuffTable) :
    (buildDecTable lengths a).Agree (buildDecTable lengths b) := by
  have hcodes : ∀ {a b : HuffTable}, a.Agree b → ∀ n,
      (addCodes lengths a n).Agree (addCodes lengths b n) := by
    intro a b h n
    induction n with
    | zero => exact h
    | succ n ih => exact addCode_agree ih _ _ _
  rw [buildDecTable, buildDecTable]
  apply hcodes
  refine ⟨?_, rfl, ?_, ?_, ?_⟩
  · intro i hi
    simp [hi]
  · intro i hi
    exact absurd hi (Nat.not_lt_zero i)
  · intro i hi
    exact absurd hi (Nat.not_lt_zero i)
  · intro i hi
    exact absurd hi (Nat.not_lt_zero i)

theorem slowScan_agree (h : a.Agree b) (checked : Bool) (r : HuffBr) {left s : Nat}
    (hs : s + left = a.slow_count) :
    slowScan checked a r left s = slowScan checked b r left s := by
  induction left generalizing s with
  | zero => rfl
  | succ left ih =>
      rw [slowScan, slowScan, h.slow_len s (by omega), h.slow_code s (by omega),
        h.slow_sym s (by omega), ih (by omega)]

theorem huffSymbol_agree (h : a.Agree b) (checked : Bool) (r : HuffBr) :
    huffSymbol checked a r = huffSymbol checked b r := by
  have hpeek : huffPeek r huffDecodeBits < 2 ^ huffDecodeBits := Nat.mod_lt _ (by decide)
  rw [huffSymbol, huffSymbol, h.table _ hpeek, slowScan_agree h checked r (Nat.zero_add _),
    h.slow_count]

theorem decOne_agree (h : a.Agree b) : decOne a = decOne b :=
  funext fun _ => huffSymbol_agree h true _

theorem decOneNr_agree (h : a.Agree b) : decOneNr a = decOneNr b :=
  funext fun _ => huffSymbol_agree h false _

theorem huffLoop_agree (h : a.Agree b) (n : Nat) (r : HuffBr) :
    huffLoop a n r = huffLoop b n r := by
  induction n generalizing r with
  | zero => rfl
  | succ n ih =>
      rw [huffLoop, huffLoop, decOne_agree h]
      simp only [ih]

theorem fastRounds_agree (h : a.Agree b) (left : Nat) (l : HuffLanes) :
    fastRounds a left l = fastRounds b left l := by
  induction left using Nat.strong_induction_on generalizing l with
  | _ left ih =>
      match left with
      | 0 => rfl
      | 1 => rfl
      | 2 => rfl
      | left + 3 =>
          rw [fastRounds, fastRounds, decOneNr_agree h]
          simp only [ih left (by omega)]

theorem huffTail_agree (h : a.Agree b) (tail : Nat) (lanes : List HuffBr) :
    huffTail a tail lanes = huffTail b tail lanes := by
  induction tail generalizing lanes with
  | zero => rfl
  | succ tail ih =>
      cases lanes with
      | nil => rfl
      | cons r lanes =>
          rw [huffTail, huffTail, decOne_agree h]
          simp only [ih]

theorem huffLanesLoop_agree (h : a.Agree b) (n : Nat) (l : HuffLanes) :
    huffLanesLoop a n l = huffLanesLoop b n l := by
  rw [huffLanesLoop, huffLanesLoop, fastRounds_agree h, decOne_agree h]
  simp only [huffTail_agree h]

/-- A decoder over the shared start takes nothing from its workspace. -/
theorem vvhDecodeWith_storage
    {body : HuffTable → CodeLengths → Bytes → (hdr_sz n : Nat) → Except VvError (Bytes × Nat)}
    (hbody : ∀ a b lengths src hdr_sz n,
      body a lengths src hdr_sz n = body b lengths src hdr_sz n)
    (workspace workspace' : HuffTable) (src : Bytes) (dst_cap n : Nat) :
    vvhDecodeWith body workspace src dst_cap n = vvhDecodeWith body workspace' src dst_cap n := by
  rw [vvhDecodeWith, vvhDecodeWith]
  simp only [hbody workspace workspace']

/-- **ONE STREAM** decodes the same in any workspace. -/
theorem vvhDecode_storage (workspace workspace' : HuffTable) (src : Bytes) (dst_cap n : Nat) :
    vvhDecode workspace src dst_cap n = vvhDecode workspace' src dst_cap n := by
  refine vvhDecodeWith_storage ?_ workspace workspace' src dst_cap n
  intro a b lengths src hdr_sz n
  rw [vvhDecodeBody, vvhDecodeBody, huffLoop_agree (buildDecTable_agree lengths a b)]

/-- **FOUR STREAMS** decode the same in any workspace. -/
theorem vvhDecode4_storage (workspace workspace' : HuffTable) (src : Bytes) (dst_cap n : Nat) :
    vvhDecode4 workspace src dst_cap n = vvhDecode4 workspace' src dst_cap n := by
  refine vvhDecodeWith_storage ?_ workspace workspace' src dst_cap n
  intro a b lengths src hdr_sz n
  rw [vvhDecode4Body, vvhDecode4Body]
  simp only [huffLanesLoop_agree (buildDecTable_agree lengths a b)]

end Storage

end Zupt.VaptVupt
