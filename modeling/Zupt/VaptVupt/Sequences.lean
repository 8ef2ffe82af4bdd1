import Zupt.VaptVupt.Ans
import Zupt.VaptVupt.Copy
import Zupt.VaptVupt.Huffman

/-! # The sequence decoder

    `vva_decode_sequences_impl` of `vv_ans.c`: the literal section, three
    frequency headers, and one bit stream from which literal lengths, offsets
    and match lengths are read in turn.  Its literal buffer and its tables are
    storage as the allocator hands it out; the output is a buffer whose accesses
    are checked against the start of the frame and the capacity. -/

namespace Zupt.VaptVupt

open Zupt.LittleEndian Zupt.Memory Zupt.Window

/-! ## Code tables -/

/-- `ml_base`. -/
def mlBase : List Nat :=
  [4, 5, 6, 7, 8, 9, 10, 11, 12, 13, 14, 15, 16, 17, 18, 19, 20, 22, 24, 28, 32, 40, 48, 64, 96,
   128, 192, 256, 384, 512, 1024, 2048, 4096, 8192, 16384, 32768]

/-- `ml_base_v2`. -/
def mlBaseV2 : List Nat :=
  [3, 4, 5, 6, 7, 8, 9, 10, 11, 12, 13, 14, 15, 16, 17, 18, 19, 21, 23, 27, 31, 39, 47, 63, 95,
   127, 191, 255, 383, 511, 1023, 2047, 4095, 8191, 16383, 32767]

/-- `ml_extra`. -/
def mlExtra : List Nat :=
  [0, 0, 0, 0, 0, 0, 0, 0, 0, 0, 0, 0, 0, 0, 0, 0, 1, 1, 2, 2, 3, 3, 4, 5, 5, 6, 6, 7, 7, 9, 10,
   11, 12, 13, 14, 15]

/-- `of_extra`. -/
def ofExtra : List Nat :=
  [0, 0, 0, 0, 1, 2, 3, 4, 5, 6, 7, 8, 9, 10, 11, 12, 13, 14, 15, 16, 17, 18, 19, 20, 21, 22, 23]

/-- `ll_base`. -/
def llBase : List Nat :=
  [0, 1, 2, 3, 4, 5, 6, 7, 8, 9, 10, 11, 12, 13, 14, 15, 16, 18, 20, 24, 28, 32, 48, 64, 128, 256,
   512, 1024, 2048, 4096, 8192, 16384, 32768, 49152, 57344, 61440]

/-- `ll_extra`. -/
def llExtra : List Nat :=
  [0, 0, 0, 0, 0, 0, 0, 0, 0, 0, 0, 0, 0, 0, 0, 0, 1, 1, 2, 2, 2, 4, 4, 6, 7, 8, 9, 10, 11, 12,
   13, 14, 14, 13, 12, 12]

/-! ## The literal section -/

/-- What one call allocates: the literal buffer, and the table section, which
    literal decoding uses first and the sequence tables afterwards. -/
structure SeqStorage where
  lits : Mem UInt8
  ansWork : Mem DecEntry
  huffWork : HuffTable
  ll : Mem DecEntry
  ml : Mem DecEntry
  of : Mem DecEntry

/-- A 32-bit field. -/
def u32At (s : Bytes) (pos : Nat) : Nat := leGet ((s.drop pos).take 4)

/-- The literal section of a payload, and what is behind it. -/
structure LitSection where
  total_lits : Nat
  lit_fmt : UInt8
  enc : Bytes
  rest : Bytes

/-- The literal section: `[4B lit_count] [1B lit_fmt] [4B lit_enc_len]`. -/
def readLitSection (src : Bytes) (dst_cap : Nat) : Except VvError LitSection :=
  if src.length < 9 then .error .corrupt
  else
    let total_lits := u32At src 0
    let lit_enc_len := u32At src 5
    let p := src.drop 9
    if p.length < lit_enc_len then .error .corrupt
    else if dst_cap < total_lits then .error .corrupt
    else .ok ⟨total_lits, charAt src 4, p.take lit_enc_len, p.drop lit_enc_len⟩

/-- The encoded literals, by the format byte. -/
def decodeLits (st : SeqStorage) (lit_fmt : UInt8) (enc : Bytes) (total_lits : Nat) :
    Except VvError Bytes :=
  let literals (r : Except VvError (Bytes × Nat)) : Except VvError Bytes :=
    match r with
    | .error _ => .error .corrupt
    | .ok (out, _) => .ok out
  if lit_fmt = 1 then literals (vvaDecode4 st.ansWork enc total_lits total_lits)
  else if lit_fmt = 2 then literals (vvaDecode st.ansWork enc total_lits total_lits)
  else if lit_fmt = 3 then literals (vvhDecode st.huffWork enc total_lits total_lits)
  else if lit_fmt = 4 then literals (vvhDecode4 st.huffWork enc total_lits total_lits)
  else if total_lits ≤ enc.length then .ok (enc.take total_lits)
  else .error .corrupt

/-- The literal buffer after the literal section.  Without encoded literals
    nothing is written to it. -/
def fillLits (st : SeqStorage) (l : LitSection) : Except VvError (Mem UInt8) :=
  if 0 < l.total_lits ∧ 0 < l.enc.length then
    match decodeLits st l.lit_fmt l.enc l.total_lits with
    | .error e => .error e
    | .ok xs => .ok (write st.lits 0 xs)
  else .ok st.lits

/-- `lit_sec`, the size of the literal buffer. -/
def litSec (total_lits : Nat) : Nat := (total_lits + 16 + 7) / 8 * 8

/-! ## The sequence headers -/

/-- A frequency header with its 16-bit size in front; one that does not parse
    leaves the frequencies cleared. -/
def readSeqNorm (p : Bytes) : Except VvError (Norm × Bytes) :=
  if p.length < 2 then .error .corrupt
  else
    let hdr_sz := u16At p 0
    let p := p.drop 2
    if p.length < hdr_sz then .error .corrupt
    else
      let norm : Norm :=
        if 0 < hdr_sz then
          match readHdrV2 (p.take hdr_sz) with
          | none => fun _ => 0
          | some (_, norm) => norm
        else fun _ => 0
      .ok (norm, p.drop hdr_sz)

/-- No symbol of the first 256 from `codes` on has a frequency. -/
def codesBelow (norm : Norm) (codes : Nat) : Bool :=
  (List.range 256).all fun s => decide (codes ≤ s → norm s = 0)

/-- The headers behind the literal section. -/
structure SeqHeader where
  match_count : Nat
  norm_ml : Norm
  norm_of : Norm
  norm_ll : Norm
  state_ml : Nat
  state_of : Nat
  state_ll : Nat
  bits : Bytes

/-- The validation of the three tables. -/
def seqNormsValid (total_lits match_count : Nat) (norm_ml norm_of norm_ll : Norm) : Bool :=
  codesBelow norm_of 27 && codesBelow norm_ml 36 && codesBelow norm_ll 36 &&
  decide (normSum norm_ll 256 ≠ ansL → ¬ (0 < total_lits ∨ 0 < match_count)) &&
  decide (0 < match_count → normSum norm_ml 256 = ansL ∧ normSum norm_of 256 = ansL)

/-- The initial states and the bit stream. -/
def readSeqStates (match_count : Nat) (norm_ml norm_of norm_ll : Norm) (p : Bytes) :
    Except VvError SeqHeader :=
  if p.length < 6 then .error .corrupt
  else if p.length < 10 then .error .corrupt
  else
    let seq_bs_len := u32At p 6
    if p.length < 10 + seq_bs_len then .error .corrupt
    else
      .ok ⟨match_count, norm_ml, norm_of, norm_ll, u16At p 0, u16At p 2, u16At p 4,
        (p.drop 10).take seq_bs_len⟩

/-- Everything between the literals and the loop. -/
def readSeqHeader (total_lits dst_cap : Nat) (p : Bytes) : Except VvError SeqHeader :=
  if p.length < 4 then .error .corrupt
  else
    let match_count := u32At p 0
    if dst_cap < match_count then .error .corrupt
    else
      match readSeqNorm (p.drop 4) with
      | .error e => .error e
      | .ok (norm_ml, p) =>
          match readSeqNorm p with
          | .error e => .error e
          | .ok (norm_of, p) =>
              match readSeqNorm p with
              | .error e => .error e
              | .ok (norm_ll, p) =>
                  if seqNormsValid total_lits match_count norm_ml norm_of norm_ll then
                    readSeqStates match_count norm_ml norm_of norm_ll p
                  else .error .corrupt

/-- The three decode tables. -/
structure SeqTables where
  ll : Mem DecEntry
  of : Mem DecEntry
  ml : Mem DecEntry

/-- The tables of a block; without matches the table of the literal lengths
    stands in for the other two. -/
def seqTables (st : SeqStorage) (total_lits : Nat) (h : SeqHeader) : SeqTables :=
  let ll := if 0 < total_lits ∨ 0 < h.match_count then buildDecDirect h.norm_ll st.ll else st.ll
  if 0 < h.match_count then ⟨ll, buildDecDirect h.norm_of st.of, buildDecDirect h.norm_ml st.ml⟩
  else ⟨ll, ll, ll⟩

/-! ## Sequences -/

/-- The bit reader, the states and the repeated offsets. -/
structure SeqCoder where
  r : AnsBr
  state_ll : Nat
  state_of : Nat
  state_ml : Nat
  rep0 : Nat
  rep1 : Nat
  rep2 : Nat

/-- A base with extra bits; a code above the tables would be read outside of
    them. -/
def readExtra (base extra : List Nat) (code : Nat) (r : AnsBr) : Option (Nat × AnsBr) :=
  match base[code]?, extra[code]? with
  | some b, some nb =>
      let bits := ansBrRead r nb
      some (b + bits.1, bits.2)
  | _, _ => none

/-- The refill of a turn and the literal length. -/
def SeqCoder.litlen (T : SeqTables) (c : SeqCoder) : Option (Nat × SeqCoder) :=
  let e := T.ll (c.state_ll % ansL)
  let bits := ansBrRead (ansBrFill c.r) e.nbits
  match readExtra llBase llExtra e.symbol.toNat bits.2 with
  | none => none
  | some (litlen, r) => some (litlen, { c with r := r, state_ll := e.baseline + bits.1 })

/-- `of_decode`, for the codes that are not a repeated offset. -/
def ofBase : List Nat :=
  [0, 0, 0, 2 ^ 0, 2 ^ 1, 2 ^ 2, 2 ^ 3, 2 ^ 4, 2 ^ 5, 2 ^ 6, 2 ^ 7, 2 ^ 8, 2 ^ 9, 2 ^ 10, 2 ^ 11,
   2 ^ 12, 2 ^ 13, 2 ^ 14, 2 ^ 15, 2 ^ 16, 2 ^ 17, 2 ^ 18, 2 ^ 19, 2 ^ 20, 2 ^ 21, 2 ^ 22, 2 ^ 23]

/-- The repeated offset of a code below 3. -/
def SeqCoder.rep (c : SeqCoder) (code : Nat) : Nat :=
  if code = 0 then c.rep0 else if code = 1 then c.rep1 else c.rep2

/-- An offset that is not the last one becomes the last one. -/
def SeqCoder.push (c : SeqCoder) (offset : Nat) : SeqCoder :=
  if offset ≠ 0 ∧ offset ≠ c.rep0 then { c with rep0 := offset, rep1 := c.rep0, rep2 := c.rep1 }
  else c

/-- The offset of a sequence. -/
def SeqCoder.offset (T : SeqTables) (c : SeqCoder) : Option (Nat × SeqCoder) :=
  let e := T.of (c.state_of % ansL)
  let bits := ansBrRead c.r e.nbits
  let c := { c with r := bits.2, state_of := e.baseline + bits.1 }
  if e.symbol.toNat < 3 then
    let offset := c.rep e.symbol.toNat
    some (offset, c.push offset)
  else
    match readExtra ofBase ofExtra e.symbol.toNat c.r with
    | none => none
    | some (offset, r) => some (offset, { c with r := r }.push offset)

/-- The match length of a sequence. -/
def SeqCoder.matchlen (ml_base_tab : List Nat) (T : SeqTables) (c : SeqCoder) :
    Option (Nat × SeqCoder) :=
  let e := T.ml (c.state_ml % ansL)
  let bits := ansBrRead c.r e.nbits
  match readExtra ml_base_tab mlExtra e.symbol.toNat bits.2 with
  | none => none
  | some (matchlen, r) => some (matchlen, { c with r := r, state_ml := e.baseline + bits.1 })

/-! ## The loop -/

/-- What does not change during the loop. -/
structure SeqParams where
  tables : SeqTables
  ml_base_tab : List Nat
  max_offset : Nat
  total_lits : Nat
  match_count : Nat
  lit_buf : Mem UInt8
  /-- `dst_base` and `op_end`. -/
  bounds : Bounds
  dst : Nat

/-- `SAFEZONE_MAX_RUN`. -/
def safezoneMaxRun : Nat := 65535

/-- `offset_check_floor`; `none` is the null pointer. -/
def SeqParams.offsetCheckFloor (P : SeqParams) : Option Nat :=
  let history_at_block_start := P.dst - P.bounds.lo
  if P.max_offset ≤ history_at_block_start then some P.dst
  else if P.max_offset - history_at_block_start ≤ P.bounds.hi - P.dst then
    some (P.dst + (P.max_offset - history_at_block_start))
  else none

/-- `in_safe_zone` at the output position `op`. -/
def SeqParams.inSafeZone (P : SeqParams) (op : Nat) : Bool :=
  match P.offsetCheckFloor with
  | none => false
  | some floor =>
      decide (2 * safezoneMaxRun ≤ P.bounds.hi - P.dst ∧ floor ≤ op ∧
        op ≤ P.bounds.hi - 2 * safezoneMaxRun)

/-- What changes. -/
structure SeqState where
  coder : SeqCoder
  op : Nat
  lit_pos : Nat
  matches_decoded : Nat
  m : Mem UInt8

/-- Bytes of the literal buffer. -/
def SeqParams.loadLits (P : SeqParams) (pos n : Nat) : Option Bytes :=
  if pos + n ≤ litSec P.total_lits then some (read P.lit_buf pos n) else none

/-- The literal run of a sequence: up to 16 bytes with one copy of 16 where
    there is room. -/
def SeqParams.copyLits (P : SeqParams) (s : SeqState) (litlen : Nat) : Option (Mem UInt8) :=
  if 0 < litlen then
    let n := if litlen ≤ 16 ∧ s.op + 16 ≤ P.bounds.hi then 16 else litlen
    (P.loadLits s.lit_pos n).bind fun xs => store P.bounds s.m s.op xs
  else some s.m

/-- The match of a sequence, once its literals are out. -/
def SeqParams.matchTurn (P : SeqParams) (safe : Bool) (s : SeqState) : Except Stop SeqState :=
  match s.coder.offset P.tables with
  | none => .error .fault
  | some (offset, c) =>
      match c.matchlen P.ml_base_tab P.tables with
      | none => .error .fault
      | some (matchlen, c) =>
          if offset = 0 ∨ P.max_offset < offset then .error (.err .corrupt)
          else if ¬ safe ∧ s.op - P.bounds.lo < offset then .error (.err .corrupt)
          else if ¬ safe ∧ P.bounds.hi < s.op + matchlen then .error (.err .overflow)
          else
            match seqMatchCopy P.bounds s.m s.op offset matchlen with
            | none => .error .fault
            | some m =>
                .ok { s with coder := c, op := s.op + matchlen, m := m,
                             matches_decoded := s.matches_decoded + 1 }

/-- A turn of the loop. -/
def SeqParams.turn (P : SeqParams) (s : SeqState) : Except Stop SeqState :=
  let safe := P.inSafeZone s.op
  match s.coder.litlen P.tables with
  | none => .error .fault
  | some (litlen, c) =>
      if P.total_lits - s.lit_pos < litlen then .error (.err .corrupt)
      else if ¬ safe ∧ P.bounds.hi < s.op + litlen then .error (.err .overflow)
      else
        match P.copyLits s litlen with
        | none => .error .fault
        | some m =>
            let s := { s with coder := c, op := s.op + litlen, lit_pos := s.lit_pos + litlen,
                              m := m }
            -- with all literals out as well the loop ends by its own condition
            if P.match_count ≤ s.matches_decoded then .ok s else P.matchTurn safe s

/-- The loop, with the turns `max_iters` leaves it. -/
def SeqParams.loop (P : SeqParams) : (iters : Nat) → SeqState → Except Stop SeqState
  | 0, s =>
      if s.lit_pos < P.total_lits ∨ s.matches_decoded < P.match_count then
        .error (.err .corrupt)
      else .ok s
  | iters + 1, s =>
      if s.lit_pos < P.total_lits ∨ s.matches_decoded < P.match_count then
        match P.turn s with
        | .error e => .error e
        | .ok s => P.loop iters s
      else .ok s

/-- The start of the loop. -/
def SeqHeader.coder (h : SeqHeader) : SeqCoder :=
  ⟨ansBrFill (ansBrInit h.bits), h.state_ll, h.state_of, h.state_ml, 0, 0, 0⟩

/-- `vva_decode_sequences_impl`: the output buffer and `*dst_len`.  The block
    starts at `dst`; its capacity ends at `b.hi`, its frame starts at `b.lo`. -/
def vvaDecodeSequences (st : SeqStorage) (ml_base_tab : List Nat) (max_offset : Nat) (src : Bytes)
    (b : Bounds) (dst : Nat) (m : Mem UInt8) : Except Stop (Mem UInt8 × Nat) :=
  match readLitSection src (b.hi - dst) with
  | .error e => .error (.err e)
  | .ok l =>
      match fillLits st l with
      | .error e => .error (.err e)
      | .ok lit_buf =>
          match readSeqHeader l.total_lits (b.hi - dst) l.rest with
          | .error e => .error (.err e)
          | .ok h =>
              if max_offset = 0 ∨ 2 ^ 24 < max_offset then .error (.err .corrupt)
              else
                let P : SeqParams :=
                  ⟨seqTables st l.total_lits h, ml_base_tab, max_offset, l.total_lits,
                    h.match_count, lit_buf, b, dst⟩
                match P.loop (l.total_lits + h.match_count + 16) ⟨h.coder, dst, 0, 0, m⟩ with
                | .error e => .error e
                | .ok s => .ok (s.m, s.op - dst)

/-! ## The naive decoder -/

/-- What the naive decoder does not change. -/
structure NaiveParams where
  tables : SeqTables
  ml_base_tab : List Nat
  max_offset : Nat
  match_count : Nat
  /-- The most bytes the frame may hold. -/
  cap : Nat

/-- What it changes: the literals that are left, and the frame. -/
structure NaiveState where
  coder : SeqCoder
  lits : Bytes
  matches_decoded : Nat
  out : Bytes

/-- The match of a sequence: the offset against the window and the frame, the
    length against the capacity, and one byte after another. -/
def NaiveParams.matchTurn (P : NaiveParams) (s : NaiveState) : Except Stop NaiveState :=
  match s.coder.offset P.tables with
  | none => .error .fault
  | some (offset, c) =>
      match c.matchlen P.ml_base_tab P.tables with
      | none => .error .fault
      | some (matchlen, c) =>
          if offset = 0 ∨ P.max_offset < offset then .error (.err .corrupt)
          else if s.out.length < offset then .error (.err .corrupt)
          else if P.cap < s.out.length + matchlen then .error (.err .overflow)
          else .ok { s with coder := c, out := extend s.out offset matchlen,
                            matches_decoded := s.matches_decoded + 1 }

/-- A turn: every literal read is checked against what is left of them, and
    against the capacity. -/
def NaiveParams.turn (P : NaiveParams) (s : NaiveState) : Except Stop NaiveState :=
  match s.coder.litlen P.tables with
  | none => .error .fault
  | some (litlen, c) =>
      if s.lits.length < litlen then .error (.err .corrupt)
      else if P.cap < s.out.length + litlen then .error (.err .overflow)
      else
        let s := { s with coder := c, out := s.out ++ s.lits.take litlen,
                          lits := s.lits.drop litlen }
        if P.match_count ≤ s.matches_decoded then .ok s else P.matchTurn s

/-- The loop without safe zones. -/
def NaiveParams.loop (P : NaiveParams) : (iters : Nat) → NaiveState → Except Stop Bytes
  | 0, s =>
      if 0 < s.lits.length ∨ s.matches_decoded < P.match_count then .error (.err .corrupt)
      else .ok s.out
  | iters + 1, s =>
      if 0 < s.lits.length ∨ s.matches_decoded < P.match_count then
        match P.turn s with
        | .error e => .error e
        | .ok s => P.loop iters s
      else .ok s.out

/-- The naive sequence decoder: the frame with the block behind `history`. -/
def naiveSequences (st : SeqStorage) (ml_base_tab : List Nat) (max_offset : Nat) (src : Bytes)
    (history : Bytes) (dst_cap : Nat) : Except Stop Bytes :=
  match readLitSection src dst_cap with
  | .error e => .error (.err e)
  | .ok l =>
      match fillLits st l with
      | .error e => .error (.err e)
      | .ok lit_buf =>
          match readSeqHeader l.total_lits dst_cap l.rest with
          | .error e => .error (.err e)
          | .ok h =>
              if max_offset = 0 ∨ 2 ^ 24 < max_offset then .error (.err .corrupt)
              else
                let P : NaiveParams :=
                  ⟨seqTables st l.total_lits h, ml_base_tab, max_offset, h.match_count,
                    history.length + dst_cap⟩
                P.loop (l.total_lits + h.match_count + 16)
                  ⟨h.coder, read lit_buf 0 l.total_lits, 0, history⟩

end Zupt.VaptVupt
