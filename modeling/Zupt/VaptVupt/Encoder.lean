import Zupt.VaptVupt.OptimalParser
import Zupt.VaptVupt.Parallel

/-! # The encoder

    `emit_block` of `vv_encoder.c` parses a block and writes it the shortest way
    it finds; `vv_compress` chooses the window and the format and writes a frame
    of such blocks.  The entropy coders come in as `EntropyCoders`: nothing here
    depends on what they write. -/

namespace Zupt.VaptVupt

open Zupt.LittleEndian

/-! ## Entropy coders -/

/-- The encoders of `vv_ans.c`, each with the capacity of its output. -/
structure EntropyCoders where
  /-- `vva_encode_sequences_compat`, and `vva_encode_sequences_v2_compat` where
      `use_v2` is set. -/
  encodeSequences : (use_v2 dis_huf4 : Bool) → (tokens : Bytes) → (cap off_bytes : Nat) → Option Bytes
  /-- `vva_encode4`. -/
  encode4 : (lits : Bytes) → (cap : Nat) → Option Bytes
  /-- `vva_encode`. -/
  encode : (lits : Bytes) → (cap : Nat) → Option Bytes

/-- `vva_bound`. -/
def vvaBound (src_len : Nat) : Nat := 12288 + (src_len * 15 + 7) / 8 + 16

/-- The bytes of a length extension, where the end of the stream may cut it off
    behind a full byte: value, copy and what is behind. -/
def copyExt : Bytes → Option (Nat × Bytes × Bytes)
  | [] => none
  | b :: p =>
      if b < 255 then some (b.toNat, [b], p)
      else
        match p with
        | [] => some (255, [b], [])
        | _ => (copyExt p).map fun r => (255 + r.1, b :: r.2.1, r.2.2)

/-- A length nibble with such an extension. -/
def copyLen (nibble : Nat) (tp : Bytes) : Option (Nat × Bytes × Bytes) :=
  if nibble = 15 then (copyExt tp).map fun r => (15 + r.1, r.2) else some (nibble, [], tp)

/-- The loop of `extract_literals`: the literals and the stream without them. -/
def extractLoop (lit_cap off_bytes : Nat) :
    (turns : Nat) → (tp lits stripped : Bytes) → Option (Bytes × Bytes)
  | 0, _, lits, stripped => some (lits, stripped)
  | turns + 1, tp, lits, stripped =>
      match tp with
      | [] => some (lits, stripped)
      | token :: tp =>
          match copyLen (token.toNat / 16) tp with
          | none => none
          | some (ll, ext, tp) =>
              if tp.length < ll then none
              else if lit_cap < lits.length + ll then none
              else
                let lits := lits ++ tp.take ll
                let stripped := stripped ++ token :: ext
                let tp := tp.drop ll
                if tp.length = 0 then some (lits, stripped)
                else if tp.length < off_bytes then none
                else
                  let off := tp.take off_bytes
                  match copyLen (token.toNat % 16) (tp.drop off_bytes) with
                  | none => none
                  | some (_, ext, tp) =>
                      extractLoop lit_cap off_bytes turns tp lits (stripped ++ off ++ ext)

/-- `extract_literals`; an error and a stream without literals are the same to
    its caller. -/
def extractLiterals (tokens : Bytes) (lit_cap off_bytes : Nat) : Option (Bytes × Bytes) :=
  match extractLoop lit_cap off_bytes tokens.length tokens [] [] with
  | none => none
  | some (lits, stripped) => if lits.length = 0 then none else some (lits, stripped)

/-! ## Blocks -/

/-- The two bits of a block type. -/
def BlockType.bits : BlockType → UInt32
  | .raw => 0
  | .compressed => 1
  | .rle => 2
  | .entropy => 3

/-- `vv_bh_pack`, as it is copied to the output. -/
def bhPut (type : BlockType) (last : Bool) (size : Nat) : Bytes :=
  le32Put (type.bits ||| ((if last then (1 : UInt32) else 0) <<< 2) ||| (UInt32.ofNat size <<< 3))

/-- The arguments of `emit_block`. -/
structure EmitArgs where
  src : Bytes
  block_start : Nat
  braw : Nat
  last : Bool
  mode : Mode
  wlog : Nat
  tcap : Nat
  lit_cap : Nat
  ent_cap : Nat
  dst_cap : Nat
  min_match : Nat
  compat_v246_5 : Bool

/-- The block as it is. -/
def EmitArgs.raw (a : EmitArgs) : Bytes := bytesAt a.src a.block_start a.braw

/-- A header and what follows it, if that fits the output. -/
def EmitArgs.put (a : EmitArgs) (type : BlockType) (rest : Bytes) : Option Bytes :=
  let block := bhPut type a.last a.braw ++ rest
  if a.dst_cap < block.length then none else some block

/-- `VV_BLOCK_RAW`. -/
def EmitArgs.putRaw (a : EmitArgs) : Option Bytes := a.put .raw a.raw

/-- `VV_BLOCK_COMPRESSED`. -/
def EmitArgs.putTokens (a : EmitArgs) (tmp : Bytes) : Option Bytes :=
  a.put .compressed (lePut 3 tmp.length ++ tmp)

/-- Path A: the tag and the coded sequences. -/
def EmitArgs.putSequences (a : EmitArgs) (use_v2 : Bool) (seq : Bytes) : Option Bytes :=
  a.put .entropy (lePut 3 (1 + seq.length) ++ (if use_v2 then 0x54 else 0x53) :: seq)

/-- Path B: coded literals and the tokens without them. -/
structure CodedLiterals where
  tag : UInt8
  lit_count : Nat
  ent : Bytes
  stripped : Bytes

/-- Their block.  Both counts are written to two bytes. -/
def EmitArgs.putLiterals (a : EmitArgs) (c : CodedLiterals) : Option Bytes :=
  a.put .entropy (lePut 3 (5 + c.ent.length + c.stripped.length) ++
    c.tag :: (lePut 2 c.lit_count ++ lePut 2 c.ent.length ++ c.ent ++ c.stripped))

/-- `seq_block_sz`. -/
def seqBlockSize (seq : Bytes) : Nat := 4 + 3 + 1 + seq.length

/-- `ent_block_sz`. -/
def CodedLiterals.blockSize (c : CodedLiterals) : Nat :=
  4 + 3 + 1 + 2 + 2 + c.ent.length + c.stripped.length

/-- The literals of path B, coded in four streams or, failing that, in one. -/
def EmitArgs.codeLiterals (C : EntropyCoders) (a : EmitArgs) (off_bytes : Nat) (tmp : Bytes) :
    Option CodedLiterals :=
  match extractLiterals tmp a.lit_cap off_bytes with
  | none => none
  | some (lits, stripped) =>
      match C.encode4 lits (a.ent_cap / 2) with
      | some ent => some ⟨0x49, lits.length, ent, stripped⟩
      | none =>
          match C.encode lits (a.ent_cap / 2) with
          | some ent => some ⟨0x41, lits.length, ent, stripped⟩
          | none => none

/-- Path B runs for the first format, where path A failed or saved little. -/
def EmitArgs.pathB (C : EntropyCoders) (a : EmitArgs) (use_v2 : Bool) (off_bytes : Nat) (tmp : Bytes)
    (seq : Option Bytes) : Option CodedLiterals :=
  let weak : Bool := match seq with
    | none => true
    | some seq => a.braw * 7 / 8 ≤ seqBlockSize seq
  if !use_v2 && weak then a.codeLiterals C off_bytes tmp else none

/-- `raw_block_sz`: what plain tokens or storing would take. -/
def EmitArgs.rawBlockSize (a : EmitArgs) (tmp : Bytes) : Nat := min (4 + 3 + tmp.length) (4 + a.braw)

/-- Neither path won: plain tokens, which the second format does not have, or
    the block as it is. -/
def EmitArgs.putPlain (a : EmitArgs) (use_v2 : Bool) (tmp : Bytes) : Option Bytes :=
  if !use_v2 ∧ tmp.length < a.braw then a.putTokens tmp else a.putRaw

/-- Path A did not win. -/
def EmitArgs.putSecond (a : EmitArgs) (use_v2 : Bool) (tmp : Bytes) (coded : Option CodedLiterals) :
    Option Bytes :=
  match coded with
  | some c => if c.blockSize < a.rawBlockSize tmp then a.putLiterals c else a.putPlain use_v2 tmp
  | none => a.putPlain use_v2 tmp

/-- Path A is no larger than path B. -/
def seqBeats (seq : Bytes) (coded : Option CodedLiterals) : Bool :=
  match coded with
  | some c => seqBlockSize seq ≤ c.blockSize
  | none => true

/-- The race of the modes with an entropy stage. -/
def EmitArgs.race (C : EntropyCoders) (a : EmitArgs) (tmp : Bytes) : Option Bytes :=
  let off_bytes := if 16 < a.wlog then 3 else 2
  let use_v2 : Bool := a.min_match < minMatch
  let seq := C.encodeSequences use_v2 a.compat_v246_5 tmp a.ent_cap off_bytes
  let coded := a.pathB C use_v2 off_bytes tmp seq
  match seq with
  | none => a.putSecond use_v2 tmp coded
  | some seq =>
      if seqBeats seq coded ∧ seqBlockSize seq < a.rawBlockSize tmp then a.putSequences use_v2 seq
      else a.putSecond use_v2 tmp coded

/-- The parser of a mode and a format. -/
def EmitArgs.parse (fresh : FreshTables) (a : EmitArgs) (m : Matcher) : Matcher × Option Bytes :=
  let A : BlockArgs := ⟨a.src, a.block_start, a.braw, a.tcap, a.mode, a.min_match⟩
  if a.mode = .extreme ∧ ¬ a.min_match < minMatch then compressBlockOptimal fresh A m
  else
    match compressBlock A m with
    | none => (m, none)
    | some r => r

/-- `raw_gate`: with an entropy stage to come, tokens may exceed the block. -/
def EmitArgs.rawGate (a : EmitArgs) : Nat := if a.mode.entropy then a.braw + a.braw / 8 else a.braw

/-- What is written for the tokens of the parser. -/
def EmitArgs.write (C : EntropyCoders) (a : EmitArgs) (tokens : Option Bytes) : Option Bytes :=
  match tokens with
  | none => a.putRaw
  | some tmp =>
      if a.rawGate ≤ tmp.length then a.putRaw
      else if a.mode.entropy then a.race C tmp
      else a.putTokens tmp

/-- `emit_block`: the matcher as it leaves it, and the block; `none` where the
    output has no room. -/
def emitBlock (C : EntropyCoders) (fresh : FreshTables) (a : EmitArgs) (m : Matcher) :
    Matcher × Option Bytes :=
  let parsed := a.parse fresh m
  (parsed.1, a.write C parsed.2)

/-! ## Options -/

/-- `vv_options_t`.  The modes are the three that `valid_mode` lets pass. -/
structure Options where
  mode : Mode
  window_log : Nat
  checksum : Bool
  format_v2 : Bool
  compat_v246_5_decoder : Bool
  filter_x86 : Bool
  filter_arm64 : Bool
  filter_auto : Bool
  depth_override : Nat
  accel : Nat
  no_rep : Bool
  deriving DecidableEq, Repr

/-- `vv_default_options`. -/
def defaultOptions : Options where
  mode := .balanced
  window_log := 0
  checksum := true
  format_v2 := false
  compat_v246_5_decoder := false
  filter_x86 := false
  filter_arm64 := false
  filter_auto := false
  depth_override := 0
  accel := 0
  no_rep := false

/-- `effective_accel`. -/
def Options.effectiveAccel (o : Options) : Nat :=
  let accel := if o.accel = 0 then (if o.mode.entropy then 1 else 2) else o.accel
  if 64 < accel then 64 else accel

/-- `effective_format_v2`. -/
def Options.effectiveFormatV2 (o : Options) : Bool := o.format_v2 && o.mode.entropy

/-- The depth of the chains. -/
def Options.depth (o : Options) : Nat :=
  if o.depth_override ≠ 0 then min o.depth_override 4096
  else
    match o.mode with
    | .ultraFast => 4
    | .balanced => 24
    | .extreme => 256

/-- A window that is given lies between 10 and 24. -/
def Options.badWindow (o : Options) : Prop :=
  o.window_log ≠ 0 ∧ (o.window_log < 10 ∨ 24 < o.window_log)

instance (o : Options) : Decidable o.badWindow := inferInstanceAs (Decidable (_ ∧ _))

/-- `mode_hint`. -/
def Mode.hint : Mode → UInt8
  | .ultraFast => 0
  | .balanced => 1
  | .extreme => 2

/-! ## The plan of a frame -/

/-- The size of a trial parse; zero where it gave nothing. -/
def trialSize (fresh : FreshTables) (src : Bytes) (trial_len wlog : Nat) : Nat :=
  let A : BlockArgs :=
    ⟨src, 0, trial_len, trial_len + trial_len / 255 + 1024, .ultraFast, minMatch⟩
  match compressBlock A { matcherInit fresh wlog 4 false none with accel := 2 } with
  | some (_, some tokens) => tokens.length
  | _ => 0

/-- What is decided before the first block. -/
structure Plan where
  wlog : Nat
  enable_hash4 : Bool
  use_v2_fmt : Bool
  deriving DecidableEq, Repr

/-- The trial: a larger window where it saves, and the fourth table for input
    that looks binary. -/
def Options.trial (o : Options) (fresh16 fresh20 : FreshTables) (src : Bytes) : Nat × Bool :=
  let wlog := if o.window_log = 0 then 16 else o.window_log
  if o.window_log = 0 ∧ o.mode.entropy ∧ 65536 < src.length then
    let trial_len := min 131072 src.length
    let sz16 := trialSize fresh16 src trial_len 16
    let sz20 := trialSize fresh20 src trial_len 20
    let best_sz := if 0 < sz20 ∧ sz20 < sz16 then sz20 else sz16
    (if 0 < sz20 ∧ 0 < sz16 ∧ sz20 < sz16 * 97 / 100 then 20 else wlog,
      best_sz = 0 ∨ trial_len < best_sz * 2)
  else (wlog, false)

/-- The window that holds `s` bytes, from 20 up to 24. -/
def wantLog (s : Nat) : Nat :=
  if s ≤ 2 ^ 20 then 20 else if s ≤ 2 ^ 21 then 21 else if s ≤ 2 ^ 22 then 22
  else if s ≤ 2 ^ 23 then 23 else 24

/-- Window and format of a frame. -/
def Options.plan (o : Options) (fresh16 fresh20 : FreshTables) (src : Bytes) : Plan :=
  let t := o.trial fresh16 fresh20 src
  let enable_hash4 := t.2
  let use_v2_fmt := o.effectiveFormatV2 ||
    (enable_hash4 && o.mode.entropy && !o.compat_v246_5_decoder)
  let wlog := if o.window_log = 0 ∧ o.mode.entropy ∧ use_v2_fmt = false ∧ t.1 = 16 ∧
      3145728 ≤ src.length then 18 else t.1
  let wlog := if o.window_log = 0 ∧ o.mode = .extreme ∧ use_v2_fmt = false ∧
      2 ^ 20 < src.length then max wlog (wantLog src.length) else wlog
  ⟨wlog, enable_hash4, use_v2_fmt⟩

/-- The matcher of a frame. -/
def Options.matcher (o : Options) (fresh : FreshTables) (p : Plan) (src : Bytes) : Matcher :=
  let m := matcherInit fresh p.wlog o.depth p.enable_hash4
    (if src.length ≤ 4096 then some src else none)
  let m := { m with
    single_probe := o.mode = .ultraFast
    accel := o.effectiveAccel
    no_rep := o.no_rep }
  let m := if p.use_v2_fmt then m.setFormatV2 else m
  if p.use_v2_fmt && p.enable_hash4 then m.enableHash3 else m

/-! ## Frames -/

/-- `memcpy` of a frame header to the output. -/
def frameHeaderPut (fh : FrameHeader) : Bytes :=
  le32Put fh.magic ++ [fh.version, fh.flags, fh.mode_hint, fh.window_log] ++
    le64Put fh.content_size

/-- The header of a frame. -/
def Options.header (o : Options) (wlog content_size : Nat) : FrameHeader where
  magic := 0x56560100
  version := 1
  flags := (if o.checksum then 1 else 0) ||| (if o.filter_x86 then 4 else 0) |||
    (if o.filter_arm64 then 8 else 0)
  mode_hint := o.mode.hint
  window_log := UInt8.ofNat wlog
  content_size := UInt64.ofNat content_size

/-- The footer of a frame. -/
def footerPut (checksum : UInt64) : Bytes := le64Put checksum ++ le32Put 0x56564E44

/-- The block of a frame at `start`, into what is left of the output. -/
def Options.blockArgs (o : Options) (p : Plan) (src : Bytes) (start dst_cap : Nat) : EmitArgs :=
  let block_bound := min src.length maxBlockSize
  { src := src
    block_start := start
    braw := min (src.length - start) maxBlockSize
    last := src.length - start ≤ maxBlockSize
    mode := o.mode
    wlog := p.wlog
    tcap := block_bound + block_bound / 255 + 1024
    lit_cap := block_bound
    ent_cap := 2 * vvaBound block_bound
    dst_cap := dst_cap
    min_match := if p.use_v2_fmt then 3 else minMatch
    compat_v246_5 := o.compat_v246_5_decoder }

/-- The loop over the blocks of a frame, with `room` left in the output.  The
    memory of the parser's prepass is that of the block. -/
def Options.blocks (o : Options) (C : EntropyCoders) (fresh : Nat → FreshTables) (p : Plan)
    (src : Bytes) : (turns start : Nat) → Matcher → (room : Nat) → Except VvError Bytes
  | 0, _, _, _ => .ok []
  | turns + 1, start, m, room =>
      if start < src.length then
        match emitBlock C (fresh start) (o.blockArgs p src start room) m with
        | (_, none) => .error .overflow
        | (m, some block) =>
            match o.blocks C fresh p src turns (start + min (src.length - start) maxBlockSize) m
              (room - block.length) with
            | .error e => .error e
            | .ok rest => .ok (block ++ rest)
      else .ok []

/-- What `malloc` returns to a frame: for the two trials, for the matcher and
    for the prepass of each block. -/
structure FreshFrame where
  trial16 : FreshTables
  trial20 : FreshTables
  matcher : FreshTables
  prepass : Nat → FreshTables

/-- `vv_compress_inner`, where every allocation is granted. -/
def vvCompressInner (C : EntropyCoders) (fresh : FreshFrame) (src : Bytes) (dst_cap : Nat)
    (opts : Option Options) : Except VvError Bytes :=
  if dst_cap < 16 + 12 + 16 then .error .overflow
  else
    let o := opts.getD defaultOptions
    if o.badWindow then .error .param
    else
      let p := o.plan fresh.trial16 fresh.trial20 src
      let header := frameHeaderPut (o.header p.wlog src.length)
      let blocks :=
        if src.length = 0 then .ok (bhPut .raw true 0)
        else o.blocks C fresh.prepass p src (src.length / maxBlockSize + 1) 0
          (o.matcher fresh.matcher p src) (dst_cap - header.length)
      match blocks with
      | .error e => .error e
      | .ok blocks =>
          let out := header ++ blocks
          if o.checksum then
            if dst_cap - out.length < 12 then .error .overflow
            else .ok (out ++ footerPut (xxh64 src 0))
          else .ok out

/-- `vv_filter_kind_t`. -/
inductive FilterKind where
  | none | x86 | arm64
  deriving DecidableEq, Repr

/-- `vv_bcj_detect`. -/
def bcjDetect (data : Bytes) : FilterKind :=
  let size := data.length
  let at_ (i : Nat) : UInt8 := charAt data i
  if 20 ≤ size ∧ at_ 0 = 0x7F ∧ at_ 1 = 0x45 ∧ at_ 2 = 0x4C ∧ at_ 3 = 0x46 then
    let mach := if at_ 5 = 2 then (at_ 18).toNat * 256 + (at_ 19).toNat
      else leGet (bytesAt data 18 2)
    if mach = 62 ∨ mach = 3 then .x86 else if mach = 183 then .arm64 else .none
  else if 0x40 ≤ size ∧ at_ 0 = 0x4D ∧ at_ 1 = 0x5A then
    let pe := leGet (bytesAt data 0x3C 4)
    if pe + 6 ≤ size ∧ at_ pe = 0x50 ∧ at_ (pe + 1) = 0x45 ∧ at_ (pe + 2) = 0 ∧
        at_ (pe + 3) = 0 then
      let mach := leGet (bytesAt data (pe + 4) 2)
      if mach = 0x8664 ∨ mach = 0x014C then .x86 else if mach = 0xAA64 then .arm64 else .none
    else .none
  else if 8 ≤ size then
    let magic := leGet (bytesAt data 0 4)
    if magic = 0xFEEDFACE ∨ magic = 0xFEEDFACF then
      let cpu := leGet (bytesAt data 4 4)
      if cpu = 0x01000007 ∨ cpu = 7 then .x86 else if cpu = 0x0100000C then .arm64 else .none
    else .none
  else .none

/-- The options with the filter that the input calls for. -/
def Options.effectiveFilters (o : Options) (src : Bytes) : Options :=
  if o.filter_auto ∧ ¬ o.filter_x86 ∧ ¬ o.filter_arm64 then
    match bcjDetect src with
    | .x86 => { o with filter_x86 := true }
    | .arm64 => { o with filter_arm64 := true }
    | .none => o
  else o

/-- `vv_compress`. -/
def vvCompress (C : EntropyCoders) (fresh : FreshFrame) (src : Bytes) (dst_cap : Nat)
    (opts : Option Options) : Except VvError Bytes :=
  match opts with
  | none => vvCompressInner C fresh src dst_cap none
  | some o =>
      if o.badWindow then .error .param
      else if o.filter_x86 ∧ o.filter_arm64 then .error .param
      else
        let eff := o.effectiveFilters src
        if 0 < src.length ∧ eff.filter_x86 then
          vvCompressInner C fresh (bcjX86 src 0 true) dst_cap (some eff)
        else if 0 < src.length ∧ eff.filter_arm64 then
          vvCompressInner C fresh (bcjArm64 src 0 true) dst_cap (some eff)
        else vvCompressInner C fresh src dst_cap (some o)

end Zupt.VaptVupt
