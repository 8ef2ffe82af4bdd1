import Zupt.VaptVupt.Copy

/-! # Token streams

    The two token decoders of `vv_decoder.c`: with the literals in the stream,
    where builds for AVX2 run two fast loops first, and over a literal buffer
    that was decoded before.  The naive decoders over lists say what they mean. -/

namespace Zupt.VaptVupt

open Zupt.LittleEndian Zupt.Memory Zupt.Window

/-- How the library was built and where it runs: `VV_INLINE_AVX2`, and the
    routines the copies dispatch to. -/
structure Build where
  inlineAvx2 : Bool
  simd : Simd
  deriving DecidableEq, Repr

/-! ## Fields of a token -/

/-- `read_ext_len`: bytes up to one below 255, and what is behind them; `none`
    is `SIZE_MAX`. -/
def readExtLen : Bytes → Option (Nat × Bytes)
  | [] => none
  | b :: p =>
      if b < 255 then some (b.toNat, p)
      else
        match readExtLen p with
        | none => none
        | some (val, p) => some (b.toNat + val, p)

/-- A length nibble with its extension. -/
def readLen (nibble : Nat) (ip : Bytes) : Option (Nat × Bytes) :=
  if nibble = 15 then
    match readExtLen ip with
    | none => none
    | some (ext, ip) => some (nibble + ext, ip)
  else some (nibble, ip)

/-- `VV_MIN_MATCH`. -/
def minMatch : Nat := 4

/-- The offset field. -/
def offsetGet (offBytes : Nat) (ip : Bytes) : Nat :=
  if offBytes = 2 then leGet (ip.take 2) else leGet (ip.take 3)

/-! ## The general path -/

/-- What the loops move along: the input, the output position and the output. -/
structure TokState where
  ip : Bytes
  op : Nat
  m : Mem UInt8

/-- What a block is decoded with. -/
structure TokParams where
  build : Build
  /-- `dst_base` and `op_end`. -/
  bounds : Bounds
  offBytes : Nat
  maxOffset : Nat

/-- The match of a token, of which `mc` is the length nibble. -/
def TokParams.match (P : TokParams) (mc : Nat) (s : TokState) : Except Stop TokState :=
  if s.ip.length < P.offBytes then .error (.err .corrupt)
  else
    let offset := offsetGet P.offBytes s.ip
    match readLen mc (s.ip.drop P.offBytes) with
    | none => .error (.err .corrupt)
    | some (ml, ip) =>
        let mlen := ml + minMatch
        if offset = 0 ∨ P.maxOffset < offset ∨ s.op - P.bounds.lo < offset then
          .error (.err .corrupt)
        else if P.bounds.hi < s.op + mlen then .error (.err .overflow)
        else
          match vvCopyMatch P.bounds s.m P.build.simd s.op offset mlen with
          | none => .error .fault
          | some m => .ok ⟨ip, s.op + mlen, m⟩

/-- A turn of the general path; the stream may end behind the literals. -/
def TokParams.turn (P : TokParams) (token : UInt8) (s : TokState) : Except Stop TokState :=
  match readLen (token.toNat / 16) s.ip with
  | none => .error (.err .corrupt)
  | some (ll, ip) =>
      if ip.length < ll then .error (.err .corrupt)
      else if P.bounds.hi < s.op + ll then .error (.err .overflow)
      else
        match (if 0 < ll then vvCopyFast P.bounds s.m P.build.simd s.op (ip.take ll)
          else some s.m) with
        | none => .error .fault
        | some m =>
            let s := ⟨ip.drop ll, s.op + ll, m⟩
            if s.ip.length = 0 then .ok s else P.match (token.toNat % 16) s

/-- The general path. -/
def TokParams.general (P : TokParams) : (turns : Nat) → TokState → Except Stop TokState
  | 0, s => .ok s
  | turns + 1, s =>
      match s.ip with
      | [] => .ok s
      | token :: ip =>
          match P.turn token { s with ip := ip } with
          | .error e => .error e
          | .ok s => P.general turns s

/-! ## The fast path -/

/-- The literals of a fast turn: up to 14 with a copy of 16. -/
def TokParams.fastLits (P : TokParams) (ll : Nat) (s : TokState) : Option (Mem UInt8) :=
  if ll ≤ 14 then
    if 16 ≤ s.ip.length then store P.bounds s.m s.op (s.ip.take 16) else none
  else store P.bounds s.m s.op (s.ip.take ll)

/-- The match of a fast turn; the warm-up checks the offset against the history
    as well. -/
def TokParams.fastMatch (P : TokParams) (warmup : Bool) (mc : Nat) (s : TokState) :
    Except Stop TokState :=
  if s.ip.length < P.offBytes then .error (.err .corrupt)
  else
    let offset := offsetGet P.offBytes s.ip
    match readLen mc (s.ip.drop P.offBytes) with
    | none => .error (.err .corrupt)
    | some (ml, ip) =>
        -- the sums are of 32 bits
        let mlen := (ml + minMatch) % 2 ^ 32
        if offset = 0 ∨ P.maxOffset < offset ∨ (warmup ∧ s.op - P.bounds.lo < offset) then
          .error (.err .corrupt)
        else if P.bounds.hi < s.op + mlen then .error (.err .overflow)
        else
          match tokenMatchCopy P.bounds s.m s.op offset mlen with
          | none => .error .fault
          | some m => .ok ⟨ip, s.op + mlen, m⟩

/-- A turn of the warm-up or of the hot loop.  The `break` at the end of the
    input ends all loops, since their conditions ask for input. -/
def TokParams.fastTurn (P : TokParams) (warmup : Bool) (token : UInt8) (s : TokState) :
    Except Stop TokState :=
  match readLen (token.toNat / 16) s.ip with
  | none => .error (.err .corrupt)
  | some (ll, ip) =>
      let ll := ll % 2 ^ 32
      if ip.length < ll ∨ P.bounds.hi < s.op + ll then .error (.err .io)
      else
        match P.fastLits ll { s with ip := ip } with
        | none => .error .fault
        | some m =>
            let s := ⟨ip.drop ll, s.op + ll, m⟩
            if s.ip.length = 0 then .ok s else P.fastMatch warmup (token.toNat % 16) s

/-- The margins of the fast loops; the warm-up also ends once the whole window
    is behind. -/
def TokParams.fastAt (P : TokParams) (warmup : Bool) (s : TokState) : Prop :=
  48 < s.ip.length ∧ s.op + 72 < P.bounds.hi ∧ (warmup → s.op - P.bounds.lo ≤ P.maxOffset)

instance (P : TokParams) (warmup : Bool) (s : TokState) : Decidable (P.fastAt warmup s) :=
  inferInstanceAs (Decidable (_ ∧ _ ∧ _))

/-- The warm-up, or the hot loop. -/
def TokParams.fast (P : TokParams) (warmup : Bool) : (turns : Nat) → TokState →
    Except Stop TokState
  | 0, s => .ok s
  | turns + 1, s =>
      if P.fastAt warmup s then
        match s.ip with
        | [] => .ok s
        | token :: ip =>
            match P.fastTurn warmup token { s with ip := ip } with
            | .error e => .error e
            | .ok s => P.fast warmup turns s
      else .ok s

/-- The loops of `decode_block_tokens_impl` one after another.  A turn uses up
    its token at least. -/
def TokParams.run (P : TokParams) (s : TokState) : Except Stop TokState :=
  if P.build.inlineAvx2 then
    match P.fast true s.ip.length s with
    | .error e => .error e
    | .ok s =>
        match P.fast false s.ip.length s with
        | .error e => .error e
        | .ok s => P.general s.ip.length s
  else P.general s.ip.length s

/-- `decode_block_tokens`: the output buffer and `*out_len`. -/
def decodeBlockTokens (build : Build) (payload : Bytes) (b : Bounds) (dst : Nat) (m : Mem UInt8)
    (offBytes maxOffset : Nat) : Except Stop (Mem UInt8 × Nat) :=
  match TokParams.run ⟨build, b, offBytes, maxOffset⟩ ⟨payload, dst, m⟩ with
  | .error e => .error e
  | .ok s => .ok (s.m, s.op - dst)

/-! ## Stripped tokens -/

/-- A turn of `decode_stripped_tokens_impl`, with the literals that are left. -/
def TokParams.strippedTurn (P : TokParams) (token : UInt8) (lits : Bytes) (s : TokState) :
    Except Stop (Bytes × TokState) :=
  match readLen (token.toNat / 16) s.ip with
  | none => .error (.err .corrupt)
  | some (ll, ip) =>
      if lits.length < ll then .error (.err .corrupt)
      else if P.bounds.hi < s.op + ll then .error (.err .overflow)
      else
        match (if 0 < ll then store P.bounds s.m s.op (lits.take ll) else some s.m) with
        | none => .error .fault
        | some m =>
            let s := ⟨ip, s.op + ll, m⟩
            if s.ip.length = 0 then .ok (lits.drop ll, s)
            else
              match P.match (token.toNat % 16) s with
              | .error e => .error e
              | .ok s => .ok (lits.drop ll, s)

/-- The loop of `decode_stripped_tokens_impl`. -/
def TokParams.stripped (P : TokParams) : (turns : Nat) → (lits : Bytes) → TokState →
    Except Stop TokState
  | 0, _, s => .ok s
  | turns + 1, lits, s =>
      match s.ip with
      | [] => .ok s
      | token :: ip =>
          match P.strippedTurn token lits { s with ip := ip } with
          | .error e => .error e
          | .ok (lits, s) => P.stripped turns lits s

/-- `decode_stripped_tokens`. -/
def decodeStrippedTokens (build : Build) (tokens lits : Bytes) (b : Bounds) (dst : Nat)
    (m : Mem UInt8) (offBytes maxOffset : Nat) : Except Stop (Mem UInt8 × Nat) :=
  match TokParams.stripped ⟨build, b, offBytes, maxOffset⟩ tokens.length lits ⟨tokens, dst, m⟩ with
  | .error e => .error e
  | .ok s => .ok (s.m, s.op - dst)

/-! ## The naive decoders -/

/-- What a naive decoder checks against. -/
structure NaiveTokens where
  offBytes : Nat
  maxOffset : Nat
  /-- The most bytes the frame may hold. -/
  cap : Nat

/-- The match of a token, byte by byte: what is behind it, and the frame. -/
def NaiveTokens.match (P : NaiveTokens) (mc : Nat) (ip out : Bytes) :
    Except VvError (Bytes × Bytes) :=
  if ip.length < P.offBytes then .error .corrupt
  else
    let offset := offsetGet P.offBytes ip
    match readLen mc (ip.drop P.offBytes) with
    | none => .error .corrupt
    | some (ml, ip) =>
        let mlen := ml + minMatch
        if offset = 0 ∨ P.maxOffset < offset ∨ out.length < offset then .error .corrupt
        else if P.cap < out.length + mlen then .error .overflow
        else .ok (ip, extend out offset mlen)

/-- A token with its literals in the stream. -/
def NaiveTokens.turn (P : NaiveTokens) (token : UInt8) (ip out : Bytes) :
    Except VvError (Bytes × Bytes) :=
  match readLen (token.toNat / 16) ip with
  | none => .error .corrupt
  | some (ll, ip) =>
      if ip.length < ll then .error .corrupt
      else if P.cap < out.length + ll then .error .overflow
      else if (ip.drop ll).length = 0 then .ok (ip.drop ll, out ++ ip.take ll)
      else P.match (token.toNat % 16) (ip.drop ll) (out ++ ip.take ll)

/-- The naive token decoder: the frame. -/
def NaiveTokens.run (P : NaiveTokens) : (turns : Nat) → (ip out : Bytes) → Except VvError Bytes
  | 0, _, out => .ok out
  | turns + 1, ip, out =>
      match ip with
      | [] => .ok out
      | token :: ip =>
          match P.turn token ip out with
          | .error e => .error e
          | .ok (ip, out) => NaiveTokens.run P turns ip out

/-- A token with its literals in a buffer. -/
def NaiveTokens.strippedTurn (P : NaiveTokens) (token : UInt8) (ip lits out : Bytes) :
    Except VvError (Bytes × Bytes × Bytes) :=
  match readLen (token.toNat / 16) ip with
  | none => .error .corrupt
  | some (ll, ip) =>
      if lits.length < ll then .error .corrupt
      else if P.cap < out.length + ll then .error .overflow
      else if ip.length = 0 then .ok (ip, lits.drop ll, out ++ lits.take ll)
      else
        match P.match (token.toNat % 16) ip (out ++ lits.take ll) with
        | .error e => .error e
        | .ok (ip, out) => .ok (ip, lits.drop ll, out)

/-- The naive decoder of stripped tokens. -/
def NaiveTokens.stripped (P : NaiveTokens) :
    (turns : Nat) → (ip lits out : Bytes) → Except VvError Bytes
  | 0, _, _, out => .ok out
  | turns + 1, ip, lits, out =>
      match ip with
      | [] => .ok out
      | token :: ip =>
          match P.strippedTurn token ip lits out with
          | .error e => .error e
          | .ok (ip, lits, out) => NaiveTokens.stripped P turns ip lits out

end Zupt.VaptVupt
