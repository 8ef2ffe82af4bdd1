import Zupt.VaptVupt.AnsTable

/-! # The tANS decoders

    The bit reader of `vv_ans.c` and its three literal decoders: one stream,
    four interleaved lanes, and a table for each preceding byte.  Each is given
    the storage of its tables as the allocator hands it out, and each leaves
    nothing of it in what it answers. -/

namespace Zupt.VaptVupt

open Zupt.LittleEndian Zupt.Memory

/-! ## Bits -/

/-- `ans_br_t`: the accumulator, the bits in it, the bytes from `p` on and
    `p`.  The accumulator never holds more than 64 bits. -/
structure AnsBr where
  a : Nat
  n : Int
  s : Bytes
  p : Nat

/-- `ans_br_init`. -/
def ansBrInit (s : Bytes) : AnsBr := ⟨0, 0, s, 0⟩

/-- The loop of `ans_br_fill` near the end of the stream. -/
def ansBrFillTail : (s : Bytes) → (a : Nat) → (n : Int) → (p : Nat) → AnsBr
  | [], a, n, p => ⟨a, n, [], p⟩
  | b :: s, a, n, p =>
      if n ≤ 56 then ansBrFillTail s (a ||| b.toNat <<< n.toNat) (n + 8) (p + 1)
      else ⟨a, n, b :: s, p⟩

/-- `ans_br_fill`. -/
def ansBrFill (r : AnsBr) : AnsBr :=
  if r.n ≤ 56 then
    if 8 ≤ r.s.length then
      let k := (64 - r.n).toNat / 8
      ⟨r.a ||| (leGet (r.s.take 8) % 2 ^ (8 * k)) <<< r.n.toNat, r.n + 8 * k, r.s.drop k, r.p + k⟩
    else ansBrFillTail r.s r.a r.n r.p
  else r

/-- The bits of a read without its refill. -/
def ansBrTake (r : AnsBr) (nb : Nat) : Nat × AnsBr :=
  (r.a % 2 ^ nb, ⟨r.a / 2 ^ nb, r.n - nb, r.s, r.p⟩)

/-- `ans_br_read`. -/
def ansBrRead (r : AnsBr) (nb : Nat) : Nat × AnsBr :=
  if nb = 0 then (0, r) else ansBrTake (if r.n < nb then ansBrFill r else r) nb

/-- `if (r.n < ANS_LOG) ans_br_fill(&r)`. -/
def ansBrRefill (r : AnsBr) : AnsBr := if r.n < ansLog then ansBrFill r else r

/-- What was consumed of a stream, without the bytes still in the
    accumulator. -/
def ansConsumed (start : Nat) (r : AnsBr) : Nat :=
  let consumed := start + r.p
  if 8 ≤ r.n then
    let ov := r.n.toNat / 8
    if ov ≤ consumed then consumed - ov else consumed
  else consumed

/-! ## One stream -/

/-- The loop of `vva_decode_impl`. -/
def ansLoop (dec : Mem DecEntry) : (n : Nat) → (state : Nat) → AnsBr → Option (Bytes × AnsBr)
  | 0, _, r => some ([], r)
  | n + 1, state, r =>
      let e := dec state
      let bits := ansBrTake (ansBrRefill r) e.nbits
      let state := e.baseline + bits.1
      if ansL ≤ state then none
      else
        match ansLoop dec n state bits.2 with
        | none => none
        | some (out, r) => some (e.symbol :: out, r)

/-- `vva_decode_impl` behind its header. -/
def vvaDecodeBody (dec : Mem DecEntry) (src : Bytes) (hdr num_literals : Nat) :
    Except VvError (Bytes × Nat) :=
  if src.length < hdr + 2 then .error .corrupt
  else
    let state := u16At src hdr
    if ansL ≤ state then .error .corrupt
    else
      match ansLoop dec num_literals state (ansBrFill (ansBrInit (src.drop (hdr + 2)))) with
      | none => .error .corrupt
      | some (out, r) => .ok (out, ansConsumed (hdr + 2) r)

/-- The start that `vva_decode_impl` and `vva_decode4_impl` share: the checks,
    the header, a header of one symbol, and the table for `body`. -/
def vvaDecodeWith (body : Mem DecEntry → Bytes → (hdr n : Nat) → Except VvError (Bytes × Nat))
    (workspace : Mem DecEntry) (src : Bytes) (dst_cap num_literals : Nat) :
    Except VvError (Bytes × Nat) :=
  if num_literals = 0 then .ok ([], 0)
  else if dst_cap < num_literals then .error .overflow
  else
    match readHdrV2 src with
    | none => .error .corrupt
    | some (hdr, norm) =>
        if validatedSymbolCount norm = 0 then .error .corrupt
        else if validatedSymbolCount norm = 1 then
          .ok (List.replicate num_literals (UInt8.ofNat (lastSymbol norm 256)), hdr)
        else body (buildDecDirect norm workspace) src hdr num_literals

/-- `vva_decode_impl`: the literals and the bytes consumed. -/
def vvaDecode (workspace : Mem DecEntry) (src : Bytes) (dst_cap num_literals : Nat) :
    Except VvError (Bytes × Nat) :=
  vvaDecodeWith vvaDecodeBody workspace src dst_cap num_literals

/-! ## Four lanes -/

/-- A state and its reader. -/
structure Lane where
  state : Nat
  r : AnsBr

/-- The symbol of a lane, and the lane after it. -/
def Lane.next (dec : Mem DecEntry) (l : Lane) : UInt8 × Lane :=
  let e := dec l.state
  let bits := ansBrTake (ansBrRefill l.r) e.nbits
  (e.symbol, ⟨e.baseline + bits.1, bits.2⟩)

/-- The loop over full quads. -/
def quadLoop (dec : Mem DecEntry) : (quads : Nat) → (l0 l1 l2 l3 : Lane) →
    Option (Bytes × Lane × Lane × Lane × Lane)
  | 0, l0, l1, l2, l3 => some ([], l0, l1, l2, l3)
  | quads + 1, l0, l1, l2, l3 =>
      let n0 := l0.next dec
      let n1 := l1.next dec
      let n2 := l2.next dec
      let n3 := l3.next dec
      if ansL ≤ n0.2.state ||| n1.2.state ||| n2.2.state ||| n3.2.state then none
      else
        match quadLoop dec quads n0.2 n1.2 n2.2 n3.2 with
        | none => none
        | some (out, lanes) => some (n0.1 :: n1.1 :: n2.1 :: n3.1 :: out, lanes)

/-- The scalar tail: a symbol of each of the first `left` lanes. -/
def laneTail (dec : Mem DecEntry) : (left : Nat) → List Lane → Option Bytes
  | 0, _ => some []
  | _ + 1, [] => none
  | left + 1, l :: lanes =>
      if ansL ≤ l.state then none
      else
        match laneTail dec left lanes with
        | none => none
        | some out => some ((dec l.state).symbol :: out)

/-- `vva_decode4_impl` behind its header: four states, four sizes, four
    streams. -/
def vvaDecode4Body (dec : Mem DecEntry) (src : Bytes) (hdr num_literals : Nat) :
    Except VvError (Bytes × Nat) :=
  if src.length < hdr + 24 then .error .corrupt
  else
    let s (i : Nat) : Nat := u16At src (hdr + 2 * i)
    let bsz (i : Nat) : Nat := leGet ((src.drop (hdr + 8 + 4 * i)).take 4)
    if ansL ≤ s 0 ∨ ansL ≤ s 1 ∨ ansL ≤ s 2 ∨ ansL ≤ s 3 then .error .corrupt
    else
      let bp := src.drop (hdr + 24)
      if bp.length < bsz 0 + bsz 1 + bsz 2 + bsz 3 then .error .corrupt
      else
        let lane (i start : Nat) : Lane :=
          ⟨s i, ansBrFill (ansBrInit ((bp.drop start).take (bsz i)))⟩
        match quadLoop dec (num_literals / 4) (lane 0 0) (lane 1 (bsz 0))
            (lane 2 (bsz 0 + bsz 1)) (lane 3 (bsz 0 + bsz 1 + bsz 2)) with
        | none => .error .corrupt
        | some (out, l0, l1, l2, l3) =>
            match laneTail dec (num_literals % 4) [l0, l1, l2, l3] with
            | none => .error .corrupt
            | some tail => .ok (out ++ tail, hdr + 24 + (bsz 0 + bsz 1 + bsz 2 + bsz 3))

/-- `vva_decode4_impl`. -/
def vvaDecode4 (workspace : Mem DecEntry) (src : Bytes) (dst_cap num_literals : Nat) :
    Except VvError (Bytes × Nat) :=
  vvaDecodeWith vvaDecode4Body workspace src dst_cap num_literals

/-! ## A table for each preceding byte -/

/-- The storage `vva_decode_ctx` allocates: the spread, the global table, and
    the table of the context at each place. -/
structure CtxStorage where
  sp : Mem UInt8
  global : Mem DecEntry
  own : Nat → Mem DecEntry

/-- A decode table from a header: filled with its only symbol, or built over
    the spread, which is left in `sp`. -/
def ctxTable (norm : Norm) (sp : Mem UInt8) (dec : Mem DecEntry) : Mem UInt8 × Mem DecEntry :=
  if 1 < validatedSymbolCount norm then
    let sp := spreadSymbols norm sp
    (sp, buildDec norm sp dec)
  else
    (sp, fun x => if x < ansL then ⟨UInt8.ofNat (lastSymbol norm 256), 0, 0⟩ else dec x)

/-- Bit `c` of the bitmap of inherited contexts. -/
def inheritedBit (inherited : Bytes) (c : Nat) : Bool :=
  charAt inherited (c / 8) &&& (1 <<< UInt8.ofNat (c % 8)) ≠ 0

/-- The loop that reads the context tables, from context `c` on: the tables and
    what is behind them. -/
def ctxTables (own : Nat → Mem DecEntry) (inherited : Bytes) :
    (left c : Nat) → (sp : Mem UInt8) → (ctx_dec : Nat → Mem DecEntry) → (p : Bytes) →
    Option ((Nat → Mem DecEntry) × Bytes)
  | 0, _, _, ctx_dec, p => some (ctx_dec, p)
  | left + 1, c, sp, ctx_dec, p =>
      if inheritedBit inherited c then ctxTables own inherited left (c + 1) sp ctx_dec p
      else if p.length < 3 then none
      else
        let ctx_id := (charAt p 0).toNat
        let tsz := u16At p 1
        let p := p.drop 3
        if p.length < tsz then none
        else
          match readHdrV2 (p.take tsz) with
          | none => none
          | some (_, cnorm) =>
              if validatedSymbolCount cnorm = 0 then none
              else
                let table := ctxTable cnorm sp (own c)
                ctxTables own inherited left (c + 1) table.1
                  (Function.update ctx_dec ctx_id table.2) (p.drop tsz)

/-- The decode loop of `vva_decode_ctx`. -/
def ctxLoop (ctx_dec : Nat → Mem DecEntry) :
    (n : Nat) → (states : Nat → Nat) → (prev_ctx : UInt8) → AnsBr → Option (Bytes × AnsBr)
  | 0, _, _, r => some ([], r)
  | n + 1, states, prev_ctx, r =>
      let r := ansBrRefill r
      let st := states prev_ctx.toNat
      if ansL ≤ st then none
      else
        let e := ctx_dec prev_ctx.toNat st
        let bits := ansBrRead r e.nbits
        match ctxLoop ctx_dec n
            (Function.update states prev_ctx.toNat ((e.baseline + bits.1) % 65536)) e.symbol
            bits.2 with
        | none => none
        | some (out, r) => some (e.symbol :: out, r)

/-- `vva_decode_ctx` behind its tables: the states and the bit stream. -/
def vvaDecodeCtxBody (src_len num_literals : Nat) (ctx_dec : Nat → Mem DecEntry) (p : Bytes) :
    Except VvError (Bytes × Nat) :=
  if p.length < 512 then .error .corrupt
  else
    match ctxLoop ctx_dec num_literals (fun c => u16At p (2 * c)) 0
        (ansBrFill (ansBrInit (p.drop 512))) with
    | none => .error .corrupt
    | some (out, r) => .ok (out, ansConsumed (src_len - (p.length - 512)) r)

/-- `vva_decode_ctx`. -/
def vvaDecodeCtx (storage : CtxStorage) (src : Bytes) (dst_cap num_literals : Nat) :
    Except VvError (Bytes × Nat) :=
  if num_literals = 0 then .ok ([], 0)
  else if dst_cap < num_literals then .error .overflow
  else if src.length < 2 then .error .corrupt
  else
    let global_sz := u16At src 0
    let p := src.drop 2
    if p.length < global_sz then .error .corrupt
    else
      match readHdrV2 (p.take global_sz) with
      | none => .error .corrupt
      | some (_, global_norm) =>
          let p := p.drop global_sz
          if validatedSymbolCount global_norm = 0 then .error .corrupt
          else if p.length < 32 then .error .corrupt
          else
            let global := ctxTable global_norm storage.sp storage.global
            match ctxTables storage.own (p.take 32) 256 0 global.1 (fun _ => global.2)
                (p.drop 32) with
            | none => .error .corrupt
            | some (ctx_dec, p) => vvaDecodeCtxBody src.length num_literals ctx_dec p

/-! ## Lengths -/

theorem ansLoop_length {dec : Mem DecEntry} {n state : Nat} {r r' : AnsBr} {out : Bytes}
    (h : ansLoop dec n state r = some (out, r')) : out.length = n := by
  induction n generalizing state r out r' with
  | zero =>
      obtain ⟨rfl, -⟩ := Prod.mk.inj (Option.some.inj h)
      rfl
  | succ n ih =>
      rw [ansLoop] at h
      split at h
      · cases h
      · split at h
        · cases h
        · rename_i rest r'' hrest
          obtain ⟨rfl, -⟩ := Prod.mk.inj (Option.some.inj h)
          rw [List.length_cons, ih hrest]

theorem quadLoop_length {dec : Mem DecEntry} {quads : Nat} {l0 l1 l2 l3 : Lane} {out : Bytes}
    {lanes : Lane × Lane × Lane × Lane} (h : quadLoop dec quads l0 l1 l2 l3 = some (out, lanes)) :
    out.length = 4 * quads := by
  induction quads generalizing l0 l1 l2 l3 out lanes with
  | zero =>
      obtain ⟨rfl, -⟩ := Prod.mk.inj (Option.some.inj h)
      rfl
  | succ quads ih =>
      rw [quadLoop] at h
      split at h
      · cases h
      · split at h
        · cases h
        · rename_i rest lanes' hrest
          obtain ⟨rfl, -⟩ := Prod.mk.inj (Option.some.inj h)
          simp only [List.length_cons, ih hrest]
          omega

theorem laneTail_length {dec : Mem DecEntry} {left : Nat} {lanes : List Lane} {out : Bytes}
    (h : laneTail dec left lanes = some out) : out.length = left := by
  induction left generalizing lanes out with
  | zero =>
      obtain rfl := Option.some.inj h
      rfl
  | succ left ih =>
      cases lanes with
      | nil => cases h
      | cons l lanes =>
          rw [laneTail] at h
          split at h
          · cases h
          · split at h
            · cases h
            · rename_i rest hrest
              obtain rfl := Option.some.inj h
              rw [List.length_cons, ih hrest]

theorem ctxLoop_length {ctx_dec : Nat → Mem DecEntry} {n : Nat} {states : Nat → Nat}
    {prev_ctx : UInt8} {r r' : AnsBr} {out : Bytes}
    (h : ctxLoop ctx_dec n states prev_ctx r = some (out, r')) : out.length = n := by
  induction n generalizing states prev_ctx r out r' with
  | zero =>
      obtain ⟨rfl, -⟩ := Prod.mk.inj (Option.some.inj h)
      rfl
  | succ n ih =>
      rw [ctxLoop] at h
      dsimp only at h
      split at h
      · cases h
      · split at h
        · cases h
        · rename_i rest r'' hrest
          obtain ⟨rfl, -⟩ := Prod.mk.inj (Option.some.inj h)
          rw [List.length_cons, ih hrest]

/-- A decoder over the shared start answers with as many literals as it was
    asked for, if its body does. -/
theorem vvaDecodeWith_length
    {body : Mem DecEntry → Bytes → (hdr n : Nat) → Except VvError (Bytes × Nat)}
    (hbody : ∀ {dec src hdr n out consumed}, body dec src hdr n = .ok (out, consumed) →
      out.length = n)
    {workspace : Mem DecEntry} {src : Bytes} {dst_cap n : Nat} {out : Bytes} {consumed : Nat}
    (h : vvaDecodeWith body workspace src dst_cap n = .ok (out, consumed)) : out.length = n := by
  rw [vvaDecodeWith] at h
  by_cases hn : n = 0
  · rw [if_pos hn] at h
    obtain ⟨rfl, -⟩ := Prod.mk.inj (Except.ok.inj h)
    exact hn.symm
  rw [if_neg hn] at h
  split at h
  · cases h
  cases hhdr : readHdrV2 src with
  | none =>
      rw [hhdr] at h
      cases h
  | some p =>
      obtain ⟨hdr, norm⟩ := p
      rw [hhdr] at h
      dsimp only at h
      split at h
      · cases h
      split at h
      · obtain ⟨rfl, -⟩ := Prod.mk.inj (Except.ok.inj h)
        exact List.length_replicate
      · exact hbody h

theorem vvaDecode_length {workspace : Mem DecEntry} {src : Bytes} {dst_cap n : Nat} {out : Bytes}
    {consumed : Nat} (h : vvaDecode workspace src dst_cap n = .ok (out, consumed)) :
    out.length = n := by
  refine vvaDecodeWith_length ?_ h
  intro dec src hdr n out consumed h
  rw [vvaDecodeBody] at h
  split at h
  · cases h
  dsimp only at h
  split at h
  · cases h
  split at h
  · cases h
  · rename_i out' r hloop
    obtain ⟨rfl, -⟩ := Prod.mk.inj (Except.ok.inj h)
    exact ansLoop_length hloop

theorem vvaDecode4_length {workspace : Mem DecEntry} {src : Bytes} {dst_cap n : Nat} {out : Bytes}
    {consumed : Nat} (h : vvaDecode4 workspace src dst_cap n = .ok (out, consumed)) :
    out.length = n := by
  refine vvaDecodeWith_length ?_ h
  intro dec src hdr n out consumed h
  rw [vvaDecode4Body] at h
  split at h
  · cases h
  dsimp only at h
  split at h
  · cases h
  split at h
  · cases h
  split at h
  · cases h
  · rename_i quads l0 l1 l2 l3 hquads
    split at h
    · cases h
    · rename_i tail htail
      obtain ⟨rfl, -⟩ := Prod.mk.inj (Except.ok.inj h)
      rw [List.length_append, quadLoop_length hquads, laneTail_length htail]
      omega

theorem vvaDecodeCtx_length {storage : CtxStorage} {src : Bytes} {dst_cap n : Nat} {out : Bytes}
    {consumed : Nat} (h : vvaDecodeCtx storage src dst_cap n = .ok (out, consumed)) :
    out.length = n := by
  rw [vvaDecodeCtx] at h
  by_cases hn : n = 0
  · rw [if_pos hn] at h
    obtain ⟨rfl, -⟩ := Prod.mk.inj (Except.ok.inj h)
    exact hn.symm
  rw [if_neg hn] at h
  split at h
  · cases h
  split at h
  · cases h
  dsimp only at h
  split at h
  · cases h
  split at h
  · cases h
  split at h
  · cases h
  split at h
  · cases h
  split at h
  · cases h
  · rename_i ctx_dec p htables
    rw [vvaDecodeCtxBody] at h
    split at h
    · cases h
    split at h
    · cases h
    · rename_i out' r hloop
      obtain ⟨rfl, -⟩ := Prod.mk.inj (Except.ok.inj h)
      exact ctxLoop_length hloop

/-! ## The storage of the tables -/

section Storage

variable {dec dec' : Mem DecEntry}

theorem ansLoop_agree (h : AgreeBelow ansL dec dec') (n : Nat) {state : Nat} (hs : state < ansL)
    (r : AnsBr) : ansLoop dec n state r = ansLoop dec' n state r := by
  induction n generalizing state r with
  | zero => rfl
  | succ n ih =>
      rw [ansLoop, ansLoop, h state hs]
      by_cases hnext : ansL ≤ (dec' state).baseline + (ansBrTake (ansBrRefill r) (dec' state).nbits).1
      · rw [if_pos hnext, if_pos hnext]
      · rw [if_neg hnext, if_neg hnext, ih (not_le.mp hnext)]

theorem vvaDecodeBody_agree (h : AgreeBelow ansL dec dec') (src : Bytes) (hdr n : Nat) :
    vvaDecodeBody dec src hdr n = vvaDecodeBody dec' src hdr n := by
  rw [vvaDecodeBody, vvaDecodeBody]
  by_cases hlen : src.length < hdr + 2
  · rw [if_pos hlen, if_pos hlen]
  rw [if_neg hlen, if_neg hlen]
  dsimp only
  by_cases hs : ansL ≤ u16At src hdr
  · rw [if_pos hs, if_pos hs]
  · rw [if_neg hs, if_neg hs, ansLoop_agree h n (not_le.mp hs)]

theorem Lane.next_agree (h : AgreeBelow ansL dec dec') {l : Lane} (hl : l.state < ansL) :
    l.next dec = l.next dec' := by
  rw [Lane.next, Lane.next, h l.state hl]

theorem quadLoop_agree (h : AgreeBelow ansL dec dec') (quads : Nat) {l0 l1 l2 l3 : Lane}
    (h0 : l0.state < ansL) (h1 : l1.state < ansL) (h2 : l2.state < ansL) (h3 : l3.state < ansL) :
    quadLoop dec quads l0 l1 l2 l3 = quadLoop dec' quads l0 l1 l2 l3 := by
  induction quads generalizing l0 l1 l2 l3 with
  | zero => rfl
  | succ quads ih =>
      rw [quadLoop, quadLoop, Lane.next_agree h h0, Lane.next_agree h h1, Lane.next_agree h h2,
        Lane.next_agree h h3]
      by_cases hor : ansL ≤ (l0.next dec').2.state ||| (l1.next dec').2.state |||
          (l2.next dec').2.state ||| (l3.next dec').2.state
      · rw [if_pos hor, if_pos hor]
      · rw [if_neg hor, if_neg hor]
        -- the states are below a power of two exactly if their disjunction is
        have hlt := not_le.mp hor
        have hle : ∀ {a b : Nat}, a ||| b < ansL → a < ansL ∧ b < ansL := fun hab =>
          ⟨lt_of_le_of_lt Nat.left_le_or hab, lt_of_le_of_lt Nat.right_le_or hab⟩
        obtain ⟨h012, h3'⟩ := hle hlt
        obtain ⟨h01, h2'⟩ := hle h012
        obtain ⟨h0', h1'⟩ := hle h01
        rw [ih h0' h1' h2' h3']

theorem laneTail_agree (h : AgreeBelow ansL dec dec') (left : Nat) (lanes : List Lane) :
    laneTail dec left lanes = laneTail dec' left lanes := by
  induction left generalizing lanes with
  | zero => rfl
  | succ left ih =>
      cases lanes with
      | nil => rfl
      | cons l lanes =>
          rw [laneTail, laneTail]
          by_cases hl : ansL ≤ l.state
          · rw [if_pos hl, if_pos hl]
          · rw [if_neg hl, if_neg hl, ih, h l.state (not_le.mp hl)]

theorem vvaDecode4Body_agree (h : AgreeBelow ansL dec dec') (src : Bytes) (hdr n : Nat) :
    vvaDecode4Body dec src hdr n = vvaDecode4Body dec' src hdr n := by
  rw [vvaDecode4Body, vvaDecode4Body]
  by_cases hlen : src.length < hdr + 24
  · rw [if_pos hlen, if_pos hlen]
  rw [if_neg hlen, if_neg hlen]
  dsimp only
  by_cases hs : ansL ≤ u16At src (hdr + 2 * 0) ∨ ansL ≤ u16At src (hdr + 2 * 1) ∨
      ansL ≤ u16At src (hdr + 2 * 2) ∨ ansL ≤ u16At src (hdr + 2 * 3)
  · rw [if_pos hs, if_pos hs]
  rw [if_neg hs, if_neg hs]
  obtain ⟨h0, hs⟩ := not_or.mp hs
  obtain ⟨h1, hs⟩ := not_or.mp hs
  obtain ⟨h2, h3⟩ := not_or.mp hs
  rw [quadLoop_agree h _ (not_le.mp h0) (not_le.mp h1) (not_le.mp h2) (not_le.mp h3)]
  simp only [laneTail_agree h]

/-- A decoder over the shared start takes nothing from its workspace. -/
theorem vvaDecodeWith_storage
    {body : Mem DecEntry → Bytes → (hdr n : Nat) → Except VvError (Bytes × Nat)}
    (hbody : ∀ dec dec', AgreeBelow ansL dec dec' → ∀ src hdr n,
      body dec src hdr n = body dec' src hdr n)
    (workspace workspace' : Mem DecEntry) (src : Bytes) (dst_cap n : Nat) :
    vvaDecodeWith body workspace src dst_cap n = vvaDecodeWith body workspace' src dst_cap n := by
  rw [vvaDecodeWith, vvaDecodeWith]
  cases hhdr : readHdrV2 src with
  | none => rfl
  | some p =>
      obtain ⟨hdr, norm⟩ := p
      dsimp only
      by_cases hzero : validatedSymbolCount norm = 0
      · rw [if_pos hzero, if_pos hzero]
      · rw [if_neg hzero, if_neg hzero,
          hbody _ _ (buildDecDirect_agree (normSum_of_validated hzero) workspace workspace')]

/-- **ONE STREAM** decodes the same in any workspace. -/
theorem vvaDecode_storage (workspace workspace' : Mem DecEntry) (src : Bytes) (dst_cap n : Nat) :
    vvaDecode workspace src dst_cap n = vvaDecode workspace' src dst_cap n :=
  vvaDecodeWith_storage (fun _ _ h => vvaDecodeBody_agree h) workspace workspace' src dst_cap n

/-- **FOUR LANES** decode the same in any workspace. -/
theorem vvaDecode4_storage (workspace workspace' : Mem DecEntry) (src : Bytes)
    (dst_cap n : Nat) :
    vvaDecode4 workspace src dst_cap n = vvaDecode4 workspace' src dst_cap n :=
  vvaDecodeWith_storage (fun _ _ h => vvaDecode4Body_agree h) workspace workspace' src dst_cap n

/-- A context table does not depend on its storage. -/
theorem ctxTable_agree {norm : Norm} (h : validatedSymbolCount norm ≠ 0) (sp sp' : Mem UInt8)
    (dec dec' : Mem DecEntry) :
    AgreeBelow ansL (ctxTable norm sp dec).2 (ctxTable norm sp' dec').2 := by
  rw [ctxTable, ctxTable]
  by_cases hmany : 1 < validatedSymbolCount norm
  · rw [if_pos hmany, if_pos hmany]
    exact buildDec_agree (normSum_of_validated h) sp sp' dec dec'
  · rw [if_neg hmany, if_neg hmany]
    intro x hx
    simp [hx]

theorem ctxTables_agree (own own' : Nat → Mem DecEntry) (inherited : Bytes) (left : Nat) {c : Nat}
    (sp sp' : Mem UInt8) {ctx_dec ctx_dec' : Nat → Mem DecEntry} {p : Bytes}
    (h : ∀ i, AgreeBelow ansL (ctx_dec i) (ctx_dec' i)) :
    (ctxTables own inherited left c sp ctx_dec p = none ∧
      ctxTables own' inherited left c sp' ctx_dec' p = none) ∨
    ∃ tables tables' rest, ctxTables own inherited left c sp ctx_dec p = some (tables, rest) ∧
      ctxTables own' inherited left c sp' ctx_dec' p = some (tables', rest) ∧
      ∀ i, AgreeBelow ansL (tables i) (tables' i) := by
  induction left generalizing c sp sp' ctx_dec ctx_dec' p with
  | zero => exact Or.inr ⟨ctx_dec, ctx_dec', p, rfl, rfl, h⟩
  | succ left ih =>
      rw [ctxTables, ctxTables]
      by_cases hbit : inheritedBit inherited c = true
      · rw [if_pos hbit, if_pos hbit]
        exact ih sp sp' h
      rw [if_neg hbit, if_neg hbit]
      by_cases h3 : p.length < 3
      · rw [if_pos h3, if_pos h3]
        exact Or.inl ⟨rfl, rfl⟩
      rw [if_neg h3, if_neg h3]
      dsimp only
      by_cases htsz : (p.drop 3).length < u16At p 1
      · rw [if_pos htsz, if_pos htsz]
        exact Or.inl ⟨rfl, rfl⟩
      rw [if_neg htsz, if_neg htsz]
      cases hhdr : readHdrV2 ((p.drop 3).take (u16At p 1)) with
      | none => exact Or.inl ⟨rfl, rfl⟩
      | some q =>
          obtain ⟨chdr, cnorm⟩ := q
          dsimp only
          by_cases hzero : validatedSymbolCount cnorm = 0
          · rw [if_pos hzero, if_pos hzero]
            exact Or.inl ⟨rfl, rfl⟩
          rw [if_neg hzero, if_neg hzero]
          refine ih _ _ ?_
          intro i
          by_cases hi : i = (charAt p 0).toNat
          · subst hi
            rw [Function.update_self, Function.update_self]
            exact ctxTable_agree hzero _ _ _ _
          · rw [Function.update_of_ne hi, Function.update_of_ne hi]
            exact h i

theorem ctxLoop_agree {ctx_dec ctx_dec' : Nat → Mem DecEntry}
    (h : ∀ i, AgreeBelow ansL (ctx_dec i) (ctx_dec' i)) (n : Nat) (states : Nat → Nat)
    (prev_ctx : UInt8) (r : AnsBr) :
    ctxLoop ctx_dec n states prev_ctx r = ctxLoop ctx_dec' n states prev_ctx r := by
  induction n generalizing states prev_ctx r with
  | zero => rfl
  | succ n ih =>
      rw [ctxLoop, ctxLoop]
      dsimp only
      by_cases hst : ansL ≤ states prev_ctx.toNat
      · rw [if_pos hst, if_pos hst]
      · rw [if_neg hst, if_neg hst, h prev_ctx.toNat _ (not_le.mp hst), ih]

/-- **A TABLE FOR EACH BYTE** decodes the same in any storage. -/
theorem vvaDecodeCtx_storage (storage storage' : CtxStorage) (src : Bytes) (dst_cap n : Nat) :
    vvaDecodeCtx storage src dst_cap n = vvaDecodeCtx storage' src dst_cap n := by
  rw [vvaDecodeCtx, vvaDecodeCtx]
  dsimp only
  cases hhdr : readHdrV2 ((src.drop 2).take (u16At src 0)) with
  | none => rfl
  | some q =>
      obtain ⟨ghdr, global_norm⟩ := q
      dsimp only
      by_cases hzero : validatedSymbolCount global_norm = 0
      · rw [if_pos hzero, if_pos hzero]
      rw [if_neg hzero, if_neg hzero]
      rcases ctxTables_agree storage.own storage'.own
          (((src.drop 2).drop (u16At src 0)).take 32) 256 (c := 0)
          (ctxTable global_norm storage.sp storage.global).1
          (ctxTable global_norm storage'.sp storage'.global).1
          (p := ((src.drop 2).drop (u16At src 0)).drop 32)
          (fun _ => ctxTable_agree hzero storage.sp storage'.sp storage.global storage'.global)
        with ⟨hnone, hnone'⟩ | ⟨tables, tables', rest, hsome, hsome', hagree⟩
      · rw [hnone, hnone']
      · rw [hsome, hsome']
        dsimp only
        rw [vvaDecodeCtxBody, vvaDecodeCtxBody, ctxLoop_agree hagree]

end Storage

end Zupt.VaptVupt
