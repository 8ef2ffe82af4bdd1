import Zupt.VaptVupt.FrameRoundTrip
import Zupt.VaptVupt.FreshMemory

/-! # Contexts for small inputs

    `vv_fast_context_init` and `vv_fast_context_compress` of `vv_encoder.c`: a
    matcher with roots and links of 16 bits in storage of the caller, for
    independent inputs of at most 64 KiB.  Whatever a context was used for, its
    frames are those of `vv_compress`. -/

namespace Zupt.VaptVupt

open Zupt.ReadsAlike

/-! ## The context -/

/-- `fast_chain_slots`: a power of two that is no less than the input. -/
def fastChainSlots (max_input : Nat) : (turns slots : Nat) → Nat
  | 0, slots => slots
  | turns + 1, slots =>
      if slots < max_input then fastChainSlots max_input turns (slots * 2) else slots

/-- `vv_fast_context_size`, where the metadata take `meta_size` bytes. -/
def fastContextSize (meta_size max_input : Nat) : Nat :=
  if max_input = 0 ∨ 65536 < max_input then 0
  else
    meta_size + 2 ^ hcBits * 2 + fastChainSlots max_input max_input 1 * 2 + max_input +
      max_input / 255 + 1024

/-- `struct vv_fast_context_s`, with its tables.  Of the token scratch only the
    size matters. -/
structure FastContext where
  m : Matcher
  opts : Options
  max_input : Nat
  tmp_cap : Nat
  chain_slots : Nat

/-- A matcher of zeros over the tables of a context. -/
def zeroMatcher (storage : Roots16) : Matcher where
  table _ := 0
  chain _ := 0
  roots16 := some storage
  table4 _ := 0
  hash4_chain _ := 0
  table3 _ := 0
  hash3_chain _ := 0
  chain_mask := 0
  chain_depth := 0
  rep _ := 0
  wlog := 0
  use_hash4 := false
  use_hash3 := false
  single_probe := false
  max_match := 0
  accel := 0
  no_rep := false

/-- The options that a context takes. -/
def Options.fastOk (o : Options) : Prop :=
  o.mode = .ultraFast ∧ ¬ o.badWindow ∧ o.filter_x86 = false ∧ o.filter_arm64 = false ∧
    o.filter_auto = false

instance (o : Options) : Decidable o.fastOk := inferInstanceAs (Decidable (_ ∧ _))

/-- `vv_fast_context_init`: `storage` is what the tables in the storage of the caller
    hold, `none` the null pointer. -/
def fastContextInit (meta_size : Nat) (storage : Option Roots16) (aligned : Bool)
    (storage_cap max_input : Nat) (opts : Option Options) : Except VvError FastContext :=
  let required := fastContextSize meta_size max_input
  match storage, opts with
  | some storage, some opts =>
      if required = 0 ∨ ¬ opts.fastOk ∨ ¬ aligned then .error .param
      else if storage_cap < required then .error .overflow
      else
        .ok
          { m := zeroMatcher storage
            opts := opts
            max_input := max_input
            tmp_cap := max_input + max_input / 255 + 1024
            chain_slots := fastChainSlots max_input max_input 1 }
  | _, _ => .error .param

/-- The 16-bit roots that a small input can reach, set to none. -/
def clearRoots16 (src : Bytes) (len : Nat) (table16 : Nat → UInt16) : Nat → UInt16 := fun h =>
  if ∃ pos < len, pos + 4 ≤ len ∧ hashSafe src pos (len - pos) = h then 0xFFFF else table16 h

/-- `matcher_prepare` on a matcher with tables of 16 bits. -/
def Matcher.prepare16 (m : Matcher) (r : Roots16) (window_log wsz depth : Nat)
    (small : Option Bytes) : Matcher :=
  { m with
    roots16 := some
      { table16 := match small with
          | some src => clearRoots16 src src.length r.table16
          | none => fun _ => 0xFFFF
        chain16 := r.chain16 }
    chain_mask := wsz - 1
    chain_depth := depth
    rep := ![0, 0, 0]
    wlog := window_log
    use_hash4 := false
    use_hash3 := false
    single_probe := false
    accel := 0
    no_rep := false
    max_match := 65535 }

/-- The matcher of a frame of a context.  One without the tables cannot be. -/
def FastContext.prepared (ctx : FastContext) (src : Bytes) : Matcher :=
  let o := ctx.opts
  match ctx.m.roots16 with
  | some r =>
      { ctx.m.prepare16 r o.streamLog (min (2 ^ o.streamLog) ctx.chain_slots)
          (if o.depth_override ≠ 0 then min o.depth_override 4096 else 4)
          (if src.length < 4096 then some src else none) with
        single_probe := true
        accel := o.effectiveAccel
        no_rep := o.no_rep }
  | none => ctx.m

/-- The block of a frame of a context; there is no entropy stage, and no memory for one. -/
def FastContext.blockArgs (ctx : FastContext) (src : Bytes) (dst_cap : Nat) : EmitArgs where
  src := src
  block_start := 0
  braw := src.length
  last := true
  mode := .ultraFast
  wlog := ctx.opts.streamLog
  tcap := ctx.tmp_cap
  lit_cap := 0
  ent_cap := 0
  dst_cap := dst_cap
  min_match := minMatch
  compat_v246_5 := ctx.opts.compat_v246_5_decoder

/-- `vv_fast_context_compress`: the context as it leaves it, and the frame. -/
def FastContext.compress (C : EntropyCoders) (fresh : FreshTables) (ctx : FastContext) (src : Bytes)
    (dst_cap : Nat) : FastContext × Except VvError Bytes :=
  if ctx.max_input < src.length then (ctx, .error .param)
  else if dst_cap < compressBound src.length then (ctx, .error .overflow)
  else
    let o := ctx.opts
    let m := ctx.prepared src
    let header := frameHeaderPut
      { magic := 0x56560100
        version := 1
        flags := if o.checksum then 1 else 0
        mode_hint := Mode.hint .ultraFast
        window_log := UInt8.ofNat o.streamLog
        content_size := UInt64.ofNat src.length }
    let footer := if o.checksum then 12 else 0
    let emitted :=
      if 0 < src.length then
        emitBlock C fresh (ctx.blockArgs src (dst_cap - header.length - footer)) m
      else (m, some (bhPut .raw true 0))
    match emitted with
    | (m, none) => ({ ctx with m := m }, .error .overflow)
    | (m, some block) =>
        ({ ctx with m := m },
          .ok (header ++ block ++ if o.checksum then footerPut (xxh64 src 0) else []))

/-! ## Room for tokens -/

section Capacity

variable {A : BlockArgs} {m0 : Matcher} {s : Parse} {qs : List Seq} {cap : Nat}

/-- The block with more room for its tokens. -/
def BlockArgs.withCap (A : BlockArgs) (cap : Nat) : BlockArgs := { A with dst_cap := cap }

theorem length_le_emitSeq (lits : Bytes) (ml off offBytes min_match : Nat) :
    lits.length ≤ (emitSeq lits ml off offBytes min_match).length := by
  rw [emitSeq]
  simp only [List.length_append, List.length_cons]
  split <;> omega

/-- Where the tokens do not fit, they are longer than the block: `ll` literals wait, and a match
    of `mlen` bytes comes behind them. -/
theorem le_of_full {n cap out ll mlen : Nat} (hcap : n + n / 255 + 1024 ≤ cap)
    (hpart : ll + mlen ≤ n) (hfull : cap < out + (1 + extNeeded ll + ll + 2 + (mlen / 255 + 2))) :
    n ≤ out + ll := by
  have hext : extNeeded ll ≤ ll / 255 + 2 := by
    rw [extNeeded]
    split <;> omega
  omega

/-- A match that does not fit would have made the tokens longer than the block. -/
theorem emitMatch_capacity (hA : A.Fits m0) (h : s.Sound A m0 qs) {c : Chosen}
    (hc : c.Sound A s.m s.pos)
    (hbig : A.block_len + A.block_len / 255 + 1024 ≤ A.dst_cap) (hle : A.dst_cap ≤ cap) :
    (A.withCap cap).emitMatch s c = A.emitMatch s c ∨
      (∃ m, A.emitMatch s c = .error m) ∧
        ∀ s', (A.withCap cap).emitMatch s c = .ok s' → A.block_len ≤ s'.out.length := by
  have hinside := hA.inside
  have hstart := h.start_le
  have hlit := h.lit_le
  have hback := hc.pos_le
  have hroom := hc.room
  have hend : A.end = A.start_pos + A.block_len := rfl
  have hmlen : c.found.mlen ≤ A.end - c.pos := by
    rcases hc.good with hzero | ⟨-, -, hmax⟩
    · omega
    · exact hmax.trans (Nat.min_le_left _ _)
  have hlits : (A.lits s.lit_start c.pos).length = c.pos - s.lit_start := by
    rw [BlockArgs.lits, bytesAt, List.length_take_of_le]
    rw [List.length_drop]
    omega
  rw [BlockArgs.emitMatch, BlockArgs.emitMatch]
  dsimp only
  by_cases hfull : A.dst_cap < s.out.length + (1 + extNeeded (c.pos - s.lit_start) +
      (c.pos - s.lit_start) + 2 + (c.found.mlen / 255 + 2))
  · right
    rw [if_pos hfull]
    refine ⟨⟨_, rfl⟩, ?_⟩
    intro s' hs'
    split at hs'
    · cases hs'
    · cases hs'
      have hlong := le_of_full hbig (show c.pos - s.lit_start + c.found.mlen ≤ A.block_len by omega) hfull
      show A.block_len ≤ (s.out ++ emitSeq (A.lits s.lit_start c.pos) _ _ _ A.min_match).length
      rw [List.length_append]
      refine le_trans ?_ (Nat.add_le_add_left (length_le_emitSeq _ _ _ _ _) _)
      rw [hlits]
      exact hlong
  · left
    have hfits : ¬ (A.withCap cap).dst_cap < s.out.length + (1 + extNeeded (c.pos - s.lit_start) +
        (c.pos - s.lit_start) + 2 + (c.found.mlen / 255 + 2)) := by
      show ¬ cap < _
      omega
    rw [if_neg hfull, if_neg hfits]
    rfl

/-- A turn does not depend on the room, but where it ends for want of it the tokens would have
    been longer than the block. -/
theorem turn_capacity (hA : A.Fits m0) (h : s.Sound A m0 qs) (hroom : s.pos + A.min_match < A.end)
    (hbig : A.block_len + A.block_len / 255 + 1024 ≤ A.dst_cap) (hle : A.dst_cap ≤ cap) :
    (A.withCap cap).turn s = A.turn s ∨
      (∃ m, A.turn s = .error m) ∧
        ∀ s', (A.withCap cap).turn s = .ok s' → A.block_len ≤ s'.out.length := by
  have hc := A.choose_sound (h.fits hA) hroom
  by_cases hlen : A.min_match ≤ (A.choose s.m s.pos).found.mlen
  · have hturn : A.turn s = A.emitMatch s (A.choose s.m s.pos) := if_pos hlen
    have hturn' : (A.withCap cap).turn s = (A.withCap cap).emitMatch s (A.choose s.m s.pos) :=
      if_pos hlen
    rw [hturn, hturn']
    exact emitMatch_capacity hA h hc hbig hle
  · have hturn : A.turn s = A.skip s (A.choose s.m s.pos) := if_neg hlen
    have hturn' : (A.withCap cap).turn s = A.skip s (A.choose s.m s.pos) := if_neg hlen
    exact Or.inl (hturn'.trans hturn.symm)

theorem skip_out {c : Chosen} {s' : Parse} (h : A.skip s c = .ok s') : s'.out = s.out := by
  simp only [BlockArgs.skip] at h
  generalize (if c.pos_inserted then c.m else c.m.insert A.src c.pos A.end) = m at h
  by_cases hlean : m.accel = 0
  · rw [if_pos hlean] at h
    cases h
    rfl
  · rw [if_neg hlean] at h
    by_cases hstop : s.nmatch = 0 ∧ 2 ^ 17 ≤ c.pos + A.stride m s.failures - A.start_pos
    · rw [if_pos hstop] at h
      cases h
    · rw [if_neg hstop] at h
      cases h
      rfl

/-- Tokens are never taken back. -/
theorem turn_out {s' : Parse} (h : A.turn s = .ok s') : s.out.length ≤ s'.out.length := by
  rw [BlockArgs.turn] at h
  split at h
  · rw [BlockArgs.emitMatch] at h
    dsimp only at h
    split at h
    · cases h
    · cases h
      show s.out.length ≤ (s.out ++ _).length
      rw [List.length_append]
      exact Nat.le_add_right _ _
  · rw [skip_out h]

theorem loop_out (fuel : Nat) {s' : Parse} (h : A.loop fuel s = some (.ok s')) :
    s.out.length ≤ s'.out.length := by
  induction fuel generalizing s with
  | zero => cases h
  | succ fuel ih =>
      rw [BlockArgs.loop] at h
      split at h
      · cases hstep : A.turn s with
        | error m =>
            rw [hstep] at h
            cases h
        | ok s'' =>
            rw [hstep] at h
            exact (turn_out hstep).trans (ih h)
      · cases h
        exact Nat.le_refl _

/-- The loop does not depend on the room either. -/
theorem loop_capacity (hA : A.Fits m0) (hbig : A.block_len + A.block_len / 255 + 1024 ≤ A.dst_cap)
    (hle : A.dst_cap ≤ cap) (fuel : Nat) (h : s.Sound A m0 qs) :
    (A.withCap cap).loop fuel s = A.loop fuel s ∨
      (∃ m, A.loop fuel s = some (.error m)) ∧
        ∀ s', (A.withCap cap).loop fuel s = some (.ok s') → A.block_len ≤ s'.out.length := by
  induction fuel generalizing s qs with
  | zero => exact Or.inl rfl
  | succ fuel ih =>
      rw [BlockArgs.loop, BlockArgs.loop]
      by_cases hroom : s.pos + A.min_match < A.end
      · have hroom' : s.pos + (A.withCap cap).min_match < (A.withCap cap).end := hroom
        rw [if_pos hroom, if_pos hroom']
        rcases turn_capacity hA h hroom hbig hle with hsame | ⟨⟨m, hfail⟩, hlong⟩
        · rw [hsame]
          cases hstep : A.turn s with
          | error m => exact Or.inl rfl
          | ok s' =>
              obtain ⟨-, qs', hnext⟩ := turn_sound hA h hroom hstep
              exact ih hnext
        · right
          rw [hfail]
          refine ⟨⟨m, rfl⟩, ?_⟩
          intro s' hs'
          cases hstep : (A.withCap cap).turn s with
          | error m =>
              rw [hstep] at hs'
              cases hs'
          | ok s'' =>
              rw [hstep] at hs'
              exact (hlong s'' hstep).trans (loop_out fuel hs')
      · have hroom' : ¬ s.pos + (A.withCap cap).min_match < (A.withCap cap).end := hroom
        rw [if_neg hroom, if_neg hroom']
        exact Or.inl rfl

theorem finish_length {tmp : Bytes} (h : A.finish s = some tmp) :
    s.out.length + (A.lits s.lit_start A.end).length ≤ tmp.length := by
  simp only [BlockArgs.finish] at h
  split at h
  · cases h
  · obtain rfl := Option.some.inj h
    rw [List.length_append]
    exact Nat.add_le_add_left (length_le_emitSeq _ _ _ _ _) _

/-- The literals behind the last match. -/
theorem finish_capacity (hA : A.Fits m0) (h : s.Sound A m0 qs)
    (hbig : A.block_len + A.block_len / 255 + 1024 ≤ A.dst_cap) (hle : A.dst_cap ≤ cap) :
    (A.withCap cap).finish s = A.finish s ∨
      A.finish s = none ∧ ∀ tmp, (A.withCap cap).finish s = some tmp → A.block_len ≤ tmp.length := by
  have hinside := hA.inside
  have hstart := h.start_le
  have hend : A.end = A.start_pos + A.block_len := rfl
  have hlits : (A.lits s.lit_start A.end).length = A.end - s.lit_start := by
    rw [BlockArgs.lits, bytesAt, List.length_take_of_le]
    rw [List.length_drop]
    omega
  by_cases hfull : A.dst_cap < s.out.length + (1 + extNeeded (A.end - s.lit_start) +
      (A.end - s.lit_start))
  · right
    refine ⟨if_pos hfull, ?_⟩
    intro tmp htmp
    have hlong := le_of_full hbig (show A.end - s.lit_start + 0 ≤ A.block_len by omega)
      (hfull.trans_le (Nat.add_le_add_left (Nat.le_add_right _ 4) _))
    have hgrown : s.out.length + (A.lits s.lit_start A.end).length ≤ tmp.length :=
      finish_length (A := A.withCap cap) htmp
    rw [hlits] at hgrown
    exact hlong.trans hgrown
  · left
    have hfits : ¬ cap < s.out.length + (1 + extNeeded (A.end - s.lit_start) +
        (A.end - s.lit_start)) := by omega
    exact (if_neg hfits).trans (if_neg hfull).symm

theorem compressBlock_ok (h : A.loop (A.block_len + 1) (A.start m0) = some (.ok s)) :
    compressBlock A m0 = some (s.m, A.finish s) := by
  rw [compressBlock, h]

theorem compressBlock_error {m : Matcher}
    (h : A.loop (A.block_len + 1) (A.start m0) = some (.error m)) :
    compressBlock A m0 = some (m, none) := by
  rw [compressBlock, h]

/-- **ROOM FOR TOKENS DOES NOT MATTER**: with more than the block and a little takes, the parser
    makes the same tokens, or would have made some that are longer than the block. -/
theorem compressBlock_capacity (hA : A.Fits m0)
    (hbig : A.block_len + A.block_len / 255 + 1024 ≤ A.dst_cap) (hle : A.dst_cap ≤ cap) :
    compressBlock (A.withCap cap) m0 = compressBlock A m0 ∨
      (∃ m, compressBlock A m0 = some (m, none)) ∧
        ∀ m tmp, compressBlock (A.withCap cap) m0 = some (m, some tmp) → A.block_len ≤ tmp.length := by
  obtain ⟨r, hr, hsound⟩ := loop_sound hA (A.block_len + 1) (A.start m0) [] (start_sound hA)
    (show A.start_pos + A.block_len - A.start_pos < A.block_len + 1 by omega)
  rcases loop_capacity hA hbig hle (A.block_len + 1) (start_sound hA) with
    hsame | ⟨⟨m, hfail⟩, hlong⟩
  · rw [hr] at hsame
    cases r with
    | error m => exact Or.inl ((compressBlock_error hsame).trans (compressBlock_error hr).symm)
    | ok s =>
        obtain ⟨qs, hs⟩ := hsound
        rw [compressBlock_ok hsame, compressBlock_ok hr]
        rcases finish_capacity hA hs hbig hle with heq | ⟨hnone, hlong⟩
        · exact Or.inl (by rw [heq])
        · right
          refine ⟨⟨s.m, by rw [hnone]⟩, ?_⟩
          intro m tmp h
          exact hlong tmp (Prod.mk.inj (Option.some.inj h)).2
  · right
    refine ⟨⟨m, compressBlock_error hfail⟩, ?_⟩
    intro m' tmp h
    cases hloop : (A.withCap cap).loop (A.block_len + 1) (A.start m0) with
    | none =>
        rw [compressBlock, show (A.withCap cap).loop ((A.withCap cap).block_len + 1)
          ((A.withCap cap).start m0) = none from hloop] at h
        cases h
    | some r =>
        cases r with
        | error m =>
            rw [compressBlock_error hloop] at h
            cases h
        | ok s =>
            rw [compressBlock_ok hloop] at h
            have hgrown := finish_length (Prod.mk.inj (Option.some.inj h)).2
            exact (hlong s hloop).trans ((Nat.le_add_right _ _).trans hgrown)

end Capacity

end Zupt.VaptVupt
