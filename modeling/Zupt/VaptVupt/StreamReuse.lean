import Zupt.VaptVupt.CStreamAtomic
import Zupt.VaptVupt.FreshMemory
import Zupt.VaptVupt.StreamRoundTrip

/-! # Streams that were used before

    What a stream writes from the start of a frame on is a function of its options
    and its chunks: neither what `malloc` returned for its tables nor what earlier
    frames left in them gets into it, as long as its buffer moves by whole windows
    or with no root left. -/

namespace Zupt.VaptVupt

open Zupt.ReadsAlike Zupt.HashChain

/-! ## Tables that move -/

/-- Roots and links that move by a multiple of the number of cells. -/
theorem TablesAlike.rebase {addr : Nat → Nat} {K : Nat → Prop} {v v' : View Nat}
    (h : TablesAlike addr anywhere K v v') {d : Nat}
    (haddr : ∀ p, d ≤ p → addr (p - d) = addr p) :
    TablesAlike addr anywhere K (v.map (rebase d)) (v'.map (rebase d)) := by
  obtain ⟨W, hcells, halike⟩ := h
  refine ⟨W, hcells, halike.map ?_⟩
  intro x hx
  rw [HashChain.rebase] at hx ⊢
  by_cases hd : (d : Int) ≤ x
  · rw [if_pos hd]
    refine ⟨by omega, fun hw => hcells.closed _ _ hw trivial ?_⟩
    have hsub : (x - d).toNat = x.toNat - d := by omega
    rw [hsub]
    exact haddr _ (by omega)
  · rw [if_neg hd] at hx
    exact absurd hx (by decide)

/-- A table with no root left. -/
theorem tablesAlike_gone {addr : Nat → Nat} {K : Nat → Prop} {v v' : View Nat} {d : Nat}
    (h : ∀ k, v.root k < (d : Int)) (hsame : ∀ k, K k → v'.root k = v.root k) :
    TablesAlike addr anywhere K (v.map (rebase d)) (v'.map (rebase d)) := by
  refine tablesAlike_cleared (fun k _ => ?_) (fun k hk => ?_)
  · exact if_neg (by have hk := h k; omega)
  · show HashChain.rebase d (v'.root k) = -1
    rw [hsame k hk]
    exact if_neg (by have hk := h k; omega)

/-! ## The tables of a stream -/

/-- What no call changes of a stream and its tables. -/
structure CStream.Tables (ctx : CStream) : Prop where
  log : ctx.wlog = ctx.opts.streamLog
  cap : ctx.src_cap = 2 ^ ctx.wlog * 2 + maxBlockSize
  mask : ctx.m.chain_mask = 2 ^ ctx.wlog - 1
  plain : ctx.m.roots16 = none
  no_hash4 : ctx.m.use_hash4 = false

section Tables

variable {ctx ctx' : CStream} {C : EntropyCoders}

theorem insertAll_roots16 (m : Matcher) (src : Bytes) («end» : Nat) (ps : List Nat) :
    (m.insertAll src «end» ps).roots16 = none ↔ m.roots16 = none := by
  induction ps generalizing m with
  | nil => rfl
  | cons p ps ih =>
      have hone : (m.insert src p «end»).roots16 = none ↔ m.roots16 = none := by
        rw [Matcher.insert]
        split
        · rfl
        · exact insertHashed_roots16 m src p _
      exact (ih (m.insert src p «end»)).trans hone

theorem create_tables {fresh : FreshStream} {opts : Option Options}
    (h : cstreamCreate fresh opts = some ctx) : ctx.Tables := by
  rw [cstreamCreate] at h
  generalize opts.getD defaultOptions = o at h
  dsimp only at h
  by_cases hrefused : ¬ o.validCstream = true ∨ o.badWindow
  · rw [if_pos hrefused] at h
    cases h
  · rw [if_neg hrefused] at h
    obtain rfl := Option.some.inj h
    refine ⟨rfl, rfl, ?_, ?_, ?_⟩
    · dsimp only
      split <;> rfl
    · dsimp only
      split <;> rfl
    · dsimp only
      split <;> rfl

theorem compact_tables (ctx : CStream) (n : Nat) :
    (ctx.compact n).opts = ctx.opts ∧ (ctx.compact n).wlog = ctx.wlog ∧
      (ctx.compact n).src_cap = ctx.src_cap ∧ (ctx.compact n).m.chain_mask = ctx.m.chain_mask ∧
      (ctx.compact n).m.roots16 = ctx.m.roots16 ∧
      (ctx.compact n).m.use_hash4 = ctx.m.use_hash4 := by
  by_cases h : ctx.Compacts n
  · rw [compact_of h]
    exact ⟨rfl, rfl, rfl, rfl, rfl, rfl⟩
  · rw [compact_of_not h]
    exact ⟨rfl, rfl, rfl, rfl, rfl, rfl⟩

theorem CStream.Tables.compact (h : ctx.Tables) (n : Nat) : (ctx.compact n).Tables := by
  obtain ⟨hopts, hlog, hcap, hmask, hroots, hfour⟩ := compact_tables ctx n
  refine ⟨?_, ?_, ?_, ?_, ?_⟩
  · rw [hopts, hlog, h.log]
  · rw [hcap, hlog, h.cap]
  · rw [hmask, hlog, h.mask]
  · rw [hroots, h.plain]
  · rw [hfour, h.no_hash4]

theorem CStream.Tables.append (h : ctx.Tables) (chunk : Bytes) : (ctx.append chunk).Tables := by
  rw [CStream.append]
  split
  · have hcompact := h.compact chunk.length
    exact ⟨hcompact.log, hcompact.cap, hcompact.mask, hcompact.plain, hcompact.no_hash4⟩
  · exact h

theorem CStream.Tables.marked (h : ctx.Tables) : CStream.Tables { ctx with header_emitted := true } :=
  ⟨h.log, h.cap, h.mask, h.plain, h.no_hash4⟩

theorem CStream.Tables.call (h : ctx.Tables) (fresh : FreshTables) (c : ChunkCall) :
    (ctx.compressChunk C fresh c).1.Tables := by
  by_cases htakes : ctx.Takes c
  · obtain ⟨ps, -, rep, hm⟩ := compressChunk_inserts C fresh htakes
    have hsame := (ctx.append c.chunk).m.insertAll_same (ctx.append c.chunk).src_buf
      (ctx.append c.chunk).src_buf.length ps
    have happend := h.append c.chunk
    rw [compressChunk_frame C fresh htakes, hm]
    exact ⟨happend.log, happend.cap, hsame.chain_mask.trans happend.mask,
      (insertAll_roots16 _ _ _ _).mpr happend.plain, hsame.use_hash4.trans happend.no_hash4⟩
  · rw [compressChunk_refused C fresh htakes]
    exact h

/-- A reset that was not refused. -/
theorem reset_ok {opts : Option Options} (h : ctx.reset opts = .ok ctx') :
    (opts.getD ctx.opts = ctx.opts ∨ (opts.getD ctx.opts).streamLog = ctx.wlog) ∧ ctx' =
      { ctx with
        opts := opts.getD ctx.opts
        m := ((opts.getD ctx.opts).configure { ctx.m with
          use_hash3 := (opts.getD ctx.opts).effectiveFormatV2
          max_match := if (opts.getD ctx.opts).effectiveFormatV2 then 65534 else 65535 }).reset
        src_buf := []
        global_offset := 0
        cks := if (opts.getD ctx.opts).checksum then xxh64Init ctx.cks 0 else ctx.cks
        header_emitted := false } := by
  cases opts with
  | none => exact ⟨Or.inl rfl, (Except.ok.inj h).symm⟩
  | some o =>
      simp only [CStream.reset] at h
      split at h
      · cases h
      · rename_i hkept
        refine ⟨Or.inr ?_, (Except.ok.inj h).symm⟩
        by_contra hlog
        exact hkept (decide_eq_true (Or.inr (Or.inr hlog)))

theorem CStream.Tables.reset (h : ctx.Tables) {opts : Option Options}
    (hreset : ctx.reset opts = .ok ctx') : ctx'.Tables := by
  obtain ⟨hlog, rfl⟩ := reset_ok hreset
  refine ⟨?_, h.cap, h.mask, h.plain, rfl⟩
  show ctx.wlog = (opts.getD ctx.opts).streamLog
  rcases hlog with hsame | hlog
  · rw [hsame]
    exact h.log
  · exact hlog.symm

theorem CStream.Reached.tables (h : ctx.Reached) : ctx.Tables := by
  induction h with
  | create h => exact create_tables h
  | call _ C fresh c ih => exact ih.call fresh c
  | reset _ hreset ih => exact ih.reset hreset

end Tables

/-! ## Streams that write alike -/

/-- Two streams that differ in nothing that a call can reach. -/
structure CStream.Alike (ctx ctx' : CStream) : Prop where
  opts : ctx'.opts = ctx.opts
  src_buf : ctx'.src_buf = ctx.src_buf
  header_emitted : ctx'.header_emitted = ctx.header_emitted
  tables : ctx.Tables
  tables' : ctx'.Tables
  m : ctx.m.Alike ctx.opts.mode anywhere (clearedKeys none) ctx'.m
  cks : ctx.opts.checksum = true →
    ∃ data, HashingFrom 0 ctx.cks data ∧ HashingFrom 0 ctx'.cks data

/-- A compaction moves whole windows, or all that the first table knows is gone. -/
def CStream.Aligned (ctx : CStream) (n : Nat) : Prop :=
  ctx.Compacts n → 2 ^ ctx.wlog ∣ ctx.drop ∨ ∀ h, ctx.m.table h < (ctx.drop : Int)

section Alike

variable {ctx ctx' : CStream} {C : EntropyCoders}

theorem CStream.Alike.wlog (h : ctx.Alike ctx') : ctx'.wlog = ctx.wlog := by
  rw [h.tables.log, h.tables'.log, h.opts]

theorem CStream.Alike.src_cap (h : ctx.Alike ctx') : ctx'.src_cap = ctx.src_cap := by
  rw [h.tables.cap, h.tables'.cap, h.wlog]

theorem CStream.Alike.drop (h : ctx.Alike ctx') : ctx'.drop = ctx.drop := by
  rw [CStream.drop, CStream.drop, h.wlog, h.src_buf]

theorem CStream.Alike.compacts (h : ctx.Alike ctx') (n : Nat) : ctx'.Compacts n ↔ ctx.Compacts n := by
  rw [CStream.Compacts, CStream.Compacts, h.src_cap, h.src_buf, h.drop]

/-- The first table after a compaction. -/
theorem shift_first {m : Matcher} (h : m.roots16 = none) (d : Nat) :
    (m.shift d).first = m.first.map (rebase d) := by
  rw [first_plain h, first_plain (show (m.shift d).roots16 = none from h)]
  rfl

/-- **A COMPACTION** keeps streams alike, if it moves whole windows or leaves no root. -/
theorem CStream.Alike.compact (h : ctx.Alike ctx') {n : Nat} (haligned : ctx.Aligned n) :
    (ctx.compact n).Alike (ctx'.compact n) := by
  by_cases hc : ctx.Compacts n
  · have hroot (k : Nat) : ctx'.m.first.root k = ctx.m.first.root k := by
      obtain ⟨W, -, halike⟩ := h.m.first
      exact halike.root k trivial
    have hfirst : TablesAlike (ctx.m.shift ctx.drop).addr anywhere (clearedKeys none)
        (ctx.m.shift ctx.drop).first (ctx'.m.shift ctx.drop).first := by
      rw [shift_first h.tables.plain, shift_first h.tables'.plain]
      rcases haligned hc with ⟨j, hj⟩ | hgone
      · refine h.m.first.rebase fun p hp => ?_
        rw [Matcher.addr, Matcher.addr, h.tables.mask, Nat.and_two_pow_sub_one_eq_mod,
          Nat.and_two_pow_sub_one_eq_mod]
        have hsum : p = p - ctx.drop + 2 ^ ctx.wlog * j := by
          omega
        conv_rhs => rw [hsum, Nat.add_mul_mod_self_left]
      · refine tablesAlike_gone (fun k => ?_) fun k _ => hroot k
        rw [first_plain h.tables.plain]
        exact hgone k
    have htables := h.tables.compact n
    have htables' := h.tables'.compact n
    rw [compact_of hc] at htables ⊢
    rw [compact_of ((h.compacts n).mpr hc), h.drop] at htables' ⊢
    refine ⟨h.opts, ?_, h.header_emitted, htables, htables', ?_, h.cks⟩
    · exact congrArg (List.drop ctx.drop) h.src_buf
    · refine ⟨h.m.settings, h.m.addr, Or.inl ⟨h.tables.plain, h.tables'.plain⟩, hfirst, ?_, h.m.third⟩
      intro huse
      have hoff : ctx.m.use_hash4 = true := huse
      rw [h.tables.no_hash4] at hoff
      cases hoff
  · rw [compact_of_not hc, compact_of_not (mt (h.compacts n).mp hc)]
    exact h

theorem CStream.Alike.append (h : ctx.Alike ctx') {chunk : Bytes}
    (haligned : ctx.Aligned chunk.length) : (ctx.append chunk).Alike (ctx'.append chunk) := by
  have htables := h.tables.append chunk
  have htables' := h.tables'.append chunk
  rw [CStream.append] at htables htables' ⊢
  rw [CStream.append]
  by_cases hsome : 0 < chunk.length
  · have hcompact := h.compact haligned
    rw [if_pos hsome] at htables htables' ⊢
    rw [if_pos hsome]
    refine ⟨hcompact.opts, ?_, hcompact.header_emitted, htables, htables', hcompact.m, ?_⟩
    · exact congrArg (· ++ chunk) hcompact.src_buf
    · intro hsum
      obtain ⟨data, hdata, hdata'⟩ := hcompact.cks hsum
      have hsum' : (ctx'.compact chunk.length).opts.checksum = true := by
        rw [hcompact.opts]
        exact hsum
      refine ⟨data ++ chunk, ?_, ?_⟩
      · dsimp only
        rw [if_pos hsum]
        exact hashingFrom_update hdata chunk
      · dsimp only
        rw [if_pos hsum']
        exact hashingFrom_update hdata' chunk
  · rw [if_neg hsome, if_neg hsome]
    exact h

/-- Two checksums of the same bytes. -/
theorem finalize_alike {seed : UInt64} {s s' : Xxh64State} {data : Bytes}
    (h : HashingFrom seed s data) (h' : HashingFrom seed s' data) :
    xxh64Finalize s' = xxh64Finalize s := by
  obtain ⟨hv, hbuf⟩ := Prod.mk.inj (h.fed.symm.trans h'.fed)
  rw [xxh64Finalize, xxh64Finalize, h.total, h'.total, h.seeded, h'.seeded, hv, hbuf]

theorem emitBlock_plain (C : EntropyCoders) (fresh : FreshTables) (a : EmitArgs) (m : Matcher)
    (hmin : 1 ≤ a.min_match) :
    (emitBlock C fresh a m).1.SameSettings { m with rep := (emitBlock C fresh a m).1.rep } ∧
      ((emitBlock C fresh a m).1.roots16 = none ↔ m.roots16 = none) := by
  obtain ⟨hi, ps, rep, hm, -⟩ := emitBlock_inserted C fresh a m hmin
  have hsame := m.insertAll_same a.src (a.block_start + a.braw) ps
  rw [hm]
  exact ⟨⟨hsame.chain_mask.symm, hsame.chain_depth.symm, rfl, hsame.wlog.symm, hsame.use_hash4.symm,
    hsame.use_hash3.symm, hsame.single_probe.symm, hsame.max_match.symm, hsame.accel.symm,
    hsame.no_rep.symm⟩, insertAll_roots16 _ _ _ _⟩

/-- The matcher of a stream after a block. -/
theorem CStream.Tables.emitted (h : ctx.Tables) (fresh : FreshTables) (n cap : Nat) (last : Bool) :
    CStream.Tables { ctx with m := (emitBlock C fresh (ctx.blockArgs n cap last) ctx.m).1 } := by
  have hmin : 1 ≤ (ctx.blockArgs n cap last).min_match := by
    show 1 ≤ if ctx.opts.effectiveFormatV2 then 3 else minMatch
    split <;> decide
  obtain ⟨hsame, hroots⟩ := emitBlock_plain C fresh (ctx.blockArgs n cap last) ctx.m hmin
  exact ⟨h.log, h.cap, hsame.chain_mask.symm.trans h.mask, hroots.mpr h.plain,
    hsame.use_hash4.symm.trans h.no_hash4⟩

/-- **THE BLOCK OF A CHUNK** is the same. -/
theorem CStream.Alike.block (h : ctx.Alike ctx') (fresh fresh' : FreshTables) {n : Nat}
    (hn : n ≤ ctx.src_buf.length) (cap : Nat) (last : Bool) :
    (ctx'.block C fresh' n cap last).2 = (ctx.block C fresh n cap last).2 ∧
      (ctx.block C fresh n cap last).1.Alike (ctx'.block C fresh' n cap last).1 := by
  rw [CStream.block, CStream.block]
  by_cases hnone : n = 0
  · rw [if_pos hnone, if_pos hnone]
    cases last with
    | false => exact ⟨rfl, h⟩
    | true =>
        by_cases hfull : cap < 4
        · rw [if_pos rfl, if_pos rfl, if_pos hfull, if_pos hfull]
          exact ⟨rfl, h⟩
        · rw [if_pos rfl, if_pos rfl, if_neg hfull, if_neg hfull]
          exact ⟨rfl, h⟩
  · rw [if_neg hnone, if_neg hnone]
    have hargs : ctx'.blockArgs n cap last = ctx.blockArgs n cap last := by
      rw [CStream.blockArgs, CStream.blockArgs, h.src_buf, h.opts, h.wlog]
    have hfits : (ctx.blockArgs n cap last).block_start + (ctx.blockArgs n cap last).braw ≤
        (ctx.blockArgs n cap last).src.length := by
      show ctx.src_buf.length - n + n ≤ ctx.src_buf.length
      omega
    obtain ⟨hblock, hm⟩ := emitBlock_alike C fresh fresh' (a := ctx.blockArgs n cap last) h.m
      (covers_none _ _) hfits
    have htables := h.tables.emitted (C := C) fresh n cap last
    have htables' := h.tables'.emitted (C := C) fresh' n cap last
    rw [hargs] at htables' ⊢
    rcases hr : emitBlock C fresh (ctx.blockArgs n cap last) ctx.m with ⟨m, r⟩
    rcases hr' : emitBlock C fresh' (ctx.blockArgs n cap last) ctx'.m with ⟨m', r'⟩
    rw [hr] at hblock hm htables
    rw [hr'] at hblock hm htables'
    dsimp only at hblock
    subst hblock
    have hnext : CStream.Alike { ctx with m := m } { ctx' with m := m' } :=
      ⟨h.opts, h.src_buf, h.header_emitted, htables, htables', hm, h.cks⟩
    cases r' with
    | none => exact ⟨rfl, hnext⟩
    | some block => exact ⟨rfl, hnext⟩

theorem CStream.Alike.footer (h : ctx.Alike ctx') (cap : Nat) (last : Bool) :
    ctx'.footer cap last = ctx.footer cap last := by
  rw [CStream.footer, CStream.footer, h.opts]
  by_cases hsum : last = true ∧ ctx.opts.checksum = true
  · obtain ⟨data, hdata, hdata'⟩ := h.cks hsum.2
    rw [if_pos hsum, if_pos hsum, finalize_alike hdata hdata']
  · rw [if_neg hsum, if_neg hsum]

/-- The header marks both. -/
theorem CStream.Alike.header (h : ctx.Alike ctx') (cap : Nat) :
    (∃ e, ctx.header cap = .error e ∧ ctx'.header cap = .error e) ∨
      ∃ put, ctx.header cap = .ok ({ ctx with header_emitted := true }, put) ∧
        ctx'.header cap = .ok ({ ctx' with header_emitted := true }, put) := by
  have hdone' := h.header_emitted
  rw [CStream.header, CStream.header]
  cases hdone : ctx.header_emitted with
  | true =>
      rw [hdone] at hdone'
      refine Or.inr ⟨[], ?_, ?_⟩
      · rw [if_pos rfl, ← hdone]
      · rw [if_pos hdone', ← hdone']
  | false =>
      rw [hdone] at hdone'
      have hpending : ¬ ctx'.header_emitted = true := by
        rw [hdone']
        exact Bool.false_ne_true
      rw [if_neg Bool.false_ne_true, if_neg hpending, h.opts, h.wlog]
      by_cases hfull : cap < 16
      · rw [if_pos hfull]
        exact Or.inl ⟨.overflow, rfl, if_pos hfull⟩
      · rw [if_neg hfull]
        exact Or.inr ⟨_, rfl, if_neg hfull⟩

/-- The chunk lies at the end of the buffer. -/
theorem append_length (ctx : CStream) (chunk : Bytes) :
    chunk.length ≤ (ctx.append chunk).src_buf.length := by
  rw [CStream.append]
  split
  · dsimp only
    rw [List.length_append]
    exact Nat.le_add_left _ _
  · omega

/-- **A CALL** has the same outcome and keeps streams alike. -/
theorem CStream.Alike.call (h : ctx.Alike ctx') (fresh fresh' : FreshTables) {c : ChunkCall}
    (haligned : ctx.Aligned c.chunk.length) :
    (ctx'.compressChunk C fresh' c).2 = (ctx.compressChunk C fresh c).2 ∧
      (ctx.compressChunk C fresh c).1.Alike (ctx'.compressChunk C fresh' c).1 := by
  rw [CStream.compressChunk, CStream.compressChunk]
  by_cases hlong : maxBlockSize < c.chunk.length
  · rw [if_pos hlong, if_pos hlong]
    exact ⟨rfl, h⟩
  rw [if_neg hlong, if_neg hlong]
  rcases h.header c.dst_cap with ⟨e, he, he'⟩ | ⟨put, hput, hput'⟩
  · rw [he, he']
    exact ⟨rfl, h⟩
  rw [hput, hput']
  dsimp only
  have hmarked : CStream.Alike { ctx with header_emitted := true }
      { ctx' with header_emitted := true } :=
    ⟨h.opts, h.src_buf, rfl, h.tables.marked, h.tables'.marked, h.m, h.cks⟩
  have hchunk : ({ ctx with header_emitted := true }.append c.chunk).Alike
      ({ ctx' with header_emitted := true }.append c.chunk) := hmarked.append haligned
  obtain ⟨hblock, hnext⟩ := hchunk.block (C := C) fresh fresh' (append_length _ c.chunk)
    (c.dst_cap - put.length) c.is_last
  rcases hr : ({ ctx with header_emitted := true }.append c.chunk).block C fresh c.chunk.length
    (c.dst_cap - put.length) c.is_last with ⟨next, r⟩
  rcases hr' : ({ ctx' with header_emitted := true }.append c.chunk).block C fresh' c.chunk.length
    (c.dst_cap - put.length) c.is_last with ⟨next', r'⟩
  rw [hr, hr'] at hblock hnext ⊢
  dsimp only at hblock hnext
  subst hblock
  cases r' with
  | error e => exact ⟨rfl, hnext⟩
  | ok block =>
      dsimp only
      rw [hnext.footer]
      cases next.footer (c.dst_cap - put.length - block.length) c.is_last with
      | error e => exact ⟨rfl, hnext⟩
      | ok footer => exact ⟨rfl, hnext⟩

end Alike

/-! ## Runs -/

/-- What each of the calls of a run wrote, or how it failed. -/
def CStream.outcomes (C : EntropyCoders) : CStream → List StreamCall → List (Except VvError Bytes)
  | _, [] => []
  | ctx, (fresh, c) :: rest =>
      (ctx.compressChunk C fresh c).2 :: (ctx.compressChunk C fresh c).1.outcomes C rest

/-- Every compaction of the run is aligned. -/
def CStream.AllAligned (C : EntropyCoders) : CStream → List StreamCall → Prop
  | _, [] => True
  | ctx, (fresh, c) :: rest =>
      ctx.Aligned c.chunk.length ∧ (ctx.compressChunk C fresh c).1.AllAligned C rest

theorem CStream.Alike.outcomes {C : EntropyCoders} {ctx ctx' : CStream} (h : ctx.Alike ctx')
    {calls calls' : List StreamCall} (hcalls : calls'.map Prod.snd = calls.map Prod.snd)
    (haligned : ctx.AllAligned C calls) : ctx'.outcomes C calls' = ctx.outcomes C calls := by
  induction calls generalizing ctx ctx' calls' with
  | nil =>
      rw [List.map_nil, List.map_eq_nil_iff] at hcalls
      rw [hcalls]
      rfl
  | cons call calls ih =>
      cases calls' with
      | nil => cases hcalls
      | cons call' calls' =>
          obtain ⟨fresh, c⟩ := call
          obtain ⟨fresh', c'⟩ := call'
          obtain ⟨hc, hrest⟩ := List.cons.inj hcalls
          obtain rfl : c' = c := hc
          obtain ⟨hout, hnext⟩ := h.call (C := C) fresh fresh' haligned.1
          rw [CStream.outcomes, CStream.outcomes, hout, ih hnext hrest haligned.2]

section Room

variable {C : EntropyCoders} {ctx : CStream}

/-- What a call leaves in the buffer: what was there, or the chunk behind what was there or
    behind the window that a compaction kept. -/
theorem call_buffer (C : EntropyCoders) (ctx : CStream) (fresh : FreshTables) (c : ChunkCall) :
    (ctx.compressChunk C fresh c).1.wlog = ctx.wlog ∧
      (ctx.compressChunk C fresh c).1.src_cap = ctx.src_cap ∧
      ((ctx.compressChunk C fresh c).1.src_buf = ctx.src_buf ∨
        (ctx.compressChunk C fresh c).1.src_buf = ctx.src_buf ++ c.chunk ∨
        (ctx.Compacts c.chunk.length ∧
          (ctx.compressChunk C fresh c).1.src_buf = ctx.src_buf.drop ctx.drop ++ c.chunk)) := by
  by_cases htakes : ctx.Takes c
  · rw [compressChunk_frame C fresh htakes, CStream.append]
    split
    · by_cases hc : ctx.Compacts c.chunk.length
      · rw [compact_of hc]
        exact ⟨rfl, rfl, Or.inr (Or.inr ⟨hc, rfl⟩)⟩
      · rw [compact_of_not hc]
        exact ⟨rfl, rfl, Or.inr (Or.inl rfl)⟩
    · exact ⟨rfl, rfl, Or.inl rfl⟩
  · rw [compressChunk_refused C fresh htakes]
    exact ⟨rfl, rfl, Or.inl rfl⟩

/-- Chunks that the buffer has room for are never moved. -/
theorem allAligned_of_room {calls : List StreamCall}
    (hroom : ctx.src_buf.length + (calls.flatMap fun c => c.2.chunk).length ≤ ctx.src_cap) :
    ctx.AllAligned C calls := by
  induction calls generalizing ctx with
  | nil => trivial
  | cons call calls ih =>
      obtain ⟨fresh, c⟩ := call
      rw [List.flatMap_cons, List.length_append] at hroom
      dsimp only at hroom
      have hstays : ¬ ctx.Compacts c.chunk.length := by
        rintro ⟨hfull, -⟩
        omega
      obtain ⟨-, hcap, hbuf⟩ := call_buffer C ctx fresh c
      refine ⟨fun hc => absurd hc hstays, ih ?_⟩
      rw [hcap]
      rcases hbuf with hbuf | hbuf | ⟨hc, -⟩
      · rw [hbuf]
        omega
      · rw [hbuf, List.length_append]
        omega
      · exact absurd hc hstays

/-- Chunks of whole windows move the buffer by whole windows. -/
theorem allAligned_of_windows {calls : List StreamCall} (hbuf : 2 ^ ctx.wlog ∣ ctx.src_buf.length)
    (hcalls : ∀ c ∈ calls, 2 ^ ctx.wlog ∣ c.2.chunk.length) : ctx.AllAligned C calls := by
  induction calls generalizing ctx with
  | nil => trivial
  | cons call calls ih =>
      obtain ⟨fresh, c⟩ := call
      have hchunk : 2 ^ ctx.wlog ∣ c.chunk.length := hcalls (fresh, c) List.mem_cons_self
      have hdrop : 2 ^ ctx.wlog ∣ ctx.drop := by
        rw [CStream.drop]
        split
        · exact Nat.dvd_sub hbuf (dvd_refl _)
        · exact Nat.dvd_sub hbuf hbuf
      obtain ⟨hlog, -, hnext⟩ := call_buffer C ctx fresh c
      refine ⟨fun _ => Or.inl hdrop, ih ?_ ?_⟩
      · rw [hlog]
        rcases hnext with hnext | hnext | ⟨-, hnext⟩
        · rw [hnext]
          exact hbuf
        · rw [hnext, List.length_append]
          exact Nat.dvd_add hbuf hchunk
        · rw [hnext, List.length_append, List.length_drop]
          exact Nat.dvd_add (Nat.dvd_sub hbuf hdrop) hchunk
      · intro c' hc'
        rw [hlog]
        exact hcalls c' (List.mem_cons_of_mem _ hc')

end Room

/-! ## The start of a frame -/

/-- What a stream of these options starts with. -/
def Options.startSettings (o : Options) : Settings where
  chain_depth := o.depth
  rep := ![0, 0, 0]
  wlog := o.streamLog
  use_hash4 := false
  use_hash3 := o.effectiveFormatV2
  single_probe := o.mode = .ultraFast
  max_match := if o.effectiveFormatV2 then 65534 else 65535
  accel := o.effectiveAccel
  no_rep := o.no_rep

/-- A stream whose tables hold no root. -/
structure CStream.Cleared (ctx : CStream) : Prop where
  tables : ctx.Tables
  settings : ctx.m.settings = ctx.opts.startSettings
  table : ∀ h, ctx.m.table h = -1
  table3 : ctx.m.use_hash3 = true → ∀ h, ctx.m.table3 h = -1
  src_buf : ctx.src_buf = []
  pending : ctx.header_emitted = false
  cks : ctx.opts.checksum = true → HashingFrom 0 ctx.cks []

section Start

variable {ctx ctx' : CStream}

theorem create_cleared {fresh : FreshStream} {opts : Option Options}
    (h : cstreamCreate fresh opts = some ctx) : ctx.Cleared := by
  have htables := create_tables h
  obtain ⟨-, hbehind, hpending⟩ := create_starts h
  rw [cstreamCreate] at h
  generalize opts.getD defaultOptions = o at h
  dsimp only at h
  by_cases hrefused : ¬ o.validCstream = true ∨ o.badWindow
  · rw [if_pos hrefused] at h
    cases h
  rw [if_neg hrefused] at h
  obtain rfl := Option.some.inj h
  refine ⟨htables, ?_, ?_, ?_, rfl, rfl, hbehind.cks⟩
  · rw [Options.startSettings]
    dsimp only
    cases o.effectiveFormatV2 <;> rfl
  · intro h
    dsimp only
    cases o.effectiveFormatV2 <;> rfl
  · dsimp only
    cases o.effectiveFormatV2 with
    | false =>
        intro huse
        cases huse
    | true =>
        intro _ h
        rfl

theorem reset_cleared (h : ctx.Reached) {opts : Option Options} (hreset : ctx.reset opts = .ok ctx') :
    ctx'.Cleared := by
  have hsane := h.sane
  have htables := h.tables.reset hreset
  obtain ⟨-, hbehind, -⟩ := reset_starts hsane hreset
  obtain ⟨-, rfl⟩ := reset_ok hreset
  refine ⟨htables, ?_, fun h => rfl, fun _ h => rfl, rfl, rfl, hbehind.cks⟩
  have hlog : ctx.wlog = (opts.getD ctx.opts).streamLog := htables.log
  rw [Options.startSettings, ← hlog, ← hsane.wlog]
  rfl

theorem CStream.AtStart.cleared (h : ctx.AtStart) : ctx.Cleared := by
  cases h with
  | create h => exact create_cleared h
  | reset h hreset => exact reset_cleared h hreset

/-- Two such streams of the same options. -/
theorem CStream.Cleared.alike (h : ctx.Cleared) (h' : ctx'.Cleared) (hopts : ctx'.opts = ctx.opts) :
    ctx.Alike ctx' := by
  have hset : ctx'.m.settings = ctx.m.settings := by
    rw [h'.settings, h.settings, hopts]
  have hlog : ctx'.wlog = ctx.wlog := by
    rw [h.tables.log, h'.tables.log, hopts]
  have huse : ctx'.m.use_hash3 = ctx.m.use_hash3 := congrArg Settings.use_hash3 hset
  refine ⟨hopts, h'.src_buf.trans h.src_buf.symm, h'.pending.trans h.pending.symm, h.tables,
    h'.tables, ⟨hset, ?_, Or.inl ⟨h.tables.plain, h'.tables.plain⟩, ?_, ?_, ?_⟩, ?_⟩
  · intro p q _ _
    rw [Matcher.addr, Matcher.addr, Matcher.addr, Matcher.addr, h.tables.mask, h'.tables.mask, hlog]
  · rw [first_plain h.tables.plain, first_plain h'.tables.plain]
    exact tablesAlike_cleared (fun k _ => h.table k) (fun k _ => h'.table k)
  · intro hfour
    rw [h.tables.no_hash4] at hfour
    cases hfour
  · intro hthree
    exact tablesAlike_cleared (fun k _ => h.table3 hthree k)
      (fun k _ => h'.table3 (huse.trans hthree) k)
  · intro hsum
    exact ⟨[], h.cks hsum, h'.cks (by rw [hopts]; exact hsum)⟩

/-- **STREAMS ARE FUNCTIONS OF THEIR OPTIONS AND CHUNKS**: two streams of the same options, each
    just created or reset after calls of any outcome, take the same calls with the same outcomes
    and the same bytes, whatever their memory held, as long as every compaction moves whole
    windows or leaves no root. -/
theorem stream_reuse_independent {C : EntropyCoders} (h : ctx.AtStart) (h' : ctx'.AtStart)
    (hopts : ctx'.opts = ctx.opts) {calls calls' : List StreamCall}
    (hcalls : calls'.map Prod.snd = calls.map Prod.snd) (haligned : ctx.AllAligned C calls) :
    ctx'.outcomes C calls' = ctx.outcomes C calls :=
  (h.cleared.alike h'.cleared hopts).outcomes hcalls haligned

end Start

/-- Memory that was used before. -/
def usedTables : FreshTables :=
  ⟨fun h => h, fun i => i, fun h => h, fun i => i, fun h => h, fun i => i⟩

/-- A stream over such memory. -/
def usedStream : CStream :=
  { fastStream with m := fastOptions.configure (matcherInit usedTables 10 4 false none) }

theorem usedStream_atStart : usedStream.AtStart := by
  have hcreated : cstreamCreate ⟨usedTables, zeroHash⟩ (some fastOptions) = some usedStream := rfl
  exact .create hcreated

theorem stream_reuse_independent_fast :
    fastAgain.outcomes noCoders fastCalls = usedStream.outcomes noCoders fastCalls :=
  stream_reuse_independent usedStream_atStart fastAgain_atStart rfl rfl
    (allAligned_of_room (by decide))

/-! ## A compaction that moves part of a window -/

/-- The smallest window, in the fastest mode and without a checksum. -/
def leanOptions : Options := { fastOptions with checksum := false }

/-- The matcher of its stream over links that hold `links`. -/
def leanMatcher (links : Nat → Int) : Matcher :=
  leanOptions.configure (matcherInit { zeroTables with chain := links } 10 4 false none)

/-- Its stream, with `buf` in the buffer. -/
def leanStream (links : Nat → Int) (buf : Bytes) : CStream where
  opts := leanOptions
  wlog := 10
  m := leanMatcher links
  src_cap := 2 ^ 10 * 2 + maxBlockSize
  src_buf := buf
  global_offset := buf.length
  cks := zeroHash
  header_emitted := decide (0 < buf.length)

section Stale

variable {buf : Bytes}

theorem leanStream_created (links : Nat → Int) :
    cstreamCreate ⟨{ zeroTables with chain := links }, zeroHash⟩ (some leanOptions) =
      some (leanStream links []) := rfl

/-- A chunk with room for its block. -/
def leanCall (chunk : Bytes) : ChunkCall := ⟨chunk, 100, false⟩

theorem leanCall_takes (ctx : CStream) {chunk : Bytes} (h : chunk.length ≤ 12) :
    ctx.Takes (leanCall chunk) :=
  ⟨h.trans (by decide), Or.inr (show 16 ≤ 100 by decide)⟩

theorem leanStream_append (links : Nat → Int) {chunk : Bytes} (hsome : 0 < chunk.length)
    (hroom : buf.length + chunk.length ≤ 1050624) :
    (leanStream links buf).append chunk =
      { leanStream links (buf ++ chunk) with header_emitted := decide (0 < buf.length) } := by
  have hfits : ¬ (leanStream links buf).Compacts chunk.length := by
    rintro ⟨hfull, -⟩
    have hover : 1050624 < buf.length + chunk.length := hfull
    omega
  rw [append_of_not hsome hfits]
  simp only [leanStream, List.length_append]
  rfl

/-- What a call that is taken does to the matcher. -/
theorem leanStream_call (links : Nat → Int) {chunk : Bytes} (hsome : 0 < chunk.length) (hshort : chunk.length ≤ 12)
    (hroom : buf.length + chunk.length ≤ 1050624) :
    ∃ cap, ((leanStream links buf).compressChunk noCoders zeroTables (leanCall chunk)).1 =
      { leanStream links (buf ++ chunk) with
        m := (emitBlock noCoders zeroTables
          ((leanStream links (buf ++ chunk)).blockArgs chunk.length cap false)
          (leanMatcher links)).1 } := by
  have htakes := leanCall_takes (leanStream links buf) hshort
  obtain ⟨cap, htaken⟩ := compressChunk_taken noCoders zeroTables htakes
  have hemitted : decide (0 < (buf ++ chunk).length) = true := by
    rw [List.length_append]
    exact decide_eq_true (by omega)
  have hne : ¬ (leanCall chunk).chunk.length = 0 := by
    show ¬ chunk.length = 0
    omega
  refine ⟨cap, ?_⟩
  have hchunk : (leanCall chunk).chunk = chunk := rfl
  have happend := leanStream_append links hsome hroom
  have hm : ((leanStream links buf).compressChunk noCoders zeroTables (leanCall chunk)).1.m =
      (emitBlock noCoders zeroTables
          ((leanStream links (buf ++ chunk)).blockArgs chunk.length cap false)
          (leanMatcher links)).1 := by
    rw [htaken, append_header, block_m noCoders zeroTables _ hne, hchunk, happend]
    simp only [CStream.blockArgs, leanStream]
    rfl
  rw [compressChunk_frame noCoders zeroTables htakes, hm, hchunk, happend, leanStream, hemitted]

/-- The arguments of the parser for a chunk of `n` bytes. -/
def leanArgs (buf : Bytes) (n : Nat) : BlockArgs :=
  ⟨buf, buf.length - n, n, maxBlockSize + maxBlockSize / 255 + 1024, .ultraFast, minMatch⟩

theorem leanStream_parse (links : Nat → Int) (buf : Bytes) (n cap : Nat) :
    (emitBlock noCoders zeroTables ((leanStream links buf).blockArgs n cap false)
      (leanMatcher links)).1 =
        match compressBlock (leanArgs buf n) (leanMatcher links) with
        | none => leanMatcher links
        | some r => r.1 := by
  have hargs : (leanStream links buf).blockArgs n cap false =
      { (leanStream links buf).blockArgs n cap false with
        src := buf, block_start := buf.length - n, braw := n, mode := .ultraFast
        tcap := maxBlockSize + maxBlockSize / 255 + 1024, min_match := minMatch } := rfl
  rw [hargs, emitBlock, EmitArgs.parse]
  dsimp only
  rw [if_neg (fun h => by cases h.1), leanArgs]
  cases compressBlock _ (leanMatcher links) with
  | none => rfl
  | some r => rfl

/-- Four bytes insert nothing. -/
theorem lean_short (links : Nat → Int) (buf : Bytes) {n : Nat} (hn : n ≤ 4) :
    compressBlock (leanArgs buf n) (leanMatcher links) =
      some (leanMatcher links, (leanArgs buf n).finish ((leanArgs buf n).start (leanMatcher links))) := by
  have hdone : ¬ ((leanArgs buf n).start (leanMatcher links)).pos + (leanArgs buf n).min_match <
      (leanArgs buf n).end := by
    show ¬ buf.length - n + 4 < buf.length - n + n
    omega
  rw [compressBlock, BlockArgs.loop, if_neg hdone]
  rfl

/-- Nothing was inserted, so nothing is found. -/
theorem lean_find (links : Nat → Int) (A : BlockArgs) (pos : Nat) :
    A.find (leanMatcher links) pos = ⟨0, 0, none⟩ := by
  have hrep : ∀ i, (leanMatcher links).rep i = 0 := by
    intro i
    fin_cases i <;> rfl
  have hagrees (n : Nat) : [0, 1, 2].find? ((leanMatcher links).repAgrees A.src pos n) = none := by
    rw [List.find?_eq_none]
    intro i _
    simp [Matcher.repAgrees, hrep i]
  have hfound : A.findRep (leanMatcher links) pos = ⟨0, 0, none⟩ := by
    rw [BlockArgs.findRep, Matcher.tryRep, Matcher.tryRepMatch, hagrees, hagrees]
    simp
  have hsearch : (leanMatcher links).search A.src pos A.end = ⟨0, 0⟩ := by
    have hprobe : (leanMatcher links).single_probe = true := rfl
    rw [Matcher.search, if_pos hprobe, singleProbe_eq]
    split
    · rfl
    · exact walk_none _ _ _ _ _ _
  simp [BlockArgs.find, hfound, hsearch]

/-- The parse behind the first of five bytes. -/
def leanParsed (links : Nat → Int) (buf : Bytes) : Parse :=
  { (leanArgs buf 5).start (leanMatcher links) with
    pos := buf.length - 5 + 1
    failures := 1
    m := (leanMatcher links).insert buf (buf.length - 5) buf.length }

/-- Five bytes insert the first of them. -/
theorem lean_five (links : Nat → Int) {buf : Bytes} (hlen : 5 ≤ buf.length) :
    ∃ tokens, compressBlock (leanArgs buf 5) (leanMatcher links) =
      some ((leanMatcher links).insert buf (buf.length - 5) buf.length, tokens) := by
  have hend : (leanArgs buf 5).end = buf.length := by
    show buf.length - 5 + 5 = buf.length
    omega
  have hmore : ((leanArgs buf 5).start (leanMatcher links)).pos + (leanArgs buf 5).min_match <
      (leanArgs buf 5).end := by
    show buf.length - 5 + 4 < buf.length - 5 + 5
    omega
  have hturn : (leanArgs buf 5).turn ((leanArgs buf 5).start (leanMatcher links)) =
      .ok (leanParsed links buf) := by
    have hchoose : (leanArgs buf 5).choose (leanMatcher links) (buf.length - 5) =
        ⟨buf.length - 5, ⟨0, 0, none⟩, false, leanMatcher links⟩ := by
      rw [BlockArgs.choose, lean_find]
      exact if_neg fun h => by cases h.1
    have hmin : ¬ (leanArgs buf 5).min_match ≤ 0 := by
      show ¬ 4 ≤ 0
      decide
    have haccel : ((leanMatcher links).insert buf (buf.length - 5) buf.length).accel = 2 :=
      ((leanMatcher links).insert_same buf (buf.length - 5) buf.length).accel
    have hstride : (leanArgs buf 5).stride
        ((leanMatcher links).insert buf (buf.length - 5) buf.length) 0 = 1 := by
      rw [BlockArgs.stride, haccel]
      rfl
    rw [BlockArgs.turn, BlockArgs.start]
    show (if (leanArgs buf 5).min_match ≤ ((leanArgs buf 5).choose (leanMatcher links)
      (buf.length - 5)).found.mlen then _ else _) = _
    rw [hchoose, if_neg hmin]
    show (leanArgs buf 5).skip _ ((leanArgs buf 5).choose (leanMatcher links) (buf.length - 5)) = _
    rw [hchoose, BlockArgs.skip]
    dsimp only
    rw [if_neg Bool.false_ne_true, hend]
    have hsrc : (leanArgs buf 5).src = buf := rfl
    rw [hsrc, haccel, if_neg (by decide)]
    have hfew : ¬ ((0 : Nat) = 0 ∧ 2 ^ 17 ≤ buf.length - 5 + 1 - (leanArgs buf 5).start_pos) := by
      show ¬ ((0 : Nat) = 0 ∧ 2 ^ 17 ≤ buf.length - 5 + 1 - (buf.length - 5))
      omega
    rw [hstride]
    exact if_neg hfew
  have hdone : ¬ buf.length - 5 + 1 + (leanArgs buf 5).min_match < (leanArgs buf 5).end := by
    show ¬ buf.length - 5 + 1 + 4 < buf.length - 5 + 5
    omega
  have hloop : (leanArgs buf 5).loop ((leanArgs buf 5).block_len + 1)
      ((leanArgs buf 5).start (leanMatcher links)) = some (.ok (leanParsed links buf)) := by
    rw [BlockArgs.loop, if_pos hmore, hturn]
    show (leanArgs buf 5).loop (4 + 1) _ = _
    rw [BlockArgs.loop]
    exact if_neg hdone
  rw [compressBlock, hloop]
  exact ⟨_, rfl⟩

theorem short_call (links : Nat → Int) (buf chunk : Bytes) (hsome : 0 < chunk.length) (hshort : chunk.length ≤ 4)
    (hroom : buf.length + chunk.length ≤ 1050624) :
    ((leanStream links buf).compressChunk noCoders zeroTables (leanCall chunk)).1 =
      leanStream links (buf ++ chunk) := by
  obtain ⟨cap, hcall⟩ := leanStream_call links hsome (by omega) hroom
  rw [hcall, leanStream_parse, lean_short links _ hshort]
  rfl

theorem five_call (links : Nat → Int) (buf chunk : Bytes) (hfive : chunk.length = 5) (hroom : buf.length + 5 ≤ 1050624) :
    ((leanStream links buf).compressChunk noCoders zeroTables (leanCall chunk)).1 =
      { leanStream links (buf ++ chunk) with
        m := (leanMatcher links).insert (buf ++ chunk) buf.length (buf.length + 5) } := by
  obtain ⟨cap, hcall⟩ := leanStream_call links (show 0 < chunk.length by omega)
    (show chunk.length ≤ 12 by omega) (hfive.symm ▸ hroom)
  have hlen : (buf ++ chunk).length = buf.length + 5 := by
    rw [List.length_append, hfive]
  obtain ⟨tokens, hparse⟩ := lean_five links (show 5 ≤ (buf ++ chunk).length by omega)
  rw [hcall, hfive, leanStream_parse, hparse, hlen, Nat.add_sub_cancel]

end Stale

/-- The state behind a run. -/
def CStream.after (C : EntropyCoders) (ctx : CStream) (calls : List StreamCall) : CStream :=
  calls.foldl (fun ctx c => (ctx.compressChunk C c.1 c.2).1) ctx

theorem after_cons (C : EntropyCoders) (ctx : CStream) (fresh : FreshTables) (c : ChunkCall)
    (calls : List StreamCall) :
    ctx.after C ((fresh, c) :: calls) = (ctx.compressChunk C fresh c).1.after C calls := rfl

theorem after_append (C : EntropyCoders) (ctx : CStream) (calls more : List StreamCall) :
    ctx.after C (calls ++ more) = (ctx.after C calls).after C more :=
  List.foldl_append

theorem outcomes_append (C : EntropyCoders) (ctx : CStream) (calls more : List StreamCall) :
    ctx.outcomes C (calls ++ more) = ctx.outcomes C calls ++ (ctx.after C calls).outcomes C more := by
  induction calls generalizing ctx with
  | nil => rfl
  | cons call calls ih =>
      obtain ⟨fresh, c⟩ := call
      rw [List.cons_append, CStream.outcomes, CStream.outcomes, ih, List.cons_append]
      rfl

theorem outcomes_length (C : EntropyCoders) (ctx : CStream) (calls : List StreamCall) :
    (ctx.outcomes C calls).length = calls.length := by
  induction calls generalizing ctx with
  | nil => rfl
  | cons call calls ih =>
      obtain ⟨fresh, c⟩ := call
      rw [CStream.outcomes, List.length_cons, ih, List.length_cons]

/-- A block that was emitted is what the chunk is written as. -/
theorem block_written {C : EntropyCoders} {fresh : FreshTables} {ctx : CStream} {n cap : Nat}
    {last : Bool} (hn : n ≠ 0) {block : Bytes}
    (h : (emitBlock C fresh (ctx.blockArgs n cap last) ctx.m).2 = some block) :
    (ctx.block C fresh n cap last).2 = .ok block := by
  rw [CStream.block, if_neg hn]
  rcases hr : emitBlock C fresh (ctx.blockArgs n cap last) ctx.m with ⟨m, r⟩
  rw [hr] at h
  dsimp only at h
  rw [h]

/-- Behind the header a call that is not the last one writes its block alone. -/
theorem compressChunk_block {C : EntropyCoders} {fresh : FreshTables} {ctx : CStream}
    {chunk : Bytes} {cap : Nat} (hemitted : ctx.header_emitted = true)
    (hlong : ¬ maxBlockSize < chunk.length) {block : Bytes}
    (h : ((ctx.append chunk).block C fresh chunk.length cap false).2 = .ok block) :
    (ctx.compressChunk C fresh ⟨chunk, cap, false⟩).2 = .ok block := by
  have hheader : ctx.header cap = .ok (ctx, []) := by
    rw [CStream.header, if_pos hemitted]
  rw [CStream.compressChunk, if_neg hlong, hheader]
  dsimp only
  rw [List.length_nil, Nat.sub_zero]
  rcases hr : (ctx.append chunk).block C fresh chunk.length cap false with ⟨next, r⟩
  rw [hr] at h
  dsimp only at h
  have hfooter : next.footer (cap - block.length) false = .ok [] := by
    rw [CStream.footer, if_neg (fun hlast => by cases hlast.1)]
  rw [h]
  dsimp only
  rw [hfooter, List.nil_append]
  dsimp only
  rw [List.append_nil]

section Run

variable (links : Nat → Int)

/-- Zeros, four at a time. -/
def leanZeros (k : Nat) : List StreamCall := List.replicate k (zeroTables, leanCall [0, 0, 0, 0])

theorem after_zeros (k : Nat) (hk : 4 * k ≤ 1050624) :
    (leanStream links []).after noCoders (leanZeros k) = leanStream links (List.replicate (4 * k) 0) := by
  induction k with
  | zero => rfl
  | succ k ih =>
      have hlen : (List.replicate (4 * k) (0 : UInt8)).length = 4 * k := List.length_replicate
      have hmore : List.replicate (4 * k) (0 : UInt8) ++ [0, 0, 0, 0] =
          List.replicate (4 * (k + 1)) 0 := by
        have hfour : ([0, 0, 0, 0] : Bytes) = List.replicate 4 0 := rfl
        rw [hfour, List.replicate_append_replicate, Nat.mul_succ]
      rw [leanZeros, List.replicate_succ', after_append, ← leanZeros, ih (by omega)]
      show ((leanStream links (List.replicate (4 * k) 0)).compressChunk noCoders zeroTables
        (leanCall [0, 0, 0, 0])).1 = _
      rw [short_call links _ _ (by decide) (by decide) (by rw [hlen]; exact hk), hmore]

/-- What comes behind the zeros. -/
def leanTail : Bytes := [1, 2, 3, 4] ++ [5, 6, 7, 8] ++ [1, 2, 3, 4, 5]

/-- A run that nearly fills the buffer and inserts one position, five bytes from its end. -/
def leanRun : List StreamCall :=
  leanZeros 262650 ++ [(zeroTables, leanCall [1, 2, 3, 4]), (zeroTables, leanCall [5, 6, 7, 8]),
    (zeroTables, leanCall [1, 2, 3, 4, 5])]

/-- The buffer behind it. -/
def leanBuffer : Bytes := List.replicate (4 * 262650) 0 ++ leanTail

theorem leanBuffer_length : leanBuffer.length = 1050613 := by
  rw [leanBuffer, List.length_append, List.length_replicate]
  rfl

theorem after_run : (leanStream links []).after noCoders leanRun =
    { leanStream links leanBuffer with
      m := (leanMatcher links).insert leanBuffer 1050608 1050613 } := by
  have hlen : (List.replicate (4 * 262650) (0 : UInt8)).length = 1050600 := List.length_replicate
  have hlen8 : (List.replicate (4 * 262650) (0 : UInt8) ++ [1, 2, 3, 4] ++ [5, 6, 7, 8]).length =
      1050608 := by
    rw [List.length_append, List.length_append, hlen]
    rfl
  have hbuf : List.replicate (4 * 262650) (0 : UInt8) ++ [1, 2, 3, 4] ++ [5, 6, 7, 8] ++
      [1, 2, 3, 4, 5] = leanBuffer := by
    rw [leanBuffer, leanTail]
    simp only [List.append_assoc]
  rw [leanRun, after_append, after_zeros links 262650 (by decide)]
  have hfirst := short_call links (List.replicate (4 * 262650) 0) [1, 2, 3, 4] (by decide)
    (by decide) (by rw [hlen]; decide)
  have hsecond := short_call links (List.replicate (4 * 262650) 0 ++ [1, 2, 3, 4]) [5, 6, 7, 8]
    (by decide) (by decide) (by rw [List.length_append, hlen]; decide)
  have hthird := five_call links (List.replicate (4 * 262650) 0 ++ [1, 2, 3, 4] ++ [5, 6, 7, 8])
    [1, 2, 3, 4, 5] rfl (by rw [hlen8]; decide)
  rw [hlen8, hbuf] at hthird
  rw [after_cons, hfirst, after_cons, hsecond, after_cons, hthird]
  rfl

/-- The chunk that makes the stream move its buffer. -/
def lastChunk : Bytes := [1, 2, 3, 4, 5, 6, 7, 8, 9, 10, 11, 12]

/-- What the buffer holds then. -/
def movedBuffer : Bytes := List.replicate 1011 0 ++ leanTail ++ lastChunk

/-- The matcher after the move: the root is where its bytes are, its cell is not. -/
def movedMatcher : Matcher :=
  { leanMatcher links with
    table := fun h => rebase 1049589 (put (fun _ => -1) (hash5 leanTail 8) 1050608 h)
    chain := fun i => rebase 1049589 (put links 1008 (-1) i) }

theorem leanBuffer_hash : hashSafe leanBuffer 1050608 (1050613 - 1050608) = hash5 leanTail 8 := by
  have hzeros : (List.replicate (4 * 262650) (0 : UInt8)).length = 1050600 := List.length_replicate
  have hdrop : leanBuffer.drop 1050608 = leanTail.drop 8 := by
    have hpos : 1050608 = (List.replicate (4 * 262650) (0 : UInt8)).length + 8 := by rw [hzeros]
    rw [leanBuffer, hpos, List.drop_length_add_append]
  rw [hashSafe, if_pos (by decide), hash5, hash5, bytesAt, bytesAt, hdrop]

theorem insert_moved : ((leanMatcher links).insert leanBuffer 1050608 1050613).shift 1049589 =
    movedMatcher links := by
  have hplain : (leanMatcher links).roots16 = none := rfl
  have hmask : (leanMatcher links).chain_mask = 1023 := rfl
  have hcell : 1050608 &&& (leanMatcher links).chain_mask = 1008 := by
    rw [hmask]
    rfl
  rw [Matcher.insert, if_neg (by decide), leanBuffer_hash, movedMatcher]
  generalize hash5 leanTail 8 = h
  rw [Matcher.insertHashed, hplain]
  dsimp only
  rw [hcell]
  rfl

/-- The stream then. -/
def movedStream : CStream :=
  { leanStream links movedBuffer with m := movedMatcher links, global_offset := 1050625 }

/-- The chunk is appended behind the window that stays. -/
theorem leanRun_append :
    ((leanStream links []).after noCoders leanRun).append lastChunk = movedStream links := by
  rw [after_run]
  obtain ⟨ctx, hctx⟩ : ∃ ctx : CStream, ctx = { leanStream links leanBuffer with
    m := (leanMatcher links).insert leanBuffer 1050608 1050613 } := ⟨_, rfl⟩
  rw [← hctx]
  have hbuf : ctx.src_buf = leanBuffer := by
    rw [hctx]
    rfl
  have hlen : ctx.src_buf.length = 1050613 := by
    rw [hbuf, leanBuffer_length]
  have hlog : ctx.wlog = 10 := by
    rw [hctx]
    rfl
  have hcap : ctx.src_cap = 1050624 := by
    rw [hctx]
    rfl
  have hdrop : ctx.drop = 1049589 := by
    rw [CStream.drop, hlen, hlog]
    rfl
  have hmoves : ctx.Compacts lastChunk.length := by
    constructor
    · rw [hcap, hlen]
      decide
    · rw [hdrop]
      decide
  have hkept : leanBuffer.drop 1049589 = List.replicate 1011 0 ++ leanTail := by
    rw [leanBuffer, List.drop_append_of_le_length (by rw [List.length_replicate]; decide),
      List.drop_replicate]
  have hm : ctx.m.shift 1049589 = movedMatcher links := by
    rw [hctx]
    exact insert_moved links
  have hoffset : ctx.global_offset = 1050613 := by
    rw [hctx]
    exact leanBuffer_length
  have hemitted : ctx.header_emitted = true := by
    rw [hctx]
    simp only [leanStream, leanBuffer_length]
    rfl
  have hopts : ctx.opts = leanOptions ∧ ctx.cks = zeroHash := by
    rw [hctx]
    exact ⟨rfl, rfl⟩
  have hmoved : decide (0 < movedBuffer.length) = true := by
    rw [movedBuffer, List.length_append]
    exact decide_eq_true (Nat.add_pos_right _ (by decide))
  rw [CStream.append, if_pos (by decide), compact_of hmoves, hdrop, hbuf, hkept, hm]
  rw [movedStream, leanStream, hmoved, movedBuffer]
  dsimp only
  rw [hopts.1, hopts.2, hoffset, hemitted, hcap, hlog]
  rfl

theorem leanRun_last {block : Bytes} (hblock : (emitBlock noCoders zeroTables
      ((movedStream links).blockArgs 12 100 false) (movedStream links).m).2 = some block) :
    (((leanStream links []).after noCoders leanRun).compressChunk noCoders zeroTables
      (leanCall lastChunk)).2 = .ok block := by
  have hemitted : ((leanStream links []).after noCoders leanRun).header_emitted = true := by
    rw [after_run]
    simp only [leanStream, leanBuffer_length]
    rfl
  refine compressChunk_block hemitted (by decide) ?_
  rw [leanRun_append]
  exact block_written (by decide) hblock

end Run

/-- Links that an earlier use of the memory left. -/
def staleLinks : Nat → Int := fun i => if i = 1019 then 1050600 else 0

set_option maxRecDepth 20000 in
theorem lastBlock_zero : (emitBlock noCoders zeroTables
    ((movedStream fun _ => 0).blockArgs 12 100 false) (movedStream fun _ => 0).m).2 =
      some [97, 0, 0, 0, 11, 0, 0, 1, 5, 0, 112, 6, 7, 8, 9, 10, 11, 12] := by
  decide

set_option maxRecDepth 20000 in
theorem lastBlock_stale : (emitBlock noCoders zeroTables
    ((movedStream staleLinks).blockArgs 12 100 false) (movedStream staleLinks).m).2 =
      some [97, 0, 0, 0, 8, 0, 0, 4, 13, 0, 64, 9, 10, 11, 12] := by
  decide

/-- **A COMPACTION THAT MOVES PART OF A WINDOW READS STALE LINKS**: the position that was
    inserted keeps its root, but its cell is one that was never written, and what `malloc`
    left there decides which match is taken. -/
theorem compaction_reads_stale_links :
    ¬ ∀ (ctx ctx' : CStream), ctx.AtStart → ctx'.AtStart → ctx'.opts = ctx.opts →
      ∀ calls, ctx'.outcomes noCoders calls = ctx.outcomes noCoders calls := by
  intro hclaim
  have hboth := hclaim (leanStream (fun _ => 0) []) (leanStream staleLinks [])
    (.create (leanStream_created _)) (.create (leanStream_created _)) rfl
    (leanRun ++ [(zeroTables, leanCall lastChunk)])
  rw [outcomes_append, outcomes_append] at hboth
  have hlast := (List.append_inj hboth (by rw [outcomes_length, outcomes_length])).2
  have hhead := (List.cons.inj hlast).1
  rw [leanRun_last _ lastBlock_zero, leanRun_last _ lastBlock_stale] at hhead
  have hbytes := Except.ok.inj hhead
  revert hbytes
  decide

end Zupt.VaptVupt
