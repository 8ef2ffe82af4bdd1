import Zupt.VaptVupt.Alike
import Zupt.VaptVupt.Encoder

/-! # What the allocator returned

    The tables of a matcher come from `malloc`: the roots are cleared, for a small
    input those alone that it can reach, and the links are not.  Nothing of what
    the memory held before gets into a frame. -/

namespace Zupt.VaptVupt

open Zupt.ReadsAlike

/-! ## The optimal parser -/

section Optimal

variable {A : BlockArgs} {D K : Nat → Prop} {m m' : Matcher} {addr : Nat → Nat} {v v' : View Nat}
  {src : Bytes} {«end» pos : Nat}

/-- In a mode with an entropy stage the tables are of 32 bits. -/
theorem Matcher.Alike.plain {mode : Mode} (h : m.Alike mode D K m') (hmode : mode.entropy = true) :
    m.roots16 = none ∧ m'.roots16 = none := by
  rcases h.kind with hplain | ⟨hfast, -⟩
  · exact hplain
  · rw [hfast] at hmode
    cases hmode

/-- A position of the chain as a candidate, and whether it is the last one. -/
def Matcher.lookCand (src : Bytes) (pos max_len ref : Nat) (cands : List Cand) : List Cand × Bool :=
  if load32 src pos = load32 src ref then
    let l := 4 + extendMatch src (pos + 4) (ref + 4) (max_len - 4)
    (addCand cands ⟨pos - ref, l⟩, longMatch ≤ l)
  else (cands, false)

/-- Where the candidates of a chain end: outside the window, or with the list full. -/
def Matcher.candStop (m : Matcher) (pos : Nat) (ref : Int) (cands : List Cand) : Bool :=
  ¬ ((m.limit pos : Int) ≤ ref ∧ ref < (pos : Int) ∧ cands.length < maxCand)

@[simp] theorem candStop_iff {ref : Int} {cands : List Cand} : m.candStop pos ref cands = true ↔
    ¬ ((m.limit pos : Int) ≤ ref ∧ ref < (pos : Int) ∧ cands.length < maxCand) :=
  decide_eq_true_iff

/-- The candidates of a chain are found by a search. -/
theorem chainCands_eq_search (m : Matcher) (src : Bytes) (pos max_len depth : Nat) (ref : Int)
    (cands : List Cand) : m.chainCands src pos max_len depth ref cands =
      search (m.candStop pos) (Matcher.lookCand src pos max_len)
        (fun p => m.chain (p &&& m.chain_mask)) depth ref cands := by
  induction depth generalizing ref cands with
  | zero => rfl
  | succ depth ih =>
      rw [Matcher.chainCands, search]
      by_cases hin : (m.limit pos : Int) ≤ ref ∧ ref < (pos : Int) ∧ cands.length < maxCand
      · rw [if_pos hin, if_neg (mt candStop_iff.mp (not_not_intro hin)), Matcher.lookCand]
        by_cases hfour : load32 src pos = load32 src ref.toNat
        · rw [if_pos hfour, if_pos hfour]
          dsimp only
          by_cases hlong : longMatch ≤ 4 + extendMatch src (pos + 4) (ref.toNat + 4) (max_len - 4)
          · rw [if_pos hlong, decide_eq_true hlong]
          · rw [if_neg hlong, decide_eq_false hlong]
            exact ih _ _
        · rw [if_neg hfour, if_neg hfour]
          exact ih _ cands
      · rw [if_neg hin, if_pos (candStop_iff.mpr hin)]

/-- **THE CANDIDATES** are the same. -/
theorem Matcher.Alike.optCollect {mode : Mode} (h : m.Alike mode D K m') (hn : m.roots16 = none)
    (hn' : m'.roots16 = none) (hcov : CoversBlock D K src «end») (pos : Nat) (reps : Fin 3 → Nat) :
    m'.optCollect src pos «end» reps = m.optCollect src pos «end» reps := by
  have hset := h.settings
  have hdepth : m'.chain_depth = m.chain_depth := congrArg Settings.chain_depth hset
  rw [Matcher.optCollect, Matcher.optCollect]
  by_cases hshort : «end» < pos + 4
  · rw [if_pos hshort, if_pos hshort]
  · rw [if_neg hshort, if_neg hshort]
    dsimp only
    rw [maxLen_settings hset]
    rcases repCands src pos (m.maxLen pos «end») [reps 0, reps 1, reps 2] [] with ⟨cands, far⟩
    cases far with
    | true => rfl
    | false =>
        obtain ⟨W, -, halike⟩ := h.first
        have hstop : ∀ ref cands, m.candStop pos ref cands = false → 0 ≤ ref := by
          intro ref cands hstop
          have hin : (m.limit pos : Int) ≤ ref ∧ ref < (pos : Int) ∧ cands.length < maxCand :=
            not_not.mp (of_decide_eq_false hstop)
          omega
        have hsame : m'.candStop pos = m.candStop pos := by
          funext ref cands
          rw [Matcher.candStop, Matcher.candStop, limit_settings hset]
        have hsearch := halike.search hstop (Matcher.lookCand src pos (m.maxLen pos «end»))
          m.chain_depth (hcov pos (Nat.not_lt.mp hshort)).2 cands
        rw [first_plain hn, first_plain hn'] at hsearch
        dsimp only
        rw [chainCands_eq_search, chainCands_eq_search, hsame, hdepth]
        exact hsearch

/-- The program goes the same way at a position. -/
theorem advance_alike (P : Prices) {s : Program} (h : s.m.Alike A.mode D K m')
    (hmode : A.mode.entropy = true) (hcov : CoversBlock D K A.src A.end) (i : Nat) :
    ∃ n', A.advance P { s with m := m' } i =
        ({ (A.advance P s i).1 with m := n' }, (A.advance P s i).2) ∧
      (A.advance P s i).1.m.Alike A.mode D K n' := by
  obtain ⟨hn, hn'⟩ := h.plain hmode
  have hins := h.insert hcov (A.start_pos + i)
  simp only [BlockArgs.advance]
  split
  · exact ⟨_, rfl, hins⟩
  · split
    · exact ⟨_, rfl, hins⟩
    · rw [h.optCollect hn hn' hcov]
      split
      · exact ⟨_, rfl, (h.insertRange hcov _ _ _).insertRange hcov _ _ _⟩
      · exact ⟨_, rfl, hins⟩

/-- The forward loop. -/
theorem forward_alike (P : Prices) (hmode : A.mode.entropy = true) (hcov : CoversBlock D K A.src A.end)
    (turns : Nat) {s : Program} {m' : Matcher} (h : s.m.Alike A.mode D K m') (i : Nat) :
    ∃ n', A.forward P turns { s with m := m' } i = { A.forward P turns s i with m := n' } ∧
      (A.forward P turns s i).m.Alike A.mode D K n' := by
  induction turns generalizing s m' i with
  | zero => exact ⟨m', rfl, h⟩
  | succ turns ih =>
      rw [BlockArgs.forward, BlockArgs.forward]
      by_cases hmore : i < A.block_len
      · rw [if_pos hmore, if_pos hmore]
        obtain ⟨n', hstep, hnext⟩ := advance_alike P h hmode hcov i
        rw [hstep]
        generalize A.advance P s i = r at hnext ⊢
        obtain ⟨p, j⟩ := r
        exact ih hnext j
      · rw [if_neg hmore, if_neg hmore]
        exact ⟨m', rfl, h⟩

/-- The emission of the steps. -/
theorem emitSteps_alike (steps : List Cand) {s : Parse} {m' : Matcher}
    (h : s.m.Alike A.mode D K m') :
    ParsedAlike (Matcher.Alike A.mode D K) (A.emitSteps steps s)
      (A.emitSteps steps { s with m := m' }) := by
  induction steps generalizing s m' with
  | nil => exact .went h
  | cons step rest ih =>
      rw [BlockArgs.emitSteps, BlockArgs.emitSteps]
      dsimp only
      split
      · exact ih (s := { s with pos := s.pos + 1 }) h
      · split
        · exact .failed h
        · rw [h.offBytes]
          exact ih (s := { s with
            pos := s.pos + step.len
            lit_start := s.pos + step.len
            m := s.m.updateRep step.off
            out := _ }) (h.updateRep step.off)

theorem compressBlockOptimal_alike (fresh fresh' : FreshTables) (h : m.Alike A.mode D K m')
    (hmode : A.mode.entropy = true) (hcov : CoversBlock D K A.src A.end)
    (hprices : blockPrices fresh' A m' = blockPrices fresh A m) :
    ∃ n n' tokens, compressBlockOptimal fresh A m = (n, tokens) ∧
      compressBlockOptimal fresh' A m' = (n', tokens) ∧ n.Alike A.mode D K n' := by
  rw [compressBlockOptimal, compressBlockOptimal]
  split
  · exact ⟨_, _, none, rfl, rfl, h⟩
  · rw [hprices]
    dsimp only
    obtain ⟨p', hforward, hnext⟩ := forward_alike (blockPrices fresh A m) hmode hcov A.block_len
      (show (programStart m).m.Alike A.mode D K m' from h) 0
    have hstart : programStart m' = { programStart m with m := m' } := rfl
    rw [hstart, hforward]
    generalize A.forward (blockPrices fresh A m) A.block_len (programStart m) 0 = s at hnext ⊢
    dsimp only
    have hsteps := emitSteps_alike (A := A) (backtrack s.cells A.block_len A.block_len [])
      (show (A.start s.m).m.Alike A.mode D K p' from hnext)
    have hbegin : A.start p' = { A.start s.m with m := p' } := rfl
    rw [hbegin]
    generalize A.emitSteps (backtrack s.cells A.block_len A.block_len []) (A.start s.m) = r at hsteps ⊢
    generalize A.emitSteps (backtrack s.cells A.block_len A.block_len [])
      { A.start s.m with m := p' } = r' at hsteps ⊢
    cases hsteps with
    | failed hm => exact ⟨_, _, none, rfl, rfl, hm⟩
    | @went t n' hm =>
        refine ⟨_, _, A.finish t, rfl, ?_, hm⟩
        dsimp only
        rw [finish_alike hm]

end Optimal

/-! ## New matchers -/

/-- The keys whose roots are cleared. -/
def clearedKeys : Option Bytes → Nat → Prop
  | some src => fun h => ∃ pos, pos + 4 ≤ src.length ∧ hashSafe src pos (src.length - pos) = h
  | none => fun _ => True

/-- Every position. -/
def anywhere : Nat → Prop := fun _ => True

theorem covers_none (src : Bytes) («end» : Nat) : CoversBlock anywhere (clearedKeys none) src «end» :=
  fun _ _ => ⟨trivial, trivial⟩

theorem covers_some (src : Bytes) : CoversBlock anywhere (clearedKeys (some src)) src src.length :=
  fun pos hpos => ⟨trivial, pos, hpos, rfl⟩

theorem bytesAt_take {src : Bytes} {pos k n : Nat} (h : pos + k ≤ n) :
    bytesAt (src.take n) pos k = bytesAt src pos k := by
  rw [bytesAt, bytesAt, List.drop_take, List.take_take, Nat.min_eq_left (by omega)]

theorem hashSafe_take {src : Bytes} {pos n : Nat} (h : pos + 4 ≤ n) :
    hashSafe (src.take n) pos (n - pos) = hashSafe src pos (n - pos) := by
  by_cases hfive : 5 ≤ n - pos
  · rw [hashSafe, hashSafe, if_pos hfive, if_pos hfive, hash5, hash5, bytesAt_take (by omega)]
  · rw [hashSafe, hashSafe, if_neg hfive, if_neg hfive, hash4, hash4, load32, load32, bytesAt_take h]

/-- The front of a source. -/
theorem covers_take {src : Bytes} {n : Nat} (h : n ≤ src.length) :
    CoversBlock anywhere (clearedKeys (some (src.take n))) src n := by
  intro pos hpos
  have hlen : (src.take n).length = n := List.length_take_of_le h
  refine ⟨trivial, pos, ?_, ?_⟩
  · rw [hlen]
    exact hpos
  · rw [hlen]
    exact hashSafe_take hpos

/-- **TWO NEW MATCHERS** find alike, whatever the memory of their tables held. -/
theorem matcherInit_alike (fresh fresh' : FreshTables) (mode : Mode) (window_log depth : Nat)
    (use_hash4 : Bool) (small : Option Bytes) :
    (matcherInit fresh window_log depth use_hash4 small).Alike mode anywhere (clearedKeys small)
      (matcherInit fresh' window_log depth use_hash4 small) where
  settings := rfl
  addr p q _ _ := Iff.rfl
  kind := Or.inl ⟨rfl, rfl⟩
  first := by
    have hroot (fresh : FreshTables) (h : Nat) (hh : clearedKeys small h) :
        (matcherInit fresh window_log depth use_hash4 small).table h = -1 := by
      cases small with
      | none => rfl
      | some src =>
          obtain ⟨pos, hpos, hhash⟩ := hh
          exact if_pos ⟨pos, by omega, hpos, hhash⟩
    exact tablesAlike_cleared (hroot fresh) (hroot fresh')
  fourth _ := tablesAlike_cleared (fun _ _ => rfl) (fun _ _ => rfl)
  third h := by cases h

/-- The prices depend on the settings of the matcher alone. -/
theorem blockPrices_alike (fresh fresh' : FreshTables) {A : BlockArgs} {m m' : Matcher}
    (h : m'.settings = m.settings) (hfits : A.end ≤ A.src.length) :
    blockPrices fresh' A m' = blockPrices fresh A m := by
  have hwlog : m'.wlog = m.wlog := congrArg Settings.wlog h
  have hmax : m'.max_match = m.max_match := congrArg Settings.max_match h
  have hoff : m'.offBytes = m.offBytes := by
    rw [Matcher.offBytes, Matcher.offBytes, hwlog]
  obtain ⟨small, hsmall⟩ : ∃ small, small = if A.start_pos = 0 ∧ A.block_len ≤ 4096 then
    some (A.src.take A.block_len) else none := ⟨_, rfl⟩
  have hcov : CoversBlock anywhere (clearedKeys small) A.src A.end := by
    rw [hsmall]
    by_cases hfirst : A.start_pos = 0 ∧ A.block_len ≤ 4096
    · have hend : A.end = A.block_len := by
        rw [BlockArgs.end, hfirst.1, Nat.zero_add]
      rw [if_pos hfirst, hend]
      exact covers_take (hend ▸ hfits)
    · rw [if_neg hfirst]
      exact covers_none A.src A.end
  have hinit := matcherInit_alike fresh fresh' .ultraFast (min m.wlog 20) 4 false small
  have halike : (prepassMatcher fresh A m).Alike .ultraFast anywhere (clearedKeys small)
      (prepassMatcher fresh' A m') := by
    rw [prepassMatcher, prepassMatcher, hwlog, hmax, ← hsmall]
    exact ⟨rfl, hinit.addr, Or.inl ⟨rfl, rfl⟩, hinit.first, hinit.fourth, hinit.third⟩
  have hparse := compressBlock_alike (A := { A with
    dst_cap := A.block_len + A.block_len / 255 + 1024, mode := .ultraFast }) halike hcov
  rw [blockPrices, blockPrices, hoff]
  rcases hparse with ⟨hnone, hnone'⟩ | ⟨n, n', tokens, hr, hr', -⟩
  · rw [hnone, hnone']
  · rw [hr, hr']
    cases tokens with
    | none => rfl
    | some tok => rfl

/-! ## Blocks and frames -/

section Blocks

variable {D K : Nat → Prop} {m m' : Matcher}

/-- **BLOCKS** of matchers that find alike are the same. -/
theorem emitBlock_alike (C : EntropyCoders) (fresh fresh' : FreshTables) {a : EmitArgs}
    (h : m.Alike a.mode D K m') (hcov : CoversBlock D K a.src (a.block_start + a.braw))
    (hfits : a.block_start + a.braw ≤ a.src.length) :
    (emitBlock C fresh' a m').2 = (emitBlock C fresh a m).2 ∧
      (emitBlock C fresh a m).1.Alike a.mode D K (emitBlock C fresh' a m').1 := by
  have hparse : (a.parse fresh' m').2 = (a.parse fresh m).2 ∧
      (a.parse fresh m).1.Alike a.mode D K (a.parse fresh' m').1 := by
    rw [EmitArgs.parse, EmitArgs.parse]
    by_cases hopt : a.mode = .extreme ∧ ¬ a.min_match < minMatch
    · rw [if_pos hopt, if_pos hopt]
      obtain ⟨n, n', tokens, hr, hr', hm⟩ := compressBlockOptimal_alike fresh fresh'
        (A := ⟨a.src, a.block_start, a.braw, a.tcap, a.mode, a.min_match⟩) h
        (show a.mode.entropy = true by rw [hopt.1]; rfl) hcov
        (blockPrices_alike fresh fresh' h.settings hfits)
      rw [hr, hr']
      exact ⟨rfl, hm⟩
    · rw [if_neg hopt, if_neg hopt]
      rcases compressBlock_alike (A := ⟨a.src, a.block_start, a.braw, a.tcap, a.mode,
        a.min_match⟩) h hcov with ⟨hnone, hnone'⟩ | ⟨n, n', tokens, hr, hr', hm⟩
      · rw [hnone, hnone']
        exact ⟨rfl, h⟩
      · rw [hr, hr']
        exact ⟨rfl, hm⟩
  rw [emitBlock, emitBlock]
  dsimp only
  rw [hparse.1]
  exact ⟨rfl, hparse.2⟩

variable {o : Options} {p : Plan} {src : Bytes}

/-- The blocks of a frame. -/
theorem blocks_alike (C : EntropyCoders) (fresh fresh' : Nat → FreshTables)
    (hcov : ∀ start ≤ src.length,
      CoversBlock D K src (start + min (src.length - start) maxBlockSize)) (turns : Nat) {start : Nat}
    (h : m.Alike o.mode D K m') (room : Nat) :
    o.blocks C fresh' p src turns start m' room = o.blocks C fresh p src turns start m room := by
  induction turns generalizing m m' start room with
  | zero => rfl
  | succ turns ih =>
      rw [Options.blocks, Options.blocks]
      by_cases hmore : start < src.length
      · rw [if_pos hmore, if_pos hmore]
        obtain ⟨hblock, hnext⟩ := emitBlock_alike C (fresh start) (fresh' start)
          (a := o.blockArgs p src start room) h (hcov start (Nat.le_of_lt hmore))
          (show start + min (src.length - start) maxBlockSize ≤ src.length by omega)
        rcases hr : emitBlock C (fresh start) (o.blockArgs p src start room) m with ⟨n, r⟩
        rcases hr' : emitBlock C (fresh' start) (o.blockArgs p src start room) m' with ⟨n', r'⟩
        rw [hr, hr'] at hblock hnext
        dsimp only at hblock hnext
        subst hblock
        cases r' with
        | none => rfl
        | some block =>
            dsimp only
            rw [ih hnext]
      · rw [if_neg hmore, if_neg hmore]

/-- The trials make the same plan. -/
theorem plan_alike (o : Options) (fresh fresh' : FreshFrame) (src : Bytes) :
    o.plan fresh'.trial16 fresh'.trial20 src = o.plan fresh.trial16 fresh.trial20 src := by
  have htrial (fresh fresh' : FreshTables) : trialSize fresh' src = trialSize fresh src := by
    funext trial_len wlog
    have hinit := matcherInit_alike fresh fresh' .ultraFast wlog 4 false none
    have halike : Matcher.Alike .ultraFast anywhere (clearedKeys none)
        { matcherInit fresh wlog 4 false none with accel := 2 }
        { matcherInit fresh' wlog 4 false none with accel := 2 } :=
      ⟨rfl, hinit.addr, Or.inl ⟨rfl, rfl⟩, hinit.first, hinit.fourth, hinit.third⟩
    have hparse := compressBlock_alike (A := ⟨src, 0, trial_len,
      trial_len + trial_len / 255 + 1024, .ultraFast, minMatch⟩) halike (covers_none src _)
    rw [trialSize, trialSize]
    rcases hparse with ⟨hnone, hnone'⟩ | ⟨n, n', tokens, hr, hr', -⟩
    · rw [hnone, hnone']
    · rw [hr, hr']
      cases tokens with
      | none => rfl
      | some tok => rfl
  have hboth : o.trial fresh'.trial16 fresh'.trial20 src = o.trial fresh.trial16 fresh.trial20 src := by
    rw [Options.trial, Options.trial, htrial fresh.trial16 fresh'.trial16,
      htrial fresh.trial20 fresh'.trial20]
  rw [Options.plan, Options.plan, hboth]

/-- The matcher of a frame. -/
theorem optionsMatcher_alike (o : Options) (fresh fresh' : FreshTables) (p : Plan) (src : Bytes) :
    (o.matcher fresh p src).Alike o.mode anywhere
      (clearedKeys (if src.length ≤ 4096 then some src else none)) (o.matcher fresh' p src) := by
  have hinit := matcherInit_alike fresh fresh' o.mode p.wlog o.depth p.enable_hash4
    (if src.length ≤ 4096 then some src else none)
  rw [Options.matcher, Options.matcher]
  cases hv2 : p.use_v2_fmt with
  | false => exact ⟨rfl, hinit.addr, Or.inl ⟨rfl, rfl⟩, hinit.first, hinit.fourth, hinit.third⟩
  | true =>
      cases hfour : p.enable_hash4 with
      | false =>
          rw [hfour] at hinit
          exact ⟨rfl, hinit.addr, Or.inl ⟨rfl, rfl⟩, hinit.first, hinit.fourth, hinit.third⟩
      | true =>
          rw [hfour] at hinit
          exact ⟨rfl, hinit.addr, Or.inl ⟨rfl, rfl⟩, hinit.first, hinit.fourth,
            fun _ => tablesAlike_cleared (fun _ _ => rfl) (fun _ _ => rfl)⟩

/-- The blocks of a small source end where it does. -/
theorem covers_frame (src : Bytes) {start : Nat} (hstart : start ≤ src.length) :
    CoversBlock anywhere (clearedKeys (if src.length ≤ 4096 then some src else none)) src
      (start + min (src.length - start) maxBlockSize) := by
  have hmax : maxBlockSize = 2 ^ 20 := rfl
  by_cases hsmall : src.length ≤ 4096
  · have hend : start + min (src.length - start) maxBlockSize = src.length := by
      omega
    rw [if_pos hsmall, hend]
    exact covers_some src
  · rw [if_neg hsmall]
    exact covers_none src _

theorem vvCompressInner_alike (C : EntropyCoders) (fresh fresh' : FreshFrame) (src : Bytes)
    (dst_cap : Nat) (opts : Option Options) :
    vvCompressInner C fresh' src dst_cap opts = vvCompressInner C fresh src dst_cap opts := by
  have hblocks (o : Options) (p : Plan) (turns room : Nat) :
      o.blocks C fresh'.prepass p src turns 0 (o.matcher fresh'.matcher p src) room =
        o.blocks C fresh.prepass p src turns 0 (o.matcher fresh.matcher p src) room :=
    blocks_alike C fresh.prepass fresh'.prepass (fun _ => covers_frame src) turns
      (optionsMatcher_alike o fresh.matcher fresh'.matcher p src) room
  rw [vvCompressInner, vvCompressInner]
  simp only [plan_alike _ fresh fresh', hblocks]

end Blocks

end Zupt.VaptVupt
