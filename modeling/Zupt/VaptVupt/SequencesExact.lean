import Zupt.VaptVupt.Sequences

/-! # The safe zones are exact

    The sequence loop drops its checks against the capacity and the start of the
    frame where they cannot fail, and copies more than it needs where there is
    room.  It does what the naive loop does, step by step, and touches nothing
    outside of the frame and its capacity. -/

namespace Zupt.VaptVupt

open Zupt.LittleEndian Zupt.Memory Zupt.Window

/-! ## Codes within their tables -/

theorem ansBrRead_lt (r : AnsBr) (nb : Nat) : (ansBrRead r nb).1 < 2 ^ nb := by
  rw [ansBrRead]
  by_cases hzero : nb = 0
  · rw [if_pos hzero]
    exact Nat.two_pow_pos nb
  · rw [if_neg hzero]
    exact Nat.mod_lt _ (Nat.two_pow_pos nb)

/-- A base with its extra bits stays below the bound of its table. -/
theorem readExtra_bounds (base extra : List Nat) {lo hi code : Nat} {r : AnsBr}
    (hlen : code < base.length) (hsame : base.length = extra.length)
    (hlo : ∀ b ∈ base, lo ≤ b)
    (hhi : ∀ p ∈ base.zip extra, p.1 + 2 ^ p.2 ≤ hi + 1) :
    ∃ v r', readExtra base extra code r = some (v, r') ∧ lo ≤ v ∧ v ≤ hi := by
  have hextra : code < extra.length := hsame ▸ hlen
  rw [readExtra, List.getElem?_eq_getElem hlen, List.getElem?_eq_getElem hextra]
  refine ⟨_, _, rfl, ?_, ?_⟩
  · exact Nat.le_trans (hlo _ (List.getElem_mem hlen)) (Nat.le_add_right _ _)
  · have hzip : (base[code], extra[code]) ∈ base.zip extra := by
      rw [← List.getElem_zip (h := by rw [List.length_zip]; omega)]
      exact List.getElem_mem _
    have hsum := hhi _ hzip
    have hbits := ansBrRead_lt r extra[code]
    dsimp only at hsum
    omega

/-- The symbols of the tables are codes, of those that are consulted. -/
structure SeqTables.Valid (T : SeqTables) (match_count : Nat) : Prop where
  ll : ∀ x, x < ansL → (T.ll x).symbol.toNat < 36
  of : 0 < match_count → ∀ x, x < ansL → (T.of x).symbol.toNat < 27
  ml : 0 < match_count → ∀ x, x < ansL → (T.ml x).symbol.toNat < 36

theorem mask_lt (state : Nat) : state % ansL < ansL := Nat.mod_lt _ (by decide)

section Codes

variable {T : SeqTables} {match_count : Nat} (hT : T.Valid match_count)

include hT

theorem SeqCoder.litlen_bounds (c : SeqCoder) :
    ∃ n c', c.litlen T = some (n, c') ∧ n ≤ safezoneMaxRun := by
  obtain ⟨n, r, hread, -, hle⟩ := readExtra_bounds llBase llExtra
    (r := (ansBrRead (ansBrFill c.r) (T.ll (c.state_ll % ansL)).nbits).2)
    (hT.ll _ (mask_lt c.state_ll)) rfl (fun _ _ => Nat.zero_le _)
    (by decide : ∀ p ∈ llBase.zip llExtra, p.1 + 2 ^ p.2 ≤ safezoneMaxRun + 1)
  rw [SeqCoder.litlen]
  rw [hread]
  exact ⟨n, _, rfl, hle⟩

theorem SeqCoder.offset_some (hpos : 0 < match_count) (c : SeqCoder) :
    ∃ offset c', c.offset T = some (offset, c') := by
  rw [SeqCoder.offset]
  dsimp only
  by_cases hrep : (T.of (c.state_of % ansL)).symbol.toNat < 3
  · rw [if_pos hrep]
    exact ⟨_, _, rfl⟩
  · rw [if_neg hrep]
    obtain ⟨offset, r, hread, -, -⟩ := readExtra_bounds ofBase ofExtra
      (r := (ansBrRead c.r (T.of (c.state_of % ansL)).nbits).2)
      (hT.of hpos _ (mask_lt c.state_of)) rfl (fun _ _ => Nat.zero_le _)
      (by decide : ∀ p ∈ ofBase.zip ofExtra, p.1 + 2 ^ p.2 ≤ 2 ^ 24 + 1)
    rw [hread]
    exact ⟨_, _, rfl⟩

theorem SeqCoder.matchlen_bounds (hpos : 0 < match_count) {ml_base_tab : List Nat}
    (htab : ml_base_tab = mlBase ∨ ml_base_tab = mlBaseV2) (c : SeqCoder) :
    ∃ n c', c.matchlen ml_base_tab T = some (n, c') ∧ 3 ≤ n ∧ n ≤ safezoneMaxRun := by
  have hread : ∃ n r, readExtra ml_base_tab mlExtra (T.ml (c.state_ml % ansL)).symbol.toNat
      (ansBrRead c.r (T.ml (c.state_ml % ansL)).nbits).2 = some (n, r) ∧
        3 ≤ n ∧ n ≤ safezoneMaxRun := by
    rcases htab with rfl | rfl
    · exact readExtra_bounds _ mlExtra (hT.ml hpos _ (mask_lt c.state_ml)) rfl (by decide) (by decide)
    · exact readExtra_bounds _ mlExtra (hT.ml hpos _ (mask_lt c.state_ml)) rfl (by decide) (by decide)
  obtain ⟨n, r, hread, hge, hle⟩ := hread
  rw [SeqCoder.matchlen]
  rw [hread]
  exact ⟨n, _, rfl, hge, hle⟩

end Codes

/-- Tables that passed the validation of their headers are valid. -/
theorem seqTables_valid {st : SeqStorage} {total_lits : Nat} {h : SeqHeader}
    (hnorms : seqNormsValid total_lits h.match_count h.norm_ml h.norm_of h.norm_ll = true)
    (hused : 0 < total_lits ∨ 0 < h.match_count) :
    (seqTables st total_lits h).Valid h.match_count := by
  have hcode : ∀ {norm : Norm} {codes : Nat} {dec : Mem DecEntry}, codesBelow norm codes = true →
      normSum norm 256 = ansL → ∀ x, x < ansL → (buildDecDirect norm dec x).symbol.toNat < codes := by
    intro norm codes dec hbelow hsum x hx
    by_contra hge
    have hocc := buildDecDirect_occurs hsum dec hx
    have hsym : (buildDecDirect norm dec x).symbol.toNat < 256 := UInt8.toNat_lt _
    have hall := List.all_eq_true.mp hbelow _ (List.mem_range.mpr hsym)
    exact hocc (of_decide_eq_true hall (not_lt.mp hge))
  rw [seqNormsValid] at hnorms
  simp only [Bool.and_eq_true, decide_eq_true_eq] at hnorms
  obtain ⟨⟨⟨⟨hof, hml⟩, hll⟩, hsumll⟩, hsums⟩ := hnorms
  have hll' : ∀ x, x < ansL → (buildDecDirect h.norm_ll st.ll x).symbol.toNat < 36 :=
    hcode hll (by by_contra hne; exact hsumll hne hused)
  rw [seqTables]
  rw [if_pos hused]
  by_cases hpos : 0 < h.match_count
  · rw [if_pos hpos]
    exact ⟨hll', fun _ => hcode hof (hsums hpos).2, fun _ => hcode hml (hsums hpos).1⟩
  · rw [if_neg hpos]
    exact ⟨hll', fun h => absurd h hpos, fun h => absurd h hpos⟩

/-! ## One turn -/

/-- The naive loop with the same tables. -/
def SeqParams.naive (P : SeqParams) : NaiveParams :=
  ⟨P.tables, P.ml_base_tab, P.max_offset, P.match_count, P.bounds.hi - P.bounds.lo⟩

/-- The two loops are at the same place. -/
structure SeqTracks (P : SeqParams) (m0 : Mem UInt8) (s : SeqState) (t : NaiveState) : Prop where
  coder : s.coder = t.coder
  lits : t.lits = read P.lit_buf s.lit_pos (P.total_lits - s.lit_pos)
  lit_pos : s.lit_pos ≤ P.total_lits
  decoded : s.matches_decoded = t.matches_decoded
  holds : Holds P.bounds m0 s.m t.out
  op : s.op = P.bounds.lo + t.out.length
  behind : P.dst ≤ s.op

/-- A step of the loop against a step of the naive one. -/
def SeqFollows (P : SeqParams) (m0 : Mem UInt8) (r : Except Stop SeqState) :
    Except Stop NaiveState → Prop
  | .error e => e ≠ .fault ∧ r = .error e
  | .ok t => ∃ s, r = .ok s ∧ SeqTracks P m0 s t

theorem follows_err (P : SeqParams) (m0 : Mem UInt8) (e : VvError) :
    SeqFollows P m0 (.error (.err e)) (.error (.err e)) := by
  refine ⟨?_, rfl⟩
  intro h
  cases h

/-- What holds of the parameters of a block. -/
structure SeqParams.Valid (P : SeqParams) : Prop where
  tables : P.tables.Valid P.match_count
  tab : P.ml_base_tab = mlBase ∨ P.ml_base_tab = mlBaseV2
  start : P.bounds.lo ≤ P.dst

/-- In the safe zone there is room for a literal run and a match, and the whole
    window is behind. -/
theorem SeqParams.inSafeZone_spec {P : SeqParams} (hP : P.Valid) {op : Nat}
    (h : P.inSafeZone op = true) :
    op + 2 * safezoneMaxRun ≤ P.bounds.hi ∧ P.max_offset ≤ op - P.bounds.lo := by
  have hstart := hP.start
  rw [SeqParams.inSafeZone] at h
  cases hfloor : P.offsetCheckFloor with
  | none =>
      rw [hfloor] at h
      cases h
  | some floor =>
      rw [hfloor] at h
      obtain ⟨hroom, hge, hle⟩ := of_decide_eq_true h
      have hpos : 0 < safezoneMaxRun := by decide
      refine ⟨by omega, ?_⟩
      rw [SeqParams.offsetCheckFloor] at hfloor
      by_cases hhist : P.max_offset ≤ P.dst - P.bounds.lo
      · rw [if_pos hhist] at hfloor
        obtain rfl := Option.some.inj hfloor
        omega
      rw [if_neg hhist] at hfloor
      by_cases hcap : P.max_offset - (P.dst - P.bounds.lo) ≤ P.bounds.hi - P.dst
      · rw [if_pos hcap] at hfloor
        obtain rfl := Option.some.inj hfloor
        omega
      · rw [if_neg hcap] at hfloor
        cases hfloor

section Turn

variable {P : SeqParams} {m0 : Mem UInt8} {s : SeqState} {t : NaiveState}

/-- **THE LITERALS** of a sequence, over-copied or not. -/
theorem SeqTracks.copyLits (h : SeqTracks P m0 s t) {litlen : Nat}
    (hhave : litlen ≤ P.total_lits - s.lit_pos) (hroom : s.op + litlen ≤ P.bounds.hi) :
    Gives P.bounds m0 (P.copyLits s litlen) (t.out ++ t.lits.take litlen) := by
  have hlits : t.lits.take litlen = read P.lit_buf s.lit_pos litlen := by
    rw [h.lits, read_take _ _ _ _ hhave]
  have hpos := h.lit_pos
  have hsec : P.total_lits + 16 ≤ litSec P.total_lits := by
    rw [litSec]
    omega
  rw [SeqParams.copyLits]
  by_cases hzero : 0 < litlen
  · rw [if_pos hzero]
    dsimp only
    by_cases hwide : litlen ≤ 16 ∧ s.op + 16 ≤ P.bounds.hi
    · rw [if_pos hwide, SeqParams.loadLits, if_pos (by omega)]
      have hstore := h.holds.store h.op (read P.lit_buf s.lit_pos 16) (n := litlen)
        (by rw [read_length]; exact hwide.2) (by rw [read_length]; exact hwide.1)
      rw [read_take _ _ _ _ hwide.1, ← hlits] at hstore
      exact hstore
    · rw [if_neg hwide, SeqParams.loadLits, if_pos (by omega)]
      rw [hlits]
      exact h.holds.store_all h.op _ (by rw [read_length]; exact hroom)
  · obtain rfl : litlen = 0 := by omega
    rw [if_neg hzero, List.take_zero, List.append_nil]
    exact h.holds.gives

/-- **THE MATCH** of a sequence: in the safe zone the naive checks hold of
    themselves. -/
theorem SeqTracks.matchTurn (hP : P.Valid) (h : SeqTracks P m0 s t) {safe : Bool}
    (hsafe : safe = true →
      s.op + safezoneMaxRun ≤ P.bounds.hi ∧ P.max_offset ≤ s.op - P.bounds.lo)
    (hpos : 0 < P.match_count) :
    SeqFollows P m0 (P.matchTurn safe s) (P.naive.matchTurn t) := by
  obtain ⟨offset, c, hoffset⟩ := SeqCoder.offset_some hP.tables hpos t.coder
  obtain ⟨matchlen, c', hmatchlen, hthree, hmax⟩ :=
    SeqCoder.matchlen_bounds hP.tables hpos hP.tab c
  have hop := h.op
  have hfits := h.holds.fits
  have hbehind := h.behind
  have hlen : s.op - P.bounds.lo = t.out.length := by omega
  rw [SeqParams.matchTurn, NaiveParams.matchTurn, h.coder]
  have hoffset' : t.coder.offset P.naive.tables = some (offset, c) := hoffset
  have hmatchlen' : c.matchlen P.naive.ml_base_tab P.naive.tables = some (matchlen, c') := hmatchlen
  rw [hoffset, hoffset']
  dsimp only
  rw [hmatchlen, hmatchlen']
  dsimp only
  have hwindow : P.naive.max_offset = P.max_offset := rfl
  have hcap : P.naive.cap = P.bounds.hi - P.bounds.lo := rfl
  rw [hwindow, hcap, hlen]
  by_cases hbad : offset = 0 ∨ P.max_offset < offset
  · rw [if_pos hbad, if_pos hbad]
    exact follows_err P m0 _
  rw [if_neg hbad, if_neg hbad]
  by_cases hfar : t.out.length < offset
  · have hguarded : ¬ safe = true := by
      intro hs
      have := hsafe hs
      omega
    rw [if_pos ⟨hguarded, hfar⟩, if_pos hfar]
    exact follows_err P m0 _
  rw [if_neg (fun hc => hfar hc.2), if_neg hfar]
  by_cases hover : P.bounds.hi - P.bounds.lo < t.out.length + matchlen
  · have hguarded : ¬ safe = true := by
      intro hs
      have := hsafe hs
      omega
    rw [if_pos ⟨hguarded, by omega⟩, if_pos hover]
    exact follows_err P m0 _
  rw [if_neg (fun hc => hover (by omega)), if_neg hover]
  have hcopy : Gives P.bounds m0 (seqMatchCopy P.bounds s.m s.op offset matchlen)
      (extend t.out offset matchlen) :=
    Holds.seqMatchCopy h.holds h.op (by omega) (by omega) hthree (by omega)
  obtain ⟨m, hm, hholds⟩ := hcopy
  rw [hm]
  dsimp only
  refine ⟨_, rfl, rfl, h.lits, h.lit_pos, ?_, hholds, ?_, ?_⟩
  · show s.matches_decoded + 1 = t.matches_decoded + 1
    rw [h.decoded]
  · show s.op + matchlen = P.bounds.lo + (extend t.out offset matchlen).length
    rw [length_extend (by omega) (by omega)]
    omega
  · show P.dst ≤ s.op + matchlen
    omega

/-- **ONE TURN** of the loop is one of the naive loop. -/
theorem SeqTracks.turn (hP : P.Valid) (h : SeqTracks P m0 s t) :
    SeqFollows P m0 (P.turn s) (P.naive.turn t) := by
  obtain ⟨litlen, c, hlitlen, hmax⟩ := SeqCoder.litlen_bounds hP.tables t.coder
  have hlitlen' : t.coder.litlen P.naive.tables = some (litlen, c) := hlitlen
  have hleft : t.lits.length = P.total_lits - s.lit_pos := by rw [h.lits, read_length]
  have hcap : P.naive.cap = P.bounds.hi - P.bounds.lo := rfl
  have hcount : P.naive.match_count = P.match_count := rfl
  have hop := h.op
  have hfits := h.holds.fits
  rw [SeqParams.turn, NaiveParams.turn, h.coder, hlitlen, hlitlen', hleft, hcap]
  dsimp only
  by_cases hfew : P.total_lits - s.lit_pos < litlen
  · rw [if_pos hfew, if_pos hfew]
    exact follows_err P m0 _
  rw [if_neg hfew, if_neg hfew]
  by_cases hover : P.bounds.hi - P.bounds.lo < t.out.length + litlen
  · have hguarded : ¬ P.inSafeZone s.op = true := by
      intro hs
      have := (P.inSafeZone_spec hP hs).1
      omega
    rw [if_pos ⟨hguarded, by omega⟩, if_pos hover]
    exact follows_err P m0 _
  rw [if_neg (fun hc => hover (by omega)), if_neg hover]
  have hcopy : Gives P.bounds m0 (P.copyLits s litlen) (t.out ++ t.lits.take litlen) :=
    h.copyLits (by omega) (by omega)
  obtain ⟨m, hm, hholds⟩ := hcopy
  rw [hm]
  dsimp only
  have hnext : SeqTracks P m0
      { s with coder := c, op := s.op + litlen, lit_pos := s.lit_pos + litlen, m := m }
      { t with coder := c, out := t.out ++ t.lits.take litlen, lits := t.lits.drop litlen } := by
    refine ⟨rfl, ?_, ?_, h.decoded, hholds, ?_, ?_⟩
    · show t.lits.drop litlen = read P.lit_buf (s.lit_pos + litlen)
        (P.total_lits - (s.lit_pos + litlen))
      rw [h.lits, read_drop _ _ _ _ (by omega), Nat.sub_sub]
    · show s.lit_pos + litlen ≤ P.total_lits
      have := h.lit_pos
      omega
    · show s.op + litlen = P.bounds.lo + (t.out ++ t.lits.take litlen).length
      rw [List.length_append, List.length_take]
      omega
    · show P.dst ≤ s.op + litlen
      have := h.behind
      omega
  rw [hcount]
  by_cases hdone : P.match_count ≤ s.matches_decoded
  · rw [if_pos hdone, if_pos (h.decoded ▸ hdone)]
    exact ⟨_, rfl, hnext⟩
  · rw [if_neg hdone, if_neg (h.decoded ▸ hdone)]
    refine hnext.matchTurn hP ?_ (by omega)
    intro hs
    obtain ⟨hroom, hwindow⟩ := P.inSafeZone_spec hP hs
    constructor
    · show s.op + litlen + safezoneMaxRun ≤ P.bounds.hi
      omega
    · show P.max_offset ≤ s.op + litlen - P.bounds.lo
      omega

end Turn

/-! ## The loop -/

/-- How a run compares with a naive one that starts at `dst`. -/
def SameOutcome (b : Bounds) (dst : Nat) (m0 : Mem UInt8) (r : Except Stop (Mem UInt8 × Nat)) :
    Except Stop Bytes → Prop
  | .error e => e ≠ .fault ∧ r = .error e
  | .ok out => ∃ m, r = .ok (m, b.lo + out.length - dst) ∧ dst ≤ b.lo + out.length ∧
      Holds b m0 m out

/-- The loop with its result in the shape of `vva_decode_sequences_impl`. -/
def SeqParams.result (P : SeqParams) : Except Stop SeqState → Except Stop (Mem UInt8 × Nat)
  | .error e => .error e
  | .ok s => .ok (s.m, s.op - P.dst)

/-- Both loops go on, or neither does. -/
theorem SeqTracks.more_iff {P : SeqParams} {m0 : Mem UInt8} {s : SeqState} {t : NaiveState}
    (h : SeqTracks P m0 s t) :
    (s.lit_pos < P.total_lits ∨ s.matches_decoded < P.match_count) ↔
      (0 < t.lits.length ∨ t.matches_decoded < P.naive.match_count) := by
  have hpos := h.lit_pos
  have hcount : P.naive.match_count = P.match_count := rfl
  rw [h.lits, read_length, h.decoded, hcount]
  omega

theorem SeqTracks.finish {P : SeqParams} {m0 : Mem UInt8} {s : SeqState} {t : NaiveState}
    (h : SeqTracks P m0 s t) :
    SameOutcome P.bounds P.dst m0 (.ok (s.m, s.op - P.dst)) (.ok t.out) := by
  have hop := h.op
  have hbehind := h.behind
  exact ⟨s.m, by rw [hop], by omega, h.holds⟩

/-- **THE LOOP WITH SAFE ZONES** ends as the naive loop does. -/
theorem SeqTracks.loop {P : SeqParams} {m0 : Mem UInt8} (hP : P.Valid) (iters : Nat) {s : SeqState}
    {t : NaiveState} (h : SeqTracks P m0 s t) :
    SameOutcome P.bounds P.dst m0 (P.result (P.loop iters s)) (P.naive.loop iters t) := by
  induction iters generalizing s t with
  | zero =>
      rw [SeqParams.loop, NaiveParams.loop]
      by_cases hmore : s.lit_pos < P.total_lits ∨ s.matches_decoded < P.match_count
      · rw [if_pos hmore, if_pos (h.more_iff.mp hmore)]
        exact ⟨Stop.noConfusion, rfl⟩
      · rw [if_neg hmore, if_neg fun hc => hmore (h.more_iff.mpr hc)]
        exact h.finish
  | succ iters ih =>
      rw [SeqParams.loop, NaiveParams.loop]
      by_cases hmore : s.lit_pos < P.total_lits ∨ s.matches_decoded < P.match_count
      · rw [if_pos hmore, if_pos (h.more_iff.mp hmore)]
        have hturn := h.turn hP
        cases hnaive : P.naive.turn t with
        | error e =>
            rw [hnaive] at hturn
            obtain ⟨hfault, hsame⟩ := hturn
            rw [hsame]
            exact ⟨hfault, rfl⟩
        | ok t' =>
            rw [hnaive] at hturn
            obtain ⟨s', hsame, htracks⟩ := hturn
            rw [hsame]
            exact ih htracks
      · rw [if_neg hmore, if_neg fun hc => hmore (h.more_iff.mpr hc)]
        exact h.finish

/-! ## The decoder -/

/-- What the headers of a block are good for, once they were read. -/
theorem readSeqHeader_valid {total_lits dst_cap : Nat} {p : Bytes} {h : SeqHeader}
    (hread : readSeqHeader total_lits dst_cap p = .ok h) :
    seqNormsValid total_lits h.match_count h.norm_ml h.norm_of h.norm_ll = true := by
  rw [readSeqHeader] at hread
  split at hread
  · cases hread
  dsimp only at hread
  split at hread
  · cases hread
  split at hread
  · cases hread
  rename_i norm_ml p1 hml
  split at hread
  · cases hread
  rename_i norm_of p2 hof
  split at hread
  · cases hread
  rename_i norm_ll p3 hll
  split at hread
  · rename_i hvalid
    rw [readSeqStates] at hread
    split at hread
    · cases hread
    split at hread
    · cases hread
    dsimp only at hread
    split at hread
    · cases hread
    · obtain rfl := Except.ok.inj hread
      exact hvalid
  · cases hread

/-- The loops at the start of a block. -/
theorem SeqTracks.start {P : SeqParams} {m : Mem UInt8} {history : Bytes} (coder : SeqCoder)
    (h : Holds P.bounds m m history) (hdst : P.dst = P.bounds.lo + history.length) :
    SeqTracks P m ⟨coder, P.dst, 0, 0, m⟩ ⟨coder, read P.lit_buf 0 P.total_lits, 0, history⟩ where
  coder := rfl
  lits := by rw [Nat.sub_zero]
  lit_pos := Nat.zero_le _
  decoded := rfl
  holds := h
  op := hdst
  behind := Nat.le_refl _

/-- Without literals and matches the loop is over before a table is looked at. -/
theorem SeqTracks.idle {P : SeqParams} {m0 : Mem UInt8} {s : SeqState} {t : NaiveState}
    (h : SeqTracks P m0 s t) (hidle : ¬ (s.lit_pos < P.total_lits ∨ s.matches_decoded < P.match_count))
    (iters : Nat) : SameOutcome P.bounds P.dst m0 (P.result (P.loop iters s)) (P.naive.loop iters t) := by
  have hnaive := mt h.more_iff.mpr hidle
  cases iters with
  | zero =>
      rw [SeqParams.loop, NaiveParams.loop, if_neg hidle, if_neg hnaive]
      exact h.finish
  | succ iters =>
      rw [SeqParams.loop, NaiveParams.loop, if_neg hidle, if_neg hnaive]
      exact h.finish

/-- **THE DECODER BEHIND A HISTORY** ends as the naive one does. -/
theorem sequences_outcome (st : SeqStorage) {tab : List Nat} (htab : tab = mlBase ∨ tab = mlBaseV2)
    (max_offset : Nat) (src : Bytes) {b : Bounds} {dst : Nat} {m : Mem UInt8} {history : Bytes}
    (h : Holds b m m history) (hdst : dst = b.lo + history.length) :
    SameOutcome b dst m (vvaDecodeSequences st tab max_offset src b dst m)
      (naiveSequences st tab max_offset src history (b.hi - dst)) := by
  have hfits := h.fits
  have hcap : history.length + (b.hi - dst) = b.hi - b.lo := by omega
  rw [vvaDecodeSequences, naiveSequences, hcap]
  cases readLitSection src (b.hi - dst) with
  | error e => exact ⟨Stop.noConfusion, rfl⟩
  | ok l =>
      dsimp only
      cases fillLits st l with
      | error e => exact ⟨Stop.noConfusion, rfl⟩
      | ok lit_buf =>
          dsimp only
          cases hhdr : readSeqHeader l.total_lits (b.hi - dst) l.rest with
          | error e => exact ⟨Stop.noConfusion, rfl⟩
          | ok hd =>
              dsimp only
              by_cases hwindow : max_offset = 0 ∨ 2 ^ 24 < max_offset
              · rw [if_pos hwindow, if_pos hwindow]
                exact ⟨Stop.noConfusion, rfl⟩
              rw [if_neg hwindow, if_neg hwindow]
              let P : SeqParams :=
                ⟨seqTables st l.total_lits hd, tab, max_offset, l.total_lits, hd.match_count, lit_buf, b, dst⟩
              have hstart := SeqTracks.start (P := P) hd.coder h hdst
              have hresult : SameOutcome P.bounds P.dst m
                  (P.result (P.loop (l.total_lits + hd.match_count + 16) ⟨hd.coder, dst, 0, 0, m⟩))
                  (P.naive.loop (l.total_lits + hd.match_count + 16)
                    ⟨hd.coder, read lit_buf 0 l.total_lits, 0, history⟩) := by
                by_cases hused : 0 < l.total_lits ∨ 0 < hd.match_count
                · have hle : b.lo ≤ dst := by omega
                  exact hstart.loop
                    ⟨seqTables_valid (readSeqHeader_valid hhdr) hused, htab, hle⟩ _
                · exact hstart.idle hused _
              cases hloop : P.loop (l.total_lits + hd.match_count + 16) ⟨hd.coder, dst, 0, 0, m⟩ with
              | error e =>
                  rw [hloop] at hresult
                  exact hresult
              | ok s =>
                  rw [hloop] at hresult
                  exact hresult

/-- **SAFE ZONES ARE EXACT**: for every payload, window, history and capacity,
    and for whatever the buffer and the allocated storage hold, the sequence
    decoder with its unchecked zones and over-copies ends as the naive decoder
    does, with the same bytes and length or the same error.  No access fails. -/
theorem vvaDecodeSequences_eq_naive (st : SeqStorage) (v2 : Bool) (max_offset : Nat) (src : Bytes)
    (m : Mem UInt8) (dst_base history dst_cap : Nat) :
    SameOutcome ⟨dst_base, dst_base + history + dst_cap⟩ (dst_base + history) m
      (vvaDecodeSequences st (if v2 then mlBaseV2 else mlBase) max_offset src
        ⟨dst_base, dst_base + history + dst_cap⟩ (dst_base + history) m)
      (naiveSequences st (if v2 then mlBaseV2 else mlBase) max_offset src
        (read m dst_base history) dst_cap) := by
  have hcap : dst_base + history + dst_cap - (dst_base + history) = dst_cap := by omega
  have htab : (if v2 then mlBaseV2 else mlBase) = mlBase ∨
      (if v2 then mlBaseV2 else mlBase) = mlBaseV2 := by
    cases v2 with
    | false => exact Or.inl rfl
    | true => exact Or.inr rfl
  generalize (if v2 then mlBaseV2 else mlBase) = tab at htab ⊢
  rw [vvaDecodeSequences, naiveSequences]
  dsimp only
  rw [hcap]
  cases hsec : readLitSection src dst_cap with
  | error e => exact ⟨Stop.noConfusion, rfl⟩
  | ok l =>
      dsimp only
      cases hfill : fillLits st l with
      | error e => exact ⟨Stop.noConfusion, rfl⟩
      | ok lit_buf =>
          dsimp only
          cases hhdr : readSeqHeader l.total_lits dst_cap l.rest with
          | error e => exact ⟨Stop.noConfusion, rfl⟩
          | ok h =>
              dsimp only
              by_cases hwindow : max_offset = 0 ∨ 2 ^ 24 < max_offset
              · rw [if_pos hwindow, if_pos hwindow]
                exact ⟨Stop.noConfusion, rfl⟩
              rw [if_neg hwindow, if_neg hwindow]
              have hframe : (read m dst_base history).length + dst_cap
                  = dst_base + history + dst_cap - dst_base := by
                rw [read_length]
                omega
              rw [hframe]
              let P : SeqParams :=
                ⟨seqTables st l.total_lits h, tab, max_offset, l.total_lits, h.match_count,
                  lit_buf, ⟨dst_base, dst_base + history + dst_cap⟩, dst_base + history⟩
              have hstart : SeqTracks P m ⟨h.coder, dst_base + history, 0, 0, m⟩
                  ⟨h.coder, read lit_buf 0 l.total_lits, 0, read m dst_base history⟩ := by
                refine ⟨rfl, rfl, Nat.zero_le _, rfl, ⟨?_, ?_, fun _ _ => rfl⟩, ?_, Nat.le_refl _⟩
                · rw [read_length]
                  show dst_base + history ≤ dst_base + history + dst_cap
                  omega
                · rw [read_length]
                · rw [read_length]
              have hresult : SameOutcome P.bounds P.dst m
                  (P.result (P.loop (l.total_lits + h.match_count + 16)
                    ⟨h.coder, dst_base + history, 0, 0, m⟩))
                  (P.naive.loop (l.total_lits + h.match_count + 16)
                    ⟨h.coder, read lit_buf 0 l.total_lits, 0, read m dst_base history⟩) := by
                by_cases hused : 0 < l.total_lits ∨ 0 < h.match_count
                · exact hstart.loop ⟨seqTables_valid (readSeqHeader_valid hhdr) hused, htab,
                    Nat.le_add_right _ _⟩ _
                · -- without literals and matches no table is looked at
                  have hidle : ¬ (0 < P.total_lits ∨ 0 < P.match_count) := hused
                  rw [SeqParams.loop, NaiveParams.loop, if_neg hidle,
                    if_neg fun hc => hidle (hstart.more_iff.mpr hc)]
                  exact hstart.finish
              cases hloop : P.loop (l.total_lits + h.match_count + 16)
                  ⟨h.coder, dst_base + history, 0, 0, m⟩ with
              | error e =>
                  rw [hloop] at hresult
                  exact hresult
              | ok s =>
                  rw [hloop] at hresult
                  exact hresult

end Zupt.VaptVupt
