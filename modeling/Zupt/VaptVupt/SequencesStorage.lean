import Zupt.VaptVupt.SequencesExact

/-! # What a sequence block takes from its storage

    Nothing but the literals it announced and did not encode: the tables of the
    literal decoders and of the loop are written before they are read. -/

namespace Zupt.VaptVupt

open Zupt.LittleEndian Zupt.Memory Zupt.Window

/-! ## Literals -/

/-- The fields of a literal section. -/
theorem readLitSection_ok {src : Bytes} {dst_cap : Nat} {l : LitSection}
    (h : readLitSection src dst_cap = .ok l) :
    l.total_lits = u32At src 0 ∧ l.enc.length = u32At src 5 := by
  rw [readLitSection] at h
  split at h
  · cases h
  dsimp only at h
  split at h
  · cases h
  rename_i hlen
  split at h
  · cases h
  obtain rfl := Except.ok.inj h
  refine ⟨rfl, ?_⟩
  show (((src.drop 9).take (u32At src 5))).length = u32At src 5
  rw [List.length_take]
  omega

theorem decodeLits_storage (st st' : SeqStorage) (lit_fmt : UInt8) (enc : Bytes)
    (total_lits : Nat) :
    decodeLits st lit_fmt enc total_lits = decodeLits st' lit_fmt enc total_lits := by
  rw [decodeLits, decodeLits]
  dsimp only
  rw [vvaDecode4_storage st.ansWork st'.ansWork, vvaDecode_storage st.ansWork st'.ansWork,
    vvhDecode_storage st.huffWork st'.huffWork, vvhDecode4_storage st.huffWork st'.huffWork]

theorem decodeLits_length {st : SeqStorage} {lit_fmt : UInt8} {enc xs : Bytes} {total_lits : Nat}
    (h : decodeLits st lit_fmt enc total_lits = .ok xs) : xs.length = total_lits := by
  rw [decodeLits] at h
  dsimp only at h
  split at h
  · cases hr : vvaDecode4 st.ansWork enc total_lits total_lits with
    | error e =>
        rw [hr] at h
        cases h
    | ok p =>
        rw [hr] at h
        obtain rfl := Except.ok.inj h
        exact vvaDecode4_length hr
  split at h
  · cases hr : vvaDecode st.ansWork enc total_lits total_lits with
    | error e =>
        rw [hr] at h
        cases h
    | ok p =>
        rw [hr] at h
        obtain rfl := Except.ok.inj h
        exact vvaDecode_length hr
  split at h
  · cases hr : vvhDecode st.huffWork enc total_lits total_lits with
    | error e =>
        rw [hr] at h
        cases h
    | ok p =>
        rw [hr] at h
        obtain rfl := Except.ok.inj h
        exact vvhDecode_length hr
  split at h
  · cases hr : vvhDecode4 st.huffWork enc total_lits total_lits with
    | error e =>
        rw [hr] at h
        cases h
    | ok p =>
        rw [hr] at h
        obtain rfl := Except.ok.inj h
        exact vvhDecode4_length hr
  split at h
  · obtain rfl := Except.ok.inj h
    rw [List.length_take]
    omega
  · cases h

/-- **ENCODED LITERALS FILL THE BUFFER**: what is read of it does not depend on
    the storage. -/
theorem fillLits_storage (st st' : SeqStorage) {l : LitSection}
    (h : l.total_lits = 0 ∨ 0 < l.enc.length) :
    (∃ e, fillLits st l = .error e ∧ fillLits st' l = .error e) ∨
      ∃ buf buf', fillLits st l = .ok buf ∧ fillLits st' l = .ok buf' ∧
        read buf 0 l.total_lits = read buf' 0 l.total_lits := by
  rw [fillLits, fillLits]
  by_cases hcoded : 0 < l.total_lits ∧ 0 < l.enc.length
  · rw [if_pos hcoded, if_pos hcoded, decodeLits_storage st' st]
    cases hlits : decodeLits st l.lit_fmt l.enc l.total_lits with
    | error e => exact Or.inl ⟨e, rfl, rfl⟩
    | ok xs =>
        have hlen := decodeLits_length hlits
        refine Or.inr ⟨_, _, rfl, rfl, ?_⟩
        rw [read_write_self _ hlen, read_write_self _ hlen]
  · have hnone : l.total_lits = 0 := by
      rcases h with h | h
      · exact h
      · by_contra hne
        exact hcoded ⟨Nat.pos_of_ne_zero hne, h⟩
    rw [if_neg hcoded, if_neg hcoded, hnone]
    exact Or.inr ⟨_, _, rfl, rfl, rfl⟩

/-! ## Tables -/

/-- Tables that are alike where they are consulted. -/
structure SeqTables.Agree (T T' : SeqTables) (match_count : Nat) : Prop where
  ll : AgreeBelow ansL T.ll T'.ll
  of : 0 < match_count → AgreeBelow ansL T.of T'.of
  ml : 0 < match_count → AgreeBelow ansL T.ml T'.ml

/-- The tables of a block that consults them do not depend on the storage. -/
theorem seqTables_agree (st st' : SeqStorage) {total_lits : Nat} {h : SeqHeader}
    (hnorms : seqNormsValid total_lits h.match_count h.norm_ml h.norm_of h.norm_ll = true)
    (hused : 0 < total_lits ∨ 0 < h.match_count) :
    (seqTables st total_lits h).Agree (seqTables st' total_lits h) h.match_count := by
  rw [seqNormsValid] at hnorms
  simp only [Bool.and_eq_true, decide_eq_true_eq] at hnorms
  obtain ⟨⟨-, hsumll⟩, hsums⟩ := hnorms
  have hll : normSum h.norm_ll 256 = ansL := by
    by_contra hne
    exact hsumll hne hused
  rw [seqTables, seqTables, if_pos hused, if_pos hused]
  by_cases hpos : 0 < h.match_count
  · rw [if_pos hpos, if_pos hpos]
    refine ⟨buildDecDirect_agree hll _ _, ?_, ?_⟩
    · intro _
      exact buildDecDirect_agree (hsums hpos).2 _ _
    · intro _
      exact buildDecDirect_agree (hsums hpos).1 _ _
  · rw [if_neg hpos, if_neg hpos]
    exact ⟨buildDecDirect_agree hll _ _, fun hc => absurd hc hpos, fun hc => absurd hc hpos⟩

section Agree

variable {T T' : SeqTables} {match_count : Nat}

theorem SeqCoder.litlen_agree (h : T.Agree T' match_count) (c : SeqCoder) :
    c.litlen T = c.litlen T' := by
  rw [SeqCoder.litlen, SeqCoder.litlen, h.ll _ (mask_lt c.state_ll)]

theorem SeqCoder.offset_agree (h : T.Agree T' match_count) (hpos : 0 < match_count)
    (c : SeqCoder) : c.offset T = c.offset T' := by
  rw [SeqCoder.offset, SeqCoder.offset, h.of hpos _ (mask_lt c.state_of)]

theorem SeqCoder.matchlen_agree (h : T.Agree T' match_count) (hpos : 0 < match_count)
    (ml_base_tab : List Nat) (c : SeqCoder) :
    c.matchlen ml_base_tab T = c.matchlen ml_base_tab T' := by
  rw [SeqCoder.matchlen, SeqCoder.matchlen, h.ml hpos _ (mask_lt c.state_ml)]

/-- **THE LOOP** consults no more of its tables. -/
theorem NaiveParams.loop_agree {P : NaiveParams} (h : P.tables.Agree T P.match_count)
    (iters : Nat) (s : NaiveState) :
    P.loop iters s = { P with tables := T }.loop iters s := by
  induction iters generalizing s with
  | zero => rw [NaiveParams.loop, NaiveParams.loop]
  | succ iters ih =>
      have hturn : P.turn s = { P with tables := T }.turn s := by
        rw [NaiveParams.turn, NaiveParams.turn, SeqCoder.litlen_agree h]
        cases hlit : s.coder.litlen T with
        | none => rfl
        | some p =>
            dsimp only
            by_cases hdone : P.match_count ≤ s.matches_decoded
            · rw [if_pos hdone, if_pos hdone]
            · have hpos : 0 < P.match_count := by omega
              rw [if_neg hdone, if_neg hdone, NaiveParams.matchTurn, NaiveParams.matchTurn]
              simp only [SeqCoder.offset_agree h hpos, SeqCoder.matchlen_agree h hpos]
      rw [NaiveParams.loop, NaiveParams.loop, hturn]
      simp only [ih]

end Agree

/-- **A SUPPLIED SEQUENCE BLOCK** decodes alike in any storage. -/
theorem naiveSequences_storage (st st' : SeqStorage) (ml_base_tab : List Nat) (max_offset : Nat)
    {src : Bytes} (history : Bytes) (dst_cap : Nat)
    (h : u32At src 0 = 0 ∨ 0 < u32At src 5) :
    naiveSequences st ml_base_tab max_offset src history dst_cap =
      naiveSequences st' ml_base_tab max_offset src history dst_cap := by
  rw [naiveSequences, naiveSequences]
  cases hsec : readLitSection src dst_cap with
  | error e => rfl
  | ok l =>
      obtain ⟨htotal, henc⟩ := readLitSection_ok hsec
      rw [← htotal, ← henc] at h
      dsimp only
      rcases fillLits_storage st st' h with ⟨e, he, he'⟩ | ⟨buf, buf', hbuf, hbuf', hsame⟩
      · rw [he, he']
      rw [hbuf, hbuf']
      dsimp only
      cases hhdr : readSeqHeader l.total_lits dst_cap l.rest with
      | error e => rfl
      | ok hd =>
          dsimp only
          by_cases hwindow : max_offset = 0 ∨ 2 ^ 24 < max_offset
          · rw [if_pos hwindow, if_pos hwindow]
          rw [if_neg hwindow, if_neg hwindow, hsame]
          by_cases hused : 0 < l.total_lits ∨ 0 < hd.match_count
          · exact NaiveParams.loop_agree
              (P := ⟨seqTables st l.total_lits hd, ml_base_tab, max_offset, hd.match_count,
                history.length + dst_cap⟩)
              (seqTables_agree st st' (readSeqHeader_valid hhdr) hused) _ _
          · -- without literals and matches no table is looked at
            have hidle : ¬ (0 < (read buf' 0 l.total_lits).length ∨ 0 < hd.match_count) := by
              rw [read_length]
              exact hused
            rw [NaiveParams.loop, NaiveParams.loop]
            dsimp only
            rw [if_neg hidle, if_neg hidle]

/-! ## What was there stays -/

theorem NaiveParams.turn_prefix {P : NaiveParams} {s s' : NaiveState} (h : P.turn s = .ok s') :
    s.out <+: s'.out := by
  rw [NaiveParams.turn] at h
  split at h
  · cases h
  split at h
  · cases h
  split at h
  · cases h
  dsimp only at h
  split at h
  · obtain rfl := Except.ok.inj h
    exact List.prefix_append _ _
  rw [NaiveParams.matchTurn] at h
  split at h
  · cases h
  split at h
  · cases h
  split at h
  · cases h
  split at h
  · cases h
  split at h
  · cases h
  · obtain rfl := Except.ok.inj h
    exact (List.prefix_append _ _).trans (prefix_extend _ _ _)

theorem NaiveParams.loop_prefix {P : NaiveParams} {iters : Nat} {s : NaiveState} {out : Bytes}
    (h : P.loop iters s = .ok out) : s.out <+: out := by
  induction iters generalizing s with
  | zero =>
      rw [NaiveParams.loop] at h
      split at h
      · cases h
      · obtain rfl := Except.ok.inj h
        exact List.prefix_refl _
  | succ iters ih =>
      rw [NaiveParams.loop] at h
      split at h
      · split at h
        · cases h
        · rename_i hturn
          exact (NaiveParams.turn_prefix hturn).trans (ih h)
      · obtain rfl := Except.ok.inj h
        exact List.prefix_refl _

/-- A block goes behind the history. -/
theorem naiveSequences_prefix {st : SeqStorage} {ml_base_tab : List Nat} {max_offset dst_cap : Nat}
    {src history out : Bytes}
    (h : naiveSequences st ml_base_tab max_offset src history dst_cap = .ok out) :
    history <+: out := by
  rw [naiveSequences] at h
  split at h
  · cases h
  split at h
  · cases h
  split at h
  · cases h
  split at h
  · cases h
  · exact NaiveParams.loop_prefix h

end Zupt.VaptVupt
