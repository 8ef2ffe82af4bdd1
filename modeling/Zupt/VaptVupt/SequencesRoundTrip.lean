import Zupt.VaptVupt.SequencesExpand
import Zupt.VaptVupt.HuffmanRoundTrip
import Zupt.VaptVupt.ParserSound

/-! # Sequence blocks are decoded to their block

    The literal section, the headers and the stream that
    `vva_encode_sequences_impl` puts together are taken apart by
    `vva_decode_sequences_impl`, whatever coder won the race for the literals. -/

namespace Zupt.VaptVupt

open Zupt.LittleEndian Zupt.Memory Zupt.Window Zupt.BitStream

/-! ## The literals -/

/-- The decoder of the format gives back the literals. -/
structure LitCode.Decodes (c : LitCode) (lits : Bytes) : Prop where
  some_bytes : c.enc ≠ []
  lits : ∀ st, decodeLits st c.fmt c.enc lits.length = .ok lits

section Literals

variable {lits : Bytes}

/-- Without a header there are no literals. -/
theorem vvaDecodeWith_nil {body : Mem DecEntry → Bytes → (hdr n : Nat) → Except VvError (Bytes × Nat)}
    {workspace : Mem DecEntry} {n : Nat} {r : Bytes × Nat} (hn : n ≠ 0)
    (h : vvaDecodeWith body workspace [] n n = .ok r) : False := by
  rw [vvaDecodeWith, if_neg hn, if_neg (Nat.lt_irrefl n)] at h
  cases h

theorem vvhDecodeWith_nil
    {body : HuffTable → CodeLengths → Bytes → (hdr_sz n : Nat) → Except VvError (Bytes × Nat)}
    {workspace : HuffTable} {n : Nat} {r : Bytes × Nat} (hn : n ≠ 0)
    (h : vvhDecodeWith body workspace [] n n = .ok r) : False := by
  rw [vvhDecodeWith, if_neg hn, if_neg (Nat.lt_irrefl n)] at h
  cases h

theorem LitCode.of_some {ε : Type} {fmt : UInt8} {r : Except ε Bytes} {c : LitCode}
    (h : LitCode.of fmt r = some c) : c.fmt = fmt ∧ r = .ok c.enc := by
  cases r with
  | error e => cases h
  | ok enc =>
      obtain rfl := Option.some.inj h
      exact ⟨rfl, rfl⟩

variable (hne : lits ≠ []) (hlen : lits.length < 2 ^ 31)

include hne hlen

theorem LitCode.decodes_ans4 {mem : AnsMemory} {cap : Nat} {c : LitCode}
    (h : LitCode.of 1 (vvaEncode4 mem lits cap) = some c) : c.Decodes lits := by
  obtain ⟨hfmt, henc⟩ := LitCode.of_some h
  have hdec := fun w => vvaDecode4_vvaEncode4 hlen henc w (Nat.le_refl lits.length)
  refine ⟨fun hnil => ?_, fun st => ?_⟩
  · have hbad := hdec fun _ => ⟨0, 0, 0⟩
    rw [hnil] at hbad
    exact vvaDecodeWith_nil (mt List.length_eq_zero_iff.mp hne) hbad
  · rw [decodeLits, hfmt]
    dsimp only
    rw [if_pos rfl, hdec]

theorem LitCode.decodes_ans1 {mem : AnsMemory} {cap : Nat} {c : LitCode}
    (h : LitCode.of 2 (vvaEncode mem lits cap) = some c) : c.Decodes lits := by
  obtain ⟨hfmt, henc⟩ := LitCode.of_some h
  have hdec := fun w => vvaDecode_vvaEncode hlen henc w (Nat.le_refl lits.length)
  refine ⟨fun hnil => ?_, fun st => ?_⟩
  · have hbad := hdec fun _ => ⟨0, 0, 0⟩
    rw [hnil] at hbad
    exact vvaDecodeWith_nil (mt List.length_eq_zero_iff.mp hne) hbad
  · rw [decodeLits, hfmt]
    dsimp only
    rw [if_neg (by decide), if_pos rfl, hdec]

theorem LitCode.decodes_huf {a : TreeAlloc} (ha : a.all = true) {cap : Nat} {c : LitCode}
    (h : LitCode.of 3 (vvhEncode a lits cap) = some c) : c.Decodes lits := by
  obtain ⟨hfmt, henc⟩ := LitCode.of_some h
  have hdec := fun w => vvhDecode_vvhEncode hne (hlen.trans (by decide)) (Or.inr ha) henc w
    (Nat.le_refl lits.length)
  refine ⟨fun hnil => ?_, fun st => ?_⟩
  · have hbad := hdec ⟨fun _ => 0, 0, fun _ => 0, fun _ => 0, fun _ => 0⟩
    rw [hnil] at hbad
    exact vvhDecodeWith_nil (mt List.length_eq_zero_iff.mp hne) hbad
  · rw [decodeLits, hfmt]
    dsimp only
    rw [if_neg (by decide), if_neg (by decide), if_pos rfl, hdec]

theorem LitCode.decodes_huf4 {a : TreeAlloc} {cap : Nat} {c : LitCode}
    (h : LitCode.of 4 (vvhEncode4 a lits cap) = some c) : c.Decodes lits := by
  obtain ⟨hfmt, henc⟩ := LitCode.of_some h
  have hdec := fun w => vvhDecode4_vvhEncode4 (hlen.trans (by decide)) henc w (Nat.le_refl lits.length)
  refine ⟨fun hnil => ?_, fun st => ?_⟩
  · have hbad := hdec ⟨fun _ => 0, 0, fun _ => 0, fun _ => 0, fun _ => 0⟩
    rw [hnil] at hbad
    exact vvhDecodeWith_nil (mt List.length_eq_zero_iff.mp hne) hbad
  · rw [decodeLits, hfmt]
    dsimp only
    rw [if_neg (by decide), if_neg (by decide), if_neg (by decide), if_pos rfl, hdec]

omit hlen in
theorem LitCode.decodes_raw : LitCode.Decodes ⟨0, lits⟩ lits := by
  refine ⟨hne, fun st => ?_⟩
  rw [decodeLits]
  dsimp only
  rw [if_neg (by decide), if_neg (by decide), if_neg (by decide), if_neg (by decide),
    if_pos (Nat.le_refl _), List.take_length]

end Literals

/-! ## The race -/

/-- What holds of a candidate, if there is one. -/
def OfCandidate (P : LitCode → Prop) (c : Option LitCode) : Prop := ∀ x, c = some x → P x

section Race

variable {P : LitCode → Prop} {b c : Option LitCode}

theorem ofCandidate_none : OfCandidate P none := by
  intro x hx
  cases hx

theorem OfCandidate.ite {q : Prop} [Decidable q] (hb : OfCandidate P b) :
    OfCandidate P (if q then b else none) := by
  split
  · exact hb
  · exact ofCandidate_none

theorem OfCandidate.smaller (hb : OfCandidate P b) (hc : OfCandidate P c) :
    OfCandidate P (raceSmaller b c) := by
  intro x hx
  cases c with
  | none =>
      cases b with
      | none => cases hx
      | some y => exact hb x hx
  | some z =>
      cases b with
      | none => exact hc x hx
      | some y =>
          rw [raceSmaller] at hx
          split at hx
          · exact hc x hx
          · exact hb x hx

theorem OfCandidate.best (hb : OfCandidate P b) (hc : OfCandidate P c) : OfCandidate P (hufBest b c) := by
  intro x hx
  cases b with
  | none =>
      cases c with
      | none => cases hx
      | some z => exact hc x hx
  | some y =>
      cases c with
      | none => exact hb x hx
      | some z =>
          rw [hufBest] at hx
          split at hx
          · exact hb x hx
          · exact hc x hx

theorem OfCandidate.filter (hb : OfCandidate P b) (f : LitCode → Bool) :
    OfCandidate (fun x => P x ∧ f x = true) (b.filter f) := by
  intro x hx
  obtain ⟨hsome, hf⟩ := Option.filter_eq_some_iff.mp hx
  exact ⟨hb x hsome, hf⟩

theorem OfCandidate.getD (hb : OfCandidate P b) {x : LitCode} (hx : P x) : P (b.getD x) := by
  cases b with
  | none => exact hx
  | some y => exact hb y rfl

end Race

theorem le_vvaBound (n : Nat) : n ≤ vvaBound n := by
  rw [vvaBound]
  omega

/-- A candidate that is decoded, of no more than `lit_cap` bytes. -/
def LitCode.GoodFor (lits : Bytes) (c : LitCode) : Prop :=
  c.Decodes lits ∧ c.enc.length ≤ vvaBound lits.length

/-- **THE LITERAL SECTION** of some literals is decoded to them, whoever won. -/
theorem encodeLits_decodes {a : LitAlloc} (ha : a.huf.all = true) (disable_huf4 : Bool) {lits : Bytes}
    (hne : lits ≠ []) (hlen : lits.length < 2 ^ 31) :
    (encodeLits a disable_huf4 lits).GoodFor lits := by
  have hraw : LitCode.Decodes ⟨0, lits⟩ lits := LitCode.decodes_raw hne
  have hbound := le_vvaBound lits.length
  have hans4 : OfCandidate (LitCode.Decodes · lits) (LitCode.of 1 (vvaEncode4 a.ans4 lits
      (vvaBound lits.length))) := fun _ => LitCode.decodes_ans4 hne hlen
  have hans1 : OfCandidate (LitCode.Decodes · lits) (LitCode.of 2 (vvaEncode a.ans1 lits
      (vvaBound lits.length))) := fun _ => LitCode.decodes_ans1 hne hlen
  have hhuf : OfCandidate (LitCode.Decodes · lits) (LitCode.of 3 (vvhEncode a.huf lits
      (vvaBound lits.length))) := fun _ => LitCode.decodes_huf hne hlen ha
  have hhuf4 : OfCandidate (LitCode.Decodes · lits) (LitCode.of 4 (vvhEncode4 a.huf4 lits
      (vvaBound lits.length))) := fun _ => LitCode.decodes_huf4 hne hlen
  rw [encodeLits, if_neg (mt List.length_eq_zero_iff.mp hne)]
  by_cases hmany : 4096 ≤ lits.length
  · rw [if_pos hmany, raceEstimated]
    dsimp only
    have hboth : OfCandidate (LitCode.Decodes · lits)
        (if (hufFinalist disable_huf4 lits).1 = 4 then LitCode.of 4 (vvhEncode4 a.huf4 lits
            (vvaBound lits.length))
          else LitCode.of 3 (vvhEncode a.huf lits (vvaBound lits.length))) := by
      split
      · exact hhuf4
      · exact hhuf
    refine OfCandidate.getD (P := LitCode.GoodFor lits)
      (OfCandidate.smaller (OfCandidate.ite ?_) (OfCandidate.ite ?_)) ⟨hraw, hbound⟩
    · intro x hx
      obtain ⟨hdec, hsmall⟩ := hans4.filter _ x hx
      exact ⟨hdec, (of_decide_eq_true hsmall).le.trans hbound⟩
    · intro x hx
      obtain ⟨hdec, hsmall⟩ := hboth.filter _ x hx
      exact ⟨hdec, (of_decide_eq_true hsmall).le.trans hbound⟩
  · rw [if_neg hmany, raceAll]
    have hwon := (hans4.ite (q := a.ans4_buf)).smaller (hans1.ite (q := a.ans1_buf)) |>.smaller
      ((hhuf4.ite (q := !disable_huf4 ∧ 1024 ≤ lits.length ∧ a.huf4_buf)).best (hhuf.ite (q := a.huf_buf)))
    simp only [if_pos hbound]
    split
    · rename_i c hc
      split
      · rename_i hfits
        exact ⟨hwon c hc, hfits⟩
      · exact ⟨hraw, hbound⟩
    · exact ⟨hraw, hbound⟩

theorem encodeLits_length {a : LitAlloc} (ha : a.huf.all = true) (disable_huf4 : Bool) {lits : Bytes}
    (hlen : lits.length ≤ 2 ^ 30) : (encodeLits a disable_huf4 lits).enc.length < 2 ^ 32 := by
  by_cases hne : lits = []
  · subst hne
    exact Nat.two_pow_pos 32
  · refine (encodeLits_decodes ha disable_huf4 hne (by omega)).2.trans_lt ?_
    rw [vvaBound]
    omega

/-! ## The headers -/

/-- The bytes behind the first field of four. -/
theorem readLitSection_payload {total_lits dst_cap : Nat} {lit : LitCode} (rest : Bytes)
    (htotal : total_lits < 2 ^ 32) (henc : lit.enc.length < 2 ^ 32) (hcap : total_lits ≤ dst_cap) :
    readLitSection (seqPayload total_lits lit rest) dst_cap =
      .ok ⟨total_lits, lit.fmt, lit.enc, rest⟩ := by
  have hfour := lePut_length 4 total_lits
  have hhead : (lePut 4 total_lits ++ (lit.fmt :: lePut 4 lit.enc.length)).length = 9 := by simp
  have hsplit : seqPayload total_lits lit rest =
      lePut 4 total_lits ++ (lit.fmt :: lePut 4 lit.enc.length) ++ (lit.enc ++ rest) := by
    simp [seqPayload]
  have hdrop : (seqPayload total_lits lit rest).drop 9 = lit.enc ++ rest := by
    rw [hsplit]
    exact List.drop_left' hhead
  have hlen : (seqPayload total_lits lit rest).length = 9 + (lit.enc ++ rest).length := by
    rw [hsplit, List.length_append, hhead]
  have hcount : u32At (seqPayload total_lits lit rest) 0 = total_lits :=
    u32At_lePut htotal [] _ rfl
  have hsize : u32At (seqPayload total_lits lit rest) 5 = lit.enc.length := by
    have hfield : seqPayload total_lits lit rest =
        (lePut 4 total_lits ++ [lit.fmt]) ++ (lePut 4 lit.enc.length ++ (lit.enc ++ rest)) := by
      simp [seqPayload]
    rw [hfield]
    exact u32At_lePut henc _ _ (by simp)
  have hfmt : charAt (seqPayload total_lits lit rest) 4 = lit.fmt := by
    rw [charAt, seqPayload, List.getD_eq_getElem?_getD, List.getElem?_append_right (by rw [hfour]),
      hfour]
    rfl
  rw [readLitSection, if_neg (by omega)]
  dsimp only
  rw [hcount, hsize, hfmt, hdrop, if_neg (by rw [List.length_append]; omega),
    if_neg (Nat.not_lt.mpr hcap), List.take_left, List.drop_left]

/-- The literal buffer behind the literal section. -/
theorem fillLits_encoded {a : LitAlloc} (ha : a.huf.all = true) (disable_huf4 : Bool) {lits : Bytes}
    (hlen : lits.length < 2 ^ 31) (st : SeqStorage) (rest : Bytes) :
    ∃ lit_buf, fillLits st ⟨lits.length, (encodeLits a disable_huf4 lits).fmt,
        (encodeLits a disable_huf4 lits).enc, rest⟩ = .ok lit_buf ∧
      read lit_buf 0 lits.length = lits := by
  by_cases hne : lits = []
  · subst hne
    exact ⟨st.lits, rfl, rfl⟩
  · obtain ⟨⟨hsome, hdec⟩, -⟩ := encodeLits_decodes ha disable_huf4 hne hlen
    refine ⟨write st.lits 0 lits, ?_, read_write st.lits 0 lits⟩
    rw [fillLits, if_pos ⟨List.length_pos_iff.mpr hne, List.length_pos_iff.mpr hsome⟩, hdec]

/-- A header behind its size. -/
theorem readSeqNorm_hdr {norm : Norm} (hsum : normSum norm 256 = ansL) {hdr : Bytes}
    (h : writeHdrV2 norm 600 = some hdr) :
    ∃ norm', SameBytes norm norm' ∧
      ∀ rest, readSeqNorm (lePut 2 hdr.length ++ (hdr ++ rest)) = .ok (norm', rest) := by
  have hle := writeHdrV2_length h
  obtain ⟨norm', hread, hsame⟩ := readHdrV2_writeHdrV2 hsum h []
  rw [List.append_nil] at hread
  have hpos : 0 < hdr.length := by
    rcases Nat.eq_zero_or_pos hdr.length with hzero | hpos
    · rw [List.length_eq_zero_iff.mp hzero] at hread
      cases hread
    · exact hpos
  refine ⟨norm', hsame, fun rest => ?_⟩
  have hsize : u16At (lePut 2 hdr.length ++ (hdr ++ rest)) 0 = hdr.length :=
    u16At_lePut (by omega) [] _ rfl
  rw [readSeqNorm, if_neg (by simp; omega)]
  dsimp only
  rw [hsize, List.drop_left' (lePut_length 2 hdr.length), if_neg (by rw [List.length_append]; omega),
    if_pos hpos, List.take_left, List.drop_left, hread]

/-- No header. -/
theorem readSeqNorm_none (rest : Bytes) :
    readSeqNorm (lePut 2 ([] : Bytes).length ++ ([] ++ rest)) = .ok (fun _ => 0, rest) := by
  have hsize : u16At (lePut 2 0 ++ rest) 0 = 0 := u16At_lePut (by decide) [] _ rfl
  rw [List.nil_append, List.length_nil, readSeqNorm, if_neg (by simp; omega)]
  dsimp only
  rw [hsize, List.drop_left' (lePut_length 2 0), if_neg (Nat.not_lt_zero _),
    if_neg (Nat.lt_irrefl 0), List.drop_zero]

/-- The states and the bit stream. -/
theorem readSeqStates_tail {match_count : Nat} {nml nof nll : Norm} {ml of ll : Nat} {bs : Bytes}
    (hml : ml < 2 ^ 16) (hof : of < 2 ^ 16) (hll : ll < 2 ^ 16) (hbs : bs.length < 2 ^ 32) :
    readSeqStates match_count nml nof nll
        (lePut 2 ml ++ (lePut 2 of ++ (lePut 2 ll ++ (lePut 4 bs.length ++ bs)))) =
      .ok ⟨match_count, nml, nof, nll, ml, of, ll, bs⟩ := by
  have hfields : (lePut 2 ml ++ (lePut 2 of ++ (lePut 2 ll ++ lePut 4 bs.length))).length = 10 := by simp
  generalize hp : lePut 2 ml ++ (lePut 2 of ++ (lePut 2 ll ++ (lePut 4 bs.length ++ bs))) = p
  have hsplit : p = lePut 2 ml ++ (lePut 2 of ++ (lePut 2 ll ++ lePut 4 bs.length)) ++ bs := by
    rw [← hp]
    simp only [List.append_assoc]
  have hlen : p.length = 10 + bs.length := by rw [hsplit, List.length_append, hfields]
  have hdrop : p.drop 10 = bs := by
    rw [hsplit]
    exact List.drop_left' hfields
  have h0 : u16At p 0 = ml := by
    rw [← hp]
    exact u16At_lePut hml [] _ rfl
  have h2 : u16At p 2 = of := by
    rw [← hp]
    exact u16At_lePut hof (lePut 2 ml) _ (by simp)
  have h4 : u16At p 4 = ll := by
    rw [← hp, ← List.append_assoc]
    exact u16At_lePut hll (lePut 2 ml ++ lePut 2 of) _ (by simp)
  have h6 : u32At p 6 = bs.length := by
    rw [← hp, ← List.append_assoc, ← List.append_assoc]
    exact u32At_lePut hbs (lePut 2 ml ++ lePut 2 of ++ lePut 2 ll) _ (by simp)
  rw [readSeqStates, if_neg (by omega), if_neg (by omega)]
  dsimp only
  rw [h0, h2, h4, h6, hdrop, if_neg (by omega), List.take_length]

/-- Everything between the literals and the loop. -/
theorem readSeqHeader_tail {total_lits dst_cap match_count : Nat} {plan : SeqPlan} {st : SeqStates}
    {bs : Bytes} {nml nof nll : Norm} (hcount : match_count < 2 ^ 32) (hcap : match_count ≤ dst_cap)
    (hml : ∀ rest, readSeqNorm (lePut 2 plan.ml_hdr.length ++ (plan.ml_hdr ++ rest)) = .ok (nml, rest))
    (hof : ∀ rest, readSeqNorm (lePut 2 plan.of_hdr.length ++ (plan.of_hdr ++ rest)) = .ok (nof, rest))
    (hll : ∀ rest, readSeqNorm (lePut 2 plan.ll_hdr.length ++ (plan.ll_hdr ++ rest)) = .ok (nll, rest))
    (hvalid : seqNormsValid total_lits match_count nml nof nll = true)
    (hst : st.ml < 2 ^ 16 ∧ st.of < 2 ^ 16 ∧ st.ll < 2 ^ 16) (hbs : bs.length < 2 ^ 32) :
    readSeqHeader total_lits dst_cap (seqTail match_count plan st bs) =
      .ok ⟨match_count, nml, nof, nll, st.ml, st.of, st.ll, bs⟩ := by
  have hfield : u32At (seqTail match_count plan st bs) 0 = match_count := u32At_lePut hcount [] _ rfl
  have hdrop : (seqTail match_count plan st bs).drop 4 =
      lePut 2 plan.ml_hdr.length ++ (plan.ml_hdr ++ (lePut 2 plan.of_hdr.length ++ (plan.of_hdr ++
        (lePut 2 plan.ll_hdr.length ++ (plan.ll_hdr ++ (lePut 2 st.ml ++ (lePut 2 st.of ++
          (lePut 2 st.ll ++ (lePut 4 bs.length ++ bs))))))))) :=
    List.drop_left' (lePut_length 4 match_count)
  have hlen : 4 ≤ (seqTail match_count plan st bs).length := by
    rw [seqTail, List.length_append, lePut_length]
    exact Nat.le_add_right _ _
  rw [readSeqHeader, if_neg (Nat.not_lt.mpr hlen)]
  dsimp only
  rw [hfield, if_neg (Nat.not_lt.mpr hcap), hdrop, hml]
  dsimp only
  rw [hof]
  dsimp only
  rw [hll]
  dsimp only
  rw [if_pos hvalid]
  exact readSeqStates_tail hst.1 hst.2.1 hst.2.2 hbs

/-! ## The tables -/

section Tables

variable {codes : List Nat}

theorem codeFreq_eq (hlen : codes.length < 2 ^ 31) (s : Nat) : codeFreq codes s = codes.count s :=
  Nat.mod_eq_of_lt ((List.count_le_length.trans_lt hlen).trans (by decide))

/-- The frequencies of the codes make a whole table. -/
theorem codeFreq_normalized (hne : codes ≠ []) (hlt : ∀ c ∈ codes, c < 256)
    (hlen : codes.length < 2 ^ 31) :
    Normalized (codeFreq codes) (normalizeFreq (codeFreq codes)).2 := by
  have hsum : normSum (codeFreq codes) 256 ≤ codes.length := by
    rw [normSum_congr fun s _ => codeFreq_eq hlen s]
    refine normSum_countP_le codes (fun s c => c == s) ?_
    intro c s t _ _ hs ht
    rw [← eq_of_beq hs, eq_of_beq ht]
  refine normalizeFreq_normalized ?_ (by omega)
  obtain ⟨c, hc⟩ := List.exists_mem_of_ne_nil codes hne
  refine lt_of_lt_of_le ?_ (le_normSum (codeFreq codes) (hlt c hc))
  rw [codeFreq_eq hlen]
  exact List.count_pos_iff.mpr hc

/-- A header and a context that were made of the frequencies of some codes. -/
structure TableMade (codes : List Nat) (hdr : Bytes) (enc : EncCtx) : Prop where
  hdr : writeHdrV2 (normalizeFreq (codeFreq codes)).2 600 = some hdr
  enc : ∃ t, enc = buildAll (normalizeFreq (codeFreq codes)).2 t

theorem seqTable_made {t : Option TableMemory} {hdr : Bytes} {enc : EncCtx}
    (h : seqTable codes t = some (hdr, enc)) : TableMade codes hdr enc := by
  unfold seqTable at h
  dsimp only at h
  split at h
  · rename_i hdr' t' hhdr
    obtain ⟨rfl, rfl⟩ := Prod.mk.inj (Option.some.inj h)
    exact ⟨hhdr, _, rfl⟩
  · cases h

/-- **A TABLE** is read back from its header, and undoes the steps of its context. -/
theorem TableMade.read {hdr : Bytes} {enc : EncCtx} (h : TableMade codes hdr enc) (hne : codes ≠ [])
    {n : Nat} (hlt : ∀ c ∈ codes, c < n) (hn : n ≤ 256) (hlen : codes.length < 2 ^ 31) :
    ∃ norm', (∀ rest, readSeqNorm (lePut 2 hdr.length ++ (hdr ++ rest)) = .ok (norm', rest)) ∧
      codesBelow norm' n = true ∧ normSum norm' 256 = ansL ∧
      ∀ dec (c : SeqCode), c.code ∈ codes →
        UndoneAt (normalizeFreq (codeFreq codes)).2 enc (buildDecDirect norm' dec) c := by
  have hbelow : ∀ c ∈ codes, c < 256 := fun c hc => (hlt c hc).trans_le hn
  have hnormal := codeFreq_normalized hne hbelow hlen
  obtain ⟨norm', hsame, hread⟩ := readSeqNorm_hdr hnormal.sum h.hdr
  obtain ⟨t, rfl⟩ := h.enc
  refine ⟨norm', hread, ?_, hsame.sum.symm.trans hnormal.sum, fun dec c hc => ⟨hbelow _ hc, ?_, ?_⟩⟩
  · refine List.all_eq_true.mpr fun s hs => decide_eq_true fun hns => ?_
    rw [← hsame s (List.mem_range.mp hs)]
    by_contra hocc
    have hraw := (hnormal.support s).mp hocc
    rw [codeFreq_eq hlen] at hraw
    have hmem := List.count_pos_iff.mp (Nat.pos_of_ne_zero hraw)
    have := hlt s hmem
    omega
  · refine Nat.pos_of_ne_zero ((hnormal.support c.code).mpr ?_)
    rw [codeFreq_eq hlen]
    exact Nat.pos_iff_ne_zero.mp (List.count_pos_iff.mpr hc)
  · exact (buildDecDirect_for hsame hnormal.sum dec).undone hnormal.sum t

end Tables

section Codes

variable {tab : List Nat} {top : Nat} {p : EncRep} {es : List SeqEntry}

theorem mem_codeSeqs {c : SeqCodes} (h : c ∈ codeSeqs tab p es) : ∃ e ∈ es, ∃ p', c = e.codes tab p' := by
  induction es generalizing p with
  | nil => cases h
  | cons e es ih =>
      rw [codeSeqs_cons] at h
      rcases List.mem_cons.mp h with rfl | h
      · exact ⟨e, List.mem_cons_self, p, rfl⟩
      · obtain ⟨e', he', hc⟩ := ih h
        exact ⟨e', List.mem_cons_of_mem e he', hc⟩

/-- The codes of entries in range are codes of the three alphabets. -/
theorem codes_lt (htab : Tiles tab mlExtra top) (hes : ∀ e ∈ es, e.InRange (tab.getD 0 0) top) :
    (∀ c ∈ llCodes (codeSeqs tab p es), c < 36) ∧ (∀ c ∈ ofCodes (codeSeqs tab p es), c < 27) ∧
      (∀ c ∈ mlCodes (codeSeqs tab p es), c < 36) := by
  have hmatch : ∀ c ∈ codeSeqs tab p es, c.ll.code < 36 ∧
      ∀ of ml, c.of_ml = some (of, ml) → of.code < 27 ∧ ml.code < 36 := by
    intro c hc
    obtain ⟨e, he, p', rfl⟩ := mem_codeSeqs hc
    have hin := hes e he
    refine ⟨(llEncode_stands hin.litlen).2, fun of ml hsome => ?_⟩
    rw [SeqEntry.codes] at hsome
    dsimp only at hsome
    split at hsome
    · rename_i hpos
      obtain ⟨rfl, rfl⟩ := Prod.mk.inj (Option.some.inj hsome)
      obtain ⟨hlo, hhi⟩ := hin.matchlen hpos
      obtain ⟨hfar, hoff⟩ := hin.offset hpos
      refine ⟨?_, (mlEncodeWith_stands htab hlo hhi).2⟩
      rcases p'.code_cases hfar hoff with ⟨-, hrep, -⟩ | ⟨-, -, hcode⟩
      · omega
      · exact hcode
    · cases hsome
  refine ⟨fun c hc => ?_, fun c hc => ?_, fun c hc => ?_⟩
  · obtain ⟨x, hx, rfl⟩ := List.mem_map.mp hc
    exact (hmatch x hx).1
  · obtain ⟨x, hx, hxc⟩ := List.mem_filterMap.mp hc
    obtain ⟨⟨of, ml⟩, hsome, rfl⟩ := Option.map_eq_some_iff.mp hxc
    exact ((hmatch x hx).2 of ml hsome).1
  · obtain ⟨x, hx, hxc⟩ := List.mem_filterMap.mp hc
    obtain ⟨⟨of, ml⟩, hsome, rfl⟩ := Option.map_eq_some_iff.mp hxc
    exact ((hmatch x hx).2 of ml hsome).2

theorem mlCodes_cons (e : SeqEntry) :
    (mlCodes (codeSeqs tab p (e :: es))).length =
      (if 0 < e.matchlen then 1 else 0) + (mlCodes (codeSeqs tab (p.behind e) es)).length := by
  rw [codeSeqs_cons, mlCodes, List.filterMap_cons, SeqEntry.codes]
  by_cases hmatch : 0 < e.matchlen
  · simp only [if_pos hmatch, Option.map_some, List.length_cons, mlCodes]
    omega
  · simp only [if_neg hmatch, Option.map_none, mlCodes]
    omega

theorem mlCodes_run {turns ll : Nat} (h : ll ≤ turns) :
    (mlCodes (codeSeqs tab p (runEntries turns ll))).length = 0 := by
  have hnone := fun e he => (runEntries_inRange 0 0 h e he).2
  generalize runEntries turns ll = es at hnone
  induction es generalizing p with
  | nil => rfl
  | cons e es ih =>
      rw [mlCodes_cons, hnone e List.mem_cons_self, if_neg (Nat.lt_irrefl 0), Nat.zero_add]
      exact ih fun e' he' => hnone e' (List.mem_cons_of_mem e he')

/-- There are as many matches as sequences. -/
theorem mlCodes_block {qs : List Seq} {tail : Bytes} (hpos : ∀ q ∈ qs, 0 < q.entry.matchlen) :
    (mlCodes (codeSeqs tab p (blockEntries qs tail))).length = qs.length := by
  induction qs generalizing p with
  | nil => exact mlCodes_run (Nat.le_refl _)
  | cons q qs ih =>
      have hsplit : blockEntries (q :: qs) tail = q.entry :: blockEntries qs tail := rfl
      rw [hsplit, mlCodes_cons, if_pos (hpos q List.mem_cons_self),
        ih fun q' hq' => hpos q' (List.mem_cons_of_mem q hq'), List.length_cons, Nat.add_comm]

end Codes

theorem ofCodes_length (cs : List SeqCodes) : (ofCodes cs).length = (mlCodes cs).length := by
  induction cs with
  | nil => rfl
  | cons c cs ih =>
      rw [ofCodes, mlCodes, List.filterMap_cons, List.filterMap_cons]
      rw [ofCodes, mlCodes] at ih
      cases c.of_ml with
      | none => exact ih
      | some x => exact congrArg Nat.succ ih

/-- The three frequencies of a block. -/
def seqNorms (cs : List SeqCodes) : SeqNorms where
  ll := (normalizeFreq (codeFreq (llCodes cs))).2
  of := (normalizeFreq (codeFreq (ofCodes cs))).2
  ml := (normalizeFreq (codeFreq (mlCodes cs))).2

/-- What the decoder makes of the headers of a block. -/
structure SeqPlan.ReadAs (plan : SeqPlan) (cs : List SeqCodes) (nml nof nll : Norm) : Prop where
  ml : ∀ rest, readSeqNorm (lePut 2 plan.ml_hdr.length ++ (plan.ml_hdr ++ rest)) = .ok (nml, rest)
  of : ∀ rest, readSeqNorm (lePut 2 plan.of_hdr.length ++ (plan.of_hdr ++ rest)) = .ok (nof, rest)
  ll : ∀ rest, readSeqNorm (lePut 2 plan.ll_hdr.length ++ (plan.ll_hdr ++ rest)) = .ok (nll, rest)
  valid : ∀ total_lits, seqNormsValid total_lits (mlCodes cs).length nml nof nll = true
  undone : ∀ (st : SeqStorage) (total_lits : Nat) (h : SeqHeader), h.match_count = (mlCodes cs).length →
    h.norm_ml = nml → h.norm_of = nof → h.norm_ll = nll → 0 < total_lits ∨ 0 < (mlCodes cs).length →
    ∀ c ∈ cs, c.Undoable (seqNorms cs) plan.enc (seqTables st total_lits h)

/-- **THE HEADERS** give back tables that undo the steps of the encoder. -/
theorem seqPlan_read {a : SeqAlloc} {cs : List SeqCodes} {plan : SeqPlan} (h : seqPlan a cs = some plan)
    (hne : cs ≠ []) (hlen : cs.length < 2 ^ 31) (hll : ∀ c ∈ llCodes cs, c < 36)
    (hof : ∀ c ∈ ofCodes cs, c < 27) (hml : ∀ c ∈ mlCodes cs, c < 36) :
    ∃ nml nof nll, plan.ReadAs cs nml nof nll := by
  have hllLen : (llCodes cs).length < 2 ^ 31 := by
    rw [llCodes, List.length_map]
    exact hlen
  have hmlLen : (mlCodes cs).length < 2 ^ 31 :=
    (List.length_filterMap_le _ cs).trans_lt hlen
  have hllNe : llCodes cs ≠ [] := by
    rw [llCodes]
    exact mt List.map_eq_nil_iff.mp hne
  have hllMem : ∀ c ∈ cs, c.ll.code ∈ llCodes cs := fun c hc => List.mem_map_of_mem hc
  rw [seqPlan] at h
  split at h
  · cases h
  rename_i ll_hdr ll hllTable
  obtain ⟨nll, hllRead, hllBelow, hllSum, hllUndone⟩ :=
    (seqTable_made hllTable).read hllNe hll (by decide) hllLen
  by_cases hnone : (mlCodes cs).length = 0
  · rw [if_pos hnone] at h
    obtain rfl := Option.some.inj h
    refine ⟨fun _ => 0, fun _ => 0, nll, ⟨readSeqNorm_none, readSeqNorm_none, hllRead, fun total => ?_, ?_⟩⟩
    · have hzero : ∀ n, codesBelow (fun _ => 0) n = true := fun n =>
        List.all_eq_true.mpr fun s _ => decide_eq_true fun _ => rfl
      rw [seqNormsValid, hzero, hzero, hllBelow, hnone]
      simp [hllSum]
    · intro st total hdr hcount hn1 hn2 hn3 hused c hc
      have hnoMatch : c.of_ml = none := by
        by_contra hsome
        obtain ⟨⟨of, ml⟩, hsome⟩ := Option.ne_none_iff_exists'.mp hsome
        have hmem : ml.code ∈ mlCodes cs := List.mem_filterMap.mpr ⟨c, hc, by rw [hsome]; rfl⟩
        rw [List.length_eq_zero_iff.mp hnone] at hmem
        cases hmem
      refine ⟨?_, fun of ml hsome => ?_, fun of ml hsome => ?_⟩
      · rw [seqTables, hcount, hn3, if_pos hused, if_neg (by omega)]
        exact hllUndone _ _ (hllMem c hc)
      · rw [hnoMatch] at hsome
        cases hsome
      · rw [hnoMatch] at hsome
        cases hsome
  · rw [if_neg hnone] at h
    have hpos : 0 < (mlCodes cs).length := Nat.pos_of_ne_zero hnone
    split at h
    · rename_i ml_hdr ml of_hdr of hmlTable hofTable
      obtain rfl := Option.some.inj h
      obtain ⟨nml, hmlRead, hmlBelow, hmlSum, hmlUndone⟩ :=
        (seqTable_made hmlTable).read (List.length_pos_iff.mp hpos) hml (by decide) hmlLen
      obtain ⟨nof, hofRead, hofBelow, hofSum, hofUndone⟩ :=
        (seqTable_made hofTable).read (List.length_pos_iff.mp (by rw [ofCodes_length]; exact hpos)) hof
          (by decide) (by rw [ofCodes_length]; exact hmlLen)
      refine ⟨nml, nof, nll, ⟨hmlRead, hofRead, hllRead, fun total => ?_, ?_⟩⟩
      · rw [seqNormsValid, hmlBelow, hofBelow, hllBelow]
        simp [hllSum, hmlSum, hofSum]
      · intro st total hdr hcount hn1 hn2 hn3 hused c hc
        refine ⟨?_, fun of ml hsome => ?_, fun of ml hsome => ?_⟩
        · rw [seqTables, hcount, hn3, if_pos hused, if_pos hpos]
          exact hllUndone _ _ (hllMem c hc)
        · rw [seqTables, hcount, hn2, if_pos hpos]
          exact hofUndone _ _ (List.mem_filterMap.mpr ⟨c, hc, by rw [hsome]; rfl⟩)
        · rw [seqTables, hcount, hn1, if_pos hpos]
          exact hmlUndone _ _ (List.mem_filterMap.mpr ⟨c, hc, by rw [hsome]; rfl⟩)
    · cases h

/-! ## The block -/

section Block

variable {a : SeqAlloc} {tab : List Nat} {disable_huf4 : Bool} {tokens payload : Bytes}
  {dst_cap off_bytes : Nat}

/-- What a payload was put together from. -/
theorem vvaEncodeSequences_parts (hne : tokens ≠ [])
    (h : vvaEncodeSequences a tab disable_huf4 tokens dst_cap off_bytes = .ok payload) :
    tokens.length ≤ 2 ^ 30 ∧ ∃ seqs lits plan st pairs,
      parseSequences tokens tokens.length (tokens.length / 3 + tokens.length / 65535 + 8) off_bytes
        (tab.getD 0 0) = some (seqs, lits) ∧
      seqPlan a (codeSeqs tab ⟨0, 0, 0⟩ seqs) = some plan ∧
      encodeSeqs plan.enc (codeSeqs tab ⟨0, 0, 0⟩ seqs) = some (st, pairs) ∧
      payload = seqPayload lits.length (encodeLits a.lits disable_huf4 lits)
        (seqTail (mlCodes (codeSeqs tab ⟨0, 0, 0⟩ seqs)).length plan st
          (writePairs (pairs.length * 4 + 16) pairs)) := by
  rw [vvaEncodeSequences, if_neg (mt List.length_eq_zero_iff.mp hne)] at h
  split at h
  · cases h
  rename_i hlong
  split at h
  · cases h
  split at h
  · cases h
  rename_i seqs lits hparse
  split at h
  · cases h
  dsimp only at h
  split at h
  · cases h
  rename_i plan hplan
  split at h
  · cases h
  rename_i st pairs hback
  rw [putPayload] at h
  split at h
  · cases h
  · exact ⟨Nat.not_lt.mp hlong, seqs, lits, plan, st, pairs, hparse, hplan, hback,
      (Except.ok.inj h).symm⟩

/-- The stream of at most 88 bits for each sequence, in its buffer. -/
theorem SeqStream.written {n : Nat} {pairs : List (Nat × Nat)} (h : SeqStream n pairs) :
    writePairs (pairs.length * 4 + 16) pairs = packed pairs ∧ (packed pairs).length ≤ 11 * n := by
  have hwidth := width_le h.each
  have hbits := h.width
  refine ⟨writePairs_packed ?_, ?_⟩
  · rw [bytesFor]
    omega
  · rw [packed_length, bytesFor]
    omega

/-- The sequences that the parser found are those of the block. -/
theorem ParsedAs.block {seq_cap lit_cap nseq nlits ml_min top max_offset : Nat} {qs : List Seq} {tail lits out : Bytes}
    {es : List SeqEntry} (h : ParsedAs seq_cap lit_cap nseq nlits qs tail es lits)
    (hqs : ∀ q ∈ qs, q.Codable ml_min top max_offset) (hreach : Reaches out qs) :
    BlockSeqs ml_min top max_offset out qs := ⟨hqs, h.runs, hreach⟩

/-- **THE NAIVE DECODER** makes of a payload what the sequences of its tokens expand
    to. -/
theorem naiveSequences_encoded {top : Nat} (ha : a.lits.huf.all = true)
    (htab : Tiles tab mlExtra top) (hmin : 0 < tab.getD 0 0) (htop : top ≤ 65536)
    (hbytes : off_bytes = 2 ∨ off_bytes = 3)
    (h : vvaEncodeSequences a tab disable_huf4 tokens dst_cap off_bytes = .ok payload)
    {n : Nat} {qs : List Seq} {tail : Bytes}
    (hread : readSeqs off_bytes (tab.getD 0 0) n tokens = some (qs, tail)) {max_offset : Nat}
    (hwindow : 0 < max_offset ∧ max_offset ≤ 2 ^ 24)
    (hqs : ∀ q ∈ qs, q.Codable (tab.getD 0 0) top max_offset) (stor : SeqStorage) {history : Bytes}
    (hreach : Reaches history qs) {room : Nat}
    (hroom : (expandSeqs history qs tail).length ≤ history.length + room) :
    naiveSequences stor tab max_offset payload history room = .ok (expandSeqs history qs tail) := by
  have hne : tokens ≠ [] := by
    rintro rfl
    cases n with
    | zero => cases hread
    | succ n => cases hread
  obtain ⟨hlong, seqs, lits, plan, st, pairs, hparse, hplan, hback, rfl⟩ :=
    vvaEncodeSequences_parts hne h
  have hparsed := parseSequences_parsed hbytes hread hparse
  have hblock := hparsed.block hqs hreach
  have hcount := hparsed.count
  have hlits := hparsed.literals
  have hfits := hparsed.fits
  have hfew : lits.length ≤ 2 ^ 30 := by omega
  obtain rfl := hparsed.entries
  have hrange := hblock.entries hmin htop tail
  generalize hcs : codeSeqs tab ⟨0, 0, 0⟩ (blockEntries qs tail) = cs at hplan hback ⊢
  have hcslen : cs.length = (blockEntries qs tail).length := by rw [← hcs, codeSeqs_length]
  have hpositive : ∀ q ∈ qs, 0 < q.entry.matchlen ∧ 1 ≤ q.len := by
    intro q hq
    have hone := (hqs q hq).min_len
    have htwo := (hqs q hq).max_len
    rw [Seq.entry, Nat.mod_eq_of_lt (by omega)]
    dsimp only
    exact ⟨by omega, by omega⟩
  have hmatches : (mlCodes cs).length = qs.length := by
    rw [← hcs]
    exact mlCodes_block fun q hq => (hpositive q hq).1
  have hexpand : history.length + (blockLits qs tail).length + qs.length ≤
      (expandSeqs history qs tail).length :=
    expandSeqs_length hreach fun q hq => (hpositive q hq).2
  rw [← hlits] at hexpand
  -- the headers
  obtain ⟨hllCodes, hofCodes, hmlCodes⟩ := codes_lt (p := ⟨0, 0, 0⟩) htab hrange
  rw [hcs] at hllCodes hofCodes hmlCodes
  have hqslen : qs.length ≤ cs.length := hmatches ▸ List.length_filterMap_le _ cs
  have hcsne : cs ≠ [] := by
    rw [← List.length_pos_iff, hcslen, blockEntries, List.length_append, runEntries, List.length_append,
      List.length_singleton]
    omega
  obtain ⟨nml, nof, nll, hheaders⟩ :=
    seqPlan_read hplan hcsne (by omega) hllCodes hofCodes hmlCodes
  -- the stream
  let hdr : SeqHeader := ⟨qs.length, nml, nof, nll, st.ml, st.of, st.ll, packed pairs⟩
  have hundone : ∀ total_lits, 0 < total_lits ∨ 0 < qs.length → ∀ c ∈ codeSeqs tab ⟨0, 0, 0⟩
      (blockEntries qs tail), c.Undoable (seqNorms cs) plan.enc (seqTables stor total_lits hdr) := by
    intro total_lits hused
    rw [hcs]
    exact hheaders.undone stor total_lits hdr hmatches.symm rfl rfl rfl (by rw [hmatches]; exact hused)
  obtain ⟨st', pairs', hback', hst, hstream⟩ :=
    encodeSeqs_some htab hrange (hundone 1 (Or.inl Nat.one_pos))
  rw [hcs, hback] at hback'
  obtain ⟨rfl, rfl⟩ := Prod.mk.inj (Option.some.inj hback')
  obtain ⟨hpacked, hsize⟩ := hstream.written
  have hstates : st.ml < 2 ^ 16 ∧ st.of < 2 ^ 16 ∧ st.ll < 2 ^ 16 :=
    ⟨hst.ml.1.trans (by decide), hst.of.1.trans (by decide), hst.ll.1.trans (by decide)⟩
  -- the sections of the payload
  have hsection := readLitSection_payload (seqTail (mlCodes cs).length plan st (packed pairs))
    (by omega : lits.length < 2 ^ 32) (encodeLits_length ha disable_huf4 hfew)
    (by omega : lits.length ≤ room)
  obtain ⟨lit_buf, hfill, hlitbuf⟩ := fillLits_encoded ha disable_huf4 (by omega : lits.length < 2 ^ 31)
    stor (seqTail (mlCodes cs).length plan st (packed pairs))
  have hheader : readSeqHeader lits.length room (seqTail (mlCodes cs).length plan st (packed pairs)) =
      .ok hdr := by
    rw [hmatches]
    exact readSeqHeader_tail (by omega) (by omega) hheaders.ml hheaders.of hheaders.ll
      (by rw [← hmatches]; exact hheaders.valid lits.length) hstates (by omega)
  rw [hpacked, naiveSequences, hsection]
  dsimp only
  rw [hfill]
  dsimp only
  rw [hheader]
  dsimp only
  rw [if_neg (by omega), hlitbuf]
  -- the loop
  by_cases hused : 0 < lits.length ∨ 0 < qs.length
  · have hat : hdr.coder.At st ⟨0, 0, 0⟩ pairs (spareBits pairs) (packed pairs).length :=
      ⟨ansBefore_start pairs, rfl, rfl, rfl, rfl, rfl, rfl⟩
    have hcoded : encodeSeqs plan.enc (codeSeqs tab ⟨0, 0, 0⟩ (blockEntries qs tail)) =
        some (st, pairs) := by rw [hcs, hback]
    have htail : tail.length ≤ lits.length := by
      rw [hlits, blockLits, List.length_append]
      exact Nat.le_add_left _ _
    exact NaiveParams.loop_block (t := ⟨hdr.coder, lits, 0, history⟩) htab hmin htop hblock
      (hundone lits.length hused) hcoded hat hlits (Nat.zero_add _) hroom
      (show qs.length + tail.length ≤ lits.length + qs.length + 16 by omega)
  · -- an empty block
    have hqs : qs = [] := List.length_eq_zero_iff.mp (by omega)
    have hnone : lits = [] := List.length_eq_zero_iff.mp (by omega)
    have htail : tail = [] := by
      rw [hnone, hqs] at hlits
      exact hlits.symm
    rw [NaiveParams.loop_done _ hnone (by show qs.length ≤ 0; omega), hqs, htail, expandSeqs,
      List.append_nil]
    rfl

end Block

/-! ## Both formats -/

/-- The match codes of a format. -/
def seqBase (v2 : Bool) : List Nat := if v2 then mlBaseV2 else mlBase

/-- The shortest match of a format. -/
def seqMin (v2 : Bool) : Nat := if v2 then 3 else 4

/-- The longest match of a format, for which the matcher is set up. -/
def seqMax (v2 : Bool) : Nat := if v2 then 65534 else 65535

theorem seqBase_tiles (v2 : Bool) : Tiles (seqBase v2) mlExtra (seqMax v2 + 1) := by
  cases v2 with
  | false => exact mlBase_tiles
  | true => exact mlBaseV2_tiles

theorem seqBase_head (v2 : Bool) : (seqBase v2).getD 0 0 = seqMin v2 := by
  cases v2 <;> rfl

theorem seqBase_either (v2 : Bool) : seqBase v2 = mlBase ∨ seqBase v2 = mlBaseV2 := by
  cases v2 with
  | false => exact Or.inl rfl
  | true => exact Or.inr rfl

theorem seqMin_pos (v2 : Bool) : 0 < seqMin v2 := by
  cases v2 <;> decide

theorem seqMax_lt (v2 : Bool) : seqMax v2 < 65536 := by
  cases v2 <;> decide

/-- The width of the offsets of a window. -/
def windowBytes (wlog : Nat) : Nat := if 16 < wlog then 3 else 2

theorem windowBytes_either (wlog : Nat) : windowBytes wlog = 2 ∨ windowBytes wlog = 3 := by
  rw [windowBytes]
  by_cases hlong : 16 < wlog
  · exact Or.inr (if_pos hlong)
  · exact Or.inl (if_neg hlong)

/-- The distances of a window fit its offsets, and the frame lets them pass. -/
theorem frameMaxOffset_window {wlog : Nat} (hlow : 10 ≤ wlog) (hhigh : wlog ≤ 24) :
    ∃ max_offset, frameMaxOffset (UInt8.ofNat wlog) = some max_offset ∧
      2 ^ wlog - 1 ≤ max_offset ∧ 0 < max_offset ∧ max_offset < 2 ^ 24 ∧
      2 ^ wlog - 1 < 256 ^ windowBytes wlog := by
  interval_cases wlog <;> exact ⟨_, rfl, by decide, by decide, by decide, by decide⟩

section Formats

variable {wlog : Nat} {v2 : Bool} {qs : List Seq}

/-- Sequences of the matcher have codes. -/
theorem Seq.Within.codable {q : Seq} (h : q.Within wlog (seqMax v2) (seqMin v2)) {max_offset : Nat}
    (hwindow : 2 ^ wlog - 1 ≤ max_offset) (hfar : max_offset < 2 ^ 24) :
    q.Codable ((seqBase v2).getD 0 0) (seqMax v2 + 1) max_offset where
  min_len := by
    rw [seqBase_head]
    exact h.min_match
  max_len := Nat.lt_succ_of_le h.max_match
  window := h.window.trans hwindow
  far := (h.window.trans hwindow).trans_lt hfar

/-- They can be written to tokens as well. -/
theorem Seq.Within.encodable {q : Seq} (h : q.Within wlog (seqMax v2) (seqMin v2))
    (hbytes : 2 ^ wlog - 1 < 256 ^ windowBytes wlog) :
    q.Encodable (windowBytes wlog) (seqMin v2) where
  offset := h.window.trans_lt hbytes
  pos := (seqMin_pos v2).trans_le h.min_match
  length := h.min_match

/-- The naive decoder gives back the block that the tokens of the matcher stand for. -/
theorem naiveSequences_tokens (hlow : 10 ≤ wlog) (hhigh : wlog ≤ 24)
    (hqs : ∀ q ∈ qs, q.Within wlog (seqMax v2) (seqMin v2)) {history tail : Bytes}
    (hreach : Reaches history qs) {a : SeqAlloc} (ha : a.lits.huf.all = true) {disable_huf4 : Bool}
    {dst_cap : Nat} {payload : Bytes}
    (h : vvaEncodeSequences a (seqBase v2) disable_huf4
      (emitSeqs (windowBytes wlog) (seqMin v2) qs tail) dst_cap (windowBytes wlog) = .ok payload)
    {max_offset : Nat} (hmax : frameMaxOffset (UInt8.ofNat wlog) = some max_offset)
    (stor : SeqStorage) {room : Nat}
    (hroom : (expandSeqs history qs tail).length ≤ history.length + room) :
    naiveSequences stor (seqBase v2) max_offset payload history room =
      .ok (expandSeqs history qs tail) := by
  obtain ⟨max_offset', hmax', hwindow, hpos, hfar, hbytes⟩ := frameMaxOffset_window hlow hhigh
  obtain rfl : max_offset' = max_offset := Option.some.inj (hmax'.symm.trans hmax)
  have hread := readSeqs_emitSeqs (windowBytes_either wlog) (fun q hq => (hqs q hq).encodable hbytes)
    tail (qs.length + 1) (Nat.lt_succ_self _)
  rw [← seqBase_head] at hread
  have hmin : 0 < (seqBase v2).getD 0 0 := by
    rw [seqBase_head]
    exact seqMin_pos v2
  rw [← seqBase_head] at h
  exact naiveSequences_encoded ha (seqBase_tiles v2) hmin (seqMax_lt v2) (windowBytes_either wlog) h
    hread ⟨hpos, hfar.le⟩ (fun q hq => (hqs q hq).codable hwindow hfar) stor hreach hroom

/-- **SEQUENCE BLOCKS ROUND TRIP**: what the encoder of sequences makes of a token stream,
    in either format and with any of its literal and table modes, the decoder expands behind
    the history to the block of that stream, whatever its scratch memory holds. -/
theorem sequence_blocks_round_trip (v2 disable_huf4 : Bool) (hlow : 10 ≤ wlog) (hhigh : wlog ≤ 24)
    (hqs : ∀ q ∈ qs, q.Within wlog (seqMax v2) (seqMin v2)) {history tail : Bytes}
    (hreach : Reaches history qs) {a : SeqAlloc} (ha : a.lits.huf.all = true)
    {dst_cap : Nat} {payload : Bytes}
    (h : vvaEncodeSequences a (seqBase v2) disable_huf4
      (emitSeqs (windowBytes wlog) (seqMin v2) qs tail) dst_cap (windowBytes wlog) = .ok payload)
    {max_offset : Nat} (hmax : frameMaxOffset (UInt8.ofNat wlog) = some max_offset)
    (stor : SeqStorage) {b : Bounds} {m : Mem UInt8} (hheld : Holds b m m history)
    (hroom : b.lo + (expandSeqs history qs tail).length ≤ b.hi) :
    ∃ m', vvaDecodeSequences stor (seqBase v2) max_offset payload b (b.lo + history.length) m =
        .ok (m', (expandSeqs history qs tail).length - history.length) ∧
      Holds b m m' (expandSeqs history qs tail) := by
  have hfits := hheld.fits
  have hnaive := naiveSequences_tokens hlow hhigh hqs hreach ha h hmax stor
    (show (expandSeqs history qs tail).length ≤ history.length + (b.hi - (b.lo + history.length)) by
      omega)
  have houtcome := sequences_outcome stor (seqBase_either v2) max_offset payload hheld rfl
  rw [hnaive] at houtcome
  obtain ⟨m', hdec, -, hholds⟩ := houtcome
  refine ⟨m', ?_, hholds⟩
  rw [hdec, Nat.add_sub_add_left]

/-- Memory of a table that holds zeros. -/
def zeroTable : TableMemory := ⟨fun _ => 0, fun _ => ⟨0, 0, 0⟩, fun _ => ⟨0, 0, 0⟩⟩

/-- Scratch memory of the decoder that holds zeros. -/
def zeroStorage : SeqStorage :=
  ⟨fun _ => 0, fun _ => ⟨0, 0, 0⟩, ⟨fun _ => 0, 0, fun _ => 0, fun _ => 0, fun _ => 0⟩,
    fun _ => ⟨0, 0, 0⟩, fun _ => ⟨0, 0, 0⟩, fun _ => ⟨0, 0, 0⟩⟩

/-- Memory for the tables and the codes, and none for the literals. -/
def blankAlloc : SeqAlloc where
  base_scratch := true
  arena := true
  lits := ⟨false, false, false, false, false, ⟨none, false⟩, ⟨none, false⟩, ⟨true, true, true⟩,
    ⟨true, true, true⟩⟩
  ll := some zeroTable
  of := some zeroTable
  ml := some zeroTable

/-- A sequence that repeats what is in front of it. -/
def twiceSeq : Seq := ⟨[5, 6], 1, 5⟩

theorem twiceSeq_within : ∀ q ∈ [twiceSeq], q.Within 10 (seqMax false) (seqMin false) := by
  intro q hq
  rw [List.mem_singleton.mp hq]
  exact ⟨by decide, by decide, by decide, by decide⟩

/-- Its payload, with two literals behind it. -/
def twicePayload : Bytes :=
  [4, 0, 0, 0, 0, 4, 0, 0, 0, 5, 6, 1, 2, 1, 0, 0, 0, 2, 0, 1, 1, 2, 0, 1, 3, 2, 0, 1, 2, 0, 0, 0,
   0, 0, 0, 0, 0, 0, 0]

set_option maxRecDepth 20000 in
theorem twicePayload_encoded : vvaEncodeSequences blankAlloc (seqBase false) false
    (emitSeqs (windowBytes 10) (seqMin false) [twiceSeq] [1, 2]) 100 (windowBytes 10) =
      .ok twicePayload := by
  have hopt : (vvaEncodeSequences blankAlloc (seqBase false) false
      (emitSeqs (windowBytes 10) (seqMin false) [twiceSeq] [1, 2]) 100 (windowBytes 10)).toOption =
        some twicePayload := by decide
  cases h : vvaEncodeSequences blankAlloc (seqBase false) false
      (emitSeqs (windowBytes 10) (seqMin false) [twiceSeq] [1, 2]) 100 (windowBytes 10) with
  | error e =>
      rw [h] at hopt
      cases hopt
  | ok p =>
      rw [h] at hopt
      exact congrArg _ (Option.some.inj hopt)

/-- Two literals, five times the second of them, and two more, behind nothing. -/
theorem sequence_blocks_round_trip_twice :
    ∃ m', vvaDecodeSequences zeroStorage (seqBase false) 1024 twicePayload ⟨0, 9⟩ (0 + 0)
        (fun _ => 0) = .ok (m', 9 - 0) ∧
      Holds ⟨0, 9⟩ (fun _ => 0) m' [5, 6, 6, 6, 6, 6, 6, 1, 2] := by
  have hreach : Reaches [] [twiceSeq] := ⟨by decide, by decide, trivial⟩
  have hheld : Holds ⟨0, 9⟩ (fun _ => (0 : UInt8)) (fun _ => 0) [] :=
    ⟨by decide, rfl, fun _ _ => rfl⟩
  exact sequence_blocks_round_trip false false (by decide) (by decide) twiceSeq_within hreach rfl
    twicePayload_encoded rfl zeroStorage hheld (by decide)

end Formats

end Zupt.VaptVupt
