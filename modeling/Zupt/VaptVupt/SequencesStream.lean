import Zupt.VaptVupt.SequencesCodes
import Zupt.VaptVupt.AnsRoundTrip

/-! # The bit stream of sequences

    Three coders share one stream.  What a step of the backward loop puts in front
    of the stream, a turn of the decoder takes from it: the literal length, the
    offset against the same three last offsets, and the match length.  So the naive
    loop of the decoder makes of the entries of a block what its sequences expand
    to. -/

namespace Zupt.VaptVupt

open Zupt.LittleEndian Zupt.Memory Zupt.Window Zupt.BitStream

/-! ## A code and its extra bits -/

/-- The extra bits of a code, as a field of the stream. -/
def SeqCode.fields (c : SeqCode) : List (Nat × Nat) :=
  if 0 < c.nbits then [(c.extra, c.nbits)] else []

/-- The steps of the encoder for a code are undone by the decode table. -/
def UndoneAt (norm : Norm) (enc : EncCtx) (dec : Mem DecEntry) (c : SeqCode) : Prop :=
  c.code < 256 ∧ 0 < norm c.code ∧ Undone norm enc dec

section Code

variable {norm : Norm} {enc : EncCtx} {dec : Mem DecEntry} {base extra : List Nat} {c : SeqCode}
  {v : Nat} {r : AnsBr} {pairs : List (Nat × Nat)} {spare len : Nat}

/-- **A PUSH** puts the bits of the step and the extra bits in front of the stream. -/
theorem pushCode_some (h : UndoneAt norm enc dec c) {y : Nat} (hy : Coding norm y)
    (pairs : List (Nat × Nat)) :
    ∃ x bv bn, pushCode enc y c pairs = some (x, (bv, bn) :: (c.fields ++ pairs)) ∧
      StepBack norm dec c.code y x bv bn := by
  obtain ⟨hlt, hocc, hund⟩ := h
  obtain ⟨x, bv, bn, hsym, hstep⟩ := hund c.code hlt hocc y hy
  refine ⟨x, bv, bn, ?_, hstep⟩
  rw [pushCode, hsym]
  rfl

/-- The extra bits are read back, and the value with them. -/
theorem readExtra_fields (hc : c.Stands base extra v) (hnbits : c.nbits ≤ 57)
    (hr : r.Before (c.fields ++ pairs) spare len) :
    ∃ r', readExtra base extra c.code r = some (v, r') ∧ r'.Before pairs spare len := by
  obtain ⟨b, hb, hsum⟩ := hc.value
  rw [readExtra, hb, hc.nbits]
  dsimp only
  by_cases hsome : 0 < c.nbits
  · rw [SeqCode.fields, if_pos hsome] at hr
    obtain ⟨hval, hrest⟩ := AnsBr.Before.read hr hnbits
    rw [Nat.mod_eq_of_lt hc.small] at hval
    exact ⟨_, by rw [hval, hsum], hrest⟩
  · have hzero : c.nbits = 0 := Nat.eq_zero_of_not_pos hsome
    have hsmall := hc.small
    rw [SeqCode.fields, if_neg hsome] at hr
    rw [hzero, Nat.pow_zero] at hsmall
    refine ⟨r, ?_, hr⟩
    rw [hzero, ansBrRead, if_pos rfl]
    dsimp only
    rw [← hsum]
    congr 2
    omega

/-- The state behind a symbol, and the symbol. -/
theorem readSymbol_back {y x bv bn : Nat} (hlt : c.code < 256) (hstep : StepBack norm dec c.code y x bv bn)
    (hr : r.Before ((bv, bn) :: (c.fields ++ pairs)) spare len) :
    (dec (x % ansL)).symbol.toNat = c.code ∧
      (dec (x % ansL)).baseline + (ansBrRead r (dec (x % ansL)).nbits).1 = y ∧
      (ansBrRead r (dec (x % ansL)).nbits).2.Before (c.fields ++ pairs) spare len := by
  have hfew : bn ≤ 57 := hstep.few.trans (by decide)
  obtain ⟨hval, hrest⟩ := AnsBr.Before.read hr hfew
  rw [Nat.mod_eq_of_lt hstep.coding.1, hstep.symbol, hstep.nbits, hval,
    Nat.mod_eq_of_lt hstep.small, UInt8.toNat_ofNat', Nat.mod_eq_of_lt hlt]
  exact ⟨rfl, hstep.baseline, hrest⟩

theorem fields_width_le {k : Nat} (h : c.nbits ≤ k) : width c.fields ≤ k := by
  rw [SeqCode.fields]
  split
  · show c.nbits + 0 ≤ k
    omega
  · exact Nat.zero_le k

end Code

/-! ## Entries and what codes them -/

/-- The three frequencies. -/
structure SeqNorms where
  ll : Norm
  of : Norm
  ml : Norm

/-- All codes of a sequence are undone by the tables. -/
structure SeqCodes.Undoable (N : SeqNorms) (E : SeqEnc) (T : SeqTables) (c : SeqCodes) : Prop where
  ll : UndoneAt N.ll E.ll T.ll c.ll
  of : ∀ of ml, c.of_ml = some (of, ml) → UndoneAt N.of E.of T.of of
  ml : ∀ of ml, c.of_ml = some (of, ml) → UndoneAt N.ml E.ml T.ml ml

/-- The states are ones the encoder may be in. -/
structure SeqStates.Coding (st : SeqStates) (N : SeqNorms) : Prop where
  ll : VaptVupt.Coding N.ll st.ll
  of : VaptVupt.Coding N.of st.of
  ml : VaptVupt.Coding N.ml st.ml

/-- An entry within the ranges of the codes. -/
structure SeqEntry.InRange (ml_min top : Nat) (e : SeqEntry) : Prop where
  litlen : e.litlen ≤ llMax
  matchlen : 0 < e.matchlen → ml_min ≤ e.matchlen ∧ e.matchlen < top
  offset : 0 < e.matchlen → 0 < e.offset ∧ e.offset < 2 ^ 24

/-- The offsets remembered behind an entry. -/
def EncRep.behind (p : EncRep) (e : SeqEntry) : EncRep := if 0 < e.matchlen then p.push e.offset else p

/-- The codes of an entry. -/
def SeqEntry.codes (ml_base_tab : List Nat) (p : EncRep) (e : SeqEntry) : SeqCodes :=
  ⟨llEncode e.litlen,
    if 0 < e.matchlen then some (p.code e.offset, mlEncodeWith e.matchlen ml_base_tab) else none⟩

theorem codeSeqs_cons (tab : List Nat) (p : EncRep) (e : SeqEntry) (es : List SeqEntry) :
    codeSeqs tab p (e :: es) = e.codes tab p :: codeSeqs tab (p.behind e) es := by
  rw [codeSeqs, SeqEntry.codes, EncRep.behind]
  by_cases hmatch : 0 < e.matchlen
  · rw [if_pos hmatch, if_pos hmatch, if_pos hmatch]
  · rw [if_neg hmatch, if_neg hmatch, if_neg hmatch]

theorem codeSeqs_length (tab : List Nat) (p : EncRep) (es : List SeqEntry) :
    (codeSeqs tab p es).length = es.length := by
  induction es generalizing p with
  | nil => rfl
  | cons e es ih => rw [codeSeqs_cons, List.length_cons, List.length_cons, ih]

theorem mem_llExtra_le {c : SeqCode} {v : Nat} (h : c.Stands llBase llExtra v) : c.nbits ≤ 14 :=
  (by decide : ∀ n ∈ llExtra, n ≤ 14) _ (List.mem_of_getElem? h.nbits)

theorem mem_mlExtra_le {c : SeqCode} {base : List Nat} {v : Nat} (h : c.Stands base mlExtra v) :
    c.nbits ≤ 15 :=
  (by decide : ∀ n ∈ mlExtra, n ≤ 15) _ (List.mem_of_getElem? h.nbits)

theorem mem_ofExtra_le {c : SeqCode} {v : Nat} (h : c.Stands ofBase ofExtra v) : c.nbits ≤ 23 :=
  (by decide : ∀ n ∈ ofExtra, n ≤ 23) _ (List.mem_of_getElem? h.nbits)

/-- The code of an offset is one of the last three, or stands for the offset. -/
theorem EncRep.code_cases (p : EncRep) {off : Nat} (hpos : 0 < off) (hlt : off < 2 ^ 24) :
    ((p.code off).fields = [] ∧ (p.code off).code < 3 ∧
      off = if (p.code off).code = 0 then p.rep0 else if (p.code off).code = 1 then p.rep1 else p.rep2) ∨
      (p.code off).Stands ofBase ofExtra off ∧ 3 ≤ (p.code off).code ∧ (p.code off).code < 27 := by
  have hne : off ≠ 0 := Nat.pos_iff_ne_zero.mp hpos
  rw [EncRep.code]
  by_cases h0 : off = p.rep0 ∧ off ≠ 0
  · rw [if_pos h0]
    exact Or.inl ⟨rfl, by decide, h0.1⟩
  rw [if_neg h0]
  by_cases h1 : off = p.rep1 ∧ off ≠ 0
  · rw [if_pos h1]
    exact Or.inl ⟨rfl, by decide, h1.1⟩
  rw [if_neg h1]
  by_cases h2 : off = p.rep2 ∧ off ≠ 0
  · rw [if_pos h2]
    exact Or.inl ⟨rfl, by decide, h2.1⟩
  rw [if_neg h2]
  exact Or.inr (ofEncode_stands hpos hlt)

theorem EncRep.code_nbits (p : EncRep) {off : Nat} (hpos : 0 < off) (hlt : off < 2 ^ 24) :
    (p.code off).nbits ≤ 23 := by
  rcases p.code_cases hpos hlt with ⟨hnone, -, -⟩ | ⟨hstands, -, -⟩
  · rw [SeqCode.fields] at hnone
    split at hnone
    · cases hnone
    · omega
  · exact mem_ofExtra_le hstands

section Push

variable {N : SeqNorms} {E : SeqEnc} {T : SeqTables} {tab : List Nat} {top : Nat} {p : EncRep}
  {e : SeqEntry} {es : List SeqEntry} {st : SeqStates}

/-- What a step puts in front of the stream for a sequence with a match. -/
theorem pushSeq_match {c : SeqCodes} {of ml : SeqCode} (hc : c.Undoable N E T)
    (hmatch : c.of_ml = some (of, ml)) (hst : st.Coding N) (pairs : List (Nat × Nat)) :
    ∃ x y z xv xn yv yn zv zn,
      pushSeq E c st pairs = some (⟨z, y, x⟩, (zv, zn) :: (c.ll.fields ++
        ((yv, yn) :: (of.fields ++ ((xv, xn) :: (ml.fields ++ pairs)))))) ∧
      StepBack N.ml T.ml ml.code st.ml x xv xn ∧ StepBack N.of T.of of.code st.of y yv yn ∧
      StepBack N.ll T.ll c.ll.code st.ll z zv zn := by
  obtain ⟨x, xv, xn, hml, hxstep⟩ := pushCode_some (hc.ml of ml hmatch) hst.ml pairs
  obtain ⟨y, yv, yn, hof, hystep⟩ := pushCode_some (hc.of of ml hmatch) hst.of
    ((xv, xn) :: (ml.fields ++ pairs))
  obtain ⟨z, zv, zn, hll, hzstep⟩ := pushCode_some hc.ll hst.ll
    ((yv, yn) :: (of.fields ++ ((xv, xn) :: (ml.fields ++ pairs))))
  refine ⟨x, y, z, xv, xn, yv, yn, zv, zn, ?_, hxstep, hystep, hzstep⟩
  rw [pushSeq, hmatch]
  dsimp only
  rw [hml]
  dsimp only
  rw [hof]
  dsimp only
  rw [hll]

/-- What a step puts in front of the stream for literals alone. -/
theorem pushSeq_run {c : SeqCodes} (hc : c.Undoable N E T) (hrun : c.of_ml = none) (hst : st.Coding N)
    (pairs : List (Nat × Nat)) :
    ∃ z zv zn, pushSeq E c st pairs = some ({ st with ll := z }, (zv, zn) :: (c.ll.fields ++ pairs)) ∧
      StepBack N.ll T.ll c.ll.code st.ll z zv zn := by
  obtain ⟨z, zv, zn, hll, hzstep⟩ := pushCode_some hc.ll hst.ll pairs
  refine ⟨z, zv, zn, ?_, hzstep⟩
  rw [pushSeq, hrun]
  dsimp only
  rw [hll]

/-- A bit stream of at most 88 bits for each of `n` sequences. -/
structure SeqStream (n : Nat) (pairs : List (Nat × Nat)) : Prop where
  width : width pairs ≤ 88 * n
  each : ∀ f ∈ pairs, f.2 ≤ 32

theorem push_width (v : Nat) (pairs : List (Nat × Nat)) {c : SeqCode} {bn k : Nat}
    (hbn : bn ≤ ansLog) (hc : c.nbits ≤ k) : width ((v, bn) :: (c.fields ++ pairs)) ≤ ansLog + k + width pairs := by
  have hfields := fields_width_le hc
  show bn + width (c.fields ++ pairs) ≤ _
  rw [width_append]
  omega

theorem push_each {pairs : List (Nat × Nat)} {c : SeqCode} {v bn : Nat} (hbn : bn ≤ ansLog)
    (hc : c.nbits ≤ 32) (h : ∀ f ∈ pairs, f.2 ≤ 32) :
    ∀ f ∈ (v, bn) :: (c.fields ++ pairs), f.2 ≤ 32 := by
  intro f hf
  rcases List.mem_cons.mp hf with rfl | hf
  · exact hbn.trans (by decide)
  rcases List.mem_append.mp hf with hf | hf
  · rw [SeqCode.fields] at hf
    split at hf
    · rw [List.mem_singleton.mp hf]
      exact hc
    · exact absurd hf List.not_mem_nil
  · exact h f hf

/-- **ONE STEP** of the backward loop: it does not stop, and what it puts in front of
    the stream is narrow. -/
theorem pushSeq_some (htab : Tiles tab mlExtra top) (he : e.InRange (tab.getD 0 0) top)
    (hc : (e.codes tab p).Undoable N E T) (hst : st.Coding N) {n : Nat} {pairs : List (Nat × Nat)}
    (hpairs : SeqStream n pairs) :
    ∃ st' pairs', pushSeq E (e.codes tab p) st pairs = some (st', pairs') ∧ st'.Coding N ∧
      SeqStream (n + 1) pairs' := by
  have hll : (llEncode e.litlen).nbits ≤ 14 := mem_llExtra_le (llEncode_stands he.litlen).1
  have hwidth := hpairs.width
  have hlog : ansLog = 12 := rfl
  by_cases hmatch : 0 < e.matchlen
  · obtain ⟨hlo, hhi⟩ := he.matchlen hmatch
    obtain ⟨hpos, hlt⟩ := he.offset hmatch
    have hof := p.code_nbits hpos hlt
    have hml : (mlEncodeWith e.matchlen tab).nbits ≤ 15 :=
      mem_mlExtra_le (mlEncodeWith_stands htab hlo hhi).1
    obtain ⟨x, y, z, xv, xn, yv, yn, zv, zn, hpush, hx, hy, hz⟩ :=
      pushSeq_match hc (if_pos hmatch) hst pairs
    refine ⟨_, _, hpush, ⟨hz.coding, hy.coding, hx.coding⟩, ?_, ?_⟩
    · have hxw := push_width xv pairs hx.few hml
      have hyw := push_width yv ((xv, xn) :: ((mlEncodeWith e.matchlen tab).fields ++ pairs)) hy.few hof
      refine (push_width zv _ hz.few hll).trans ?_
      omega
    · exact push_each hz.few (hll.trans (by decide))
        (push_each hy.few (hof.trans (by decide)) (push_each hx.few (hml.trans (by decide)) hpairs.each))
  · obtain ⟨z, zv, zn, hpush, hz⟩ := pushSeq_run hc (if_neg hmatch) hst pairs
    refine ⟨_, _, hpush, ⟨hz.coding, hst.of, hst.ml⟩, ?_, push_each hz.few (hll.trans (by decide)) hpairs.each⟩
    refine (push_width zv pairs hz.few hll).trans ?_
    omega

/-- The backward loop ends. -/
theorem encodeSeqs_some (htab : Tiles tab mlExtra top) (hes : ∀ e ∈ es, e.InRange (tab.getD 0 0) top)
    (hcs : ∀ c ∈ codeSeqs tab p es, c.Undoable N E T) :
    ∃ st pairs, encodeSeqs E (codeSeqs tab p es) = some (st, pairs) ∧ st.Coding N ∧
      SeqStream es.length pairs := by
  induction es generalizing p with
  | nil =>
      exact ⟨⟨0, 0, 0⟩, [], rfl, ⟨coding_zero _, coding_zero _, coding_zero _⟩, Nat.zero_le _,
        fun f hf => absurd hf List.not_mem_nil⟩
  | cons e es ih =>
      rw [codeSeqs_cons] at hcs ⊢
      obtain ⟨st, pairs, hback, hst, hpairs⟩ := ih (fun e' he' => hes e' (List.mem_cons_of_mem e he'))
        fun c hc => hcs c (List.mem_cons_of_mem _ hc)
      obtain ⟨st', pairs', hpush, hst', hpairs'⟩ := pushSeq_some htab (hes e List.mem_cons_self)
        (hcs _ List.mem_cons_self) hst hpairs
      exact ⟨st', pairs', by rw [encodeSeqs, hback]; exact hpush, hst', hpairs'⟩

/-- What the backward loop did last. -/
theorem encodeSeqs_cons (htab : Tiles tab mlExtra top)
    (hes : ∀ e' ∈ e :: es, e'.InRange (tab.getD 0 0) top)
    (hcs : ∀ c ∈ codeSeqs tab p (e :: es), c.Undoable N E T) {st' : SeqStates}
    {pairs' : List (Nat × Nat)} (h : encodeSeqs E (codeSeqs tab p (e :: es)) = some (st', pairs')) :
    ∃ st pairs, encodeSeqs E (codeSeqs tab (p.behind e) es) = some (st, pairs) ∧ st.Coding N ∧
      pushSeq E (e.codes tab p) st pairs = some (st', pairs') := by
  rw [codeSeqs_cons] at hcs h
  obtain ⟨st, pairs, hback, hst, -⟩ := encodeSeqs_some htab
    (fun e' he' => hes e' (List.mem_cons_of_mem e he')) fun c hc => hcs c (List.mem_cons_of_mem _ hc)
  rw [encodeSeqs, hback] at h
  exact ⟨st, pairs, hback, hst, h⟩

end Push

/-! ## One turn of the decoder -/

/-- The decoder is in front of the stream, in the states of the encoder and with
    its last offsets. -/
structure SeqCoder.At (c : SeqCoder) (st : SeqStates) (p : EncRep) (pairs : List (Nat × Nat))
    (spare len : Nat) : Prop where
  before : c.r.Before pairs spare len
  ll : c.state_ll = st.ll
  of : c.state_of = st.of
  ml : c.state_ml = st.ml
  rep : c.rep0 = p.rep0 ∧ c.rep1 = p.rep1 ∧ c.rep2 = p.rep2

/-- Both remember an offset in the same way. -/
theorem SeqCoder.At.push {c : SeqCoder} {st : SeqStates} {p : EncRep} {pairs : List (Nat × Nat)}
    {spare len : Nat} (h : c.At st p pairs spare len) (off : Nat) :
    (c.push off).At st (p.push off) pairs spare len := by
  obtain ⟨h0, h1, h2⟩ := h.rep
  rw [SeqCoder.push, EncRep.push, h0]
  by_cases hnew : off ≠ p.rep0 ∧ off ≠ 0
  · rw [if_pos hnew, if_pos ⟨hnew.2, hnew.1⟩]
    exact ⟨h.before, h.ll, h.of, h.ml, rfl, rfl, h1⟩
  · rw [if_neg hnew, if_neg fun hc => hnew ⟨hc.2, hc.1⟩]
    exact h

section Turn

variable {N : SeqNorms} {E : SeqEnc} {T : SeqTables} {tab : List Nat} {top : Nat} {p : EncRep}
  {e : SeqEntry} {c : SeqCoder} {st : SeqStates} {pairs : List (Nat × Nat)} {spare len : Nat}

/-- **THE LITERAL LENGTH** comes first. -/
theorem SeqCoder.At.litlen (st : SeqStates) {code : SeqCode} {v z zv zn : Nat}
    (h : c.At { st with ll := z } p ((zv, zn) :: (code.fields ++ pairs)) spare len)
    (hlt : code.code < 256) (hcode : code.Stands llBase llExtra v)
    (hstep : StepBack N.ll T.ll code.code st.ll z zv zn) :
    ∃ c', c.litlen T = some (v, c') ∧ c'.At st p pairs spare len := by
  obtain ⟨hsymbol, hbase, hrest⟩ := readSymbol_back hlt hstep h.before.fill.1
  obtain ⟨r', hread, hr'⟩ := readExtra_fields hcode ((mem_llExtra_le hcode).trans (by decide)) hrest
  have hll : c.state_ll = z := h.ll
  refine ⟨{ c with r := r', state_ll := st.ll }, ?_, hr', rfl, h.of, h.ml, h.rep⟩
  rw [SeqCoder.litlen, hll, hsymbol, hread]
  dsimp only
  rw [hbase]

/-- **THE OFFSET** is found among the last three or behind its extra bits. -/
theorem SeqCoder.At.offset (st : SeqStates) {off y yv yn : Nat} (hpos : 0 < off) (hlt : off < 2 ^ 24)
    (h : c.At { st with of := y } p ((yv, yn) :: ((p.code off).fields ++ pairs)) spare len)
    (hstep : StepBack N.of T.of (p.code off).code st.of y yv yn) :
    ∃ c', c.offset T = some (off, c') ∧ c'.At st (p.push off) pairs spare len := by
  have hcode := p.code_cases hpos hlt
  have hsmall : (p.code off).code < 256 := by
    rcases hcode with ⟨-, hrep, -⟩ | ⟨-, -, hcodes⟩
    · omega
    · omega
  obtain ⟨hsymbol, hbase, hrest⟩ := readSymbol_back hsmall hstep h.before
  have hof : c.state_of = y := h.of
  obtain ⟨h0, h1, h2⟩ := h.rep
  rw [SeqCoder.offset, hof]
  dsimp only
  rw [hsymbol, hbase]
  rcases hcode with ⟨hnone, hrep, hoff⟩ | ⟨hstands, hexplicit, -⟩
  · -- a repeated offset
    rw [hnone, List.nil_append] at hrest
    rw [if_pos hrep]
    generalize hmid : ({ c with r := (ansBrRead c.r (T.of (y % ansL)).nbits).2,
                                state_of := st.of } : SeqCoder) = mid
    have hat : mid.At st p pairs spare len := by
      rw [← hmid]
      exact ⟨hrest, h.ll, rfl, h.ml, h.rep⟩
    have hsame : mid.rep (p.code off).code = off := by
      rw [SeqCoder.rep, hat.rep.1, hat.rep.2.1, hat.rep.2.2]
      exact hoff.symm
    rw [hsame]
    exact ⟨_, rfl, hat.push off⟩
  · -- an explicit one
    obtain ⟨r', hread, hr'⟩ := readExtra_fields hstands ((mem_ofExtra_le hstands).trans (by decide)) hrest
    rw [if_neg (by omega), hread]
    dsimp only
    refine ⟨_, rfl, SeqCoder.At.push ?_ off⟩
    exact ⟨hr', h.ll, rfl, h.ml, h.rep⟩

/-- **THE MATCH LENGTH** comes last. -/
theorem SeqCoder.At.matchlen (st : SeqStates) {code : SeqCode} {v x xv xn : Nat}
    (h : c.At { st with ml := x } p ((xv, xn) :: (code.fields ++ pairs)) spare len)
    (hlt : code.code < 256) (hcode : code.Stands tab mlExtra v)
    (hstep : StepBack N.ml T.ml code.code st.ml x xv xn) :
    ∃ c', c.matchlen tab T = some (v, c') ∧ c'.At st p pairs spare len := by
  obtain ⟨hsymbol, hbase, hrest⟩ := readSymbol_back hlt hstep h.before
  obtain ⟨r', hread, hr'⟩ := readExtra_fields hcode ((mem_mlExtra_le hcode).trans (by decide)) hrest
  have hml : c.state_ml = x := h.ml
  refine ⟨{ c with r := r', state_ml := st.ml }, ?_, hr', h.ll, h.of, rfl, h.rep⟩
  rw [SeqCoder.matchlen, hml, hsymbol, hread]
  dsimp only
  rw [hbase]

/-- **A SEQUENCE WITH A MATCH** is read as it was pushed. -/
theorem SeqCoder.At.match (htab : Tiles tab mlExtra top) (he : e.InRange (tab.getD 0 0) top)
    (hmatch : 0 < e.matchlen) (hc : (e.codes tab p).Undoable N E T) (hst : st.Coding N)
    {st' : SeqStates} {pairs' : List (Nat × Nat)}
    (hpush : pushSeq E (e.codes tab p) st pairs = some (st', pairs')) (h : c.At st' p pairs' spare len) :
    ∃ c1 c2 c3, c.litlen T = some (e.litlen, c1) ∧ c1.offset T = some (e.offset, c2) ∧
      c2.matchlen tab T = some (e.matchlen, c3) ∧ c3.At st (p.behind e) pairs spare len := by
  obtain ⟨hlo, hhi⟩ := he.matchlen hmatch
  obtain ⟨hpos, hlt⟩ := he.offset hmatch
  obtain ⟨hll, hll36⟩ := llEncode_stands he.litlen
  obtain ⟨hml, hml36⟩ := mlEncodeWith_stands htab hlo hhi
  obtain ⟨x, y, z, xv, xn, yv, yn, zv, zn, hsome, hx, hy, hz⟩ := pushSeq_match hc (if_pos hmatch) hst pairs
  obtain ⟨rfl, rfl⟩ := Prod.mk.inj (Option.some.inj (hpush.symm.trans hsome))
  obtain ⟨c1, hc1, hat1⟩ := SeqCoder.At.litlen ⟨st.ll, y, x⟩ h (hll36.trans (by decide)) hll hz
  obtain ⟨c2, hc2, hat2⟩ := SeqCoder.At.offset ⟨st.ll, st.of, x⟩ hpos hlt hat1 hy
  obtain ⟨c3, hc3, hat3⟩ := SeqCoder.At.matchlen st hat2 (hml36.trans (by decide)) hml hx
  refine ⟨c1, c2, c3, hc1, hc2, hc3, ?_⟩
  rw [EncRep.behind, if_pos hmatch]
  exact hat3

/-- **LITERALS ALONE** are read as they were pushed. -/
theorem SeqCoder.At.run (he : e.InRange (tab.getD 0 0) top) (hrun : e.matchlen = 0)
    (hc : (e.codes tab p).Undoable N E T) (hst : st.Coding N) {st' : SeqStates}
    {pairs' : List (Nat × Nat)} (hpush : pushSeq E (e.codes tab p) st pairs = some (st', pairs'))
    (h : c.At st' p pairs' spare len) :
    ∃ c1, c.litlen T = some (e.litlen, c1) ∧ c1.At st (p.behind e) pairs spare len := by
  obtain ⟨hll, hll36⟩ := llEncode_stands he.litlen
  have hnone : ¬ 0 < e.matchlen := by omega
  obtain ⟨z, zv, zn, hsome, hz⟩ := pushSeq_run hc (if_neg hnone) hst pairs
  obtain ⟨rfl, rfl⟩ := Prod.mk.inj (Option.some.inj (hpush.symm.trans hsome))
  obtain ⟨c1, hc1, hat1⟩ := SeqCoder.At.litlen st h (hll36.trans (by decide)) hll hz
  refine ⟨c1, hc1, ?_⟩
  rw [EncRep.behind, if_neg hnone]
  exact hat1

end Turn

end Zupt.VaptVupt
