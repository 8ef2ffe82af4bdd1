import Zupt.VaptVupt.SequencesStream
import Zupt.VaptVupt.SequencesExact

/-! # The sequences of a block are expanded

    The naive loop of the sequence decoder, in front of the stream that the
    sequences of a block were pushed to, expands them over the history: every
    offset reaches back no further than there are bytes, and literals at the end
    come in as many entries as they were split into. -/

namespace Zupt.VaptVupt

open Zupt.LittleEndian Zupt.Memory Zupt.Window Zupt.BitStream

/-! ## What sequences expand to -/

theorem Seq.expand_length {out : Bytes} {q : Seq} (hpos : 0 < q.off)
    (hreach : q.off ≤ (out ++ q.lits).length) :
    (q.expand out).length = out.length + q.lits.length + q.len := by
  rw [Seq.expand, length_extend hpos hreach, List.length_append]

/-- The literals and the matches of a block are no more than its bytes. -/
theorem expandSeqs_length {out : Bytes} {qs : List Seq} {tail : Bytes} (h : Reaches out qs)
    (hlen : ∀ q ∈ qs, 1 ≤ q.len) :
    out.length + (blockLits qs tail).length + qs.length ≤ (expandSeqs out qs tail).length := by
  induction qs generalizing out with
  | nil =>
      show out.length + tail.length + 0 ≤ (out ++ tail).length
      rw [List.length_append, Nat.add_zero]
  | cons q qs ih =>
      obtain ⟨hpos, hreach, hrest⟩ := h
      have hexp := Seq.expand_length hpos hreach
      have hq := hlen q List.mem_cons_self
      have hih := ih hrest fun q' hq' => hlen q' (List.mem_cons_of_mem q hq')
      rw [expandSeqs, List.foldl_cons, ← expandSeqs, blockLits, List.flatMap_cons, List.append_assoc,
        ← blockLits, List.length_append, List.length_cons]
      omega

/-! ## The naive loop -/

section Loop

variable {P : NaiveParams} {N : SeqNorms} {E : SeqEnc} {top : Nat} {p : EncRep} {st : SeqStates}
  {pairs : List (Nat × Nat)} {spare len : Nat} {t : NaiveState}

/-- The loop is over once literals and matches are. -/
theorem NaiveParams.loop_done (iters : Nat) (hlits : t.lits = [])
    (hdone : P.match_count ≤ t.matches_decoded) : P.loop iters t = .ok t.out := by
  have hstop : ¬ (0 < t.lits.length ∨ t.matches_decoded < P.match_count) := by
    rw [hlits, List.length_nil]
    omega
  cases iters with
  | zero => rw [NaiveParams.loop, if_neg hstop]
  | succ iters => rw [NaiveParams.loop, if_neg hstop]

theorem runEntries_inRange (ml_min top : Nat) {turns ll : Nat} (h : ll ≤ turns) :
    ∀ e ∈ runEntries turns ll, e.InRange ml_min top ∧ e.matchlen = 0 := by
  induction turns generalizing ll with
  | zero =>
      intro e he
      rw [runEntries_short (by omega)] at he
      rw [List.mem_singleton.mp he]
      exact ⟨⟨by dsimp only; omega, fun hm => absurd hm (Nat.lt_irrefl 0),
        fun hm => absurd hm (Nat.lt_irrefl 0)⟩, rfl⟩
  | succ turns ih =>
      intro e he
      by_cases hlong : llMax < ll
      · rw [runEntries_long hlong] at he
        rcases List.mem_cons.mp he with rfl | he
        · exact ⟨⟨Nat.le_refl _, fun hm => absurd hm (Nat.lt_irrefl 0),
            fun hm => absurd hm (Nat.lt_irrefl 0)⟩, rfl⟩
        · exact ih (by rw [llMax] at hlong ⊢; omega) e he
      · rw [runEntries_short (Nat.not_lt.mp hlong)] at he
        rw [List.mem_singleton.mp he]
        exact ⟨⟨Nat.not_lt.mp hlong, fun hm => absurd hm (Nat.lt_irrefl 0),
          fun hm => absurd hm (Nat.lt_irrefl 0)⟩, rfl⟩

/-- One turn over literals alone. -/
theorem NaiveParams.turn_run {litlen : Nat} {c : SeqCoder} (hread : t.coder.litlen P.tables = some (litlen, c))
    (hlits : litlen ≤ t.lits.length) (hcap : t.out.length + litlen ≤ P.cap)
    (hdone : P.match_count ≤ t.matches_decoded) :
    P.turn t = .ok { t with coder := c, out := t.out ++ t.lits.take litlen, lits := t.lits.drop litlen } := by
  rw [NaiveParams.turn, hread]
  dsimp only
  rw [if_neg (Nat.not_lt.mpr hlits), if_neg (Nat.not_lt.mpr hcap), if_pos hdone]

/-- **THE LITERALS AT THE END**, in as many entries as they were split into. -/
theorem NaiveParams.loop_run (htab : Tiles P.ml_base_tab mlExtra top) {turns : Nat} {tail : Bytes}
    (hturns : tail.length ≤ turns)
    (hcs : ∀ c ∈ codeSeqs P.ml_base_tab p (runEntries turns tail.length), c.Undoable N E P.tables)
    (hback : encodeSeqs E (codeSeqs P.ml_base_tab p (runEntries turns tail.length)) = some (st, pairs))
    (hat : t.coder.At st p pairs spare len) (hlits : t.lits = tail)
    (hdone : P.match_count ≤ t.matches_decoded) (hcap : t.out.length + tail.length ≤ P.cap) {iters : Nat}
    (hiters : tail.length ≤ iters) : P.loop iters t = .ok (t.out ++ tail) := by
  induction turns generalizing tail p st pairs t iters with
  | zero =>
      obtain rfl : tail = [] := List.length_eq_zero_iff.mp (Nat.le_zero.mp hturns)
      rw [List.append_nil]
      exact P.loop_done iters hlits hdone
  | succ turns ih =>
      by_cases hnil : tail = []
      · subst hnil
        rw [List.append_nil]
        exact P.loop_done iters hlits hdone
      have hpos : 0 < tail.length := List.length_pos_iff.mpr hnil
      obtain ⟨iters, rfl⟩ : ∃ n, iters = n + 1 := ⟨iters - 1, by omega⟩
      have hrange := runEntries_inRange (P.ml_base_tab.getD 0 0) top hturns
      by_cases hlong : llMax < tail.length
      · rw [runEntries_long hlong] at hcs hback hrange
        have hhead := hrange _ List.mem_cons_self
        obtain ⟨st0, pairs0, hback0, hst0, hpush⟩ :=
          encodeSeqs_cons htab (fun e he => (hrange e he).1) hcs hback
        rw [codeSeqs_cons] at hcs
        obtain ⟨c1, hread, hat1⟩ :=
          hat.run hhead.1 hhead.2 (hcs _ List.mem_cons_self) hst0 hpush
        have hmax : llMax = 65535 := rfl
        have htake : (t.lits.take llMax).length = llMax := by
          rw [hlits]
          exact List.length_take_of_le hlong.le
        have hrest : (tail.drop llMax).length = tail.length - llMax := List.length_drop
        rw [NaiveParams.loop, if_pos (Or.inl (by rw [hlits]; exact hpos)),
          P.turn_run hread (by rw [hlits]; exact hlong.le) (by dsimp only; omega) hdone]
        dsimp only
        rw [← hrest] at hback0 hcs
        have hnext : P.loop iters { t with coder := c1, out := t.out ++ t.lits.take llMax,
                                            lits := t.lits.drop llMax } =
            .ok (t.out ++ t.lits.take llMax ++ tail.drop llMax) := by
          refine ih ?_ (fun c hc => hcs c (List.mem_cons_of_mem _ hc)) hback0 hat1 ?_ ?_ ?_ ?_
          · omega
          · exact congrArg (List.drop llMax) hlits
          · exact hdone
          · dsimp only
            rw [List.length_append, htake, hrest]
            omega
          · omega
        rw [hnext, hlits, List.append_assoc, List.take_append_drop]
      · rw [runEntries_short (Nat.not_lt.mp hlong)] at hcs hback hrange
        have hhead := hrange _ List.mem_cons_self
        obtain ⟨st0, pairs0, hback0, hst0, hpush⟩ :=
          encodeSeqs_cons htab (fun e he => (hrange e he).1) hcs hback
        rw [codeSeqs_cons] at hcs
        obtain ⟨c1, hread, hat1⟩ :=
          hat.run hhead.1 hhead.2 (hcs _ List.mem_cons_self) hst0 hpush
        rw [NaiveParams.loop, if_pos (Or.inl (by rw [hlits]; exact hpos)),
          P.turn_run hread (by rw [hlits]) hcap hdone]
        dsimp only
        rw [hlits, List.take_length, List.drop_length]
        exact P.loop_done iters rfl hdone

/-- A sequence whose match has a code, in a window. -/
structure Seq.Codable (ml_min top max_offset : Nat) (q : Seq) : Prop where
  min_len : ml_min ≤ q.len
  max_len : q.len < top
  window : q.off ≤ max_offset
  far : q.off < 2 ^ 24

/-- The entry of a sequence that is reached and has codes. -/
theorem Seq.entry_inRange {ml_min max_offset : Nat} (hmin : 0 < ml_min) (htop : top ≤ 65536) {q : Seq}
    (hq : q.Codable ml_min top max_offset) (hrun : q.lits.length ≤ llMax) (hpos : 0 < q.off) :
    q.entry = ⟨q.lits.length, q.len, q.off⟩ ∧ 0 < q.len ∧ q.entry.InRange ml_min top := by
  have hlen := hq.max_len
  have hlen' := hq.min_len
  have hentry : q.entry = ⟨q.lits.length, q.len, q.off⟩ := by
    rw [Seq.entry, Nat.mod_eq_of_lt (by omega)]
  rw [hentry]
  exact ⟨rfl, by omega, hrun, fun _ => ⟨hlen', hlen⟩, fun _ => ⟨hpos, hq.far⟩⟩

/-- The sequences of a block, as the coder and the loop need them. -/
structure BlockSeqs (ml_min top max_offset : Nat) (out : Bytes) (qs : List Seq) : Prop where
  codable : ∀ q ∈ qs, q.Codable ml_min top max_offset
  runs : ∀ q ∈ qs, q.lits.length ≤ llMax
  reach : Reaches out qs

theorem BlockSeqs.tail {ml_min max_offset : Nat} {out : Bytes} {q : Seq} {qs : List Seq}
    (h : BlockSeqs ml_min top max_offset out (q :: qs)) :
    BlockSeqs ml_min top max_offset (q.expand out) qs where
  codable q' hq' := h.codable q' (List.mem_cons_of_mem q hq')
  runs q' hq' := h.runs q' (List.mem_cons_of_mem q hq')
  reach := h.reach.2.2

theorem BlockSeqs.entries {ml_min max_offset : Nat} (hmin : 0 < ml_min) (htop : top ≤ 65536)
    {out : Bytes} {qs : List Seq} (h : BlockSeqs ml_min top max_offset out qs) (tail : Bytes) :
    ∀ e ∈ blockEntries qs tail, e.InRange ml_min top := by
  induction qs generalizing out with
  | nil => exact fun e he => (runEntries_inRange ml_min top (Nat.le_refl _) e he).1
  | cons q qs ih =>
      intro e he
      have he' : e ∈ q.entry :: blockEntries qs tail := he
      rcases List.mem_cons.mp he' with rfl | he
      · exact (Seq.entry_inRange hmin htop (h.codable q List.mem_cons_self)
          (h.runs q List.mem_cons_self) h.reach.1).2.2
      · exact ih h.tail e he

/-- One turn over a sequence with a match. -/
theorem NaiveParams.turn_match {q : Seq} {c1 c2 c3 : SeqCoder}
    (hll : t.coder.litlen P.tables = some (q.lits.length, c1))
    (hof : c1.offset P.tables = some (q.off, c2))
    (hml : c2.matchlen P.ml_base_tab P.tables = some (q.len, c3))
    {rest : Bytes} (hlits : t.lits = q.lits ++ rest) (hmore : t.matches_decoded < P.match_count)
    (hpos : 0 < q.off) (hreach : q.off ≤ (t.out ++ q.lits).length) (hwindow : q.off ≤ P.max_offset)
    (hcap : (q.expand t.out).length ≤ P.cap) :
    P.turn t = .ok ⟨c3, rest, t.matches_decoded + 1, q.expand t.out⟩ := by
  have hexp := Seq.expand_length hpos hreach
  rw [NaiveParams.turn, hll]
  dsimp only
  rw [hlits, if_neg (by rw [List.length_append]; omega), if_neg (by omega),
    if_neg (Nat.not_le.mpr hmore), List.take_left, List.drop_left, NaiveParams.matchTurn]
  dsimp only
  rw [hof]
  dsimp only
  rw [hml]
  dsimp only
  rw [if_neg (by omega), if_neg (Nat.not_lt.mpr hreach), if_neg (by rw [List.length_append]; omega)]
  rfl

theorem length_le_expandSeqs {out : Bytes} {qs : List Seq} {tail : Bytes} :
    out.length ≤ (expandSeqs out qs tail).length := by
  induction qs generalizing out with
  | nil =>
      show out.length ≤ (out ++ tail).length
      rw [List.length_append]
      exact Nat.le_add_right _ _
  | cons q qs ih =>
      have hrest : (q.expand out).length ≤ (expandSeqs (q.expand out) qs tail).length := ih
      have hgrow : (out ++ q.lits).length ≤ (q.expand out).length :=
        (prefix_extend (out ++ q.lits) q.off q.len).length_le
      rw [List.length_append] at hgrow
      exact le_trans (by omega) hrest

/-- **THE LOOP EXPANDS THE BLOCK** that was encoded. -/
theorem NaiveParams.loop_block (htab : Tiles P.ml_base_tab mlExtra top)
    (hmin : 0 < P.ml_base_tab.getD 0 0) (htop : top ≤ 65536) {qs : List Seq} {tail : Bytes}
    (hqs : BlockSeqs (P.ml_base_tab.getD 0 0) top P.max_offset t.out qs)
    (hcs : ∀ c ∈ codeSeqs P.ml_base_tab p (blockEntries qs tail), c.Undoable N E P.tables)
    (hback : encodeSeqs E (codeSeqs P.ml_base_tab p (blockEntries qs tail)) = some (st, pairs))
    (hat : t.coder.At st p pairs spare len) (hlits : t.lits = blockLits qs tail)
    (hcount : t.matches_decoded + qs.length = P.match_count)
    (hcap : (expandSeqs t.out qs tail).length ≤ P.cap) {iters : Nat}
    (hiters : qs.length + tail.length ≤ iters) :
    P.loop iters t = .ok (expandSeqs t.out qs tail) := by
  induction qs generalizing p st pairs t iters with
  | nil =>
      have hlen : (t.out ++ tail).length ≤ P.cap := hcap
      rw [List.length_append] at hlen
      exact P.loop_run htab (Nat.le_refl _) hcs hback hat hlits (by rw [← hcount]; exact Nat.le_refl _)
        hlen (by rw [List.length_nil, Nat.zero_add] at hiters; exact hiters)
  | cons q qs ih =>
      rw [List.length_cons] at hcount hiters
      obtain ⟨iters, rfl⟩ : ∃ n, iters = n + 1 := ⟨iters - 1, by omega⟩
      have hrange := hqs.entries hmin htop tail
      have hsplit : blockEntries (q :: qs) tail = q.entry :: blockEntries qs tail := rfl
      rw [hsplit] at hcs hback hrange
      obtain ⟨st0, pairs0, hback0, hst0, hpush⟩ := encodeSeqs_cons htab hrange hcs hback
      rw [codeSeqs_cons] at hcs
      have hq := hqs.codable q List.mem_cons_self
      obtain ⟨hentry, hsome, hin⟩ :=
        Seq.entry_inRange hmin htop hq (hqs.runs q List.mem_cons_self) hqs.reach.1
      obtain ⟨c1, c2, c3, hll, hof, hml, hat3⟩ := hat.match htab hin
        (by rw [hentry]; exact hsome) (hcs _ List.mem_cons_self) hst0 hpush
      rw [hentry] at hll hof hml
      have hlits' : t.lits = q.lits ++ blockLits qs tail := by
        rw [hlits, blockLits, List.flatMap_cons, List.append_assoc]
        rfl
      have hmore : t.matches_decoded < P.match_count := by omega
      have hgrow : (q.expand t.out).length ≤ (expandSeqs (q.expand t.out) qs tail).length :=
        length_le_expandSeqs
      rw [NaiveParams.loop, if_pos (Or.inr hmore),
        P.turn_match hll hof hml hlits' hmore hqs.reach.1 hqs.reach.2.1 hq.window (hgrow.trans hcap)]
      dsimp only
      exact ih hqs.tail (fun c hc => hcs c (List.mem_cons_of_mem _ hc)) hback0 hat3 rfl
        (by dsimp only; omega) hcap (by omega)

end Loop

end Zupt.VaptVupt
