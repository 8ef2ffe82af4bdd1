import Zupt.VaptVupt.AnsBits
import Zupt.VaptVupt.HuffmanRoundTrip

/-! # States of the tANS coder

    What a step of the encoder sheds, the entry of the state it goes to takes in
    again (`Undone`).  So the encoder's way through the symbols from the last to
    the first is a way of the decoder from the first to the last, with one state,
    with four that take turns, or with one for each preceding byte. -/

namespace Zupt.VaptVupt

open Zupt.LittleEndian Zupt.Memory Zupt.BitStream

/-! ## Tables by the frequencies of the bytes -/

/-- Two headers have the same frequencies. -/
def SameBytes (norm norm' : Norm) : Prop := ∀ i < 256, norm i = norm' i

section Congr

variable {norm norm' : Norm}

theorem spreadRuns_congr (h : SameBytes norm norm') (sp : Mem UInt8) {n : Nat} (hn : n ≤ 256) :
    spreadRuns norm sp n = spreadRuns norm' sp n := by
  induction n with
  | zero => rfl
  | succ n ih => rw [spreadRuns, spreadRuns, ih (by omega), h n (by omega)]

theorem spreadSymbols_congr (h : SameBytes norm norm') (sp : Mem UInt8) :
    spreadSymbols norm sp = spreadSymbols norm' sp := by
  rw [spreadSymbols, spreadSymbols, spreadRuns_congr h sp (Nat.le_refl 256)]

theorem fillSpread_congr (h : SameBytes norm norm') (sp : Mem UInt8) (dec : Mem DecEntry) (n : Nat) :
    fillSpread norm sp dec n = fillSpread norm' sp dec n := by
  induction n with
  | zero => rfl
  | succ n ih => rw [fillSpread, fillSpread, ih, h _ (sp n).toNat_lt]

theorem buildDec_congr (h : SameBytes norm norm') (sp : Mem UInt8) (dec : Mem DecEntry) :
    buildDec norm (spreadSymbols norm sp) dec = buildDec norm' (spreadSymbols norm' sp) dec := by
  rw [buildDec, buildDec, spreadSymbols_congr h sp, fillSpread_congr h]

/-- **THE TABLE OF A HEADER** is the one of its frequencies, by either builder. -/
theorem buildDecDirect_same (h : SameBytes norm norm') (hsum : normSum norm 256 = ansL)
    (dec : Mem DecEntry) (sp : Mem UInt8) (dec' : Mem DecEntry) :
    AgreeBelow ansL (buildDecDirect norm' dec) (buildDec norm (spreadSymbols norm sp) dec') := by
  rw [buildDecDirect_eq, ← buildDec_congr h]
  exact buildDec_agree hsum _ _ _ _

end Congr

/-! ## Steps that are undone -/

/-- A state that the encoder may be in: 0 where one symbol has all the states. -/
def Coding (norm : Norm) (y : Nat) : Prop := y < ansL ∧ ((∃ s < 256, norm s = ansL) → y = 0)

theorem coding_zero (norm : Norm) : Coding norm 0 := ⟨by decide, fun _ => rfl⟩

/-- The entry of the state that a step goes to gives back the symbol and the state
    before. -/
structure StepBack (norm : Norm) (dec : Mem DecEntry) (s y x bv bn : Nat) : Prop where
  coding : Coding norm x
  symbol : (dec x).symbol = UInt8.ofNat s
  nbits : (dec x).nbits = bn
  baseline : (dec x).baseline + bv = y
  small : bv < 2 ^ bn
  few : bn ≤ ansLog

/-- Every step of the encoder is undone by the table. -/
def Undone (norm : Norm) (enc : EncCtx) (dec : Mem DecEntry) : Prop :=
  ∀ s < 256, 0 < norm s → ∀ y, Coding norm y →
    ∃ x bv bn, encSym enc y s = some (x, bv, bn) ∧ StepBack norm dec s y x bv bn

section Tables

variable {norm : Norm}

/-- Beside a symbol that has all the states there is no other. -/
theorem alone_unique (h : normSum norm 256 = ansL) {s t : Nat} (hs : s < 256) (ht : t < 256)
    (hpos : 0 < norm s) (hall : norm t = ansL) : s = t := by
  by_contra hne
  have hsum := normSum_update norm ht 0
  have hle := le_normSum (Function.update norm t 0) hs
  rw [Function.update_of_ne hne] at hle
  rw [h, hall] at hsum
  omega

theorem windowBits_le {f : Nat} (hpos : 0 < f) (hlt : f < ansL) (k : Nat) :
    windowBits f k ≤ ansLog := by
  obtain ⟨flg, -, -, -, -, hbits, -⟩ := window_numbers hpos hlt
  rw [windowBits, hbits, ansLog]
  split <;> omega

/-- **THE TABLES OF A HEADER** undo each other's steps. -/
theorem buildAll_undone (h : normSum norm 256 = ansL) (t : TableMemory) {dec : Mem DecEntry}
    (hdec : AgreeBelow ansL dec (buildDec norm (spreadSymbols norm t.sp) t.dec)) :
    Undone norm (buildAll norm t) dec := by
  intro s hs hpos y hy
  obtain ⟨hyL, hyalone⟩ := hy
  by_cases hall : norm s = ansL
  · -- one symbol has all the states: it stays in state 0
    have hcnt : cumFreq norm (s + 1) - cumFreq norm s = ansL := by
      rw [cumFreq_eq h hs, cumFreq_eq h hs.le, normSum, Nat.add_sub_cancel_left, hall]
    have hentry : dec 0 = ⟨UInt8.ofNat s, 0, 0⟩ := by
      rw [hdec 0 (by decide), buildDec_alone h t.sp t.dec hs hall (by decide)]
    refine ⟨0, 0, 0, ?_, coding_zero norm, ?_, ?_, ?_, ?_, ?_⟩
    · show (if cumFreq norm (s + 1) - cumFreq norm s = 0 then none
        else if cumFreq norm (s + 1) - cumFreq norm s = ansL then some (0, 0, 0) else _) = _
      rw [if_neg (by rw [hcnt]; decide), if_pos hcnt]
    · rw [hentry]
    · rw [hentry]
    · rw [hentry]
      exact (hyalone ⟨s, hs, hall⟩).symm
    · exact Nat.one_pos
    · exact Nat.zero_le _
  · have hlt : norm s < ansL := Nat.lt_of_le_of_ne (freq_le h s hs) hall
    obtain ⟨k, hk, hpick, hwindow⟩ := pickOcc_window hpos hlt hyL
    obtain ⟨x, hx⟩ := exists_isOcc h t.sp hs hk
    have hentry : dec x = ⟨UInt8.ofNat s, windowBits (norm s) k, windowStart (norm s) k⟩ := by
      rw [hdec x hx.lt, buildDec_window t.dec hs hlt hk hx]
    have hnext := windowStart_succ hpos hlt k
    refine ⟨x, y - windowStart (norm s) k, windowBits (norm s) k,
      encSym_step h t.sp t.dec t.o hs hpos hlt hyL hk hx hpick hwindow.1, ⟨hx.lt, ?_⟩, ?_, ?_, ?_, ?_, ?_⟩
    · rintro ⟨u, hu, hualone⟩
      have hsame := alone_unique h hs hu hpos hualone
      rw [hsame] at hall
      exact absurd hualone hall
    · rw [hentry]
    · rw [hentry]
    · rw [hentry]
      dsimp only
      omega
    · omega
    · exact windowBits_le hpos hlt k

end Tables

/-! ## One state -/

/-- Every symbol of the source has a frequency. -/
def Occurs (norm : Norm) (src : Bytes) : Prop := ∀ b ∈ src, 0 < norm b.toNat

section OneState

variable {norm : Norm} {enc : EncCtx} {dec : Mem DecEntry}

/-- The fields of a stream are at most as wide as a state. -/
def Narrow (pairs : List (Nat × Nat)) : Prop := ∀ p ∈ pairs, p.2 ≤ ansLog

theorem Narrow.cons {pairs : List (Nat × Nat)} (h : Narrow pairs) {bv bn : Nat} (hbn : bn ≤ ansLog) :
    Narrow ((bv, bn) :: pairs) := by
  intro p hp
  rcases List.mem_cons.mp hp with rfl | hp
  · exact hbn
  · exact h p hp

/-- The backward loop never stops, and what it sheds is narrow. -/
theorem encodeBack_some (h : Undone norm enc dec) {src : Bytes} (hocc : Occurs norm src) :
    ∃ x pairs, encodeBack enc src 0 = some (x, pairs) ∧ Coding norm x ∧
      pairs.length = src.length ∧ Narrow pairs := by
  induction src with
  | nil =>
      refine ⟨0, [], rfl, coding_zero norm, rfl, ?_⟩
      intro p hp
      cases hp
  | cons b src ih =>
      obtain ⟨y, pairs, hback, hy, hlen, hnarrow⟩ := ih fun c hc => hocc c (List.mem_cons_of_mem b hc)
      obtain ⟨x, bv, bn, hsym, hstep⟩ := h b.toNat b.toNat_lt (hocc b List.mem_cons_self) y hy
      refine ⟨x, (bv, bn) :: pairs, ?_, hstep.coding, ?_, hnarrow.cons hstep.few⟩
      · rw [encodeBack, hback]
        dsimp only
        rw [hsym]
      · rw [List.length_cons, List.length_cons, hlen]

/-- What the backward loop did last. -/
theorem encodeBack_cons (h : Undone norm enc dec) {b : UInt8} {src : Bytes}
    (hocc : Occurs norm (b :: src)) {x : Nat} {pairs : List (Nat × Nat)}
    (hback : encodeBack enc (b :: src) 0 = some (x, pairs)) :
    ∃ y bv bn rest, encodeBack enc src 0 = some (y, rest) ∧ Coding norm y ∧
      pairs = (bv, bn) :: rest ∧ StepBack norm dec b.toNat y x bv bn := by
  obtain ⟨y, rest, hrest, hy, -, -⟩ := encodeBack_some h fun c hc => hocc c (List.mem_cons_of_mem b hc)
  obtain ⟨x', bv, bn, hsym, hstep⟩ := h b.toNat b.toNat_lt (hocc b List.mem_cons_self) y hy
  rw [encodeBack, hrest] at hback
  dsimp only at hback
  rw [hsym] at hback
  obtain ⟨rfl, rfl⟩ := Prod.mk.inj (Option.some.inj hback)
  exact ⟨y, bv, bn, rest, hrest, hy, rfl, hstep⟩

/-- A state and the pairs behind it, in front of which a reader is: the lane is
    about to decode the source. -/
def LaneAt (enc : EncCtx) (src : Bytes) (l : Lane) : Prop :=
  ∃ pairs spare len, encodeBack enc src 0 = some (l.state, pairs) ∧ l.r.Before pairs spare len

/-- **A SYMBOL** of a lane, and what the lane is in front of behind it. -/
theorem LaneAt.next (h : Undone norm enc dec) {b : UInt8} {src : Bytes} (hocc : Occurs norm (b :: src))
    {l : Lane} (hl : LaneAt enc (b :: src) l) :
    (l.next dec).1 = b ∧ (l.next dec).2.state < ansL ∧ LaneAt enc src (l.next dec).2 := by
  obtain ⟨pairs, spare, len, hback, hbefore⟩ := hl
  obtain ⟨y, bv, bn, rest, hrest, hy, rfl, hstep⟩ := encodeBack_cons h hocc hback
  obtain ⟨hfilled, hready⟩ := hbefore.refill
  obtain ⟨hval, hnext⟩ := hfilled.take (hready.mono hstep.few)
  have hstate : (l.next dec).2.state = y := by
    show (dec l.state).baseline + (ansBrTake (ansBrRefill l.r) (dec l.state).nbits).1 = y
    rw [hstep.nbits, hval, Nat.mod_eq_of_lt hstep.small, hstep.baseline]
  refine ⟨?_, ?_, rest, spare, len, ?_, ?_⟩
  · show (dec l.state).symbol = b
    rw [hstep.symbol, UInt8.ofNat_toNat]
  · rw [hstate]
    exact hy.1
  · rw [hstate]
    exact hrest
  · show (ansBrTake (ansBrRefill l.r) (dec l.state).nbits).2.Before rest spare len
    rw [hstep.nbits]
    exact hnext

/-- The state of a lane is one of the table. -/
theorem LaneAt.state_lt (h : Undone norm enc dec) {src : Bytes} (hocc : Occurs norm src) {l : Lane}
    (hl : LaneAt enc src l) : l.state < ansL := by
  obtain ⟨pairs, spare, len, hback, -⟩ := hl
  obtain ⟨x, pairs', hsome, hx, -, -⟩ := encodeBack_some h hocc
  obtain ⟨rfl, -⟩ := Prod.mk.inj (Option.some.inj (hback.symm.trans hsome))
  exact hx.1

/-- **ONE STREAM** is decoded to its source. -/
theorem ansLoop_encoded (h : Undone norm enc dec) {src : Bytes} (hocc : Occurs norm src)
    {x : Nat} {pairs : List (Nat × Nat)} (hback : encodeBack enc src 0 = some (x, pairs))
    {r : AnsBr} {spare len : Nat} (hbefore : r.Before pairs spare len) :
    ∃ r', ansLoop dec src.length x r = some (src, r') ∧ r'.Before [] spare len := by
  induction src generalizing x pairs r with
  | nil =>
      obtain ⟨-, rfl⟩ := Prod.mk.inj (Option.some.inj hback)
      exact ⟨r, rfl, hbefore⟩
  | cons b src ih =>
      obtain ⟨y, bv, bn, rest, hrest, hy, rfl, hstep⟩ := encodeBack_cons h hocc hback
      obtain ⟨hfilled, hready⟩ := hbefore.refill
      obtain ⟨hval, hnext⟩ := hfilled.take (hready.mono hstep.few)
      obtain ⟨r', hloop, hdone⟩ := ih (fun c hc => hocc c (List.mem_cons_of_mem b hc)) hrest hnext
      refine ⟨r', ?_, hdone⟩
      rw [List.length_cons, ansLoop, hstep.nbits, hval, Nat.mod_eq_of_lt hstep.small, hstep.baseline]
      rw [if_neg (Nat.not_le.mpr hy.1), hloop]
      dsimp only
      rw [hstep.symbol, UInt8.ofNat_toNat]

/-! ## Four states -/

/-- Each lane is in front of every fourth byte, from its own place on. -/
structure LanesAt (enc : EncCtx) (src : Bytes) (l0 l1 l2 l3 : Lane) : Prop where
  l0 : LaneAt enc (strided 0 src) l0
  l1 : LaneAt enc (strided 1 src) l1
  l2 : LaneAt enc (strided 2 src) l2
  l3 : LaneAt enc (strided 3 src) l3

theorem Occurs.strided {src : Bytes} (h : Occurs norm src) (k : Nat) : Occurs norm (strided k src) :=
  fun b hb => h b (mem_of_mem_strided hb)

theorem or_lt_ansL {a b : Nat} (ha : a < ansL) (hb : b < ansL) : a ||| b < ansL :=
  Nat.or_lt_two_pow (n := 12) ha hb

/-- **QUADS** take a symbol of each lane. -/
theorem quadLoop_encoded (h : Undone norm enc dec) (n : Nat) {src : Bytes} (hocc : Occurs norm src)
    (hlong : 4 * n ≤ src.length) {l0 l1 l2 l3 : Lane} (hl : LanesAt enc src l0 l1 l2 l3) :
    ∃ m0 m1 m2 m3, quadLoop dec n l0 l1 l2 l3 = some (src.take (4 * n), m0, m1, m2, m3) ∧
      LanesAt enc (src.drop (4 * n)) m0 m1 m2 m3 := by
  induction n generalizing src l0 l1 l2 l3 with
  | zero => exact ⟨l0, l1, l2, l3, rfl, hl⟩
  | succ n ih =>
      match src, hocc, hlong, hl with
      | b0 :: b1 :: b2 :: b3 :: src, hocc, hlong, hl =>
          obtain ⟨h0, h1, h2, h3⟩ := hl
          obtain ⟨hb0, hs0, hn0⟩ := LaneAt.next h (hocc.strided 0) h0
          obtain ⟨hb1, hs1, hn1⟩ := LaneAt.next h (hocc.strided 1) h1
          obtain ⟨hb2, hs2, hn2⟩ := LaneAt.next h (hocc.strided 2) h2
          obtain ⟨hb3, hs3, hn3⟩ := LaneAt.next h (hocc.strided 3) h3
          have hlong' : 4 * (n + 1) ≤ src.length + 4 := hlong
          obtain ⟨m0, m1, m2, m3, hloop, hrest⟩ :=
            ih (fun b hb => hocc b (by simp [hb])) (by omega) ⟨hn0, hn1, hn2, hn3⟩
          refine ⟨m0, m1, m2, m3, ?_, hrest⟩
          have hor := or_lt_ansL (or_lt_ansL (or_lt_ansL hs0 hs1) hs2) hs3
          rw [quadLoop]
          rw [if_neg (Nat.not_le.mpr hor), hloop]
          dsimp only
          rw [hb0, hb1, hb2, hb3]
          rfl
      | [], _, hlong, _ => exact absurd hlong (by simp)
      | [_], _, hlong, _ => exact absurd hlong (by simp; omega)
      | [_, _], _, hlong, _ => exact absurd hlong (by simp; omega)
      | [_, _, _], _, hlong, _ => exact absurd hlong (by simp; omega)

/-- The symbol that the state of a lane stands for. -/
theorem LaneAt.symbol (h : Undone norm enc dec) {b : UInt8} {src : Bytes} (hocc : Occurs norm (b :: src))
    {l : Lane} (hl : LaneAt enc (b :: src) l) : (dec l.state).symbol = b :=
  (LaneAt.next h hocc hl).1

/-- **THE TAIL** takes the symbols of the first lanes. -/
theorem laneTail_encoded (h : Undone norm enc dec) {src : Bytes} (hocc : Occurs norm src)
    (hfew : src.length < 4) {l0 l1 l2 l3 : Lane} (hl : LanesAt enc src l0 l1 l2 l3) :
    laneTail dec src.length [l0, l1, l2, l3] = some src := by
  obtain ⟨h0, h1, h2, h3⟩ := hl
  have hs0 := Nat.not_le.mpr (LaneAt.state_lt h (hocc.strided 0) h0)
  have hs1 := Nat.not_le.mpr (LaneAt.state_lt h (hocc.strided 1) h1)
  have hs2 := Nat.not_le.mpr (LaneAt.state_lt h (hocc.strided 2) h2)
  match src, hocc, hfew, h0, h1, h2 with
  | [], _, _, _, _, _ => rfl
  | [b0], hocc, _, h0, _, _ =>
      have hb0 := LaneAt.symbol h (hocc.strided 0) h0
      simp only [List.length_cons, List.length_nil, laneTail, if_neg hs0, hb0]
  | [b0, b1], hocc, _, h0, h1, _ =>
      have hb0 := LaneAt.symbol h (hocc.strided 0) h0
      have hb1 := LaneAt.symbol h (hocc.strided 1) h1
      simp only [List.length_cons, List.length_nil, laneTail, if_neg hs0, if_neg hs1, hb0, hb1]
  | [b0, b1, b2], hocc, _, h0, h1, h2 =>
      have hb0 := LaneAt.symbol h (hocc.strided 0) h0
      have hb1 := LaneAt.symbol h (hocc.strided 1) h1
      have hb2 := LaneAt.symbol h (hocc.strided 2) h2
      simp only [List.length_cons, List.length_nil, laneTail, if_neg hs0, if_neg hs1, if_neg hs2, hb0,
        hb1, hb2]
  | _ :: _ :: _ :: _ :: _, _, hfew, _, _, _ => exact absurd hfew (by simp)

end OneState

end Zupt.VaptVupt
