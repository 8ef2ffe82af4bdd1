import Zupt.VaptVupt.HuffmanReader

/-! # The rounds with one refill

    `vvh_decode4_impl` refills its lanes once for three symbols each while there is
    input for that, and then goes on with the loop that looks before each symbol.
    Readers that have the same bits before them decode the same, so all of it
    decodes what that loop decodes alone. -/

namespace Zupt.VaptVupt

open Zupt.BitStream

/-! ## Readers with the same bits before them -/

/-- Two readers of the same bits. -/
def HuffBr.Like (r r' : HuffBr) : Prop := ∃ V size len, r.Sees V size len ∧ r'.Sees V size len

theorem HuffBr.Like.refl_of_sees {r : HuffBr} {V size len : Nat} (h : r.Sees V size len) : r.Like r :=
  ⟨V, size, len, h, h⟩

/-- Both give up, or both have the same symbol and readers that are related. -/
def SameSymbol (R : HuffBr → HuffBr → Prop) :
    Option (UInt8 × HuffBr) → Option (UInt8 × HuffBr) → Prop :=
  Option.Rel fun p q => p.1 = q.1 ∧ R p.2 q.2

section Symbols

variable {dec : HuffTable} {r r' : HuffBr}

theorem decOne_like (hshort : dec.Short) (h : r.Like r') :
    SameSymbol HuffBr.Like (decOne dec r) (decOne dec r') := by
  obtain ⟨V, size, len, hr, hr'⟩ := h
  obtain ⟨hsees, hready⟩ := huffTopUp_spec hr
  obtain ⟨hsees', hready'⟩ := huffTopUp_spec hr'
  rw [decOne, decOne, huffSymbol_sees hshort hsees hready (Or.inl rfl),
    huffSymbol_sees hshort hsees' hready' (Or.inl rfl)]
  cases hsym : symbolOf dec V size with
  | none => exact Option.Rel.none
  | some p =>
      obtain ⟨hlen, hsize⟩ := symbolOf_some hshort hsym
      exact Option.Rel.some ⟨rfl, V / 2 ^ p.2, size - p.2, len,
        huffConsume_sees hsees ((enough_sees hsees hready hlen).mpr hsize),
        huffConsume_sees hsees' ((enough_sees hsees' hready' hlen).mpr hsize)⟩

/-- A symbol without a look at the accumulator, which holds enough for it. -/
theorem decOneNr_like (hshort : dec.Short) (hbits : (huffMaxCodeLen : Int) ≤ r.nbits)
    (h : r.Like r') :
    SameSymbol (fun s s' => s.Like s' ∧ r.nbits ≤ s.nbits + huffMaxCodeLen) (decOneNr dec r)
      (decOne dec r') := by
  obtain ⟨V, size, len, hr, hr'⟩ := h
  obtain ⟨hsees', hready'⟩ := huffTopUp_spec hr'
  rw [decOneNr, decOne, huffSymbol_sees hshort hr (Or.inl hbits) (Or.inr hbits),
    huffSymbol_sees hshort hsees' hready' (Or.inl rfl)]
  cases hsym : symbolOf dec V size with
  | none => exact Option.Rel.none
  | some p =>
      obtain ⟨hlen, hsize⟩ := symbolOf_some hshort hsym
      refine Option.Rel.some ⟨rfl, ⟨V / 2 ^ p.2, size - p.2, len, huffConsume_sees hr (by omega),
        huffConsume_sees hsees' ((enough_sees hsees' hready' hlen).mpr hsize)⟩, ?_⟩
      show r.nbits ≤ r.nbits - p.2 + huffMaxCodeLen
      omega

end Symbols

/-! ## Lanes -/

/-- Lanes that are related one by one. -/
structure HuffLanes.Rel (R : HuffBr → HuffBr → Prop) (l l' : HuffLanes) : Prop where
  r0 : R l.r0 l'.r0
  r1 : R l.r1 l'.r1
  r2 : R l.r2 l'.r2
  r3 : R l.r3 l'.r3

theorem HuffLanes.Rel.imp {R S : HuffBr → HuffBr → Prop} {l l' : HuffLanes} (h : l.Rel R l')
    (himp : ∀ r r', R r r' → S r r') : l.Rel S l' :=
  ⟨himp _ _ h.r0, himp _ _ h.r1, himp _ _ h.r2, himp _ _ h.r3⟩

/-- Both give up, or both have the same output and lanes that are related. -/
def SameOutput (R : HuffBr → HuffBr → Prop) :
    Option (Bytes × HuffLanes) → Option (Bytes × HuffLanes) → Prop :=
  Option.Rel fun p q => p.1 = q.1 ∧ p.2.Rel R q.2

section Lanes

variable {one one' : HuffBr → Option (UInt8 × HuffBr)} {R S : HuffBr → HuffBr → Prop}
  {l l' : HuffLanes}

theorem quad_same (h : l.Rel (fun r r' => SameSymbol S (one r) (one' r')) l') :
    SameOutput S (l.quad one) (l'.quad one') := by
  obtain ⟨h0, h1, h2, h3⟩ := h
  rw [HuffLanes.quad, HuffLanes.quad]
  generalize one l.r0 = a0 at h0 ⊢
  generalize one' l'.r0 = b0 at h0 ⊢
  generalize one l.r1 = a1 at h1 ⊢
  generalize one' l'.r1 = b1 at h1 ⊢
  generalize one l.r2 = a2 at h2 ⊢
  generalize one' l'.r2 = b2 at h2 ⊢
  generalize one l.r3 = a3 at h3 ⊢
  generalize one' l'.r3 = b3 at h3 ⊢
  cases h0 with
  | none => exact Option.Rel.none
  | some e0 =>
      cases h1 with
      | none => exact Option.Rel.none
      | some e1 =>
          cases h2 with
          | none => exact Option.Rel.none
          | some e2 =>
              cases h3 with
              | none => exact Option.Rel.none
              | some e3 =>
                  refine Option.Rel.some ⟨?_, e0.2, e1.2, e2.2, e3.2⟩
                  dsimp only
                  rw [e0.1, e1.1, e2.1, e3.1]

/-- Quads of related lanes, step by step: `R n` is what is kept for `n` more. -/
theorem quads_same {R : Nat → HuffBr → HuffBr → Prop}
    (hstep : ∀ n r r', R (n + 1) r r' → SameSymbol (R n) (one r) (one' r')) (n : Nat)
    (h : l.Rel (R n) l') :
    SameOutput (R 0) (HuffLanes.quads one n l) (HuffLanes.quads one' n l') := by
  induction n generalizing l l' with
  | zero => exact Option.Rel.some ⟨rfl, h⟩
  | succ n ih =>
      have hquad : SameOutput (R n) (l.quad one) (l'.quad one') :=
        quad_same (h.imp fun r r' hr => hstep n r r' hr)
      rw [HuffLanes.quads, HuffLanes.quads]
      generalize l.quad one = p at hquad ⊢
      generalize l'.quad one' = q at hquad ⊢
      cases hquad with
      | none => exact Option.Rel.none
      | some e =>
          have hrest := ih e.2
          dsimp only
          generalize HuffLanes.quads one n _ = p' at hrest ⊢
          generalize HuffLanes.quads one' n _ = q' at hrest ⊢
          cases hrest with
          | none => exact Option.Rel.none
          | some e' =>
              refine Option.Rel.some ⟨?_, e'.2⟩
              dsimp only
              rw [e.1, e'.1]

/-- Quads in two parts, of which the first one gives up. -/
theorem quads_add_none {a : Nat} (b : Nat) (h : HuffLanes.quads one a l = none) :
    HuffLanes.quads one (a + b) l = none := by
  induction a generalizing l with
  | zero => cases h
  | succ a ih =>
      rw [HuffLanes.quads] at h
      rw [Nat.add_right_comm, HuffLanes.quads]
      cases hquad : l.quad one with
      | none => rfl
      | some p =>
          rw [hquad] at h
          dsimp only at h ⊢
          cases hrest : HuffLanes.quads one a p.2 with
          | none => rw [ih hrest]
          | some q =>
              rw [hrest] at h
              cases h

/-- Quads in two parts. -/
theorem quads_add_some {a : Nat} (b : Nat) {out : Bytes} {m : HuffLanes}
    (h : HuffLanes.quads one a l = some (out, m)) :
    HuffLanes.quads one (a + b) l =
      (HuffLanes.quads one b m).map fun q => (out ++ q.1, q.2) := by
  induction a generalizing l out with
  | zero =>
      obtain ⟨rfl, rfl⟩ := Prod.mk.inj (Option.some.inj h)
      rw [Nat.zero_add]
      exact Option.map_id'.symm
  | succ a ih =>
      rw [HuffLanes.quads] at h
      rw [Nat.add_right_comm, HuffLanes.quads]
      cases hquad : l.quad one with
      | none =>
          rw [hquad] at h
          cases h
      | some p =>
          rw [hquad] at h
          dsimp only at h ⊢
          cases hrest : HuffLanes.quads one a p.2 with
          | none =>
              rw [hrest] at h
              cases h
          | some q =>
              rw [hrest] at h
              obtain ⟨rfl, rfl⟩ := Prod.mk.inj (Option.some.inj h)
              rw [ih hrest]
              cases HuffLanes.quads one b q.2 with
              | none => rfl
              | some q' => exact congrArg some (Prod.ext (List.append_assoc ..).symm rfl)

end Lanes

/-! ## The rounds -/

section Rounds

variable {dec : HuffTable}

theorem huffRefill_bulk {r : HuffBr} {V size len : Nat} (h : r.Sees V size len)
    (hbulk : 8 ≤ r.s.length) : 56 ≤ (huffRefill r).nbits := by
  obtain ⟨hlow, hhigh⟩ := h.count
  rw [huffRefill, if_pos hbulk]
  dsimp only
  omega

/-- **A ROUND**: behind a bulk refill three quads need no look at the accumulators. -/
theorem round_same (hshort : dec.Short) {l l' : HuffLanes} (hbulk : l.bulk = true)
    (h : l.Rel HuffBr.Like l') :
    SameOutput HuffBr.Like (HuffLanes.quads (decOneNr dec) 3 l.refill)
      (HuffLanes.quads (decOne dec) 3 l') := by
  have hfull : ∀ r r' : HuffBr, 8 ≤ r.s.length → r.Like r' →
      (huffRefill r).Like r' ∧ (3 * huffMaxCodeLen : Nat) ≤ (huffRefill r).nbits := by
    rintro r r' hr ⟨V, size, len, hsees, hsees'⟩
    refine ⟨⟨V, size, len, (huffRefill_spec hsees).1, hsees'⟩, ?_⟩
    exact Int.le_trans (by decide) (huffRefill_bulk hsees hr)
  rw [HuffLanes.bulk] at hbulk
  simp only [Bool.and_eq_true, decide_eq_true_eq] at hbulk
  obtain ⟨⟨⟨h0, h1⟩, h2⟩, h3⟩ := hbulk
  have hstart : l.refill.Rel
      (fun r r' => r.Like r' ∧ ((3 * huffMaxCodeLen : Nat) : Int) ≤ r.nbits) l' :=
    ⟨hfull _ _ h0 h.r0, hfull _ _ h1 h.r1, hfull _ _ h2 h.r2, hfull _ _ h3 h.r3⟩
  have hquads : SameOutput (fun r r' => r.Like r' ∧ ((0 * huffMaxCodeLen : Nat) : Int) ≤ r.nbits)
      (HuffLanes.quads (decOneNr dec) 3 l.refill) (HuffLanes.quads (decOne dec) 3 l') := by
    refine quads_same (R := fun n r r' => r.Like r' ∧ ((n * huffMaxCodeLen : Nat) : Int) ≤ r.nbits)
      ?_ 3 hstart
    rintro n r r' ⟨hlike, hbits⟩
    have hone : (huffMaxCodeLen : Int) ≤ r.nbits := by
      rw [Nat.succ_mul] at hbits
      omega
    have hsym := decOneNr_like hshort hone hlike
    generalize decOneNr dec r = p at hsym ⊢
    generalize decOne dec r' = q at hsym ⊢
    cases hsym with
    | none => exact Option.Rel.none
    | some e =>
        refine Option.Rel.some ⟨e.1, e.2.1, ?_⟩
        have hleft := e.2.2
        rw [Nat.succ_mul] at hbits
        omega
  generalize HuffLanes.quads (decOneNr dec) 3 l.refill = p at hquads ⊢
  generalize HuffLanes.quads (decOne dec) 3 l' = q at hquads ⊢
  cases hquads with
  | none => exact Option.Rel.none
  | some e => exact Option.Rel.some ⟨e.1, e.2.imp fun r r' hr => hr.1⟩

/-- What rounds may leave of `left` quads: they gave up where the checked loop does,
    or made the first of its quads. -/
def MadeOf (dec : HuffTable) (left : Nat) (l' : HuffLanes)
    (rounds : Option (Bytes × Nat × HuffLanes)) : Prop :=
  (rounds = none → HuffLanes.quads (decOne dec) left l' = none) ∧
  ∀ out left' m, rounds = some (out, left', m) →
    ∃ made m', made + left' = left ∧ HuffLanes.quads (decOne dec) made l' = some (out, m') ∧
      m.Rel HuffBr.Like m'

theorem madeOf_nothing {left : Nat} {l l' : HuffLanes} (h : l.Rel HuffBr.Like l') :
    MadeOf dec left l' (some ([], left, l)) := by
  refine ⟨nofun, ?_⟩
  intro out left' m hsome
  obtain ⟨rfl, hpair⟩ := Prod.mk.inj (Option.some.inj hsome)
  obtain ⟨rfl, rfl⟩ := Prod.mk.inj hpair
  exact ⟨0, l', Nat.zero_add _, rfl, h⟩

/-- **THE ROUNDS** make quads of the checked loop, or give up where it does. -/
theorem fastRounds_spec (hshort : dec.Short) (left : Nat) {l l' : HuffLanes}
    (h : l.Rel HuffBr.Like l') : MadeOf dec left l' (fastRounds dec left l) := by
  induction left using Nat.strong_induction_on generalizing l l' with
  | _ left ih =>
      by_cases hfew : left < 3
      · -- no round is made for fewer than three symbols
        have hcases : left = 0 ∨ left = 1 ∨ left = 2 := by omega
        rcases hcases with rfl | rfl | rfl
        · exact madeOf_nothing h
        · exact madeOf_nothing h
        · exact madeOf_nothing h
      obtain ⟨left, rfl⟩ : ∃ n, left = n + 3 := ⟨left - 3, by omega⟩
      rw [fastRounds]
      by_cases hbulk : l.bulk = true
      · rw [if_pos hbulk]
        have hround := round_same hshort hbulk h
        generalize HuffLanes.quads (decOneNr dec) 3 l.refill = p at hround ⊢
        generalize hslow : HuffLanes.quads (decOne dec) 3 l' = q at hround
        cases hround with
        | none =>
            refine ⟨fun _ => ?_, fun _ _ _ hno => (by cases hno)⟩
            rw [Nat.add_comm]
            exact quads_add_none left hslow
        | @some a b e =>
            obtain ⟨hout, hlanes⟩ := e
            have hadd := quads_add_some left hslow
            rw [Nat.add_comm 3 left] at hadd
            obtain ⟨hnone, hsome⟩ := ih left (by omega) hlanes
            dsimp only
            cases hmore : fastRounds dec left a.2 with
            | none =>
                refine ⟨fun _ => ?_, fun _ _ _ hno => (by cases hno)⟩
                rw [hadd, hnone hmore]
                rfl
            | some t =>
                obtain ⟨made, m', hmade, hquads, hrel⟩ := hsome t.1 t.2.1 t.2.2 hmore
                refine ⟨fun hno => (by cases hno), ?_⟩
                intro out left' m heq
                obtain ⟨rfl, hpair⟩ := Prod.mk.inj (Option.some.inj heq)
                obtain ⟨rfl, rfl⟩ := Prod.mk.inj hpair
                refine ⟨3 + made, m', ?_, ?_, hrel⟩
                · rw [Nat.add_assoc, hmade, Nat.add_comm]
                rw [quads_add_some made hslow, hquads, hout]
                rfl
      · rw [if_neg hbulk]
        exact madeOf_nothing h

/-- The loops with a look before each symbol. -/
def huffLanesChecked (dec : HuffTable) (n : Nat) (l : HuffLanes) : Option Bytes :=
  match HuffLanes.quads (decOne dec) (n / 4) l with
  | none => none
  | some (out, l) =>
      match huffTail dec (n % 4) [l.r0, l.r1, l.r2, l.r3] with
      | none => none
      | some tail => some (out ++ tail)

theorem huffTail_like (hshort : dec.Short) (tail : Nat) {a b : List HuffBr}
    (h : List.Forall₂ HuffBr.Like a b) : huffTail dec tail a = huffTail dec tail b := by
  induction tail generalizing a b with
  | zero => rfl
  | succ tail ih =>
      cases h with
      | nil => rfl
      | cons hr hrest =>
          rw [huffTail, huffTail, ih hrest]
          have hsym := decOne_like hshort hr
          generalize decOne dec _ = p at hsym ⊢
          generalize decOne dec _ = q at hsym ⊢
          cases hsym with
          | none => rfl
          | some e =>
              dsimp only
              rw [e.1]

/-- **THE HOT LOOPS** decode what the checked loop decodes, from any bits. -/
theorem huffLanesLoop_eq_checked (hshort : dec.Short) (n : Nat) {l : HuffLanes}
    (h : l.Rel HuffBr.Like l) : huffLanesLoop dec n l = huffLanesChecked dec n l := by
  obtain ⟨hnone, hsome⟩ := fastRounds_spec hshort (n / 4) h
  rw [huffLanesLoop, huffLanesChecked]
  cases hfast : fastRounds dec (n / 4) l with
  | none => rw [hnone hfast]
  | some t =>
      obtain ⟨made, m', hmade, hquads, hrel⟩ := hsome t.1 t.2.1 t.2.2 hfast
      have hrest : SameOutput HuffBr.Like (HuffLanes.quads (decOne dec) t.2.1 t.2.2)
          (HuffLanes.quads (decOne dec) t.2.1 m') :=
        quads_same (fun _ _ _ hr => decOne_like hshort hr) _ hrel
      rw [← hmade, quads_add_some t.2.1 hquads]
      dsimp only
      generalize HuffLanes.quads (decOne dec) t.2.1 t.2.2 = p at hrest ⊢
      generalize HuffLanes.quads (decOne dec) t.2.1 m' = q at hrest ⊢
      cases hrest with
      | none => rfl
      | some e =>
          obtain ⟨hout, h0, h1, h2, h3⟩ := e
          have htail := huffTail_like hshort (n % 4)
            (.cons h0 (.cons h1 (.cons h2 (.cons h3 .nil))))
          simp only [Option.map_some, hout, List.append_assoc]
          generalize huffTail dec (n % 4) _ = a at htail ⊢
          generalize huffTail dec (n % 4) _ = b at htail ⊢
          subst htail
          cases a with
          | none => rfl
          | some tail => rfl

end Rounds

end Zupt.VaptVupt
