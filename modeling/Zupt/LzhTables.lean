import Zupt.Bounded
import Zupt.Lzh
import Zupt.LzhCode

/-! # The tables of Zupt-LZH within bounds

    `cl_decode`, the blocks of code lengths and `huff_lut` on indices, where every access
    is checked.  Nothing is asked of the lengths: codes may be over-subscribed, incomplete
    or empty. -/

namespace Zupt.Lzh

open Zupt.LittleEndian Zupt.Canonical

/-! ## Code lengths -/

/-- The loop that repeats a length, which stops at `count`. -/
def repsAt (count x : Nat) : (reps li : Nat) → Cells Nat → Checked (Cells Nat × Nat)
  | 0, li, lens => .ok (lens, li)
  | reps + 1, li, lens =>
      if li < count then do
        let lens ← lens.set li x
        repsAt count x reps (li + 1) lens
      else .ok (lens, li)

/-- What the loop of `cl_decode` changes. -/
structure ClCursor where
  ip : Nat
  li : Nat
  prev : Nat
  lens : Cells Nat

/-- A repeat code: at least `base` times `x`. -/
def clRepeatAt (input : Bytes) (count base x : Nat) (s : ClCursor) :
    Checked (Turn ClCursor (Option (Cells Nat))) := do
  if input.length ≤ s.ip + 1 then return .done none
  else
    let reps ← cellAt input (s.ip + 1)
    let (lens, li) ← repsAt count x (base + reps.toNat) s.li s.lens
    return .next ⟨s.ip + 2, li, s.prev, lens⟩

/-- A turn of the loop of `cl_decode`; `none` is -1. -/
def clTurnAt (input : Bytes) (count : Nat) (s : ClCursor) :
    Checked (Turn ClCursor (Option (Cells Nat))) := do
  if s.li < count ∧ s.ip < input.length then
    let c ← cellAt input s.ip
    if c ≤ 15 then
      let lens ← s.lens.set s.li c.toNat
      return .next ⟨s.ip + 1, s.li + 1, c.toNat, lens⟩
    else if c = 16 then clRepeatAt input count 3 s.prev s
    else if c = 17 then clRepeatAt input count 3 0 s
    else if c = 18 then clRepeatAt input count 11 0 s
    else return .done none
  else return .done (some s.lens)

/-- `cl_decode`. -/
def clDecodeAt (input : Bytes) (count : Nat) (lens : Cells Nat) : Checked (Option (Cells Nat)) :=
  loop (clTurnAt input count) (input.length + 1) ⟨0, 0, 0, lens⟩

/-- The first cells are the lengths, the others 0. -/
structure LensRep (size : Nat) (a : Cells Nat) (lens : List Nat) : Prop where
  size_eq : a.size = size
  cells : ∀ i, a.cell i = lens.getD i 0

theorem LensRep.push {size x : Nat} {a : Cells Nat} {lens : List Nat} (h : LensRep size a lens)
    (hroom : lens.length < size) :
    ∃ a', a.set lens.length x = .ok a' ∧ LensRep size a' (lens ++ [x]) := by
  refine ⟨_, Cells.set_ok (by rw [h.size_eq]; exact hroom) x, h.size_eq, fun i => ?_⟩
  show Function.update a.cell lens.length x i = _
  rcases Nat.lt_trichotomy i lens.length with hlt | heq | hgt
  · rw [Function.update_of_ne (Nat.ne_of_lt hlt), h.cells, List.getD_append _ _ _ _ hlt]
  · rw [heq, Function.update_self, List.getD_append_right _ _ _ _ (Nat.le_refl _), Nat.sub_self]
    rfl
  · rw [Function.update_of_ne (Nat.ne_of_gt hgt), h.cells, List.getD_eq_default _ _ (by omega),
      List.getD_eq_default _ _ (by rw [List.length_append, List.length_singleton]; omega)]

/-- **A REPEAT** writes what fits in front of `count`. -/
theorem repsAt_rel {size count : Nat} (x reps : Nat) {a : Cells Nat} {lens : List Nat} (h : LensRep size a lens)
    (hcount : count ≤ size) (hle : lens.length ≤ count) :
    ∃ a', repsAt count x reps lens.length a =
        .ok (a', (lens ++ List.replicate (min reps (count - lens.length)) x).length) ∧
      LensRep size a' (lens ++ List.replicate (min reps (count - lens.length)) x) := by
  induction reps generalizing a lens with
  | zero =>
      rw [Nat.zero_min, List.replicate_zero, List.append_nil]
      exact ⟨a, rfl, h⟩
  | succ reps ih =>
      by_cases hlt : lens.length < count
      · obtain ⟨a₁, ha₁, h₁⟩ := h.push (x := x) (lt_of_lt_of_le hlt hcount)
        obtain ⟨a₂, ha₂, h₂⟩ := ih h₁ (by rw [List.length_append, List.length_singleton]; omega)
        have hone : min (reps + 1) (count - lens.length) = min reps (count - (lens ++ [x]).length) + 1 := by
          rw [List.length_append, List.length_singleton]
          omega
        rw [List.append_assoc, List.singleton_append, ← List.replicate_succ, ← hone] at ha₂ h₂
        refine ⟨a₂, ?_, h₂⟩
        rw [repsAt, if_pos hlt, ha₁, ok_bind, ← ha₂, List.length_append, List.length_singleton]
      · have hnone : min (reps + 1) (count - lens.length) = 0 := by omega
        rw [hnone, List.replicate_zero, List.append_nil]
        exact ⟨a, by rw [repsAt, if_neg hlt], h⟩

section ClDecode

variable {input s : Bytes} {count size : Nat} {c : ClCursor} {lens : List Nat}

/-- The cursor stands where `s` is left, behind the lengths `lens`. -/
structure ClFollows (input : Bytes) (count size : Nat) (c : ClCursor) (s : Bytes) (lens : List Nat) :
    Prop where
  unread : input.drop c.ip = s
  li_eq : c.li = lens.length
  li_le : lens.length ≤ count
  rep : LensRep size c.lens lens

/-- A repeat code with its count behind it. -/
theorem clRepeatAt_eq (h : ClFollows input count size c s lens) (hcount : count ≤ size) {code reps : UInt8}
    {rest : Bytes} (hs : s = code :: reps :: rest) (base x : Nat) :
    ∃ c', clRepeatAt input count base x c = .ok (.next c') ∧ c'.prev = c.prev ∧
      ClFollows input count size c' rest
        (lens ++ List.replicate (min (base + reps.toNat) (count - lens.length)) x) := by
  obtain ⟨-, -, hdrop⟩ := cellAt_drop (h.unread.trans hs)
  obtain ⟨hcell, hlt, hrest⟩ := cellAt_drop hdrop
  obtain ⟨a, ha, hrep⟩ := repsAt_rel x (base + reps.toNat) h.rep hcount h.li_le
  refine ⟨⟨c.ip + 2, _, c.prev, a⟩, ?_, rfl, hrest, rfl, ?_, hrep⟩
  · rw [clRepeatAt, if_neg (by omega), hcell, ok_bind, h.li_eq, ha, ok_bind]
    rfl
  · rw [List.length_append, List.length_replicate]
    have hle := h.li_le
    omega

/-- A length is put behind the others. -/
theorem ClFollows.literal (h : ClFollows input count size c s lens) (hcount : count ≤ size)
    (hroom : lens.length < count) {code : UInt8} {rest : Bytes} (hs : s = code :: rest) (hle : code ≤ 15) :
    ∃ c', clTurnAt input count c = .ok (.next c') ∧ c'.prev = code.toNat ∧
      ClFollows input count size c' rest (lens ++ [code.toNat]) := by
  obtain ⟨hcell, hlt, hrest⟩ := cellAt_drop (h.unread.trans hs)
  obtain ⟨a, ha, hrep⟩ := h.rep.push (x := code.toNat) (lt_of_lt_of_le hroom hcount)
  refine ⟨⟨c.ip + 1, c.li + 1, code.toNat, a⟩, ?_, rfl, hrest, ?_, ?_, hrep⟩
  · rw [clTurnAt, if_pos ⟨by rw [h.li_eq]; exact hroom, hlt⟩, hcell, ok_bind, if_pos hle, h.li_eq, ha]
    rfl
  · show c.li + 1 = _
    rw [h.li_eq, List.length_append, List.length_singleton]
  · rw [List.length_append, List.length_singleton]
    exact hroom

/-- **THE LENGTHS**: the loop follows `cl_decode` on what is left. -/
theorem clLoop_rel (h : ClFollows input count size c s lens) (hcount : count ≤ size) {n : Nat}
    (hn : s.length < n) :
    ∃ x, loop (clTurnAt input count) n c = .ok x ∧
      Option.Rel (LensRep size) x (clDecode count s c.prev lens) := by
  -- by what is left of the input; a turn takes one byte of it or two
  induction n generalizing c s lens with
  | zero => omega
  | succ n ih =>
      by_cases hroom : lens.length < count
      swap
      · have hturn : clTurnAt input count c = .ok (.done (some c.lens)) :=
          if_neg fun hgo => hroom (by rw [← h.li_eq]; exact hgo.1)
        have hdone : clDecode count s c.prev lens = some lens := by
          cases s with
          | nil => rfl
          | cons code rest =>
              cases rest with
              | nil => exact if_neg hroom
              | cons reps rest => exact if_neg hroom
        rw [hdone]
        exact ⟨_, loop_done hturn, .some h.rep⟩
      have hli : c.li < count := by
        rw [h.li_eq]
        exact hroom
      cases s with
      | nil =>
          have hend : input.length ≤ c.ip := List.drop_eq_nil_iff.mp h.unread
          have hturn : clTurnAt input count c = .ok (.done (some c.lens)) := if_neg (by omega)
          exact ⟨_, loop_done hturn, .some h.rep⟩
      | cons code rest =>
          obtain ⟨hcell, hlt, hdrop⟩ := cellAt_drop h.unread
          rw [List.length_cons] at hn
          by_cases hle : code ≤ 15
          · obtain ⟨c', hc', hprev, hfollows⟩ := h.literal hcount hroom rfl hle
            obtain ⟨x, hx, hrel⟩ := ih hfollows (by omega)
            rw [loop_next hc']
            refine ⟨x, hx, ?_⟩
            rw [hprev] at hrel
            cases rest with
            | nil =>
                rw [clDecode, if_pos hroom, if_pos hle]
                exact hrel
            | cons reps rest =>
                rw [clDecode, if_pos hroom, if_pos hle]
                exact hrel
          have hturn : clTurnAt input count c = if code = 16 then clRepeatAt input count 3 c.prev c
              else if code = 17 then clRepeatAt input count 3 0 c
              else if code = 18 then clRepeatAt input count 11 0 c else .ok (.done none) := by
            rw [clTurnAt, if_pos ⟨hli, hlt⟩, hcell, ok_bind, if_neg hle]
            rfl
          cases rest with
          | nil =>
              -- no count behind the code
              have hend : input.length ≤ c.ip + 1 := List.drop_eq_nil_iff.mp hdrop
              have hnone : ∀ base x, clRepeatAt input count base x c = .ok (.done none) :=
                fun base x => if_pos hend
              rw [hnone, hnone, hnone, ite_self, ite_self, ite_self] at hturn
              rw [clDecode, if_pos hroom, if_neg hle]
              exact ⟨_, loop_done hturn, .none⟩
          | cons reps rest =>
              rw [clDecode, if_pos hroom, if_neg hle]
              have hrepeat : ∀ base x, clTurnAt input count c = clRepeatAt input count base x c →
                  ∃ y, loop (clTurnAt input count) (n + 1) c = .ok y ∧ Option.Rel (LensRep size) y
                    (clDecode count rest c.prev
                      (lens ++ List.replicate (min (base + reps.toNat) (count - lens.length)) x)) := by
                intro base x hgo
                obtain ⟨c', hc', hprev, hfollows⟩ := clRepeatAt_eq h hcount rfl base x
                obtain ⟨y, hy, hrel⟩ := ih hfollows (by rw [List.length_cons] at hn; omega)
                rw [hprev] at hrel
                exact ⟨y, by rw [loop_next (hgo.trans hc'), hy], hrel⟩
              by_cases h16 : code = 16
              · rw [if_pos h16] at hturn ⊢
                exact hrepeat 3 c.prev hturn
              by_cases h17 : code = 17
              · rw [if_neg h16, if_pos h17] at hturn ⊢
                exact hrepeat 3 0 hturn
              by_cases h18 : code = 18
              · rw [if_neg h16, if_neg h17, if_pos h18] at hturn ⊢
                exact hrepeat 11 0 hturn
              · rw [if_neg h16, if_neg h17, if_neg h18] at hturn ⊢
                exact ⟨_, loop_done hturn, .none⟩

end ClDecode

theorem clDecodeAt_rel (input : Bytes) {count size : Nat} (hcount : count ≤ size) :
    ∃ x, clDecodeAt input count (.fresh size 0) = .ok x ∧
      Option.Rel (LensRep size) x (clDecode count input 0 []) :=
  clLoop_rel ⟨rfl, rfl, Nat.zero_le _, rfl, fun _ => rfl⟩ hcount (Nat.lt_succ_self _)

/-! ## A block of code lengths -/

/-- `memcpy` of bytes to the front of an array. -/
def putBytes (a : Cells Nat) (bytes : Bytes) : Checked (Cells Nat) :=
  if bytes.length ≤ a.size then
    .ok ⟨a.size, fun i => if i < bytes.length then (bytes.getD i 0).toNat else a.cell i⟩
  else .error .outside

/-- Whether one of the first `n` lengths is over `LZH_MAX_CODELEN`. -/
def overLong (a : Cells Nat) : (n : Nat) → Checked Bool
  | 0 => .ok false
  | n + 1 => do
      let b ← overLong a n
      let len ← a.get n
      return b || decide (maxCodelen < len)

/-- A block of code lengths at `ip`, for `cnt` symbols of at most `most`: the lengths and
    the position behind them; `none` is `return 0`. -/
def readLensAt (src : Bytes) (ip cnt most : Nat) : Checked (Option (Cells Nat × Nat)) := do
  if src.length < ip + 2 then return none
  else
    let hdr ← wordAt src ip
    if hdr &&& 0x8000 ≠ 0 then
      let cl_len := hdr &&& 0x7FFF
      if src.length < ip + 2 + cl_len then return none
      else
        let input ← cellsAt src (ip + 2) cl_len
        match ← clDecodeAt input cnt (.fresh most 0) with
        | none => return none
        | some lens => return some (lens, ip + 2 + cl_len)
    else if most < hdr ∨ src.length < ip + 2 + hdr then return none
    else
      let bytes ← cellsAt src (ip + 2) hdr
      let lens ← putBytes (.fresh most 0) bytes
      let bad ← overLong lens hdr
      if bad then return none else return some (lens, ip + 2 + hdr)

theorem overLong_eq {a : Cells Nat} {n : Nat} (hn : n ≤ a.size) :
    overLong a n = .ok (decide (∃ i < n, maxCodelen < a.cell i)) := by
  induction n with
  | zero =>
      refine congrArg Except.ok (decide_eq_false ?_).symm
      rintro ⟨i, hi, -⟩
      omega
  | succ n ih =>
      rw [overLong, ih (by omega), ok_bind, Cells.get_ok (by omega), ok_bind]
      refine congrArg Except.ok ?_
      rw [← Bool.decide_or, decide_eq_decide]
      constructor
      · rintro (⟨i, hi, hlong⟩ | hlong)
        · exact ⟨i, by omega, hlong⟩
        · exact ⟨n, by omega, hlong⟩
      · rintro ⟨i, hi, hlong⟩
        rcases Nat.lt_succ_iff_lt_or_eq.mp hi with hlt | rfl
        · exact Or.inl ⟨i, hlt, hlong⟩
        · exact Or.inr hlong

/-- A header's highest bit. -/
theorem header_bit {hdr : Nat} (hlt : hdr < 2 ^ 16) : hdr &&& 0x8000 ≠ 0 ↔ 0x8000 ≤ hdr := by
  have hand : hdr &&& 0x8000 = hdr / 2 ^ 15 % 2 * 2 ^ 15 := by
    rw [show (0x8000 : Nat) = 2 ^ 15 from rfl, Nat.and_two_pow]
    rw [Nat.testBit_eq_decide_div_mod_eq]
    rcases Nat.mod_two_eq_zero_or_one (hdr / 2 ^ 15) with h | h
    · rw [h]
      rfl
    · rw [h]
      rfl
  rw [hand]
  omega

theorem header_low (hdr : Nat) : hdr &&& 0x7FFF = hdr % 0x8000 := Nat.and_two_pow_sub_one_eq_mod hdr 15

/-- The lengths and the position against the lengths and what is left. -/
def SameBlock (src : Bytes) (size : Nat) (p : Cells Nat × Nat) (q : (Nat → Nat) × Bytes) : Prop :=
  p.1.size = size ∧ (∀ i, p.1.cell i = q.1 i) ∧ src.drop p.2 = q.2 ∧ p.2 ≤ src.length

/-- **A BLOCK** of lengths is read within the source and the array. -/
theorem readLensAt_rel {src s : Bytes} {ip cnt most : Nat} (hs : src.drop ip = s) (hle : ip ≤ src.length)
    (hcnt : cnt ≤ most) :
    ∃ x, readLensAt src ip cnt most = .ok x ∧ Option.Rel (SameBlock src most) x (readLens cnt most s) := by
  have hlen : ip + s.length = src.length := by
    rw [← hs, List.length_drop]
    omega
  rw [readLensAt, readLens]
  by_cases hshort : s.length < 2
  · rw [if_pos (by omega), if_pos hshort]
    exact ⟨_, rfl, .none⟩
  rw [if_neg (by omega), if_neg hshort]
  have hlt : leGet (s.take 2) < 2 ^ 16 := by
    have hbound := leGet_lt (s.take 2)
    rw [List.length_take, Nat.min_eq_left (by omega)] at hbound
    exact hbound
  have hbehind : src.drop (ip + 2) = s.drop 2 := by rw [← hs, List.drop_drop]
  have hbehindLen : (s.drop 2).length = s.length - 2 := List.length_drop
  rw [wordAt_eq hs (by omega), ok_bind]
  simp only [header_low]
  generalize leGet (s.take 2) = hdr at hlt ⊢
  by_cases hbit : 0x8000 ≤ hdr
  · rw [if_pos ((header_bit hlt).mpr hbit), if_pos hbit, hbehindLen]
    by_cases hover : s.length - 2 < hdr % 0x8000
    · rw [if_pos (by omega), if_pos hover]
      exact ⟨_, rfl, .none⟩
    rw [if_neg (by omega), if_neg hover, cellsAt_ok (by omega), ok_bind, hbehind]
    obtain ⟨x, hx, hrel⟩ := clDecodeAt_rel ((s.drop 2).take (hdr % 0x8000)) hcnt
    rw [hx, ok_bind]
    generalize clDecode cnt ((s.drop 2).take (hdr % 0x8000)) 0 [] = r at hrel ⊢
    cases hrel with
    | none => exact ⟨_, rfl, .none⟩
    | @some a lens hlens =>
        refine ⟨_, rfl, .some ⟨hlens.size_eq, hlens.cells, ?_, by omega⟩⟩
        rw [← hbehind, List.drop_drop]
  · rw [if_neg fun hset => hbit ((header_bit hlt).mp hset), if_neg hbit, hbehindLen]
    by_cases hover : most < hdr ∨ s.length - 2 < hdr
    · rw [if_pos (by omega), if_pos hover]
      exact ⟨_, rfl, .none⟩
    have htake : ((s.drop 2).take hdr).length = hdr := by
      rw [List.length_take, hbehindLen]
      omega
    have hput : putBytes (.fresh most 0) ((s.drop 2).take hdr) = .ok ⟨most, fun i =>
        if i < ((s.drop 2).take hdr).length then (((s.drop 2).take hdr).getD i 0).toNat else 0⟩ :=
      if_pos (by rw [htake]; show hdr ≤ most; omega)
    have hcell : ∀ i, (if i < ((s.drop 2).take hdr).length then (((s.drop 2).take hdr).getD i 0).toNat
        else 0) = (((s.drop 2).take hdr).map UInt8.toNat).getD i 0 := by
      intro i
      by_cases hi : i < ((s.drop 2).take hdr).length
      · rw [if_pos hi, List.getD_eq_getElem _ _ hi, List.getD_eq_getElem _ _ (by rw [List.length_map]; exact hi),
          List.getElem_map]
      · rw [if_neg hi, List.getD_eq_default _ _ (by rw [List.length_map]; omega)]
    have hbad : (∃ i < hdr, maxCodelen < (((s.drop 2).take hdr).map UInt8.toNat).getD i 0) ↔
        ∃ b ∈ (s.drop 2).take hdr, maxCodelen < b.toNat := by
      constructor
      · rintro ⟨i, hi, hlong⟩
        have hin : i < ((s.drop 2).take hdr).length := by omega
        rw [List.getD_eq_getElem _ _ (by rw [List.length_map]; exact hin), List.getElem_map] at hlong
        exact ⟨_, List.getElem_mem hin, hlong⟩
      · rintro ⟨b, hb, hlong⟩
        obtain ⟨i, hi, rfl⟩ := List.mem_iff_getElem.mp hb
        refine ⟨i, by omega, ?_⟩
        rw [List.getD_eq_getElem _ _ (by rw [List.length_map]; exact hi), List.getElem_map]
        exact hlong
    rw [if_neg (by omega), if_neg hover, cellsAt_ok (by omega), ok_bind, hbehind, hput, ok_bind,
      overLong_eq (by show hdr ≤ most; omega), ok_bind]
    simp only [hcell, hbad]
    by_cases hlong : ∃ b ∈ (s.drop 2).take hdr, maxCodelen < b.toNat
    · rw [if_pos hlong, if_pos (decide_eq_true hlong)]
      exact ⟨_, rfl, .none⟩
    · rw [if_neg hlong, if_neg (by rw [decide_eq_false hlong]; decide)]
      refine ⟨_, rfl, .some ⟨rfl, fun i => rfl, ?_, by omega⟩⟩
      rw [← hbehind, List.drop_drop]

/-! ## The decoder's table -/

/-- `hlut_t`. -/
structure LutCell where
  sym : Int
  len : Nat

/-- An entry of the table; a symbol of -1 is none. -/
def lutCell : Option (Nat × Nat) → LutCell
  | none => ⟨-1, 0⟩
  | some (sym, len) => ⟨sym, len⟩

/-- The loop of `huff_lut` that counts the lengths. -/
def countTurn (lengths : Cells Nat) (i : Nat) (lc : Cells Nat) : Checked (Cells Nat) := do
  let len ← lengths.get i
  if 0 < len ∧ len ≤ maxCodelen then
    let n ← lc.get len
    lc.set len (n + 1)
  else return lc

/-- The loop of `huff_lut` over the first codes: `nc` and `cv`. -/
def firstTurn (lc : Cells Nat) (b : Nat) (s : Cells Nat × Nat) : Checked (Cells Nat × Nat) := do
  let n ← lc.get b
  let cv := (s.2 + n) <<< 1 % 2 ^ 32
  let nc ← s.1.set (b + 1) cv
  return (nc, cv)

/-- The loop of `huff_lut` over the symbols: `nc` and the table. -/
def symbolTurn (lengths : Cells Nat) (i : Nat) (s : Cells Nat × Cells LutCell) :
    Checked (Cells Nat × Cells LutCell) := do
  let bits ← lengths.get i
  if bits = 0 ∨ maxCodelen < bits then return s
  else
    let c ← s.1.get bits
    let nc ← s.1.set bits ((c + 1) % 2 ^ 32)
    let rev := turnBits (c % 2 ^ 16) bits bits
    let d ← shiftBy (maxCodelen - bits : Int)
    let lut ← turns (fun j lut => lut.set (rev ||| j <<< bits) ⟨i, bits⟩) (1 <<< d) s.2
    return (nc, lut)

/-- `huff_lut` into a table of `1 << LZH_MAX_CODELEN` cells. -/
def huffLutAt (lengths : Cells Nat) (ns : Nat) (table : Cells LutCell) : Checked (Cells LutCell) := do
  let lut ← turns (fun i lut => lut.set i ⟨-1, 0⟩) (1 <<< maxCodelen) table
  let lc ← turns (countTurn lengths) ns (.fresh (maxCodelen + 1) 0)
  let s ← turns (firstTurn lc) maxCodelen (.fresh (maxCodelen + 1) 0, 0)
  let t ← turns (symbolTurn lengths) ns (s.1, lut)
  return t.2

/-- The cells in front of the bound are those of `f`. -/
structure CellsRep {α : Type} (size : Nat) (a : Cells α) (f : Nat → α) : Prop where
  size_eq : a.size = size
  cells : ∀ i < size, a.cell i = f i

/-- A cell of an array and of its contents. -/
theorem CellsRep.set {α : Type} {size i : Nat} {a : Cells α} {f : Nat → α} (h : CellsRep size a f)
    (hi : i < size) (x : α) :
    ∃ a', a.set i x = .ok a' ∧ CellsRep size a' (Function.update f i x) := by
  refine ⟨_, Cells.set_ok (by rw [h.size_eq]; exact hi) x, h.size_eq, fun k hk => ?_⟩
  show Function.update a.cell i x k = _
  by_cases heq : k = i
  · rw [heq, Function.update_self, Function.update_self]
  · rw [Function.update_of_ne heq, Function.update_of_ne heq, h.cells k hk]

theorem CellsRep.get {α : Type} {size i : Nat} {a : Cells α} {f : Nat → α} (h : CellsRep size a f)
    (hi : i < size) : a.get i = .ok (f i) := by
  rw [Cells.get_ok (by rw [h.size_eq]; exact hi), h.cells i hi]

section HuffLut

variable {lengths : Cells Nat} {ns : Nat}

/-- **COUNTING** stays within `lc`. -/
theorem countTurns_rep (hns : ns ≤ lengths.size) :
    ∃ lc, turns (countTurn lengths) ns (.fresh (maxCodelen + 1) 0) = .ok lc ∧
      CellsRep (maxCodelen + 1) lc fun b => lengthCount lengths.cell ns b := by
  refine turns_inv (P := fun n lc => CellsRep (maxCodelen + 1) lc fun b => lengthCount lengths.cell n b)
    ⟨rfl, fun _ _ => rfl⟩ fun i hi lc h => ?_
  rw [countTurn, Cells.get_ok (by omega), ok_bind]
  by_cases hcounts : 0 < lengths.cell i ∧ lengths.cell i ≤ maxCodelen
  · obtain ⟨lc', hset, h'⟩ := h.set (show lengths.cell i < maxCodelen + 1 by omega)
      (lengthCount lengths.cell i (lengths.cell i) + 1)
    rw [if_pos hcounts, h.get (by omega), ok_bind]
    refine ⟨lc', hset, h'.size_eq, fun b hb => ?_⟩
    rw [h'.cells b hb]
    show _ = lengthCount lengths.cell i b + _
    by_cases heq : b = lengths.cell i
    · rw [heq, Function.update_self, if_pos ⟨hcounts.1, rfl⟩]
    · rw [Function.update_of_ne heq, if_neg fun hb => heq hb.2.symm]
      rfl
  · rw [if_neg hcounts]
    refine ⟨lc, rfl, h.size_eq, fun b hb => ?_⟩
    rw [h.cells b hb]
    show _ = lengthCount lengths.cell i b + _
    rw [if_neg (by omega)]
    rfl

/-- The first codes, modulo the 32 bits of `nc`. -/
theorem firstTurns_rep {lc : Cells Nat}
    (hlc : CellsRep (maxCodelen + 1) lc fun b => lengthCount lengths.cell ns b) :
    ∃ s, turns (firstTurn lc) maxCodelen (.fresh (maxCodelen + 1) 0, 0) = .ok s ∧
      CellsRep (maxCodelen + 1) s.1 fun b => nextCode lengths.cell ns b % 2 ^ 32 := by
  obtain ⟨s, hs, h, -⟩ := turns_inv (f := firstTurn lc) (n := maxCodelen)
    (s := (.fresh (maxCodelen + 1) 0, 0)) (P := fun n s =>
      CellsRep (maxCodelen + 1) s.1 (fun b => if b ≤ n then nextCode lengths.cell ns b % 2 ^ 32 else 0) ∧
        s.2 = nextCode lengths.cell ns n % 2 ^ 32)
    ⟨⟨rfl, fun b _ => by
      by_cases hb : b ≤ 0
      · rw [if_pos hb, Nat.le_zero.mp hb]
        rfl
      · rw [if_neg hb]
        rfl⟩, rfl⟩
    fun b hb s h => by
      obtain ⟨h, hcv⟩ := h
      have hnext : (s.2 + lengthCount lengths.cell ns b) <<< 1 % 2 ^ 32 =
          nextCode lengths.cell ns (b + 1) % 2 ^ 32 := by
        rw [hcv, nextCode, Nat.shiftLeft_eq]
        omega
      obtain ⟨nc, hset, hnc⟩ := h.set (show b + 1 < maxCodelen + 1 by omega)
        (nextCode lengths.cell ns (b + 1) % 2 ^ 32)
      refine ⟨(nc, nextCode lengths.cell ns (b + 1) % 2 ^ 32), ?_, ⟨hnc.size_eq, fun k hk => ?_⟩, rfl⟩
      · rw [firstTurn, hlc.get (by omega), ok_bind, hnext]
        dsimp only
        rw [hset]
        rfl
      · rw [hnc.cells k hk]
        by_cases heq : k = b + 1
        · rw [heq, Function.update_self, if_pos (Nat.le_refl _)]
        · rw [Function.update_of_ne heq]
          by_cases hle : k ≤ b
          · rw [if_pos hle, if_pos (by omega)]
          · rw [if_neg hle, if_neg (by omega)]
  refine ⟨s, hs, h.size_eq, fun b hb => ?_⟩
  rw [h.cells b hb, if_pos (Nat.lt_succ_iff.mp hb)]

/-- The code that a symbol is counted out. -/
theorem countCodes_fst {dp : Nat → Nat} {i : Nat} (hpos : 0 < dp i) {n : Nat} (hi : i < n) (ns : Nat) :
    (countCodes dp ns n).1 i = (countCodes dp ns i).2 (dp i) % 2 ^ 16 := by
  induction n with
  | zero => omega
  | succ n ih =>
      rw [countCodes]
      by_cases hlast : i = n
      · rw [hlast] at hpos ⊢
        rw [if_pos hpos]
        exact Function.update_self _ _ _
      · by_cases hcoded : 0 < dp n
        · rw [if_pos hcoded]
          exact (Function.update_of_ne hlast _ _).trans (ih (by omega))
        · rw [if_neg hcoded]
          exact ih (by omega)

/-- **A CODE'S CELLS** lie within the table, whatever the code. -/
theorem fillTurns_rep (sym : Nat) {lut : Cells LutCell} {f : Nat → Option (Nat × Nat)} {bits c : Nat}
    (hpos : bits ≤ maxCodelen) (h : CellsRep (2 ^ maxCodelen) lut fun x => lutCell (f x)) :
    ∃ lut', turns (fun j lut => lut.set (turnBits c bits bits ||| j <<< bits) ⟨sym, bits⟩)
        (2 ^ (maxCodelen - bits)) lut = .ok lut' ∧
      CellsRep (2 ^ maxCodelen) lut' fun x =>
        lutCell (fillLut (turnBits c bits bits) bits sym f (2 ^ (maxCodelen - bits)) x) := by
  refine turns_inv (P := fun j lut => CellsRep (2 ^ maxCodelen) lut fun x =>
    lutCell (fillLut (turnBits c bits bits) bits sym f j x)) h fun j hj lut h => ?_
  have hrev : turnBits c bits bits < 2 ^ bits := by
    rw [turnBits_rev]
    exact rev_lt _ _
  have hin : turnBits c bits bits ||| j <<< bits < 2 ^ maxCodelen := by
    have hmul : 2 ^ bits * (j + 1) ≤ 2 ^ bits * 2 ^ (maxCodelen - bits) := Nat.mul_le_mul_left _ hj
    rw [← Nat.pow_add, Nat.add_sub_cancel' hpos, Nat.mul_succ] at hmul
    rw [BitStream.or_shiftLeft hrev]
    omega
  obtain ⟨lut', hset, h'⟩ := h.set hin ⟨sym, bits⟩
  refine ⟨lut', hset, h'.size_eq, fun x hx => ?_⟩
  rw [h'.cells x hx, fillLut]
  by_cases heq : x = turnBits c bits bits ||| j <<< bits
  · rw [heq, Function.update_self, Function.update_self]
    rfl
  · rw [Function.update_of_ne heq, Function.update_of_ne heq]

/-- **THE TABLE** is built within its arrays from any lengths. -/
theorem huffLutAt_rep (hns : ns ≤ lengths.size) {table : Cells LutCell} (htable : table.size = 2 ^ maxCodelen) :
    ∃ lut, huffLutAt lengths ns table = .ok lut ∧
      CellsRep (2 ^ maxCodelen) lut fun x => lutCell (huffLut lengths.cell ns x) := by
  have hone : 1 <<< maxCodelen = 2 ^ maxCodelen := rfl
  obtain ⟨lut, hclear, hcleared⟩ := turns_inv (f := fun i (lut : Cells LutCell) => lut.set i ⟨-1, 0⟩)
    (n := 2 ^ maxCodelen) (s := table)
    (P := fun n lut => lut.size = 2 ^ maxCodelen ∧ ∀ i < n, lut.cell i = ⟨-1, 0⟩)
    ⟨htable, fun i hi => by omega⟩ fun n hn lut h => by
      refine ⟨_, Cells.set_ok (by rw [h.1]; exact hn) _, h.1, fun i hi => ?_⟩
      show Function.update lut.cell n _ i = _
      by_cases heq : i = n
      · rw [heq, Function.update_self]
      · rw [Function.update_of_ne heq]
        exact h.2 i (by omega)
  obtain ⟨lc, hcount, hlc⟩ := countTurns_rep hns
  obtain ⟨s, hfirst, hnc⟩ := firstTurns_rep hlc
  obtain ⟨t, hsymbols, -, ht⟩ := turns_inv (f := symbolTurn lengths) (n := ns) (s := (s.1, lut))
    (P := fun n t => CellsRep (maxCodelen + 1) t.1 (fun b => (countCodes lengths.cell ns n).2 b % 2 ^ 32) ∧
      CellsRep (2 ^ maxCodelen) t.2 fun x => lutCell (lutOf lengths.cell ns n x))
    ⟨hnc, hcleared.1, fun x hx => hcleared.2 x hx⟩ fun i hi t h => by
      obtain ⟨hcodes, hcells⟩ := h
      rw [symbolTurn, Cells.get_ok (by omega), ok_bind]
      by_cases hskip : lengths.cell i = 0 ∨ maxCodelen < lengths.cell i
      · rw [if_pos hskip]
        refine ⟨t, rfl, ⟨hcodes.size_eq, fun b hb => ?_⟩, ⟨hcells.size_eq, fun x hx => ?_⟩⟩
        · rw [hcodes.cells b hb, countCodes]
          by_cases hcoded : 0 < lengths.cell i
          · have hne : b ≠ lengths.cell i := by omega
            rw [if_pos hcoded]
            exact congrArg (· % 2 ^ 32) (Function.update_of_ne hne _ _).symm
          · rw [if_neg hcoded]
        · rw [hcells.cells x hx, lutOf, if_pos hskip]
      · have hpos : 0 < lengths.cell i := by omega
        have hle : lengths.cell i ≤ maxCodelen := by omega
        have hcode : (countCodes lengths.cell ns i).2 (lengths.cell i) % 2 ^ 32 % 2 ^ 16 =
            (countCodes lengths.cell ns ns).1 i := by
          rw [countCodes_fst hpos hi, Nat.mod_mod_of_dvd _ (pow_dvd_pow 2 (by decide))]
        obtain ⟨nc, hset, hnc'⟩ := hcodes.set (show lengths.cell i < maxCodelen + 1 by omega)
          (((countCodes lengths.cell ns i).2 (lengths.cell i) % 2 ^ 32 + 1) % 2 ^ 32)
        obtain ⟨lut', hfill, hlut'⟩ := fillTurns_rep i
          (c := (countCodes lengths.cell ns ns).1 i) hle hcells
        have hdistance : shiftBy ((maxCodelen : Int) - (lengths.cell i : Nat)) =
            .ok (maxCodelen - lengths.cell i) := by
          rw [show (maxCodelen : Int) - (lengths.cell i : Nat) = ((maxCodelen - lengths.cell i : Nat) : Int) by
            omega]
          exact shiftBy_ok (by rw [maxCodelen]; omega)
        refine ⟨(nc, lut'), ?_, ⟨hnc'.size_eq, fun b hb => ?_⟩, ⟨hlut'.size_eq, fun x hx => ?_⟩⟩
        · rw [if_neg hskip, hcodes.get (by omega), ok_bind, hset, ok_bind, hdistance, ok_bind, hcode,
            Nat.one_shiftLeft, hfill]
          rfl
        · rw [hnc'.cells b hb, countCodes, if_pos hpos]
          by_cases heq : b = lengths.cell i
          · rw [heq, Function.update_self]
            dsimp only
            rw [Function.update_self, Nat.mod_add_mod]
          · rw [Function.update_of_ne heq]
            exact congrArg (· % 2 ^ 32) (Function.update_of_ne heq _ _).symm
        · rw [hlut'.cells x hx, lutOf, if_neg hskip]
  refine ⟨t.2, ?_, ht⟩
  rw [huffLutAt, hone, hclear, ok_bind, hcount, ok_bind, hfirst, ok_bind, hsymbols]
  rfl

end HuffLut

/-- Every entry of a table has a length of 15 at most. -/
theorem lutOf_short (lengths : Nat → Nat) (ns : Nat) {n x sym len : Nat}
    (h : lutOf lengths ns n x = some (sym, len)) : len ≤ maxCodelen := by
  induction n with
  | zero => cases h
  | succ n ih =>
      rw [lutOf] at h
      by_cases hskip : lengths n = 0 ∨ maxCodelen < lengths n
      · rw [if_pos hskip] at h
        exact ih h
      · rw [if_neg hskip] at h
        have hrev : turnBits ((countCodes lengths ns ns).1 n) (lengths n) (lengths n) < 2 ^ lengths n := by
          rw [turnBits_rev]
          exact rev_lt _ _
        rw [fillLut_apply _ hrev] at h
        by_cases hcode : x % 2 ^ lengths n =
            turnBits ((countCodes lengths ns ns).1 n) (lengths n) (lengths n) ∧
              x / 2 ^ lengths n < 2 ^ (maxCodelen - lengths n)
        · rw [if_pos hcode] at h
          cases h
          omega
        · rw [if_neg hcode] at h
          exact ih h

end Zupt.Lzh
