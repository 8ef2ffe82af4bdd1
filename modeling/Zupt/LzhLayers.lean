import Zupt.Lzh
import Zupt.LzhCode

/-! # The layers of Zupt-LZH

    Each layer that stands on its own undoes itself: the runs of zeros, the code
    lengths, and the bits, of which the writer leaves what its capacity has room
    for. -/

namespace Zupt.Lzh

open Zupt.LittleEndian Zupt.Canonical Zupt.BitStream

/-! ## Runs -/

theorem runOf_spec {α : Type} [DecidableEq α] (v : α) (limit : Nat) (s : List α) :
    runOf v limit s ≤ limit ∧ s = List.replicate (runOf v limit s) v ++ s.drop (runOf v limit s) := by
  induction limit generalizing s with
  | zero => exact ⟨Nat.le_refl _, rfl⟩
  | succ limit ih =>
      cases s with
      | nil => exact ⟨Nat.zero_le _, rfl⟩
      | cons x s =>
          rw [runOf]
          by_cases hx : x = v
          · obtain ⟨hle, hsplit⟩ := ih s
            rw [if_pos hx, List.replicate_succ, List.drop_succ_cons, List.cons_append, ← hsplit, hx]
            exact ⟨Nat.succ_le_succ hle, rfl⟩
          · rw [if_neg hx]
            exact ⟨Nat.zero_le _, rfl⟩

theorem runOf_cons {α : Type} [DecidableEq α] (v : α) (limit : Nat) (s : List α) :
    1 ≤ runOf v (limit + 1) (v :: s) := by
  rw [runOf, if_pos rfl]
  exact Nat.le_add_left 1 _

/-! ## Runs of zeros -/

/-- Bytes that stand for a source: a zero behind a zero is one, a count behind a
    zero is a run. -/
inductive Rle : Bytes → Bytes → Prop
  | nil : Rle [] []
  | zero {enc src : Bytes} (h : Rle enc src) : Rle (0 :: 0 :: enc) (0 :: src)
  | run {c : UInt8} {enc src : Bytes} (hc : c ≠ 0) (h : Rle enc src) :
      Rle (0 :: c :: enc) (List.replicate c.toNat 0 ++ src)
  | lit {b : UInt8} {enc src : Bytes} (hb : b ≠ 0) (h : Rle enc src) : Rle (b :: enc) (b :: src)

section Rle

variable {dc : Nat}

/-- The pieces of a run stand for the run. -/
theorem rlePieces_spec {turns run : Nat} {out out' : Bytes} (hturns : run ≤ turns)
    (h : rlePieces dc turns run out = some out') :
    ∃ enc, out' = out ++ enc ∧
      ∀ enc' src', Rle enc' src' → Rle (enc ++ enc') (List.replicate run 0 ++ src') := by
  induction turns generalizing run out with
  | zero =>
      obtain rfl := Option.some.inj h
      obtain rfl : run = 0 := by omega
      exact ⟨[], (List.append_nil out).symm, fun _ _ hrest => hrest⟩
  | succ turns ih =>
      rw [rlePieces] at h
      by_cases hrun : 0 < run
      · rw [if_pos hrun] at h
        dsimp only at h
        split at h
        · cases h
        obtain ⟨enc, rfl, hrest⟩ := ih (by omega) h
        have hbyte : (UInt8.ofNat (min run 255)).toNat = min run 255 :=
          UInt8.toNat_ofNat_of_lt' (by show _ < 256; omega)
        have hne : UInt8.ofNat (min run 255) ≠ 0 := by
          intro hzero
          have hnat := congrArg UInt8.toNat hzero
          rw [hbyte] at hnat
          have hpos : min run 255 = 0 := hnat
          omega
        refine ⟨[0, UInt8.ofNat (min run 255)] ++ enc, ?_, ?_⟩
        · rw [List.append_assoc]
        intro enc' src' hmore
        have hpiece := Rle.run hne (hrest enc' src' hmore)
        rw [hbyte, ← List.append_assoc, ← List.replicate_add,
          show min run 255 + (run - min run 255) = run by omega] at hpiece
        exact hpiece
      · rw [if_neg hrun] at h
        obtain rfl := Option.some.inj h
        obtain rfl : run = 0 := by omega
        exact ⟨[], (List.append_nil out).symm, fun _ _ hrest => hrest⟩

theorem rleLoop_spec {turns : Nat} {s out out' : Bytes} (hturns : s.length ≤ turns)
    (h : rleLoop dc turns s out = some out') : ∃ enc, out' = out ++ enc ∧ Rle enc s := by
  induction turns generalizing s out with
  | zero =>
      obtain rfl := Option.some.inj h
      obtain rfl := List.length_eq_zero_iff.mp (Nat.le_zero.mp hturns)
      exact ⟨[], (List.append_nil out).symm, .nil⟩
  | succ turns ih =>
      cases s with
      | nil =>
          obtain rfl := Option.some.inj h
          exact ⟨[], (List.append_nil out).symm, .nil⟩
      | cons b s =>
          have hlen : s.length + 1 ≤ turns + 1 := hturns
          rw [rleLoop] at h
          by_cases hb : b = 0
          · rw [if_pos hb] at h
            dsimp only at h
            have hone : 1 ≤ runOf 0 65535 (b :: s) := by
              rw [hb]
              exact runOf_cons 0 65534 s
            obtain ⟨-, hsplit⟩ := runOf_spec 0 65535 (b :: s)
            generalize runOf 0 65535 (b :: s) = run at h hone hsplit
            by_cases hrun : run = 1
            · rw [if_pos hrun] at h
              split at h
              · cases h
              obtain ⟨enc, rfl, hrest⟩ := ih (by omega) h
              refine ⟨[0, 0] ++ enc, (List.append_assoc ..), ?_⟩
              rw [hb]
              exact .zero hrest
            · rw [if_neg hrun] at h
              split at h
              · cases h
              rename_i mid hpieces
              obtain ⟨enc, rfl, hrest⟩ := rlePieces_spec (Nat.le_refl run) hpieces
              have hdrop : ((b :: s).drop run).length ≤ turns := by
                rw [List.length_drop, List.length_cons]
                omega
              obtain ⟨more, rfl, hmore⟩ := ih hdrop h
              refine ⟨enc ++ more, List.append_assoc .., ?_⟩
              rw [hsplit]
              exact hrest more _ hmore
          · rw [if_neg hb] at h
            split at h
            · cases h
            obtain ⟨enc, rfl, hrest⟩ := ih (by omega) h
            exact ⟨[b] ++ enc, List.append_assoc .., .lit hb hrest⟩

theorem rleDecode_lit {b : UInt8} {enc out : Bytes} (hb : b ≠ 0) (hroom : out.length < dc) :
    rleDecode dc (b :: enc) out = rleDecode dc enc (out ++ [b]) := by
  cases enc with
  | nil => exact if_pos hroom
  | cons c enc => rw [rleDecode, if_pos hroom, if_neg hb]

/-- **THE RUNS** are expanded again, where there is room for the source. -/
theorem Rle.decode {enc src : Bytes} (h : Rle enc src) {out : Bytes}
    (hroom : out.length + src.length ≤ dc) : rleDecode dc enc out = some (out ++ src) := by
  induction h generalizing out with
  | nil => rw [rleDecode, List.append_nil]
  | zero _ ih =>
      rw [List.length_cons] at hroom
      rw [rleDecode, if_pos (by omega), if_pos rfl, if_pos rfl,
        ih (by rw [List.length_append, List.length_singleton]; omega), List.append_assoc]
      rfl
  | @run c enc src hc _ ih =>
      have hpos : 0 < c.toNat := by
        refine Nat.pos_of_ne_zero fun hzero => hc ?_
        exact UInt8.toNat_inj.mp hzero
      rw [List.length_append, List.length_replicate] at hroom
      rw [rleDecode, if_pos (by omega), if_pos rfl, if_neg hc, if_neg (by omega),
        ih (by rw [List.length_append, List.length_replicate]; omega), List.append_assoc]
  | @lit b enc src hb _ ih =>
      rw [List.length_cons] at hroom
      rw [rleDecode_lit hb (by omega),
        ih (by rw [List.length_append, List.length_singleton]; omega), List.append_assoc]
      rfl

end Rle

/-! ## Code lengths -/

/-- `cl_decode` with the index that it returns: behind the lengths stand the bytes
    `in[ip..ilen)`; `none` is -1. -/
def clDecodeRest (count : Nat) :
    (s : Bytes) → (prev : Nat) → (lens : List Nat) → Option (List Nat × Bytes)
  | [], _, lens => some (lens, [])
  | [c], _, lens =>
      if lens.length < count then if c ≤ 15 then some (lens ++ [c.toNat], []) else none
      else some (lens, [c])
  | c :: x :: s, prev, lens =>
      if lens.length < count then
        if c ≤ 15 then clDecodeRest count (x :: s) c.toNat (lens ++ [c.toNat])
        else if c = 16 then
          clDecodeRest count s prev
            (lens ++ List.replicate (min (3 + x.toNat) (count - lens.length)) prev)
        else if c = 17 then
          clDecodeRest count s prev
            (lens ++ List.replicate (min (3 + x.toNat) (count - lens.length)) 0)
        else if c = 18 then
          clDecodeRest count s prev
            (lens ++ List.replicate (min (11 + x.toNat) (count - lens.length)) 0)
        else none
      else some (lens, c :: x :: s)

/-- Codes that stand for lengths, where the length in front of them is `prev`. -/
inductive Spells : (prev : Nat) → Bytes → List Nat → Prop
  | nil {prev : Nat} : Spells prev [] []
  | lit {prev v : Nat} {enc : Bytes} {lens : List Nat} (hv : v ≤ 15) (h : Spells v enc lens) :
      Spells prev (UInt8.ofNat v :: enc) (v :: lens)
  | again {prev : Nat} {enc : Bytes} {lens : List Nat} (x : UInt8) (h : Spells prev enc lens) :
      Spells prev (16 :: x :: enc) (List.replicate (3 + x.toNat) prev ++ lens)
  | zeros {prev : Nat} {enc : Bytes} {lens : List Nat} (x : UInt8) (h : Spells prev enc lens) :
      Spells prev (17 :: x :: enc) (List.replicate (3 + x.toNat) 0 ++ lens)
  | longZeros {prev : Nat} {enc : Bytes} {lens : List Nat} (x : UInt8) (h : Spells prev enc lens) :
      Spells prev (18 :: x :: enc) (List.replicate (11 + x.toNat) 0 ++ lens)

section Lengths

variable {count : Nat}

theorem clDecode_eq (count : Nat) (s : Bytes) (prev : Nat) (lens : List Nat) :
    clDecode count s prev lens = (clDecodeRest count s prev lens).map Prod.fst := by
  induction s, prev, lens using clDecodeRest.induct count with
  | case1 => rfl
  | case2 _ _ _ hroom hle | case3 _ _ _ hroom hle =>
      rw [clDecode, clDecodeRest]
      simp only [hroom, hle, if_true, if_false, Option.map_some, Option.map_none]
  | case4 _ _ _ hroom | case10 _ _ _ _ _ hroom =>
      rw [clDecode, clDecodeRest, if_neg hroom, if_neg hroom]
      rfl
  | case5 c x s prev lens hroom hle ih =>
      rw [clDecode, clDecodeRest, if_pos hroom, if_pos hroom, if_pos hle, if_pos hle]
      exact ih
  | case6 x s prev lens hroom hle ih =>
      rw [clDecode, clDecodeRest, if_pos hroom, if_pos hroom, if_neg hle, if_neg hle, if_pos rfl,
        if_pos rfl]
      exact ih
  | case7 x s prev lens hroom hle h16 ih =>
      rw [clDecode, clDecodeRest, if_pos hroom, if_pos hroom, if_neg hle, if_neg hle, if_neg h16,
        if_neg h16, if_pos rfl, if_pos rfl]
      exact ih
  | case8 x s prev lens hroom hle h16 h17 ih =>
      rw [clDecode, clDecodeRest, if_pos hroom, if_pos hroom, if_neg hle, if_neg hle, if_neg h16,
        if_neg h16, if_neg h17, if_neg h17, if_pos rfl, if_pos rfl]
      exact ih
  | case9 c x s prev lens hroom hle h16 h17 h18 =>
      rw [clDecode, clDecodeRest, if_pos hroom, if_pos hroom, if_neg hle, if_neg hle, if_neg h16,
        if_neg h16, if_neg h17, if_neg h17, if_neg h18, if_neg h18]
      rfl

theorem clDecodeRest_literal {v : Nat} (hv : v ≤ 15) {prev : Nat} {acc : List Nat}
    (hroom : acc.length < count) (rest : Bytes) :
    clDecodeRest count (UInt8.ofNat v :: rest) prev acc = clDecodeRest count rest v (acc ++ [v]) := by
  have hbyte : (UInt8.ofNat v).toNat = v := UInt8.toNat_ofNat_of_lt' (by show _ < 256; omega)
  have hsmall : UInt8.ofNat v ≤ 15 := by
    rw [UInt8.le_iff_toNat_le, hbyte]
    exact hv
  cases rest with
  | nil =>
      show (if acc.length < count then if UInt8.ofNat v ≤ 15 then
        some (acc ++ [(UInt8.ofNat v).toNat], []) else none else _) = some (acc ++ [v], [])
      rw [if_pos hroom, if_pos hsmall, hbyte]
  | cons x rest => rw [clDecodeRest, if_pos hroom, if_pos hsmall, hbyte]

/-- **THE CODES** are read for the lengths that they stand for, where there is room. -/
theorem Spells.decode {prev : Nat} {enc : Bytes} {lens : List Nat} (h : Spells prev enc lens)
    (rest : Bytes) {acc : List Nat} (hroom : acc.length + lens.length ≤ count) :
    ∃ prev', clDecodeRest count (enc ++ rest) prev acc =
      clDecodeRest count rest prev' (acc ++ lens) := by
  induction h generalizing acc with
  | @nil prev => exact ⟨prev, by rw [List.nil_append, List.append_nil]⟩
  | @lit prev v enc lens hv _ ih =>
      rw [List.length_cons] at hroom
      obtain ⟨prev', hrest⟩ := @ih (acc ++ [v]) (by rw [List.length_append, List.length_singleton]; omega)
      refine ⟨prev', ?_⟩
      rw [List.cons_append, clDecodeRest_literal hv (by omega), hrest, List.append_assoc,
        List.singleton_append]
  | @again prev enc lens x _ ih =>
      rw [List.length_append, List.length_replicate] at hroom
      obtain ⟨prev', hrest⟩ := @ih (acc ++ List.replicate (3 + x.toNat) prev)
        (by rw [List.length_append, List.length_replicate]; omega)
      refine ⟨prev', ?_⟩
      rw [List.cons_append, List.cons_append, clDecodeRest, if_pos (by omega), if_neg (by decide),
        if_pos rfl, Nat.min_eq_left (by omega), hrest, List.append_assoc]
  | @zeros prev enc lens x _ ih =>
      rw [List.length_append, List.length_replicate] at hroom
      obtain ⟨prev', hrest⟩ := @ih (acc ++ List.replicate (3 + x.toNat) 0)
        (by rw [List.length_append, List.length_replicate]; omega)
      refine ⟨prev', ?_⟩
      rw [List.cons_append, List.cons_append, clDecodeRest, if_pos (by omega), if_neg (by decide),
        if_neg (by decide), if_pos rfl, Nat.min_eq_left (by omega), hrest, List.append_assoc]
  | @longZeros prev enc lens x _ ih =>
      rw [List.length_append, List.length_replicate] at hroom
      obtain ⟨prev', hrest⟩ := @ih (acc ++ List.replicate (11 + x.toNat) 0)
        (by rw [List.length_append, List.length_replicate]; omega)
      refine ⟨prev', ?_⟩
      rw [List.cons_append, List.cons_append, clDecodeRest, if_pos (by omega), if_neg (by decide),
        if_neg (by decide), if_neg (by decide), if_pos rfl, Nat.min_eq_left (by omega), hrest,
        List.append_assoc]

/-- A code takes no more bytes than the lengths it stands for. -/
theorem Spells.length_le {prev : Nat} {enc : Bytes} {lens : List Nat} (h : Spells prev enc lens) :
    enc.length ≤ lens.length := by
  induction h with
  | nil => exact Nat.le_refl 0
  | lit _ _ ih => exact Nat.succ_le_succ ih
  | again _ _ ih => rw [List.length_append, List.length_replicate, List.length_cons, List.length_cons]; omega
  | zeros _ _ ih => rw [List.length_append, List.length_replicate, List.length_cons, List.length_cons]; omega
  | longZeros _ _ ih => rw [List.length_append, List.length_replicate, List.length_cons, List.length_cons]; omega

theorem Spells.ne_nil {prev : Nat} {enc : Bytes} {lens : List Nat} (h : Spells prev enc lens)
    (hne : lens ≠ []) : enc ≠ [] := by
  cases h with
  | nil => exact absurd rfl hne
  | lit => exact List.cons_ne_nil _ _
  | again => exact List.cons_ne_nil _ _
  | zeros => exact List.cons_ne_nil _ _
  | longZeros => exact List.cons_ne_nil _ _

/-- Bytes that append lengths, whatever stands behind them. -/
def Reads (enc : Bytes) (lens : List Nat) : Prop :=
  ∀ count rest prev acc, acc.length + lens.length ≤ count →
    ∃ prev', clDecode count (enc ++ rest) prev acc = clDecode count rest prev' (acc ++ lens)

theorem Spells.reads {enc : Bytes} {lens : List Nat} (h : ∀ prev, Spells prev enc lens) :
    Reads enc lens := by
  intro count rest prev acc hroom
  obtain ⟨prev', hrest⟩ := (h prev).decode rest hroom
  exact ⟨prev', by rw [clDecode_eq, hrest, ← clDecode_eq]⟩

/-! ### What `cl_encode` writes

    None of its loops looks at the capacity for more than the room that the next code
    takes: where the codes of a run fit, they are the codes of the run. -/

section Encode

variable {turns run : Nat}

/-- The codes of a run of zeros. -/
theorem clZeros_spec (hrun : run ≤ 138) (hturns : run ≤ turns) :
    ∃ enc, (∀ ocap out, out.length + enc.length ≤ ocap →
        clZeros ocap turns run out = some (out ++ enc)) ∧
      ∀ enc' lens', (∀ prev, Spells prev enc' lens') →
        ∀ prev, Spells prev (enc ++ enc') (List.replicate run 0 ++ lens') := by
  have hdone : ∀ turns ocap (out : Bytes), clZeros ocap turns 0 out = some out := by
    intro turns ocap out
    cases turns with
    | zero => rfl
    | succ turns => rw [clZeros, if_neg (Nat.lt_irrefl 0)]
  have hbyte : ∀ n < 256, (UInt8.ofNat n).toNat = n := fun n hn => UInt8.toNat_ofNat_of_lt' hn
  induction turns generalizing run with
  | zero =>
      obtain rfl : run = 0 := by omega
      exact ⟨[], fun ocap out _ => by rw [hdone, List.append_nil], fun _ _ h => h⟩
  | succ turns ih =>
      by_cases hlong : 11 ≤ run
      · refine ⟨[18, UInt8.ofNat (run - 11)], ?_, ?_⟩
        · intro ocap out hroom
          have hroom' : out.length + 2 ≤ ocap := hroom
          rw [clZeros, if_pos (by omega), if_pos hlong, Nat.min_eq_left hrun, if_neg (by omega),
            Nat.sub_self, hdone]
        · intro enc' lens' hrest prev
          have hcode := Spells.longZeros (UInt8.ofNat (run - 11)) (hrest prev)
          rw [hbyte _ (by omega), Nat.add_sub_cancel' hlong] at hcode
          exact hcode
      · by_cases hmid : 3 ≤ run
        · refine ⟨[17, UInt8.ofNat (run - 3)], ?_, ?_⟩
          · intro ocap out hroom
            have hroom' : out.length + 2 ≤ ocap := hroom
            rw [clZeros, if_pos (by omega), if_neg hlong, if_pos hmid, if_neg (by omega),
              Nat.sub_self, hdone]
          · intro enc' lens' hrest prev
            have hcode := Spells.zeros (UInt8.ofNat (run - 3)) (hrest prev)
            rw [hbyte _ (by omega), Nat.add_sub_cancel' hmid] at hcode
            exact hcode
        · by_cases hpos : 0 < run
          · -- one or two zeros are written as they are
            obtain ⟨enc, henc, hspells⟩ := ih (show run - 1 ≤ 138 by omega) (by omega)
            refine ⟨0 :: enc, ?_, ?_⟩
            · intro ocap out hroom
              rw [List.length_cons] at hroom
              rw [clZeros, if_pos hpos, if_neg hlong, if_neg hmid, if_neg (by omega),
                henc ocap (out ++ [0]) (by rw [List.length_append, List.length_singleton]; omega),
                List.append_assoc]
              rfl
            · intro enc' lens' hrest prev
              have hcode := @Spells.lit prev _ _ _ (Nat.zero_le 15) (hspells enc' lens' hrest 0)
              obtain ⟨n, rfl⟩ : ∃ n, run = n + 1 := ⟨run - 1, by omega⟩
              exact hcode
          · obtain rfl : run = 0 := by omega
            exact ⟨[], fun ocap out _ => by rw [hdone, List.append_nil], fun _ _ h => h⟩

/-- The codes of the repeats behind a length `v`. -/
theorem clRepeats_spec {v : Nat} (hv : v ≤ 15) (hrun : run ≤ 6) (hturns : run ≤ turns) :
    ∃ enc, (∀ ocap out, out.length + enc.length ≤ ocap →
        clRepeats ocap v turns run out = some (out ++ enc)) ∧
      ∀ enc' lens', (∀ prev, Spells prev enc' lens') →
        Spells v (enc ++ enc') (List.replicate run v ++ lens') := by
  have hdone : ∀ turns ocap (out : Bytes), clRepeats ocap v turns 0 out = some out := by
    intro turns ocap out
    cases turns with
    | zero => rfl
    | succ turns => rw [clRepeats, if_neg (by omega), if_neg (Nat.lt_irrefl 0)]
  induction turns generalizing run with
  | zero =>
      obtain rfl : run = 0 := by omega
      exact ⟨[], fun ocap out _ => by rw [hdone, List.append_nil], fun _ _ h => h v⟩
  | succ turns ih =>
      by_cases hlong : 3 ≤ run
      · refine ⟨[16, UInt8.ofNat (run - 3)], ?_, ?_⟩
        · intro ocap out hroom
          have hroom' : out.length + 2 ≤ ocap := hroom
          rw [clRepeats, if_pos hlong, Nat.min_eq_left hrun, if_neg (by omega), Nat.sub_self, hdone]
        · intro enc' lens' hrest
          have hcode := Spells.again (UInt8.ofNat (run - 3)) (hrest v)
          rw [UInt8.toNat_ofNat_of_lt' (by show _ < 256; omega), Nat.add_sub_cancel' hlong] at hcode
          exact hcode
      · by_cases hpos : 0 < run
        · obtain ⟨enc, henc, hspells⟩ := ih (show run - 1 ≤ 6 by omega) (by omega)
          refine ⟨UInt8.ofNat v :: enc, ?_, ?_⟩
          · intro ocap out hroom
            rw [List.length_cons] at hroom
            rw [clRepeats, if_neg hlong, if_pos hpos, if_neg (by omega),
              henc ocap (out ++ [UInt8.ofNat v])
                (by rw [List.length_append, List.length_singleton]; omega),
              List.append_assoc]
            rfl
          · intro enc' lens' hrest
            have hcode := @Spells.lit v _ _ _ hv (hspells enc' lens' hrest)
            obtain ⟨n, rfl⟩ : ∃ n, run = n + 1 := ⟨run - 1, by omega⟩
            exact hcode
        · obtain rfl : run = 0 := by omega
          exact ⟨[], fun ocap out _ => by rw [hdone, List.append_nil], fun _ _ h => h v⟩

/-- **WHAT IS WRITTEN** stands for the lengths, in every capacity that has room for it. -/
theorem clLoop_spells {lens : List Nat} (hturns : lens.length ≤ turns)
    (hshort : ∀ v ∈ lens, v ≤ 15) :
    ∃ enc, (∀ prev, Spells prev enc lens) ∧
      ∀ ocap out, out.length + enc.length ≤ ocap → clLoop ocap turns lens out = some (out ++ enc) := by
  induction turns generalizing lens with
  | zero =>
      obtain rfl := List.length_eq_zero_iff.mp (Nat.le_zero.mp hturns)
      exact ⟨[], fun _ => .nil, fun ocap out _ => by rw [clLoop, List.append_nil]⟩
  | succ turns ih =>
      cases lens with
      | nil => exact ⟨[], fun _ => .nil, fun ocap out _ => by rw [clLoop, List.append_nil]⟩
      | cons v lens =>
          have hlen : lens.length + 1 ≤ turns + 1 := hturns
          by_cases hv : v = 0
          · have hone : 1 ≤ runOf 0 138 (v :: lens) := by
              rw [hv]
              exact runOf_cons 0 137 lens
            obtain ⟨hrun, hsplit⟩ := runOf_spec 0 138 (v :: lens)
            obtain ⟨enc, henc, hspells⟩ := clZeros_spec hrun (Nat.le_refl _)
            obtain ⟨more, hmore, hrest⟩ := ih
              (show ((v :: lens).drop (runOf 0 138 (v :: lens))).length ≤ turns by
                rw [List.length_drop, List.length_cons]
                omega)
              (fun w hw => hshort w (List.mem_of_mem_drop hw))
            have hwhole : ∀ prev, Spells prev (enc ++ more) (v :: lens) := by
              intro prev
              rw [hsplit]
              exact hspells more _ hmore prev
            refine ⟨enc ++ more, hwhole, ?_⟩
            intro ocap out hroom
            have hpos := List.length_pos_iff.mpr ((hwhole 0).ne_nil (List.cons_ne_nil v lens))
            rw [List.length_append] at hroom hpos
            rw [clLoop, if_pos (by omega), if_pos hv]
            dsimp only
            rw [henc ocap out (by omega)]
            dsimp only
            rw [hrest ocap (out ++ enc) (by rw [List.length_append]; omega), List.append_assoc]
          · have hv15 := hshort v List.mem_cons_self
            obtain ⟨hrun, hsplit⟩ := runOf_spec v 6 lens
            obtain ⟨enc, henc, hspells⟩ := clRepeats_spec hv15 hrun (Nat.le_refl _)
            obtain ⟨more, hmore, hrest⟩ := ih
              (show (lens.drop (runOf v 6 lens)).length ≤ turns by
                rw [List.length_drop]
                omega)
              (fun w hw => hshort w (List.mem_cons_of_mem v (List.mem_of_mem_drop hw)))
            refine ⟨UInt8.ofNat v :: (enc ++ more), ?_, ?_⟩
            · intro prev
              refine .lit hv15 ?_
              rw [hsplit]
              exact hspells more _ hmore
            · intro ocap out hroom
              rw [List.length_cons, List.length_append] at hroom
              rw [clLoop, if_pos (by omega), if_neg hv, if_neg (by omega)]
              dsimp only
              rw [henc ocap _ (by rw [List.length_append, List.length_singleton]; omega)]
              dsimp only
              rw [hrest ocap _ (by
                rw [List.length_append, List.length_append, List.length_singleton]
                omega)]
              simp only [List.append_assoc, List.cons_append, List.nil_append]

end Encode

/-- **THE CODE LENGTHS** are written in twice their number of bytes at most, and read
    back. -/
theorem clLoop_spec {ocap turns : Nat} {lens : List Nat} {out : Bytes} (hturns : lens.length ≤ turns)
    (hshort : ∀ v ∈ lens, v ≤ 15) (hroom : out.length + 2 * lens.length ≤ ocap) :
    ∃ enc, clLoop ocap turns lens out = some (out ++ enc) ∧ Reads enc lens ∧
      enc.length ≤ 2 * lens.length ∧ (lens ≠ [] → enc ≠ []) := by
  obtain ⟨enc, hspells, henc⟩ := clLoop_spells hturns hshort
  have hlen := (hspells 0).length_le
  exact ⟨enc, henc ocap out (by omega), Spells.reads hspells, by omega, (hspells 0).ne_nil⟩

/-- The codes of lengths, which `cl_encode` writes into every capacity that has room for
    them: as many bytes as there are lengths are enough. -/
theorem clEncode_spells {lens : List Nat} (hshort : ∀ v ∈ lens, v ≤ 15) :
    (∀ prev, Spells prev (clEncode lens lens.length) lens) ∧
      ∀ ocap, (clEncode lens lens.length).length ≤ ocap →
        clEncode lens ocap = clEncode lens lens.length := by
  obtain ⟨enc, hspells, henc⟩ := clLoop_spells (Nat.le_refl lens.length) hshort
  have hcl : ∀ ocap, enc.length ≤ ocap → clEncode lens ocap = enc := by
    intro ocap hroom
    rw [clEncode, henc ocap [] (by rw [List.length_nil, Nat.zero_add]; exact hroom)]
    rfl
  rw [hcl lens.length (hspells 0).length_le]
  exact ⟨hspells, hcl⟩

end Lengths

/-! ## The run-length layers -/

/-- **RUN-LENGTH LAYERS INVERT**: in every capacity that has room for its codes
    `cl_encode` writes what `cl_decode` takes for the lengths, and takes to its last
    byte; it is no longer than the lengths, so the count that is returned is an `int`.
    What `rle_encode` writes, into any capacity, `rle_decode` expands again. -/
theorem run_length_layers_invert :
    (∀ (lens : List Nat) (ocap : Nat), (∀ v ∈ lens, v ≤ 15) →
      (clEncode lens lens.length).length ≤ ocap →
        clDecodeRest lens.length (clEncode lens ocap) 0 [] = some (lens, []) ∧
          (clEncode lens ocap).length ≤ lens.length) ∧
    ∀ (s : Bytes) (dc : Nat) (enc : Bytes), rleEncode s dc = some enc →
      rleDecode s.length enc [] = some s := by
  constructor
  · intro lens ocap hshort hroom
    obtain ⟨hspells, hcap⟩ := clEncode_spells hshort
    rw [hcap ocap hroom]
    have hroom : ([] : List Nat).length + lens.length ≤ lens.length := by
      rw [List.length_nil, Nat.zero_add]
    obtain ⟨prev, hdec⟩ := (hspells 0).decode [] hroom
    rw [List.append_nil, clDecodeRest, List.nil_append] at hdec
    exact ⟨hdec, (hspells 0).length_le⟩
  · intro s dc enc h
    rw [rleEncode] at h
    split at h
    · cases h
    rename_i out hloop
    split at h
    · cases h
      obtain ⟨enc, rfl, hrle⟩ := rleLoop_spec (Nat.le_refl s.length) hloop
      exact hrle.decode (by rw [List.length_nil, Nat.zero_add])
    · cases h

theorem run_length_layers_invert_runs :
    clDecodeRest 9 (clEncode [0, 0, 0, 5, 5, 5, 5, 5, 0] 6) 0 [] =
        some ([0, 0, 0, 5, 5, 5, 5, 5, 0], []) ∧
      rleDecode 6 [1, 0, 4, 2] [] = some [1, 0, 0, 0, 0, 2] :=
  ⟨(run_length_layers_invert.1 [0, 0, 0, 5, 5, 5, 5, 5, 0] 6 (by decide) (by decide)).1,
    run_length_layers_invert.2 [1, 0, 0, 0, 0, 2] 6 [1, 0, 4, 2] (by decide)⟩

/-! ## The writer -/

/-- The writer has written the fields, as far as there is room for them: less than a
    byte is left, or the capacity is used up. -/
structure BitWr.Wrote (w : BitWr) (cap : Nat) (fs : List (Nat × Nat)) : Prop where
  written : Written w.acc w.nb w.out fs
  inside : w.out.length ≤ cap
  few : w.nb < 8 ∨ w.out.length = cap

section Writer

variable {cap : Nat} {w : BitWr} {fs : List (Nat × Nat)}

theorem wrote_init (cap : Nat) : (BitWr.mk 0 0 []).Wrote cap [] :=
  ⟨written_nil, Nat.zero_le _, Or.inl (Nat.succ_pos 7)⟩

theorem drain_full (turns : Nat) (h : w.out.length = cap) : w.drain cap turns = w := by
  cases turns with
  | zero => rfl
  | succ turns => rw [BitWr.drain, if_neg (by omega)]

theorem drain_wrote {turns : Nat} (hwritten : Written w.acc w.nb w.out fs)
    (hinside : w.out.length ≤ cap) (hturns : turns = w.nb / 8) :
    (w.drain cap turns).Wrote cap fs := by
  induction turns generalizing w with
  | zero => exact ⟨hwritten, hinside, Or.inl (by show w.nb < 8; omega)⟩
  | succ turns ih =>
      by_cases hroom : w.out.length < cap
      · rw [BitWr.drain, if_pos hroom]
        refine ih (hwritten.byte (by omega)) ?_ (by show turns = (w.nb - 8) / 8; omega)
        show (w.out ++ [_]).length ≤ cap
        rw [List.length_append, List.length_singleton]
        exact hroom
      · have hfull : w.out.length = cap := by omega
        rw [drain_full _ hfull]
        exact ⟨hwritten, hinside, Or.inr hfull⟩

/-- **A FIELD** is written behind the others. -/
theorem BitWr.Wrote.put (h : w.Wrote cap fs) {v n : Nat} (hv : v < 2 ^ n) :
    (w.put cap v n).Wrote cap (fs ++ [(v, n)]) := by
  have hadd := h.written.add v n
  rw [Nat.mod_eq_of_lt hv, ← or_shiftLeft h.written.bound] at hadd
  exact drain_wrote hadd h.inside rfl

/-- **A FLUSH** leaves what there is room for of the packed fields. -/
theorem BitWr.Wrote.flush (h : w.Wrote cap fs) : (w.flush cap).out = (packed fs).take cap := by
  by_cases hfull : w.out.length = cap
  · rw [BitWr.flush, drain_full _ hfull, ← hfull]
    exact h.written.out_eq
  · have hfew := h.few.resolve_right hfull
    have hinside := h.inside
    rw [← h.written.finish hfew, BitWr.flush]
    by_cases hleft : 0 < w.nb
    · have hone : (w.nb + 7) / 8 = 1 := by omega
      rw [if_pos hleft, hone, BitWr.drain, if_pos (by omega), BitWr.drain]
      refine (List.take_of_length_le ?_).symm
      rw [List.length_append, List.length_singleton]
      omega
    · have hnone : (w.nb + 7) / 8 = 0 := by omega
      rw [if_neg hleft, hnone, BitWr.drain]
      exact (List.take_of_length_le hinside).symm

end Writer

/-! ## The reader -/

/-- The `size` bits of `V` are before the reader. -/
structure BitRd.Sees (r : BitRd) (V size : Nat) : Prop where
  count : 0 ≤ r.nb
  holds : Holds r.acc r.nb.toNat r.s V size

/-- Fields are before the reader, and `spare` bits behind them. -/
def BitRd.Before (r : BitRd) (fs : List (Nat × Nat)) (spare : Nat) : Prop :=
  ∃ V, r.Sees V (width fs + spare) ∧ Starts V (width fs + spare) fs

theorem before_init (fs : List (Nat × Nat)) :
    (BitRd.init (packed fs)).Before fs (8 * bytesFor (width fs) - width fs) := by
  have hstarts := starts_packed fs []
  rw [List.append_nil] at hstarts
  have hspare : width fs + (8 * bytesFor (width fs) - width fs) = 8 * (packed fs).length := by
    rw [packed_length, bytesFor]
    omega
  refine ⟨leGet (packed fs), ?_, ?_⟩
  · rw [hspare]
    exact ⟨Int.le_refl _, holds_start (packed fs)⟩
  · rw [hspare]
    exact hstarts

section Reader

variable {r : BitRd} {V size : Nat}

theorem fillBits_sees {s : Bytes} {acc : Nat} {nb : Int} (n : Nat) (h : (BitRd.mk acc nb s).Sees V size) :
    (fillBits n s acc nb).Sees V size ∧
      ((n : Int) ≤ (fillBits n s acc nb).nb ∨ (fillBits n s acc nb).s = []) := by
  induction s generalizing acc nb with
  | nil => exact ⟨h, Or.inr rfl⟩
  | cons b s ih =>
      have hlow := h.count
      dsimp only at hlow
      rw [fillBits]
      by_cases hneed : nb < n
      · rw [if_pos hneed]
        have hload := h.holds.load (k := 1) (Nat.le_add_left 1 s.length)
        have hbyte : leGet ((b :: s).take 1) = b.toNat := Nat.add_zero _
        have hcount : (nb + 8).toNat = nb.toNat + 8 * 1 := by omega
        dsimp only at hload
        rw [hbyte, ← or_shiftLeft h.holds.bound, ← hcount] at hload
        exact ih ⟨by show 0 ≤ nb + 8; omega, hload⟩
      · rw [if_neg hneed]
        exact ⟨h, Or.inl (Int.not_lt.mp hneed)⟩

/-- **A LOOK** at the bits changes nothing but where they are. -/
theorem peek_sees (h : r.Sees V size) (n : Nat) :
    (r.peek n).1 = V % 2 ^ n ∧ (r.peek n).2.Sees V size ∧
      ∀ k ≤ n, k ≤ size → ((r.peek n).2.skip k).Sees (V / 2 ^ k) (size - k) := by
  obtain ⟨hsees, hfull⟩ := fillBits_sees n (show (BitRd.mk r.acc r.nb r.s).Sees V size from h)
  have hcount := hsees.count
  refine ⟨?_, hsees, ?_⟩
  · exact hsees.holds.peek (hfull.imp_left fun hn => by omega)
  · intro k hk hsize
    have hthere : k ≤ (fillBits n r.s r.acc r.nb).nb.toNat := by
      rcases hfull with hn | hs
      · omega
      · have hbits := hsees.holds.size
        rw [hs, List.length_nil] at hbits
        omega
    refine ⟨?_, ?_⟩
    · show 0 ≤ (fillBits n r.s r.acc r.nb).nb - k
      omega
    · have htake := hsees.holds.take hthere
      have hleft : ((fillBits n r.s r.acc r.nb).nb - k).toNat =
          (fillBits n r.s r.acc r.nb).nb.toNat - k := by omega
      show Holds _ ((fillBits n r.s r.acc r.nb).nb - k).toNat _ _ _
      rw [hleft]
      exact htake

/-- **A FIELD** before the reader is read and taken. -/
theorem get_before {v n spare : Nat} {fs : List (Nat × Nat)} (hv : v < 2 ^ n)
    (h : r.Before ((v, n) :: fs) spare) :
    ∃ r', r.get n = (v, r') ∧ r'.Before fs spare := by
  obtain ⟨V, hsees, hstarts⟩ := h
  obtain ⟨hvalue, -, hskip⟩ := peek_sees hsees n
  obtain ⟨hlow, hthere, hrest⟩ := hstarts.take
  have hsize : width ((v, n) :: fs) + spare - n = width fs + spare := by
    show n + width fs + spare - n = _
    omega
  have hnext := hskip n (Nat.le_refl n) hthere
  rw [hsize] at hnext hrest
  refine ⟨(r.peek n).2.skip n, ?_, V / 2 ^ n, hnext, hrest⟩
  rw [BitRd.get, ← Nat.mod_eq_of_lt hv, ← hlow, ← hvalue]

/-- **A CODE** before the reader is decoded and taken. -/
theorem huffDec_before {lengths : Nat → Nat} {ns i spare : Nat} {lut : Nat → Option (Nat × Nat)}
    {fs : List (Nat × Nat)} (hlut : LutOf lengths ns ns lut) (hi : i < ns) (hpos : 0 < lengths i)
    (hshort : lengths i ≤ maxCodelen) (h : r.Before ((turned lengths ns i, lengths i) :: fs) spare) :
    ∃ r', huffDec r lut = some (i, r') ∧ r'.Before fs spare := by
  obtain ⟨V, hsees, hstarts⟩ := h
  obtain ⟨hvalue, -, hskip⟩ := peek_sees hsees maxCodelen
  obtain ⟨hlow, hthere, hrest⟩ := hstarts.take
  have hsize : width ((turned lengths ns i, lengths i) :: fs) + spare - lengths i =
      width fs + spare := by
    show lengths i + width fs + spare - lengths i = _
    omega
  have hnext := hskip (lengths i) hshort hthere
  rw [hsize] at hnext hrest
  rw [Nat.mod_eq_of_lt (turned_lt i)] at hlow
  have hentry := hlut.code i hi hpos (V % 2 ^ maxCodelen) (Nat.mod_lt _ (Nat.two_pow_pos _))
    (by rw [Nat.mod_mod_of_dvd _ (Nat.pow_dvd_pow 2 hshort)]; exact hlow)
  refine ⟨(r.peek maxCodelen).2.skip (lengths i), ?_, V / 2 ^ lengths i, hnext, hrest⟩
  rw [huffDec]
  dsimp only
  rw [hvalue, hentry]

end Reader

end Zupt.Lzh
