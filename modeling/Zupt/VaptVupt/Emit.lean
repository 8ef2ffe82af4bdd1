import Zupt.VaptVupt.Tokens

/-! # Writing token streams

    `emit_seq` of `vv_encoder.c` appends one sequence to a token stream: a run of
    literals and the match behind it, or the literals that end a block.  A stream
    is read back into its sequences here, and the sequences expand, over what
    lies in front of the block, to what they stand for. -/

namespace Zupt.VaptVupt

open Zupt.LittleEndian Zupt.Window

/-! ## Emission -/

/-- `write_varint`: a 255 for every 255 of the value, and what is left. -/
def writeVarint (val : Nat) : Bytes :=
  List.replicate (val / 255) 255 ++ [UInt8.ofNat (val % 255)]

/-- A length nibble: 15 announces an extension. -/
def lenNibble (v : Nat) : Nat := if 15 ≤ v then 15 else v

/-- The extension of a length. -/
def lenExt (v : Nat) : Bytes := if 15 ≤ v then writeVarint (v - 15) else []

/-- The offset field: two bytes for windows of up to 64 KiB, else three. -/
def offsetPut (offBytes off : Nat) : Bytes := lePut (if offBytes = 3 then 3 else 2) off

/-- `emit_seq`: a token, the literals and, where `ml` is not zero, a match. -/
def emitSeq (lits : Bytes) (ml off offBytes min_match : Nat) : Bytes :=
  let ml_f := if ml = 0 then 0 else lenNibble (ml - min_match)
  UInt8.ofNat (lenNibble lits.length * 16 + ml_f) :: (lenExt lits.length ++ lits ++
    (if 0 < ml then offsetPut offBytes off ++ lenExt (ml - min_match) else []))

/-! ## Sequences -/

/-- Literals and the match behind them. -/
structure Seq where
  lits : Bytes
  off : Nat
  len : Nat
  deriving DecidableEq, Repr

/-- The sequence as `emit_seq` writes it. -/
def Seq.emit (offBytes min_match : Nat) (q : Seq) : Bytes :=
  emitSeq q.lits q.len q.off offBytes min_match

/-- What a sequence makes of the bytes before it. -/
def Seq.expand (out : Bytes) (q : Seq) : Bytes := extend (out ++ q.lits) q.off q.len

/-- What sequences, and the literals behind them, make of the bytes before. -/
def expandSeqs (out : Bytes) (qs : List Seq) (tail : Bytes) : Bytes :=
  qs.foldl Seq.expand out ++ tail

/-- Every offset stays within what is in front of it. -/
def Reaches : Bytes → List Seq → Prop
  | _, [] => True
  | out, q :: qs => 0 < q.off ∧ q.off ≤ (out ++ q.lits).length ∧ Reaches (q.expand out) qs

theorem reaches_append {out : Bytes} {qs qs' : List Seq} :
    Reaches out (qs ++ qs') ↔ Reaches out qs ∧ Reaches (qs.foldl Seq.expand out) qs' := by
  induction qs generalizing out with
  | nil => exact ⟨fun h => ⟨trivial, h⟩, fun h => h.2⟩
  | cons q qs ih =>
      rw [List.cons_append, Reaches, Reaches, ih, List.foldl_cons]
      simp only [and_assoc]

/-- The stream of sequences and of the literals that end the block. -/
def emitSeqs (offBytes min_match : Nat) (qs : List Seq) (tail : Bytes) : Bytes :=
  qs.flatMap (Seq.emit offBytes min_match) ++ emitSeq tail 0 0 offBytes min_match

/-- A token stream read back: its sequences, and the literals it ends with. -/
def readSeqs (offBytes min_match : Nat) : (turns : Nat) → Bytes → Option (List Seq × Bytes)
  | 0, _ => none
  | _ + 1, [] => none
  | turns + 1, token :: ip =>
      match readLen (token.toNat / 16) ip with
      | none => none
      | some (ll, ip) =>
          if ip.length < ll then none
          else if (ip.drop ll).length = 0 then some ([], ip.take ll)
          else if (ip.drop ll).length < offBytes then none
          else
            match readLen (token.toNat % 16) ((ip.drop ll).drop offBytes) with
            | none => none
            | some (ml, rest) =>
                match readSeqs offBytes min_match turns rest with
                | none => none
                | some (qs, tail) =>
                    some (⟨ip.take ll, offsetGet offBytes (ip.drop ll), ml + min_match⟩ :: qs, tail)

/-- What is read in front of a stream: the literals that end it, or a sequence and more. -/
inductive FirstSeq (offBytes min_match n : Nat) (token : UInt8) (ip : Bytes) :
    List Seq → Bytes → Prop
  | last {lits : Bytes} (hll : readLen (token.toNat / 16) ip = some (lits.length, lits)) :
      FirstSeq offBytes min_match n token ip [] lits
  | more {ll ml : Nat} {rest behind tail : Bytes} {qs : List Seq}
      (hll : readLen (token.toNat / 16) ip = some (ll, rest)) (hfits : ¬ rest.length < ll)
      (hmore : ¬ (rest.drop ll).length = 0) (hoff : ¬ (rest.drop ll).length < offBytes)
      (hml : readLen (token.toNat % 16) ((rest.drop ll).drop offBytes) = some (ml, behind))
      (hread : readSeqs offBytes min_match n behind = some (qs, tail)) :
      FirstSeq offBytes min_match n token ip
        (⟨rest.take ll, offsetGet offBytes (rest.drop ll), ml + min_match⟩ :: qs) tail

theorem readSeqs_first {offBytes min_match n : Nat} {token : UInt8} {ip tail : Bytes}
    {qs : List Seq} (h : readSeqs offBytes min_match (n + 1) (token :: ip) = some (qs, tail)) :
    FirstSeq offBytes min_match n token ip qs tail := by
  rw [readSeqs] at h
  cases hll : readLen (token.toNat / 16) ip with
  | none =>
      rw [hll] at h
      cases h
  | some p =>
      obtain ⟨ll, rest⟩ := p
      rw [hll] at h
      dsimp only at h
      by_cases hfits : rest.length < ll
      · rw [if_pos hfits] at h
        cases h
      rw [if_neg hfits] at h
      by_cases hend : (rest.drop ll).length = 0
      · rw [if_pos hend] at h
        obtain ⟨rfl, rfl⟩ := Prod.mk.inj (Option.some.inj h)
        have hall : ll = rest.length := by
          rw [List.length_drop] at hend
          omega
        rw [hall, List.take_length]
        exact .last (hall ▸ hll)
      rw [if_neg hend] at h
      by_cases hoff : (rest.drop ll).length < offBytes
      · rw [if_pos hoff] at h
        cases h
      rw [if_neg hoff] at h
      cases hml : readLen (token.toNat % 16) ((rest.drop ll).drop offBytes) with
      | none =>
          rw [hml] at h
          cases h
      | some p =>
          obtain ⟨ml, behind⟩ := p
          rw [hml] at h
          dsimp only at h
          cases hread : readSeqs offBytes min_match n behind with
          | none =>
              rw [hread] at h
              cases h
          | some p =>
              obtain ⟨qs', tail'⟩ := p
              rw [hread] at h
              obtain ⟨rfl, rfl⟩ := Prod.mk.inj (Option.some.inj h)
              exact .more hll hfits hend hoff hml hread

/-! ## Reading what was written -/

theorem readExtLen_replicate (k : Nat) (rest : Bytes) :
    readExtLen (List.replicate k 255 ++ rest) =
      (readExtLen rest).map fun p => (255 * k + p.1, p.2) := by
  induction k with
  | zero =>
      rw [List.replicate_zero, List.nil_append]
      simp
  | succ k ih =>
      have hfull : ¬ (255 : UInt8) < 255 := by decide
      rw [List.replicate_succ, List.cons_append, readExtLen, if_neg hfull, ih]
      cases readExtLen rest with
      | none => rfl
      | some p =>
          simp only [Option.map_some, Option.some.injEq, Prod.mk.injEq, and_true]
          have hval : (255 : UInt8).toNat = 255 := rfl
          rw [hval]
          ring

/-- A varint is read back. -/
theorem readExtLen_writeVarint (val : Nat) (rest : Bytes) :
    readExtLen (writeVarint val ++ rest) = some (val, rest) := by
  have hrem : val % 255 < 255 := Nat.mod_lt _ (by decide)
  have hbyte : (UInt8.ofNat (val % 255)).toNat = val % 255 := by
    rw [UInt8.toNat_ofNat']
    omega
  have hless : UInt8.ofNat (val % 255) < 255 := by
    rw [UInt8.lt_iff_toNat_lt, hbyte]
    exact hrem
  rw [writeVarint, List.append_assoc, readExtLen_replicate, List.singleton_append, readExtLen,
    if_pos hless, hbyte]
  simp only [Option.map_some, Option.some.injEq, Prod.mk.injEq, and_true]
  omega

/-- A length is read back from its nibble and its extension. -/
theorem readLen_lenExt (v : Nat) (rest : Bytes) :
    readLen (lenNibble v) (lenExt v ++ rest) = some (v, rest) := by
  by_cases hlong : 15 ≤ v
  · rw [lenNibble, lenExt, if_pos hlong, if_pos hlong, readLen, if_pos rfl, readExtLen_writeVarint]
    simp only [Option.some.injEq, Prod.mk.injEq, and_true]
    omega
  · rw [lenNibble, lenExt, if_neg hlong, if_neg hlong, List.nil_append, readLen,
      if_neg (by omega)]

theorem lenNibble_lt (v : Nat) : lenNibble v < 16 := by
  rw [lenNibble]
  split
  · decide
  · omega

/-- Both nibbles of a token. -/
theorem token_nibbles {hi lo : Nat} (hhi : hi < 16) (hlo : lo < 16) :
    (UInt8.ofNat (hi * 16 + lo)).toNat / 16 = hi ∧ (UInt8.ofNat (hi * 16 + lo)).toNat % 16 = lo := by
  have hval : (UInt8.ofNat (hi * 16 + lo)).toNat = hi * 16 + lo := by
    rw [UInt8.toNat_ofNat']
    omega
  rw [hval]
  omega

/-- An offset is read back where it fits its field. -/
theorem offsetGet_offsetPut {offBytes off : Nat} (hbytes : offBytes = 2 ∨ offBytes = 3)
    (hoff : off < 256 ^ offBytes) (rest : Bytes) :
    offsetGet offBytes (offsetPut offBytes off ++ rest) = off := by
  rcases hbytes with rfl | rfl
  · rw [offsetGet, if_pos rfl, offsetPut, if_neg (by decide),
      List.take_append_of_le_length (by simp), List.take_of_length_le (by simp), leGet_lePut,
      Nat.mod_eq_of_lt hoff]
  · rw [offsetGet, if_neg (by decide), offsetPut, if_pos rfl,
      List.take_append_of_le_length (by simp), List.take_of_length_le (by simp), leGet_lePut,
      Nat.mod_eq_of_lt hoff]

theorem offsetPut_length {offBytes : Nat} (hbytes : offBytes = 2 ∨ offBytes = 3) (off : Nat) :
    (offsetPut offBytes off).length = offBytes := by
  rw [offsetPut, lePut_length]
  rcases hbytes with rfl | rfl
  · rfl
  · rfl

/-- What a sequence must meet to be read back. -/
structure Seq.Encodable (offBytes min_match : Nat) (q : Seq) : Prop where
  offset : q.off < 256 ^ offBytes
  pos : 0 < q.len
  length : min_match ≤ q.len

/-- The literals at the end are read back. -/
theorem readSeqs_tail (offBytes min_match turns : Nat) (tail : Bytes) :
    readSeqs offBytes min_match (turns + 1) (emitSeq tail 0 0 offBytes min_match) =
      some ([], tail) := by
  obtain ⟨hhi, _⟩ := token_nibbles (lenNibble_lt tail.length) (Nat.zero_lt_succ 15)
  rw [emitSeq]
  simp only [if_pos, Nat.lt_irrefl, if_false, List.append_nil]
  rw [readSeqs, hhi, readLen_lenExt]
  dsimp only
  rw [if_neg (Nat.lt_irrefl _), List.drop_length, if_pos List.length_nil, List.take_length]

/-- A sequence in front of a stream is read back. -/
theorem readSeqs_cons {offBytes min_match : Nat} (hbytes : offBytes = 2 ∨ offBytes = 3)
    {q : Seq} (hq : q.Encodable offBytes min_match) (turns : Nat) (rest : Bytes) :
    readSeqs offBytes min_match (turns + 1) (q.emit offBytes min_match ++ rest) =
      (readSeqs offBytes min_match turns rest).map fun p => (q :: p.1, p.2) := by
  obtain ⟨hhi, hlo⟩ :=
    token_nibbles (lenNibble_lt q.lits.length) (lenNibble_lt (q.len - min_match))
  have hput := offsetPut_length hbytes q.off
  have hne : q.len ≠ 0 := Nat.pos_iff_ne_zero.mp hq.pos
  have hlen : q.len - min_match + min_match = q.len := Nat.sub_add_cancel hq.length
  have hsome : ¬ (offsetPut offBytes q.off ++ (lenExt (q.len - min_match) ++ rest)).length = 0 := by
    rw [List.length_append, hput]
    omega
  have hroom : ¬ (offsetPut offBytes q.off ++ (lenExt (q.len - min_match) ++ rest)).length <
      offBytes := by
    rw [List.length_append, hput]
    omega
  rw [Seq.emit, emitSeq, if_neg hne, if_pos hq.pos]
  simp only [List.cons_append, List.append_assoc]
  rw [readSeqs, hhi, readLen_lenExt]
  dsimp only
  rw [if_neg (by rw [List.length_append]; omega), List.drop_left, if_neg hsome, if_neg hroom, hlo,
    List.drop_left' hput, readLen_lenExt, List.take_left,
    offsetGet_offsetPut hbytes hq.offset]
  dsimp only
  rw [hlen]
  cases readSeqs offBytes min_match turns rest with
  | none => rfl
  | some p => rfl

/-- **WRITTEN STREAMS ARE READ BACK** sequence by sequence. -/
theorem readSeqs_emitSeqs {offBytes min_match : Nat} (hbytes : offBytes = 2 ∨ offBytes = 3)
    {qs : List Seq} (hqs : ∀ q ∈ qs, q.Encodable offBytes min_match) (tail : Bytes) (turns : Nat)
    (hturns : qs.length < turns) :
    readSeqs offBytes min_match turns (emitSeqs offBytes min_match qs tail) = some (qs, tail) := by
  induction qs generalizing turns with
  | nil =>
      obtain ⟨turns, rfl⟩ : ∃ n, turns = n + 1 := ⟨turns - 1, by simp at hturns; omega⟩
      exact readSeqs_tail offBytes min_match turns tail
  | cons q qs ih =>
      obtain ⟨turns, rfl⟩ : ∃ n, turns = n + 1 := ⟨turns - 1, by simp at hturns; omega⟩
      have hrest := ih (fun p hp => hqs p (List.mem_cons_of_mem q hp)) turns (by simpa using hturns)
      rw [emitSeqs, List.flatMap_cons, List.append_assoc,
        readSeqs_cons hbytes (hqs q (List.mem_cons_self ..)), ← emitSeqs, hrest]
      rfl

/-- Every sequence takes a byte at least. -/
theorem length_lt_emitSeqs (offBytes min_match : Nat) (qs : List Seq) (tail : Bytes) :
    qs.length < (emitSeqs offBytes min_match qs tail).length := by
  induction qs with
  | nil => simp [emitSeqs, emitSeq]
  | cons q qs ih =>
      rw [emitSeqs] at ih ⊢
      rw [List.flatMap_cons, List.append_assoc, List.length_append, List.length_cons]
      have hq : 0 < (q.emit offBytes min_match).length := by
        rw [Seq.emit, emitSeq, List.length_cons]
        exact Nat.succ_pos _
      omega

end Zupt.VaptVupt
