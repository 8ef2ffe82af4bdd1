import Zupt.Stream

/-! # One encoding for each integer

    `zupt_decode_varint` accepts nothing but what `zupt_encode_varint` writes, and
    `zupt_read_varint`, a loop of its own over `fgetc`, decides as it does on the
    same bytes. -/

namespace Zupt.Varint

/-! ## What is accepted is an encoding -/

/-- The payload of a byte with and without the continuation bit. -/
theorem payload_byte (byte : UInt8) :
    (byte &&& 0x80 = 0 → byte.toNat < 128 ∧ (byte &&& 0x7F).toNat = byte.toNat) ∧
      (byte &&& 0x80 ≠ 0 → 128 ≤ byte.toNat ∧ (byte &&& 0x7F).toNat + 128 = byte.toNat) := by
  have key : ∀ b : Fin 256,
      (UInt8.ofNat b.val &&& 0x80 = 0 → (UInt8.ofNat b.val).toNat < 128 ∧
        (UInt8.ofNat b.val &&& 0x7F).toNat = (UInt8.ofNat b.val).toNat) ∧
      (UInt8.ofNat b.val &&& 0x80 ≠ 0 → 128 ≤ (UInt8.ofNat b.val).toNat ∧
        (UInt8.ofNat b.val &&& 0x7F).toNat + 128 = (UInt8.ofNat b.val).toNat) := by decide +kernel
  have hbyte := key ⟨byte.toNat, byte.toNat_lt⟩
  rw [UInt8.ofNat_toNat] at hbyte
  exact hbyte

/-- A tenth byte that is accepted is 0 or 1. -/
theorem tenth_byte {byte : UInt8} (h : byte &&& 0xFE = 0) : byte.toNat < 2 := by
  have key : ∀ b : Fin 256, UInt8.ofNat b.val &&& 0xFE = 0 → (UInt8.ofNat b.val).toNat < 2 := by
    decide +kernel
  have hbyte := key ⟨byte.toNat, byte.toNat_lt⟩
  rw [UInt8.ofNat_toNat] at hbyte
  exact hbyte h

/-- **WHAT IS ACCEPTED** from the `n`-th byte on is the encoding of a value with room
    below bit 64. -/
theorem decodeLoop_accepts {turns n acc m : Nat} {b : Bytes} {v : UInt64} (hn : turns + n = 10)
    (hacc : acc < 2 ^ (7 * n)) (h : decodeLoop n acc b = some (v, m)) :
    ∃ w, v = UInt64.ofNat (acc + w * 2 ^ (7 * n)) ∧ w * 2 ^ (7 * n) < 2 ^ 64 ∧
      (0 < n → 0 < w) ∧ b.take (m - n) = encodeLoop turns w := by
  induction b generalizing turns n acc with
  | nil => cases h
  | cons byte rest ih =>
      rw [decodeLoop] at h
      by_cases h10 : n ≥ 10
      · rw [if_pos h10] at h
        cases h
      rw [if_neg h10] at h
      obtain ⟨turns, rfl⟩ : ∃ t, turns = t + 1 := ⟨turns - 1, by omega⟩
      by_cases htenth : n = 9 ∧ byte &&& 0xFE ≠ 0
      · rw [if_pos htenth] at h
        cases h
      rw [if_neg htenth] at h
      obtain ⟨hlast, hmore⟩ := payload_byte byte
      by_cases hbit : byte &&& 0x80 = 0
      · obtain ⟨hlt, hval⟩ := hlast hbit
        rw [if_pos hbit] at h
        by_cases hover : n > 0 ∧ byte &&& 0x7F = 0
        · rw [if_pos hover] at h
          cases h
        rw [if_neg hover, or_group _ hacc, hval] at h
        obtain ⟨hv, hm⟩ := Prod.mk.inj (Option.some.inj h)
        refine ⟨byte.toNat, hv.symm, ?_, ?_, ?_⟩
        · by_cases hnine : n = 9
          · have htwo := tenth_byte (not_not.mp fun hne => htenth ⟨hnine, hne⟩)
            rw [hnine]
            omega
          · have hpow : 2 ^ (7 * n) ≤ 2 ^ 56 := Nat.pow_le_pow_right (by decide) (by omega)
            have hmul := Nat.mul_le_mul (Nat.le_of_lt_succ hlt) hpow
            omega
        · intro hpos
          refine Nat.pos_of_ne_zero fun hzero => hover ⟨hpos, UInt8.toNat_inj.mp ?_⟩
          rw [hval, hzero]
          rfl
        · have hone : m - n = 1 := by omega
          have hbyte : byte.toNat % 128 = byte.toNat := Nat.mod_eq_of_lt hlt
          rw [hone, encodeLoop, if_pos (by omega), hbyte, UInt8.ofNat_toNat]
          rfl
      · -- a byte with the continuation bit is not the tenth
        have hnine : n ≠ 9 := by
          intro hnine
          refine htenth ⟨hnine, fun hzero => ?_⟩
          have htwo := tenth_byte hzero
          have hhigh := (hmore hbit).1
          omega
        obtain ⟨hhigh, hval⟩ := hmore hbit
        have hgroup : (byte &&& 0x7F).toNat < 128 := by
          have hlt := byte.toNat_lt
          omega
        rw [if_neg hbit, or_group _ hacc] at h
        have hacc' : acc + (byte &&& 0x7F).toNat * 2 ^ (7 * n) < 2 ^ (7 * (n + 1)) := by
          have hmul := Nat.mul_le_mul_right (2 ^ (7 * n)) (Nat.succ_le_of_lt hgroup)
          rw [pow_next]
          rw [Nat.succ_mul] at hmul
          omega
        obtain ⟨w, hv, hroom, hpos, htake⟩ := ih (show turns + (n + 1) = 10 by omega) hacc' h
        have hlen := decodeLoop_length h
        have hw := hpos (Nat.succ_pos n)
        have hsplit : (byte &&& 0x7F).toNat * 2 ^ (7 * n) + w * 2 ^ (7 * (n + 1)) =
            ((byte &&& 0x7F).toNat + 128 * w) * 2 ^ (7 * n) := by
          rw [pow_next, Nat.add_mul, Nat.mul_comm 128 w, Nat.mul_assoc]
        have hmod : ((byte &&& 0x7F).toNat + 128 * w) % 128 + 128 = byte.toNat := by omega
        have hdiv : ((byte &&& 0x7F).toNat + 128 * w) / 128 = w := by omega
        refine ⟨(byte &&& 0x7F).toNat + 128 * w, ?_, ?_, fun _ => by omega, ?_⟩
        · rw [hv, Nat.add_assoc, hsplit]
        · rw [← hsplit, pow_next]
          rw [pow_next] at hroom
          -- the group below does not carry into bit 64
          have hgap : (byte &&& 0x7F).toNat * 2 ^ (7 * n) < 128 * 2 ^ (7 * n) :=
            Nat.mul_lt_mul_of_pos_right hgroup (Nat.two_pow_pos _)
          have hdvd : 128 * 2 ^ (7 * n) ∣ 2 ^ 64 := by
            rw [← pow_next]
            exact Nat.pow_dvd_pow 2 (by omega)
          obtain ⟨k, hk⟩ := hdvd
          rw [hk, Nat.mul_comm] at hroom
          have hwk : w < k := Nat.lt_of_mul_lt_mul_left hroom
          have hle := Nat.mul_le_mul_left (128 * 2 ^ (7 * n)) (Nat.succ_le_of_lt hwk)
          rw [Nat.mul_succ] at hle
          rw [hk, Nat.mul_comm w]
          omega
        · have hstep : m - n = (m - (n + 1)) + 1 := by omega
          rw [hstep, List.take_succ_cons, htake, encodeLoop, if_neg (by omega), hmod, hdiv,
            UInt8.ofNat_toNat]

/-- **CANONICAL**: the bytes that a decoded integer takes are its encoding. -/
theorem take_of_decodeVarint {b : Bytes} {v : UInt64} {n : Nat} (h : decodeVarint b = some (v, n)) :
    b.take n = encodeVarint v := by
  obtain ⟨w, hv, hroom, -, htake⟩ := decodeLoop_accepts (show 10 + 0 = 10 from rfl) Nat.one_pos h
  rw [Nat.mul_zero, Nat.pow_zero, Nat.mul_one] at hroom
  rw [Nat.mul_zero, Nat.pow_zero, Nat.mul_one, Nat.zero_add] at hv
  rw [Nat.sub_zero] at htake
  rw [htake, hv, encodeVarint, UInt64.toNat_ofNat_of_lt' hroom]

/-- A buffer that starts with a decoded integer is its encoding and the rest. -/
theorem eq_of_decodeVarint {b : Bytes} {v : UInt64} {n : Nat} (h : decodeVarint b = some (v, n)) :
    b = encodeVarint v ++ b.drop n ∧ n = (encodeVarint v).length := by
  have htake := take_of_decodeVarint h
  have hlen := (decodeLoop_length h).2.1
  constructor
  · rw [← htake, List.take_append_drop]
  · rw [← htake, List.length_take]
    omega

/-! ## The reader of a stream -/

/-- `fgetc`: the byte, or `none` for `EOF`, and the position behind it. -/
def fgetc (f : Bytes) (pos : Nat) : Option UInt8 × Nat :=
  match f[pos]? with
  | none => (none, pos)
  | some byte => (some byte, pos + 1)

/-- The loop of `zupt_read_varint`, with `turns` of its ten left: the value and the
    count, or `none` for -1, and where the stream stands. -/
def readVarintLoop (f : Bytes) :
    (turns i : Nat) → (v : UInt64) → (pos : Nat) → Option (UInt64 × Nat) × Nat
  | 0, _, _, pos => (none, pos)
  | turns + 1, i, v, pos =>
      match fgetc f pos with
      | (none, pos) => (none, pos)
      | (some byte, pos) =>
          let payload := byte &&& 0x7F
          if i = 9 ∧ byte &&& 0xFE ≠ 0 then (none, pos)
          else
            let v := v ||| payload.toUInt64 <<< UInt64.ofNat (7 * i)
            if byte &&& 0x80 = 0 then
              if 0 < i ∧ payload = 0 then (none, pos) else (some (v, i + 1), pos)
            else readVarintLoop f turns (i + 1) v pos

/-- `zupt_read_varint`. -/
def readVarintStream (f : Bytes) (pos : Nat) : Option (UInt64 × Nat) × Nat :=
  readVarintLoop f 10 0 0 pos

/-- The shifted payload of a byte, and the or of it, in 64 bits. -/
theorem ofNat_or_group {n acc : Nat} (hn : n < 10) (payload : UInt8) :
    UInt64.ofNat acc ||| payload.toUInt64 <<< UInt64.ofNat (7 * n) =
      UInt64.ofNat (acc ||| payload.toNat <<< (7 * n)) := by
  have hshift : (UInt64.ofNat (7 * n)).toNat = 7 * n :=
    UInt64.toNat_ofNat_of_lt' (by show 7 * n < 2 ^ 64; omega)
  apply UInt64.toNat_inj.mp
  rw [UInt64.toNat_or, UInt64.toNat_shiftLeft, UInt8.toNat_toUInt64, hshift, UInt64.toNat_ofNat',
    UInt64.toNat_ofNat', Nat.mod_eq_of_lt (show 7 * n < 64 by omega)]
  exact (Nat.or_mod_two_pow).symm

/-- **THE TWO DECODERS AGREE** from any byte on. -/
theorem readVarintLoop_eq (f : Bytes) {turns n acc : Nat} (hn : turns + n = 10) (pos : Nat) :
    (readVarintLoop f turns n (UInt64.ofNat acc) pos).1 = decodeLoop n acc (f.drop pos) := by
  induction turns generalizing n acc pos with
  | zero =>
      rw [readVarintLoop]
      cases f.drop pos with
      | nil => rfl
      | cons byte rest => rw [decodeLoop, if_pos (by omega)]
  | succ turns ih =>
      rw [readVarintLoop, fgetc]
      by_cases hpos : pos < f.length
      · rw [List.getElem?_eq_getElem hpos, List.drop_eq_getElem_cons hpos, decodeLoop,
          if_neg (by omega)]
        dsimp only
        by_cases htenth : n = 9 ∧ f[pos] &&& 0xFE ≠ 0
        · rw [if_pos htenth, if_pos htenth]
        rw [if_neg htenth, if_neg htenth, ofNat_or_group (by omega)]
        by_cases hbit : f[pos] &&& 0x80 = 0
        · rw [if_pos hbit, if_pos hbit]
          by_cases hover : n > 0 ∧ f[pos] &&& 0x7F = 0
          · rw [if_pos hover, if_pos hover]
          · rw [if_neg hover, if_neg hover]
        · rw [if_neg hbit, if_neg hbit]
          exact ih (by omega) (pos + 1)
      · rw [List.getElem?_eq_none (Nat.not_lt.mp hpos), List.drop_eq_nil_of_le (Nat.not_lt.mp hpos)]
        rfl

theorem readVarintStream_eq (f : Bytes) (pos : Nat) :
    (readVarintStream f pos).1 = decodeVarint (f.drop pos) :=
  readVarintLoop_eq f rfl pos

/-- **VARINTS ARE CANONICAL**: an encoding in front of anything is decoded, what is
    decoded is an encoding, and the stream is read as the buffer is. -/
theorem varint_canonical :
    (∀ (v : UInt64) (suffix : Bytes),
      decodeVarint (encodeVarint v ++ suffix) = some (v, (encodeVarint v).length)) ∧
    (∀ (b : Bytes) (v : UInt64) (n : Nat), decodeVarint b = some (v, n) →
      n ≤ b.length ∧ b.take n = encodeVarint v) ∧
    ∀ (f : Bytes) (pos : Nat), (readVarintStream f pos).1 = decodeVarint (f.drop pos) := by
  refine ⟨decodeVarint_encodeVarint, fun b v n h => ⟨?_, take_of_decodeVarint h⟩, readVarintStream_eq⟩
  have hlen := (decodeLoop_length h).2.1
  omega

/-- The integer 300, which takes two bytes. -/
theorem varint_canonical_run :
    decodeVarint [0xAC, 0x02, 0x07] = some (300, 2) ∧ [0xAC, 0x02, 0x07].take 2 = encodeVarint 300 :=
  ⟨by decide, (varint_canonical.2.1 [0xAC, 0x02, 0x07] 300 2 (by decide)).2⟩

end Zupt.Varint
