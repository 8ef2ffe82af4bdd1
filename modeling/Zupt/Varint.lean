import Zupt.Basic

/-! # Canonical base-128 integers

    The variable-length integers of the archive format: seven payload bits a
    byte, least significant group first, the top bit set on every byte but
    the last, at most ten bytes, and no overlong final zero. -/

namespace Zupt.Varint

/-- The `do .. while (v)` loop of `zupt_encode_varint`; ten turns are enough
    for 64 bits (`encodeLoop_roundTrip`). -/
def encodeLoop : (turns v : Nat) → Bytes
  | 0, _ => []
  | turns + 1, v =>
      if v / 128 = 0 then [UInt8.ofNat (v % 128)]
      else UInt8.ofNat (v % 128 + 128) :: encodeLoop turns (v / 128)

/-- `zupt_encode_varint`. -/
def encodeVarint (v : UInt64) : Bytes := encodeLoop 10 v.toNat

/-- The loop of `zupt_decode_varint` with `n` bytes consumed so far. -/
def decodeLoop : (n acc : Nat) → Bytes → Option (UInt64 × Nat)
  | _, _, [] => none
  | n, acc, byte :: rest =>
      if n ≥ 10 then none
      -- a tenth byte has one payload bit and no continuation
      else if n = 9 ∧ byte &&& 0xFE ≠ 0 then none
      else if byte &&& 0x80 = 0 then
        if n > 0 ∧ byte &&& 0x7F = 0 then none
        else some (UInt64.ofNat (acc ||| (byte &&& 0x7F).toNat <<< (7 * n)), n + 1)
      else decodeLoop (n + 1) (acc ||| (byte &&& 0x7F).toNat <<< (7 * n)) rest

/-- `zupt_decode_varint`: the value and the number of bytes it takes. -/
def decodeVarint (b : Bytes) : Option (UInt64 × Nat) := decodeLoop 0 0 b

/-! ## Decoding an encoding -/

theorem last_byte {v : Nat} (h : v < 128) :
    (UInt8.ofNat (v % 128)) &&& 0x80 = 0 ∧
      ((UInt8.ofNat (v % 128)) &&& 0x7F).toNat = v := by
  have key : ∀ v : Fin 128, (UInt8.ofNat (v.val % 128)) &&& 0x80 = 0 ∧
      ((UInt8.ofNat (v.val % 128)) &&& 0x7F).toNat = v.val := by decide
  exact key ⟨v, h⟩

theorem more_byte (v : Nat) :
    (UInt8.ofNat (v % 128 + 128)) &&& 0x80 ≠ 0 ∧
      ((UInt8.ofNat (v % 128 + 128)) &&& 0x7F).toNat = v % 128 := by
  have key : ∀ w : Fin 128, (UInt8.ofNat (w.val + 128)) &&& 0x80 ≠ 0 ∧
      ((UInt8.ofNat (w.val + 128)) &&& 0x7F).toNat = w.val := by decide
  exact key ⟨v % 128, Nat.mod_lt v (by decide)⟩

theorem last_byte_one {v : Nat} (h : v < 2) :
    (UInt8.ofNat (v % 128)) &&& 0xFE = 0 := by
  have key : ∀ v : Fin 2, (UInt8.ofNat (v.val % 128)) &&& 0xFE = 0 := by decide
  exact key ⟨v, h⟩

/-- Adding a group above the bits already read. -/
theorem or_group {acc n : Nat} (g : Nat) (hacc : acc < 2 ^ (7 * n)) :
    acc ||| g <<< (7 * n) = acc + g * 2 ^ (7 * n) := by
  rw [Nat.or_comm, Nat.shiftLeft_eq, Nat.mul_comm g,
    ← Nat.two_pow_add_eq_or_of_lt hacc, Nat.add_comm]

theorem pow_next (n : Nat) : 2 ^ (7 * (n + 1)) = 128 * 2 ^ (7 * n) := by
  rw [Nat.mul_add, Nat.pow_add, Nat.mul_comm]

/-- Decoding the encoding of `v` from the `n`-th byte on, with room for it
    below bit 64. -/
theorem decodeLoop_encodeLoop (rest : Bytes) :
    ∀ (turns n acc v : Nat), turns + n = 10 → acc < 2 ^ (7 * n) →
      v * 2 ^ (7 * n) < 2 ^ 64 → (0 < n → 0 < v) →
      decodeLoop n acc (encodeLoop turns v ++ rest)
        = some (UInt64.ofNat (acc + v * 2 ^ (7 * n)), n + (encodeLoop turns v).length) := by
  intro turns
  induction turns with
  | zero =>
      intro n acc v hn hacc hv hpos
      -- ten groups are read and the value is not exhausted: no room
      have hn10 : n = 10 := by omega
      subst hn10
      have := hpos (by decide)
      omega
  | succ turns ih =>
      intro n acc v hn hacc hv hpos
      have hn9 : n ≤ 9 := by omega
      by_cases hlast : v / 128 = 0
      · have hv128 : v < 128 := by omega
        obtain ⟨hbit, hval⟩ := last_byte hv128
        have hfe : ¬ (n = 9 ∧ (UInt8.ofNat (v % 128)) &&& 0xFE ≠ 0) := by
          rintro ⟨rfl, hne⟩
          exact hne (last_byte_one (by omega))
        have hover : ¬ (n > 0 ∧ (UInt8.ofNat (v % 128)) &&& 0x7F = 0) := by
          rintro ⟨hn0, hz⟩
          have := hpos hn0
          rw [hz] at hval
          have h0 : (0 : UInt8).toNat = 0 := rfl
          omega
        rw [encodeLoop, if_pos hlast]
        show (if n ≥ 10 then none else _) = _
        rw [if_neg (by omega), if_neg hfe, if_pos hbit, if_neg hover, hval,
          or_group v hacc]
        rfl
      · obtain ⟨hbit, hval⟩ := more_byte v
        have hv128 : 128 ≤ v := by omega
        have hn8 : n ≠ 9 := by
          rintro rfl
          omega
        have hacc' : acc + v % 128 * 2 ^ (7 * n) < 2 ^ (7 * (n + 1)) := by
          have hm : v % 128 + 1 ≤ 128 := Nat.mod_lt v (by decide)
          have hmul := Nat.mul_le_mul_right (2 ^ (7 * n)) hm
          rw [pow_next]
          rw [Nat.add_mul, Nat.one_mul] at hmul
          omega
        have hsplit : v % 128 * 2 ^ (7 * n) + v / 128 * 2 ^ (7 * (n + 1))
            = v * 2 ^ (7 * n) := by
          rw [pow_next, ← Nat.mul_assoc, ← Nat.add_mul]
          congr 1
          omega
        rw [encodeLoop, if_neg hlast, List.cons_append, decodeLoop]
        rw [if_neg (by omega), if_neg (by rintro ⟨h, -⟩; exact hn8 h), if_neg hbit, hval,
          or_group (v % 128) hacc]
        have hv' : v / 128 * 2 ^ (7 * (n + 1)) < 2 ^ 64 := by omega
        have := ih (n + 1) (acc + v % 128 * 2 ^ (7 * n)) (v / 128) (by omega) hacc' hv'
          (fun _ => by omega)
        rw [this, Nat.add_assoc acc, hsplit, List.length_cons]
        congr 2
        omega

/-- **ROUND TRIP**: the encoding of a value, followed by anything, decodes to
    the value and its own length. -/
theorem decodeVarint_encodeVarint (v : UInt64) (rest : Bytes) :
    decodeVarint (encodeVarint v ++ rest) = some (v, (encodeVarint v).length) := by
  have h := decodeLoop_encodeLoop rest 10 0 0 v.toNat rfl (by decide)
    (by rw [Nat.mul_zero, Nat.pow_zero, Nat.mul_one]; exact v.toNat_lt)
    (fun h => absurd h (by decide))
  rw [Nat.mul_zero, Nat.pow_zero, Nat.mul_one, Nat.zero_add, Nat.zero_add,
    UInt64.ofNat_toNat] at h
  exact h

/-- A decoded integer takes at most the bytes there are. -/
theorem decodeLoop_length {n acc : Nat} {b : Bytes} {v : UInt64} {m : Nat}
    (h : decodeLoop n acc b = some (v, m)) : n < m ∧ m ≤ n + b.length ∧ m ≤ 10 := by
  induction b generalizing n acc with
  | nil => exact nomatch h
  | cons byte rest ih =>
      rw [decodeLoop] at h
      by_cases h10 : n ≥ 10
      · rw [if_pos h10] at h
        exact nomatch h
      · rw [if_neg h10] at h
        split at h
        · exact nomatch h
        · split at h
          · split at h
            · exact nomatch h
            · have hm := (Prod.mk.inj (Option.some.inj h)).2
              rw [List.length_cons]
              omega
          · have := ih h
            rw [List.length_cons]
            omega

theorem encodeLoop_length_le (turns v : Nat) : (encodeLoop turns v).length ≤ turns := by
  induction turns generalizing v with
  | zero => exact Nat.le_refl 0
  | succ turns ih =>
      rw [encodeLoop]
      split
      · rw [List.length_singleton]
        omega
      · have := ih (v / 128)
        rw [List.length_cons]
        omega

theorem encodeVarint_length_le (v : UInt64) : (encodeVarint v).length ≤ 10 :=
  encodeLoop_length_le 10 v.toNat

end Zupt.Varint
