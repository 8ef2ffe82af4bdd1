import Zupt.VaptVupt.BcjInverse

/-! # The ARM64 filter is a bijection

    Both conversions write back the bits of the immediate only, so that the other
    direction meets the same instruction; the immediates are added to modulo their
    width. -/

namespace Zupt.VaptVupt

open Zupt.LittleEndian

/-! ## Fields of a word -/

/-- A run of ones as a mask cuts out a field. -/
theorem and_field (x b k : Nat) : x &&& (2 ^ b * (2 ^ k - 1)) = 2 ^ b * (x / 2 ^ b % 2 ^ k) := by
  apply Nat.eq_of_testBit_eq
  intro i
  rw [Nat.testBit_and, Nat.testBit_two_pow_mul, Nat.testBit_two_pow_mul,
    Nat.testBit_two_pow_sub_one, Nat.testBit_mod_two_pow, Nat.testBit_div_two_pow]
  by_cases hi : b ≤ i
  · have hsum : i - b + b = i := Nat.sub_add_cancel hi
    simp [hi, hsum, Bool.and_comm]
  · simp [hi]

/-- The word with these fields, from below: a register, the high part of the
    immediate, the opcode, the low part of the immediate and the top bit. -/
theorem or_fields {r h o l : Nat} (b : Nat) (hr : r < 2 ^ 5) (hh : h < 2 ^ 19) (ho : o < 2 ^ 5)
    (hl : l < 2 ^ 2) :
    r ||| 2 ^ 5 * h ||| 2 ^ 24 * o ||| 2 ^ 29 * l ||| 2 ^ 31 * b =
      r + 2 ^ 5 * h + 2 ^ 24 * o + 2 ^ 29 * l + 2 ^ 31 * b := by
  rw [Nat.or_comm r, ← Nat.two_pow_add_eq_or_of_lt hr, Nat.or_comm _ (2 ^ 24 * o),
    ← Nat.two_pow_add_eq_or_of_lt (by omega), Nat.or_comm _ (2 ^ 29 * l),
    ← Nat.two_pow_add_eq_or_of_lt (by omega), Nat.or_comm _ (2 ^ 31 * b),
    ← Nat.two_pow_add_eq_or_of_lt (by omega)]
  omega

/-- The fields of a word again. -/
theorem fields_of {n r h o l b : Nat} (hr : r < 2 ^ 5) (hh : h < 2 ^ 19) (ho : o < 2 ^ 5)
    (hl : l < 2 ^ 2)
    (hn : n = r + 2 ^ 5 * h + 2 ^ 24 * o + 2 ^ 29 * l + 2 ^ 31 * b) :
    n % 2 ^ 5 = r ∧ n / 2 ^ 5 % 2 ^ 19 = h ∧ n / 2 ^ 24 % 2 ^ 5 = o ∧ n / 2 ^ 29 % 2 ^ 2 = l ∧
      n / 2 ^ 31 = b := by
  refine ⟨?_, ?_, ?_, ?_, ?_⟩ <;> omega

theorem sum_fields (n : Nat) : n % 2 ^ 5 + 2 ^ 5 * (n / 2 ^ 5 % 2 ^ 19) +
    2 ^ 24 * (n / 2 ^ 24 % 2 ^ 5) + 2 ^ 29 * (n / 2 ^ 29 % 2 ^ 2) + 2 ^ 31 * (n / 2 ^ 31) = n := by
  omega

/-- What an instruction word is to the filter. -/
inductive ArmKind where
  | bl
  | adrp
  | other
  deriving DecidableEq, Repr

/-- The tests of `vv_bcj_arm64`. -/
def armKind (insn : UInt32) : ArmKind :=
  if insn >>> 26 = 0x25 then .bl
  else if insn &&& 0x9F000000 = 0x90000000 then .adrp
  else .other

theorem toNat_shiftRight {v s : UInt32} {n : Nat} (hs : s.toNat = n) (hn : n < 32) :
    (v >>> s).toNat = v.toNat / 2 ^ n := by
  rw [UInt32.toNat_shiftRight, hs, Nat.mod_eq_of_lt hn, Nat.shiftRight_eq_div_pow]

theorem toNat_shiftLeft {v s : UInt32} {n : Nat} (hs : s.toNat = n) (hn : n < 32)
    (hv : v.toNat * 2 ^ n < 2 ^ 32) : (v <<< s).toNat = 2 ^ n * v.toNat := by
  rw [UInt32.toNat_shiftLeft, hs, Nat.mod_eq_of_lt hn, Nat.shiftLeft_eq, Nat.mod_eq_of_lt hv,
    Nat.mul_comm]

theorem toNat_and_ones {v m : UInt32} {k : Nat} (hm : m.toNat = 2 ^ k - 1) :
    (v &&& m).toNat = v.toNat % 2 ^ k := by
  rw [UInt32.toNat_and, hm, Nat.and_two_pow_sub_one_eq_mod]

theorem opcode_iff (insn : UInt32) : insn >>> 26 = 0x25 ↔ insn.toNat / 2 ^ 26 = 0x25 := by
  rw [← UInt32.toNat_inj, toNat_shiftRight (n := 26) rfl (by decide)]
  rfl

theorem armKind_bl_iff (insn : UInt32) : armKind insn = .bl ↔ insn.toNat / 2 ^ 26 = 0x25 := by
  rw [armKind, ← opcode_iff]
  by_cases h : insn >>> 26 = 0x25
  · rw [if_pos h]
    exact iff_of_true rfl h
  · rw [if_neg h]
    refine iff_of_false ?_ h
    split
    · exact ArmKind.noConfusion
    · exact ArmKind.noConfusion

/-- The opcode bits of an ADRP. -/
theorem and_opcode (insn : UInt32) :
    (insn &&& 0x9F000000).toNat =
      2 ^ 24 * (insn.toNat / 2 ^ 24 % 2 ^ 5) + 2 ^ 31 * (insn.toNat / 2 ^ 31 % 2 ^ 1) := by
  have hmask : (0x9F000000 : UInt32).toNat = 2 ^ 24 * (2 ^ 5 - 1) ||| 2 ^ 31 * (2 ^ 1 - 1) := rfl
  rw [UInt32.toNat_and, hmask, Nat.and_or_distrib_left, and_field, and_field, Nat.or_comm,
    ← Nat.two_pow_add_eq_or_of_lt (by omega), Nat.add_comm]

theorem page_iff (insn : UInt32) : insn &&& 0x9F000000 = 0x90000000 ↔
    insn.toNat / 2 ^ 24 % 2 ^ 5 = 0x10 ∧ insn.toNat / 2 ^ 31 = 1 := by
  have hlt := insn.toNat_lt
  rw [← UInt32.toNat_inj, and_opcode]
  show _ = 0x90000000 ↔ _
  omega

theorem armKind_adrp_iff (insn : UInt32) :
    armKind insn = .adrp ↔ insn.toNat / 2 ^ 24 % 2 ^ 5 = 0x10 ∧ insn.toNat / 2 ^ 31 = 1 := by
  rw [armKind, ← page_iff]
  by_cases hbl : insn >>> 26 = 0x25
  · rw [if_pos hbl, page_iff]
    have hop := (opcode_iff insn).mp hbl
    refine iff_of_false ArmKind.noConfusion ?_
    omega
  · rw [if_neg hbl]
    by_cases h : insn &&& 0x9F000000 = 0x90000000
    · rw [if_pos h]
      exact iff_of_true rfl h
    · rw [if_neg h]
      exact iff_of_false ArmKind.noConfusion h

/-! ## The conversions -/

/-- The immediate with what a direction adds, modulo its width. -/
theorem toNat_moved (encoding : Bool) (imm cur : UInt32) {m : UInt32} {k : Nat} (hk : k ≤ 32)
    (hm : m.toNat = 2 ^ k - 1) :
    ((if encoding then imm + cur else imm - cur) &&& m).toNat =
      (imm.toNat + (bcjAdded encoding cur).toNat) % 2 ^ k := by
  rw [bcj_add, toNat_and_ones hm]
  exact (toNat_add_modEq imm _).of_dvd (Nat.pow_dvd_pow 2 hk)

/-- The other direction brings an immediate back. -/
theorem moved_back (encoding : Bool) (cur : UInt32) {x k : Nat} (hk : k ≤ 32) (hx : x < 2 ^ k) :
    ((x + (bcjAdded encoding cur).toNat) % 2 ^ k + (bcjAdded (!encoding) cur).toNat) % 2 ^ k = x := by
  have hopp : _ ≡ 0 [MOD 2 ^ k] :=
    (bcjAdded_opposite encoding cur).of_dvd (Nat.pow_dvd_pow 2 hk)
  have hsum : (x + (bcjAdded encoding cur).toNat) % 2 ^ k + (bcjAdded (!encoding) cur).toNat ≡
      x [MOD 2 ^ k] := by
    refine ((Nat.mod_modEq _ _).add_right _).trans ?_
    rw [Nat.add_assoc]
    exact hopp.add_left x
  rw [Nat.ModEq, Nat.mod_eq_of_lt hx] at hsum
  exact hsum

/-- **A BRANCH** keeps its opcode and moves its 26 bits. -/
theorem bcjArmWord_bl (encoding : Bool) (off : UInt32) {insn : UInt32} (h : armKind insn = .bl) :
    (bcjArmWord encoding off insn).toNat = 2 ^ 26 * 0x25 +
      (insn.toNat % 2 ^ 26 + (bcjAdded encoding (off >>> 2)).toNat) % 2 ^ 26 := by
  have hop := (armKind_bl_iff insn).mp h
  have htest : insn >>> 26 = 0x25 := (opcode_iff insn).mpr hop
  have hhigh : (insn &&& 0xFC000000).toNat = 2 ^ 26 * 0x25 := by
    have hmask : (0xFC000000 : UInt32).toNat = 2 ^ 26 * (2 ^ 6 - 1) := rfl
    rw [UInt32.toNat_and, hmask, and_field, hop]
    rfl
  have hlow : (insn &&& 0x03FFFFFF).toNat = insn.toNat % 2 ^ 26 := toNat_and_ones rfl
  rw [bcjArmWord, if_pos htest]
  dsimp only
  rw [UInt32.toNat_or, hhigh, toNat_moved encoding _ _ (k := 26) (by decide) rfl, hlow,
    ← Nat.two_pow_add_eq_or_of_lt (Nat.mod_lt _ (Nat.two_pow_pos _))]

/-- The immediate of an ADRP. -/
def adrpImm (n : Nat) : Nat := n / 2 ^ 29 % 2 ^ 2 + 2 ^ 2 * (n / 2 ^ 5 % 2 ^ 19)

theorem adrpImm_lt (n : Nat) : adrpImm n < 2 ^ 21 := by
  rw [adrpImm]
  omega

/-- **AN ADDRESS OF A PAGE** keeps its opcode and its register and moves the 21
    bits in their two places. -/
theorem bcjArmWord_adrp (encoding : Bool) (off : UInt32) {insn : UInt32} (h : armKind insn = .adrp) :
    ∃ imm, imm = (adrpImm insn.toNat + (bcjAdded encoding (off >>> 12)).toNat) % 2 ^ 21 ∧
      (bcjArmWord encoding off insn).toNat = insn.toNat % 2 ^ 5 + 2 ^ 5 * (imm / 2 ^ 2) +
        2 ^ 24 * 0x10 + 2 ^ 29 * (imm % 2 ^ 2) + 2 ^ 31 * 1 := by
  obtain ⟨hop, htop⟩ := (armKind_adrp_iff insn).mp h
  have hbl : ¬ insn >>> 26 = 0x25 := by
    rw [opcode_iff]
    omega
  have htest : insn &&& 0x9F000000 = 0x90000000 := (page_iff insn).mpr ⟨hop, htop⟩
  -- the bits that stay
  have hmask : (0x9F00001F : UInt32).toNat =
      2 ^ 0 * (2 ^ 5 - 1) ||| 2 ^ 24 * (2 ^ 5 - 1) ||| 2 ^ 31 * (2 ^ 1 - 1) := rfl
  have hkept : (insn &&& 0x9F00001F).toNat =
      insn.toNat % 2 ^ 5 ||| 2 ^ 24 * 0x10 ||| 2 ^ 31 * 1 := by
    rw [UInt32.toNat_and, hmask, Nat.and_or_distrib_left, Nat.and_or_distrib_left, and_field,
      and_field, and_field, hop, htop, Nat.pow_zero, Nat.one_mul, Nat.div_one]
    rfl
  -- the immediate, put together and taken apart
  have hlo : ((insn >>> 29) &&& (0x3 : UInt32)).toNat = insn.toNat / 2 ^ 29 % 2 ^ 2 := by
    rw [toNat_and_ones (k := 2) rfl, toNat_shiftRight (n := 29) rfl (by decide)]
  have hhi : ((insn >>> 5) &&& (0x7FFFF : UInt32)).toNat = insn.toNat / 2 ^ 5 % 2 ^ 19 := by
    rw [toNat_and_ones (k := 19) rfl, toNat_shiftRight (n := 5) rfl (by decide)]
  have himm : (((insn >>> 29) &&& (0x3 : UInt32)) |||
      (((insn >>> 5) &&& (0x7FFFF : UInt32)) <<< 2)).toNat = adrpImm insn.toNat := by
    have hshift : (((insn >>> 5) &&& (0x7FFFF : UInt32)) <<< 2).toNat =
        2 ^ 2 * (insn.toNat / 2 ^ 5 % 2 ^ 19) := by
      rw [toNat_shiftLeft (n := 2) rfl (by decide) (by rw [hhi]; omega), hhi]
    rw [UInt32.toNat_or, hlo, hshift, Nat.or_comm,
      ← Nat.two_pow_add_eq_or_of_lt (Nat.mod_lt _ (Nat.two_pow_pos _)), adrpImm, Nat.add_comm]
  refine ⟨_, rfl, ?_⟩
  rw [bcjArmWord, if_neg hbl, if_pos htest]
  dsimp only
  generalize hv : ((if encoding then (((insn >>> 29) &&& (0x3 : UInt32)) |||
      (((insn >>> 5) &&& (0x7FFFF : UInt32)) <<< 2)) + off >>> 12
    else (((insn >>> 29) &&& (0x3 : UInt32)) |||
      (((insn >>> 5) &&& (0x7FFFF : UInt32)) <<< 2)) - off >>> 12) &&& (0x001FFFFF : UInt32)) = v
  have hmoved : v.toNat =
      (adrpImm insn.toNat + (bcjAdded encoding (off >>> 12)).toNat) % 2 ^ 21 := by
    rw [← hv, toNat_moved encoding _ _ (k := 21) (by decide) rfl, himm]
  have hbound : v.toNat < 2 ^ 21 := by
    rw [hmoved]
    exact Nat.mod_lt _ (Nat.two_pow_pos _)
  have hlow : ((v &&& (0x3 : UInt32)) <<< 29).toNat = 2 ^ 29 * (v.toNat % 2 ^ 2) := by
    have hpart : (v &&& (0x3 : UInt32)).toNat = v.toNat % 2 ^ 2 := toNat_and_ones rfl
    rw [toNat_shiftLeft (n := 29) rfl (by decide) (by rw [hpart]; omega), hpart]
  have hhigh : (((v >>> 2) &&& (0x7FFFF : UInt32)) <<< 5).toNat = 2 ^ 5 * (v.toNat / 2 ^ 2) := by
    have hpart : ((v >>> 2) &&& (0x7FFFF : UInt32)).toNat = v.toNat / 2 ^ 2 := by
      rw [toNat_and_ones (k := 19) rfl, toNat_shiftRight (n := 2) rfl (by decide),
        Nat.mod_eq_of_lt (by omega)]
    rw [toNat_shiftLeft (n := 5) rfl (by decide) (by rw [hpart]; omega), hpart]
  rw [UInt32.toNat_or, UInt32.toNat_or, hkept, hlow, hhigh, ← hmoved]
  have hsort (r h o l b : Nat) : r ||| o ||| b ||| l ||| h = r ||| h ||| o ||| l ||| b := by
    ac_rfl
  rw [hsort, or_fields 1 (Nat.mod_lt _ (Nat.two_pow_pos _)) (by omega) (by decide)
    (Nat.mod_lt _ (Nat.two_pow_pos _))]

/-! ## One word -/

/-- The word of an instruction that is none of ours. -/
theorem bcjArmWord_other {encoding : Bool} {off insn : UInt32} (h : armKind insn = .other) :
    bcjArmWord encoding off insn = insn := by
  have hbl : ¬ insn >>> 26 = 0x25 := by
    intro htest
    have hkind := (armKind_bl_iff insn).mpr ((opcode_iff insn).mp htest)
    rw [h] at hkind
    exact ArmKind.noConfusion hkind
  have hpage : ¬ insn &&& 0x9F000000 = 0x90000000 := by
    intro htest
    have hkind := (armKind_adrp_iff insn).mpr ((page_iff insn).mp htest)
    rw [h] at hkind
    exact ArmKind.noConfusion hkind
  rw [bcjArmWord, if_neg hbl, if_neg hpage]

/-- **A CONVERTED WORD** is converted again. -/
theorem bcjArmWord_kind (encoding : Bool) (off insn : UInt32) :
    armKind (bcjArmWord encoding off insn) = armKind insn := by
  cases h : armKind insn with
  | bl =>
      have hword := bcjArmWord_bl encoding off h
      have hlow : (insn.toNat % 2 ^ 26 + (bcjAdded encoding (off >>> 2)).toNat) % 2 ^ 26 < 2 ^ 26 :=
        Nat.mod_lt _ (Nat.two_pow_pos _)
      rw [armKind_bl_iff, hword]
      omega
  | adrp =>
      obtain ⟨imm, himm, hword⟩ := bcjArmWord_adrp encoding off h
      have hbound : imm < 2 ^ 21 := by
        rw [himm]
        exact Nat.mod_lt _ (Nat.two_pow_pos _)
      obtain ⟨-, -, hop, -, htop⟩ := fields_of (Nat.mod_lt _ (Nat.two_pow_pos _)) (by omega)
        (by decide) (Nat.mod_lt _ (Nat.two_pow_pos _)) hword
      exact (armKind_adrp_iff _).mpr ⟨hop, htop⟩
  | other => rw [bcjArmWord_other h, h]

/-- **THE OTHER DIRECTION** brings a word back. -/
theorem bcjArmWord_undone (encoding : Bool) (off insn : UInt32) :
    bcjArmWord (!encoding) off (bcjArmWord encoding off insn) = insn := by
  have hkind := bcjArmWord_kind encoding off insn
  have hlt := insn.toNat_lt
  cases h : armKind insn with
  | bl =>
      have hop := (armKind_bl_iff insn).mp h
      have hfirst := bcjArmWord_bl encoding off h
      have hsecond := bcjArmWord_bl (!encoding) off (hkind.trans h)
      have hback := moved_back encoding (off >>> 2) (k := 26) (by decide)
        (Nat.mod_lt insn.toNat (Nat.two_pow_pos _))
      have hlow : (bcjArmWord encoding off insn).toNat % 2 ^ 26 =
          (insn.toNat % 2 ^ 26 + (bcjAdded encoding (off >>> 2)).toNat) % 2 ^ 26 := by
        rw [hfirst, Nat.mul_add_mod, Nat.mod_mod]
      rw [← UInt32.toNat_inj, hsecond, hlow, hback, ← hop]
      exact Nat.div_add_mod _ _
  | adrp =>
      obtain ⟨hop, htop⟩ := (armKind_adrp_iff insn).mp h
      obtain ⟨imm, himm, hfirst⟩ := bcjArmWord_adrp encoding off h
      obtain ⟨imm', himm', hsecond⟩ :=
        bcjArmWord_adrp (!encoding) off (hkind.trans h)
      have hbound : imm < 2 ^ 21 := by
        rw [himm]
        exact Nat.mod_lt _ (Nat.two_pow_pos _)
      obtain ⟨hreg, hhi, -, hlo, -⟩ := fields_of (Nat.mod_lt _ (Nat.two_pow_pos _)) (by omega)
        (by decide) (Nat.mod_lt _ (Nat.two_pow_pos _)) hfirst
      -- the immediate of the second pass is the one that the first pass stored
      have hread : adrpImm (bcjArmWord encoding off insn).toNat = imm := by
        rw [adrpImm, hlo, hhi]
        exact Nat.mod_add_div imm (2 ^ 2)
      have hback : imm' = adrpImm insn.toNat := by
        rw [himm', hread, himm]
        exact moved_back encoding _ (by decide) (adrpImm_lt _)
      have hlow : adrpImm insn.toNat % 2 ^ 2 = insn.toNat / 2 ^ 29 % 2 ^ 2 := by
        rw [adrpImm, Nat.add_mul_mod_self_left, Nat.mod_mod]
      have hhigh : adrpImm insn.toNat / 2 ^ 2 = insn.toNat / 2 ^ 5 % 2 ^ 19 := by
        rw [adrpImm, Nat.add_mul_div_left _ _ (by decide),
          Nat.div_eq_of_lt (Nat.mod_lt _ (by decide)), Nat.zero_add]
      rw [← UInt32.toNat_inj, hsecond, hreg, hback, hhigh, hlow, ← hop, ← htop]
      exact sum_fields insn.toNat
  | other => rw [bcjArmWord_other (hkind.trans h), bcjArmWord_other h]

/-! ## The buffer -/

/-- The decisions of a pass, from word to word. -/
def bcjArmTurns (encoding : Bool) : (off : UInt32) → Bytes → List ArmKind
  | off, b0 :: b1 :: b2 :: b3 :: rest =>
      armKind (le32Get [b0, b1, b2, b3]) :: bcjArmTurns encoding (off + 4) rest
  | _, _ => []

/-- Four bytes are the word that they store. -/
theorem le32Put_four (b0 b1 b2 b3 : UInt8) :
    le32Put (le32Get [b0, b1, b2, b3]) = [b0, b1, b2, b3] := by
  have htake : [b0, b1, b2, b3].take 4 = [b0, b1, b2, b3] := rfl
  have hlt : leGet [b0, b1, b2, b3] < UInt32.size := by
    have hbound := leGet_lt [b0, b1, b2, b3]
    rw [List.length_cons, List.length_cons, List.length_cons, List.length_singleton] at hbound
    exact Nat.lt_of_lt_of_le hbound (by decide)
  rw [le32Put, le32Get, htake, UInt32.toNat_ofNat_of_lt' hlt]
  exact lePut_leGet [b0, b1, b2, b3]

/-- Every word is four bytes. -/
theorem le32Put_cons (v : UInt32) :
    ∃ b0 b1 b2 b3, le32Put v = [b0, b1, b2, b3] ∧ le32Get [b0, b1, b2, b3] = v := by
  have hget := le32Get_le32Put v []
  rw [List.append_nil] at hget
  exact ⟨_, _, _, _, rfl, hget⟩

/-- **THE OTHER DIRECTION UNDOES A PASS**, with the same decisions. -/
theorem bcjArmLoop_undone (encoding : Bool) (off : UInt32) (data : Bytes) :
    bcjArmLoop (!encoding) off (bcjArmLoop encoding off data) = data ∧
    bcjArmTurns (!encoding) off (bcjArmLoop encoding off data) = bcjArmTurns encoding off data := by
  induction off, data using bcjArmLoop.induct with
  | case1 off b0 b1 b2 b3 rest ih =>
      obtain ⟨c0, c1, c2, c3, hput, hget⟩ :=
        le32Put_cons (bcjArmWord encoding off (le32Get [b0, b1, b2, b3]))
      rw [bcjArmLoop, hput, List.cons_append, List.cons_append, List.cons_append, List.cons_append,
        List.nil_append, bcjArmLoop, bcjArmTurns, bcjArmTurns, hget, bcjArmWord_undone,
        bcjArmWord_kind, le32Put_four, ih.1, ih.2]
      exact ⟨rfl, rfl⟩
  | case2 off rest hshort =>
      rw [bcjArmLoop.eq_2 encoding off rest hshort, bcjArmLoop.eq_2 (!encoding) off rest hshort,
        bcjArmTurns.eq_2 encoding off rest hshort, bcjArmTurns.eq_2 (!encoding) off rest hshort]
      exact ⟨rfl, rfl⟩

/-! ## Both filters -/

/-- The decisions of `vv_bcj_x86` on a whole buffer. -/
def bcjX86Decisions (data : Bytes) (ip : UInt32) (encoding : Bool) : List BcjTurn :=
  if data.length < 5 then []
  else bcjX86Turns encoding (ip + 5) (data.length - 4) data.length data 0 0

/-- The decisions of `vv_bcj_arm64` on a whole buffer. -/
def bcjArm64Decisions (data : Bytes) (ip : UInt32) (encoding : Bool) : List ArmKind :=
  bcjArmTurns encoding ip data

/-- Bytes of one length with the same byte everywhere. -/
theorem eq_of_charAt {a b : Bytes} (hlen : a.length = b.length)
    (h : ∀ i, charAt a i = charAt b i) : a = b := by
  apply List.ext_getElem hlen
  intro i ha hb
  have hi := h i
  rw [charAt, charAt, List.getD_eq_getElem _ _ ha, List.getD_eq_getElem _ _ hb] at hi
  exact hi

/-- **THE X86 FILTER** in either direction undoes the other one. -/
theorem bcjX86_undone (data : Bytes) (ip : UInt32) (encoding : Bool) :
    bcjX86 (bcjX86 data ip encoding) ip (!encoding) = data ∧
    bcjX86Decisions (bcjX86 data ip encoding) ip (!encoding) =
      bcjX86Decisions data ip encoding := by
  by_cases hshort : data.length < 5
  · have hkept : bcjX86 data ip encoding = data := by
      rw [bcjX86, if_pos hshort]
    rw [hkept, bcjX86, if_pos hshort, bcjX86Decisions, bcjX86Decisions, if_pos hshort, if_pos hshort]
    exact ⟨rfl, rfl⟩
  · have hlen := bcjX86_length data ip encoding
    have hshort' : ¬ (bcjX86 data ip encoding).length < 5 := by
      rw [hlen]
      exact hshort
    have hpass : bcjX86 data ip encoding =
        bcjX86Loop encoding (ip + 5) (data.length - 4) data.length data 0 0 := by
      rw [bcjX86, if_neg hshort]
    have hroom : data.length - 4 + 4 ≤ data.length := by omega
    have hback : (∀ i, charAt (bcjX86Loop (!encoding) (ip + 5) (data.length - 4) data.length
        (bcjX86Loop encoding (ip + 5) (data.length - 4) data.length data 0 0) 0 0) i =
          charAt data i) ∧ _ := bcjX86Loop_undone hroom (by decide) data.length
    obtain ⟨hdata, hturns⟩ := hback
    constructor
    · apply eq_of_charAt
      · rw [bcjX86_length, hlen]
      · intro i
        rw [bcjX86, if_neg hshort', hlen, hpass]
        exact hdata i
    · rw [bcjX86Decisions, bcjX86Decisions, if_neg hshort, if_neg hshort', hlen, hpass]
      exact hturns

/-- **BOTH FILTERS ARE BIJECTIONS.** Either direction at one base undoes the
    other one on any buffer, and takes its decisions again. -/
theorem bcj_filters_undone (data : Bytes) (ip : UInt32) (encoding : Bool) :
    bcjX86 (bcjX86 data ip encoding) ip (!encoding) = data ∧
    bcjX86Decisions (bcjX86 data ip encoding) ip (!encoding) = bcjX86Decisions data ip encoding ∧
    bcjArm64 (bcjArm64 data ip encoding) ip (!encoding) = data ∧
    bcjArm64Decisions (bcjArm64 data ip encoding) ip (!encoding) =
      bcjArm64Decisions data ip encoding := by
  obtain ⟨hx86, hx86turns⟩ := bcjX86_undone data ip encoding
  obtain ⟨harm, harmturns⟩ := bcjArmLoop_undone encoding ip data
  exact ⟨hx86, hx86turns, harm, harmturns⟩


end Zupt.VaptVupt
