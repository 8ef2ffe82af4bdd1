import Zupt.LittleEndian

/-! # Branch filters

    `vv_bcj.c`: the x86 and the ARM64 branch converters, which rewrite the
    operands of calls in place between their relative and an absolute form. -/

namespace Zupt.VaptVupt

open Zupt.LittleEndian

/-- `bcj_test_msb`. -/
def bcjTestMsb (b : UInt8) : Bool := b = 0x00 || b = 0xFF

/-- The scan of `vv_bcj_x86`: the first call or jump opcode at or behind
    `pos`, or `pos + left` where there is none. -/
def bcjScan (data : Bytes) : (left pos : Nat) → Nat
  | 0, pos => pos
  | left + 1, pos =>
      if charAt data pos &&& 0xFE = 0xE8 then pos else bcjScan data left (pos + 1)

/-- The four operand bytes behind the opcode at `p`. -/
def bcjOperand (data : Bytes) (p : Nat) : UInt32 :=
  (UInt32.ofNat (charAt data (p + 4)).toNat <<< 24) |||
  (UInt32.ofNat (charAt data (p + 3)).toNat <<< 16) |||
  (UInt32.ofNat (charAt data (p + 2)).toNat <<< 8) |||
  UInt32.ofNat (charAt data (p + 1)).toNat

/-- The converted operand of the opcode at `pos`. -/
def bcjConvert (encoding : Bool) (v cur mask : UInt32) : UInt32 :=
  let v := if encoding then v + cur else v - cur
  if mask ≠ 0 then
    let sh := (mask &&& 6) <<< 2
    if bcjTestMsb (UInt8.ofNat ((v >>> sh) &&& 0xFF).toNat) then
      let v := v ^^^ (((0x100 : UInt32) <<< sh) - 1)
      if encoding then v + cur else v - cur
    else v
  else v

/-- Operand bytes with the top one sign-extended from bit 24. -/
def bcjStore (data : Bytes) (p : Nat) (v : UInt32) : Bytes :=
  (((data.set (p + 1) (UInt8.ofNat (v &&& 0xFF).toNat)).set
    (p + 2) (UInt8.ofNat ((v >>> 8) &&& 0xFF).toNat)).set
    (p + 3) (UInt8.ofNat ((v >>> 16) &&& 0xFF).toNat)).set
    (p + 4) (UInt8.ofNat (((0 : UInt32) - ((v >>> 24) &&& 1)) &&& 0xFF).toNat)

/-- The rolling mask of recent opcodes after `d` bytes without one. -/
def bcjMask (mask : UInt32) (d : Nat) : UInt32 := if 2 < d then 0 else mask >>> UInt32.ofNat d

/-- The loop of `vv_bcj_x86`; `ip` is already that of the end of an
    instruction at position 0. -/
def bcjX86Loop (encoding : Bool) (ip : UInt32) (limit : Nat) :
    (turns : Nat) → Bytes → (pos : Nat) → (mask : UInt32) → Bytes
  | 0, data, _, _ => data
  | turns + 1, data, pos, mask =>
      let p := bcjScan data (limit - pos) pos
      if limit ≤ p then data
      else
        let mask := bcjMask mask (p - pos)
        if p - pos ≤ 2 ∧ mask ≠ 0 ∧ (4 < mask ∨ mask = 3 ∨
            bcjTestMsb (charAt data (p + (mask >>> 1).toNat + 1))) then
          bcjX86Loop encoding ip limit turns data (p + 1) ((mask >>> 1) ||| 4)
        else if bcjTestMsb (charAt data (p + 4)) then
          let v := bcjConvert encoding (bcjOperand data p) (ip + UInt32.ofNat p) mask
          bcjX86Loop encoding ip limit turns (bcjStore data p v) (p + 5) 0
        else
          bcjX86Loop encoding ip limit turns data (p + 1) ((mask >>> 1) ||| 4)

/-- `vv_bcj_x86`. Each turn moves past a byte, so `size` turns are enough. -/
def bcjX86 (data : Bytes) (ip : UInt32) (encoding : Bool) : Bytes :=
  if data.length < 5 then data
  else bcjX86Loop encoding (ip + 5) (data.length - 4) data.length data 0 0

/-- The conversion of the instruction word at stream position `off` in
    `vv_bcj_arm64`. -/
def bcjArmWord (encoding : Bool) (off insn : UInt32) : UInt32 :=
  if insn >>> 26 = 0x25 then
    let imm : UInt32 := insn &&& 0x03FFFFFF
    let cur : UInt32 := off >>> 2
    let imm : UInt32 := (if encoding then imm + cur else imm - cur) &&& (0x03FFFFFF : UInt32)
    (insn &&& 0xFC000000) ||| imm
  else if insn &&& 0x9F000000 = 0x90000000 then
    let imm : UInt32 := ((insn >>> 29) &&& (0x3 : UInt32)) |||
      (((insn >>> 5) &&& (0x7FFFF : UInt32)) <<< 2)
    let cur : UInt32 := off >>> 12
    let imm : UInt32 := (if encoding then imm + cur else imm - cur) &&& (0x001FFFFF : UInt32)
    (insn &&& (0x9F00001F : UInt32)) ||| ((imm &&& (0x3 : UInt32)) <<< 29) |||
      (((imm >>> 2) &&& (0x7FFFF : UInt32)) <<< 5)
  else insn

/-- The loop of `vv_bcj_arm64` over whole words; a partial one at the end
    stays as it is. -/
def bcjArmLoop (encoding : Bool) : (off : UInt32) → Bytes → Bytes
  | off, b0 :: b1 :: b2 :: b3 :: rest =>
      le32Put (bcjArmWord encoding off (le32Get [b0, b1, b2, b3])) ++
        bcjArmLoop encoding (off + 4) rest
  | _, rest => rest

/-- `vv_bcj_arm64`. -/
def bcjArm64 (data : Bytes) (ip : UInt32) (encoding : Bool) : Bytes :=
  bcjArmLoop encoding ip data

/-! ## Lengths -/

@[simp] theorem bcjStore_length (data : Bytes) (p : Nat) (v : UInt32) :
    (bcjStore data p v).length = data.length := by
  rw [bcjStore, List.length_set, List.length_set, List.length_set, List.length_set]

theorem bcjX86Loop_length (encoding : Bool) (ip : UInt32) (limit turns : Nat) (data : Bytes)
    (pos : Nat) (mask : UInt32) :
    (bcjX86Loop encoding ip limit turns data pos mask).length = data.length := by
  induction turns generalizing data pos mask with
  | zero => rfl
  | succ turns ih =>
      rw [bcjX86Loop]
      dsimp only
      split
      · rfl
      split
      · exact ih _ _ _
      split
      · rw [ih, bcjStore_length]
      · exact ih _ _ _

@[simp] theorem bcjX86_length (data : Bytes) (ip : UInt32) (encoding : Bool) :
    (bcjX86 data ip encoding).length = data.length := by
  rw [bcjX86]
  split
  · rfl
  · exact bcjX86Loop_length _ _ _ _ _ _ _

theorem bcjArmLoop_length (encoding : Bool) (off : UInt32) (data : Bytes) :
    (bcjArmLoop encoding off data).length = data.length := by
  induction off, data using bcjArmLoop.induct with
  | case1 off b0 b1 b2 b3 rest ih =>
      rw [bcjArmLoop, List.length_append, ih, le32Put_length]
      simp only [List.length_cons]
      omega
  | case2 off rest hshort =>
      rw [bcjArmLoop]
      exact hshort

@[simp] theorem bcjArm64_length (data : Bytes) (ip : UInt32) (encoding : Bool) :
    (bcjArm64 data ip encoding).length = data.length :=
  bcjArmLoop_length encoding ip data

end Zupt.VaptVupt
