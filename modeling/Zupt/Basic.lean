import Mathlib

/-! # Bytes, C strings and error codes

    The vocabulary every module of the development shares: the library's
    error codes, the order on bytes, NUL-terminated strings, and the
    little-endian fixed-width integers of the on-disk format. -/

namespace Zupt

/-- The failing values of `zupt_error_t`; `ZUPT_OK` is the `ok` of `Except`. -/
inductive ZuptError where
  | io | corrupt | badMagic | badVersion | badChecksum | nomem
  | overflow | invalid | notFound | unsupported | authFail
  deriving DecidableEq, Repr

/-- A call that answers with a `zupt_error_t` and a value. -/
abbrev Result (α : Type) := Except ZuptError α

/-- Byte strings: file contents, buffers, payloads. -/
abbrev Bytes := List UInt8

/-- Bytes are linearly ordered as the unsigned numbers they are. -/
instance byteLinearOrder : LinearOrder UInt8 where
  le_refl := UInt8.le_refl
  le_trans _ _ _ := UInt8.le_trans
  lt_iff_le_not_ge a b := by
    rw [UInt8.lt_iff_toNat_lt, UInt8.le_iff_toNat_le, UInt8.le_iff_toNat_le]
    omega
  le_antisymm _ _ := UInt8.le_antisymm
  le_total := UInt8.le_total
  toDecidableLE := inferInstance
  toDecidableEq := inferInstance
  toDecidableLT := inferInstance

/-- A C string: its bytes up to, and without, the terminating NUL. -/
structure CString where
  bytes : Bytes
  nulFree : (0 : UInt8) ∉ bytes
  deriving DecidableEq, Repr

/-- `s[i]`, where the byte behind the last one is the terminating NUL. -/
def charAt (s : Bytes) (i : Nat) : UInt8 := s.getD i 0

end Zupt
