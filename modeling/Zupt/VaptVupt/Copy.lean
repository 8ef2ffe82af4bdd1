import Zupt.VaptVupt.Frame
import Zupt.Window

/-! # Copies

    The literal and match copies of `vv_simd.c`, `vv_decoder.c` and `vv_ans.c`.
    They differ in the size of their pieces and in how much they write behind
    what was asked for; all of them mean the byte loop `dst[i] = dst[i - offset]`. -/

namespace Zupt.VaptVupt

open Zupt.Memory Zupt.Window

variable {α : Type}

/-- How a decoder stops early: with an error of its own, or at an access outside
    of what it may touch. -/
inductive Stop where
  | err (e : VvError)
  | fault
  deriving DecidableEq, Repr

/-- The routines behind `vv_copy_fast` and `vv_copy_match`. -/
inductive Simd where
  | scalar | sse2 | avx2 | neon
  deriving DecidableEq, Repr

variable (b : Bounds) (m : Mem α)

/-- `if (n > 0) memcpy(d, s, n)`. -/
def copyTail (d off n : Nat) : Option (Mem α) :=
  if 0 < n then copy b m d (d - off) n else some m

/-- `while (n >= c) { memcpy(d, s, c); .. }`, and the rest with one `memcpy`. -/
def copyChunks (c d off n : Nat) : Option (Mem α) :=
  (copyPieces b m d off c (n / c)).bind fun m => copyTail b m (d + n / c * c) off (n % c)

/-- `while (n >= 8) ..` with a register, and the rest byte by byte. -/
def copyWords (d off n : Nat) : Option (Mem α) :=
  (copyPieces b m d off 8 (n / 8)).bind fun m => copyCells b m (d + n / 8 * 8) off (n % 8)

/-- `copy_match_scalar`. -/
def copyMatchScalar (dst off length : Nat) : Option (Mem α) :=
  if 16 ≤ off then copyChunks b m 16 dst off length
  else if 8 ≤ off then copyWords b m dst off length
  else copyCells b m dst off length

/-- `match_copy_32`, and the wide branch of `copy_match_avx2`: 32 bytes at a
    time, then 16, then the rest. -/
def matchCopy32 (d off n : Nat) : Option (Mem α) :=
  (copyPieces b m d off 32 (n / 32)).bind fun m => copyChunks b m 16 (d + n / 32 * 32) off (n % 32)

/-- `copy_match_avx2`. -/
def copyMatchAvx2 (dst off length : Nat) : Option (Mem α) :=
  if 32 ≤ off then matchCopy32 b m dst off length else copyMatchScalar b m dst off length

/-- `copy_match_sse2` and `copy_match_neon`. -/
def copyMatchSse2 (dst off length : Nat) : Option (Mem α) :=
  if 16 ≤ off then copyChunks b m 16 dst off length else copyMatchScalar b m dst off length

/-- `vv_copy_match`. -/
def vvCopyMatch (simd : Simd) (dst off length : Nat) : Option (Mem α) :=
  match simd with
  | .scalar => copyMatchScalar b m dst off length
  | .avx2 => copyMatchAvx2 b m dst off length
  | .sse2 => copyMatchSse2 b m dst off length
  | .neon => copyMatchSse2 b m dst off length

/-- `vv_copy_fast`: the bytes of `src`. -/
def vvCopyFast (simd : Simd) (dst : Nat) (src : List α) : Option (Mem α) :=
  let store16 (m : Mem α) (dst : Nat) (src : List α) : Option (Mem α) :=
    (storePieces b m dst src 16 (src.length / 16)).bind fun m =>
      store b m (dst + src.length / 16 * 16) (src.drop (src.length / 16 * 16))
  match simd with
  | .scalar => store b m dst src
  | .sse2 => store16 m dst src
  | .neon => store16 m dst src
  | .avx2 =>
      (storePieces b m dst src 32 (src.length / 32)).bind fun m =>
        store16 m (dst + src.length / 32 * 32) (src.drop (src.length / 32 * 32))

/-- `match_copy_32_hot`: up to 32 bytes with a single store of 32. -/
def matchCopy32Hot (d off n : Nat) : Option (Mem α) :=
  if n ≤ 32 then copy b m d (d - off) 32
  else (copy b m d (d - off) 32).bind fun m => matchCopy32 b m (d + 32) off (n - 32)

/-- The match copy of the AVX2 token loops. -/
def tokenMatchCopy (op off mlen : Nat) : Option (Mem α) :=
  if 32 ≤ off then
    if op + 32 ≤ b.hi then matchCopy32Hot b m op off mlen else matchCopy32 b m op off mlen
  else if 16 ≤ off then copyChunks b m 16 op off mlen
  else if 8 ≤ off then copyWords b m op off mlen
  else copyCells b m op off mlen

/-- The match copy of the sequence loop. -/
def seqMatchCopy (d off matchlen : Nat) : Option (Mem α) :=
  if 16 ≤ off then
    if 4 ≤ matchlen ∧ matchlen ≤ 16 ∧ d + 16 ≤ b.hi then copy b m d (d - off) 16
    else if matchlen = 3 ∧ d + 16 ≤ b.hi then copyCells b m d off 3
    else copyChunks b m 16 d off matchlen
  else if 8 ≤ off then
    if 4 ≤ matchlen ∧ matchlen ≤ 8 ∧ d + 8 ≤ b.hi then copy b m d (d - off) 8
    else if matchlen ≤ 8 ∧ d + 8 ≤ b.hi then copyCells b m d off 3
    else copyWords b m d off matchlen
  else copyCells b m d off matchlen

/-! ## What they mean -/

section Meaning

variable {b m} {m0 : Mem α} {out : List α}

theorem Holds.copyTail (h : Holds b m0 m out) {d off n : Nat} (hd : d = b.lo + out.length)
    (hle : off ≤ out.length) (hn : n ≤ off) (hroom : d + n ≤ b.hi) :
    Gives b m0 (copyTail b m d off n) (extend out off n) := by
  rw [VaptVupt.copyTail]
  by_cases hpos : 0 < n
  · rw [if_pos hpos]
    exact h.copy hd rfl hle hn (Nat.le_refl n) hroom
  · rw [if_neg hpos]
    obtain rfl : n = 0 := by omega
    exact h.gives

theorem Holds.copyChunks (h : Holds b m0 m out) {c d off n : Nat} (hd : d = b.lo + out.length)
    (hc : 0 < c) (hoff : c ≤ off) (hle : off ≤ out.length) (hroom : d + n ≤ b.hi) :
    Gives b m0 (copyChunks b m c d off n) (extend out off n) := by
  have hsplit : n / c * c + n % c = n := by rw [Nat.mul_comm]; exact Nat.div_add_mod n c
  have hmod : n % c < c := Nat.mod_lt n hc
  have hhead : Gives b m0 (copyPieces b m d off c (n / c)) (extend out off (n / c * c)) :=
    h.copyPieces hd (by omega) hle hoff (by omega)
  refine hhead.bind ?_
  intro m' hm'
  have hlen : (extend out off (n / c * c)).length = out.length + n / c * c :=
    length_extend (by omega) hle _
  have htail : Gives b m0 (VaptVupt.copyTail b m' (d + n / c * c) off (n % c))
      (extend (extend out off (n / c * c)) off (n % c)) :=
    Holds.copyTail hm' (by omega) (by omega) (by omega) (by omega)
  rw [← extend_add, hsplit] at htail
  exact htail

theorem Holds.copyWords (h : Holds b m0 m out) {d off n : Nat} (hd : d = b.lo + out.length)
    (hoff : 8 ≤ off) (hle : off ≤ out.length) (hroom : d + n ≤ b.hi) :
    Gives b m0 (copyWords b m d off n) (extend out off n) := by
  have hhead : Gives b m0 (copyPieces b m d off 8 (n / 8)) (extend out off (n / 8 * 8)) :=
    h.copyPieces hd (by omega) hle hoff (by omega)
  refine hhead.bind ?_
  intro m' hm'
  have hlen : (extend out off (n / 8 * 8)).length = out.length + n / 8 * 8 :=
    length_extend (by omega) hle _
  have htail : Gives b m0 (copyCells b m' (d + n / 8 * 8) off (n % 8))
      (extend (extend out off (n / 8 * 8)) off (n % 8)) :=
    hm'.copyCells (by omega) (by omega) (by omega) (by omega)
  have hsplit : n / 8 * 8 + n % 8 = n := by omega
  rw [← extend_add, hsplit] at htail
  exact htail

theorem Holds.matchCopy32 (h : Holds b m0 m out) {d off n : Nat} (hd : d = b.lo + out.length)
    (hoff : 32 ≤ off) (hle : off ≤ out.length) (hroom : d + n ≤ b.hi) :
    Gives b m0 (matchCopy32 b m d off n) (extend out off n) := by
  have hhead : Gives b m0 (copyPieces b m d off 32 (n / 32)) (extend out off (n / 32 * 32)) :=
    h.copyPieces hd (by omega) hle hoff (by omega)
  refine hhead.bind ?_
  intro m' hm'
  have hlen : (extend out off (n / 32 * 32)).length = out.length + n / 32 * 32 :=
    length_extend (by omega) hle _
  have htail : Gives b m0 (VaptVupt.copyChunks b m' 16 (d + n / 32 * 32) off (n % 32))
      (extend (extend out off (n / 32 * 32)) off (n % 32)) :=
    Holds.copyChunks hm' (by omega) (by omega) (by omega) (by omega) (by omega)
  have hsplit : n / 32 * 32 + n % 32 = n := by omega
  rw [← extend_add, hsplit] at htail
  exact htail

theorem Holds.copyMatchScalar (h : Holds b m0 m out) {d off n : Nat} (hd : d = b.lo + out.length)
    (hoff : 0 < off) (hle : off ≤ out.length) (hroom : d + n ≤ b.hi) :
    Gives b m0 (copyMatchScalar b m d off n) (extend out off n) := by
  rw [VaptVupt.copyMatchScalar]
  by_cases h16 : 16 ≤ off
  · rw [if_pos h16]
    exact Holds.copyChunks h hd (by omega) h16 hle hroom
  rw [if_neg h16]
  by_cases h8 : 8 ≤ off
  · rw [if_pos h8]
    exact Holds.copyWords h hd h8 hle hroom
  · rw [if_neg h8]
    exact h.copyCells hd hoff hle hroom

/-- **EVERY `vv_copy_match`** is the byte loop. -/
theorem Holds.vvCopyMatch (h : Holds b m0 m out) (simd : Simd) {d off n : Nat}
    (hd : d = b.lo + out.length) (hoff : 0 < off) (hle : off ≤ out.length)
    (hroom : d + n ≤ b.hi) : Gives b m0 (vvCopyMatch b m simd d off n) (extend out off n) := by
  have hscalar := Holds.copyMatchScalar h hd hoff hle hroom
  have hsse2 : Gives b m0 (copyMatchSse2 b m d off n) (extend out off n) := by
    rw [copyMatchSse2]
    by_cases h16 : 16 ≤ off
    · rw [if_pos h16]
      exact Holds.copyChunks h hd (by omega) h16 hle hroom
    · rw [if_neg h16]
      exact hscalar
  cases simd with
  | scalar => exact hscalar
  | sse2 => exact hsse2
  | neon => exact hsse2
  | avx2 =>
      show Gives b m0 (copyMatchAvx2 b m d off n) (extend out off n)
      rw [copyMatchAvx2]
      by_cases h32 : 32 ≤ off
      · rw [if_pos h32]
        exact Holds.matchCopy32 h hd h32 hle hroom
      · rw [if_neg h32]
        exact hscalar

/-- **EVERY `vv_copy_fast`** is one `memcpy`. -/
theorem Holds.vvCopyFast (h : Holds b m0 m out) (simd : Simd) {d : Nat} (src : List α)
    (hd : d = b.lo + out.length) (hroom : d + src.length ≤ b.hi) :
    Gives b m0 (vvCopyFast b m simd d src) (out ++ src) := by
  have pieces : ∀ {c : Nat} {m : Mem α} {out : List α} {d : Nat} {src : List α}
      {f : Mem α → Option (Mem α)}, Holds b m0 m out → d = b.lo + out.length →
      d + src.length ≤ b.hi →
      (∀ m', Holds b m0 m' (out ++ src.take (src.length / c * c)) →
        Gives b m0 (f m') ((out ++ src.take (src.length / c * c)) ++
          src.drop (src.length / c * c))) →
      Gives b m0 ((storePieces b m d src c (src.length / c)).bind f) (out ++ src) := by
    intro c m out d src f h hd hroom hf
    have hle : src.length / c * c ≤ src.length := Nat.div_mul_le_self _ _
    refine (h.storePieces hd hle (by omega)).bind ?_
    intro m' hm'
    have hrest := hf m' hm'
    rw [List.append_assoc, List.take_append_drop] at hrest
    exact hrest
  have store16 : ∀ {m : Mem α} {out : List α} {d : Nat} {src : List α}, Holds b m0 m out →
      d = b.lo + out.length → d + src.length ≤ b.hi →
      Gives b m0 ((storePieces b m d src 16 (src.length / 16)).bind fun m =>
        store b m (d + src.length / 16 * 16) (src.drop (src.length / 16 * 16))) (out ++ src) := by
    intro m out d src h hd hroom
    refine pieces h hd hroom ?_
    intro m' hm'
    refine hm'.store_all ?_ _ ?_
    · rw [List.length_append, List.length_take]
      omega
    · rw [List.length_drop]
      omega
  cases simd with
  | scalar => exact h.store_all hd src hroom
  | sse2 => exact store16 h hd hroom
  | neon => exact store16 h hd hroom
  | avx2 =>
      refine pieces h hd hroom ?_
      intro m' hm'
      refine store16 hm' ?_ ?_
      · rw [List.length_append, List.length_take]
        omega
      · rw [List.length_drop]
        omega

/-- The single store of 32 bytes counts for as many as the match has. -/
theorem Holds.matchCopy32Hot (h : Holds b m0 m out) {d off n : Nat} (hd : d = b.lo + out.length)
    (hoff : 32 ≤ off) (hle : off ≤ out.length) (hroom : d + n ≤ b.hi) (hwide : d + 32 ≤ b.hi) :
    Gives b m0 (matchCopy32Hot b m d off n) (extend out off n) := by
  rw [VaptVupt.matchCopy32Hot]
  by_cases hn : n ≤ 32
  · rw [if_pos hn]
    exact h.copy hd rfl hle hoff hn hwide
  · rw [if_neg hn]
    refine (h.copy hd rfl hle hoff (Nat.le_refl 32) hwide).bind ?_
    intro m' hm'
    have hlen : (extend out off 32).length = out.length + 32 := length_extend (by omega) hle _
    have htail : Gives b m0 (VaptVupt.matchCopy32 b m' (d + 32) off (n - 32))
        (extend (extend out off 32) off (n - 32)) :=
      Holds.matchCopy32 hm' (by omega) hoff (by omega) (by omega)
    have hsplit : 32 + (n - 32) = n := by omega
    rw [← extend_add, hsplit] at htail
    exact htail

/-- **THE TOKEN LOOPS** copy matches as the byte loop does. -/
theorem Holds.tokenMatchCopy (h : Holds b m0 m out) {d off n : Nat} (hd : d = b.lo + out.length)
    (hoff : 0 < off) (hle : off ≤ out.length) (hroom : d + n ≤ b.hi) :
    Gives b m0 (tokenMatchCopy b m d off n) (extend out off n) := by
  rw [VaptVupt.tokenMatchCopy]
  by_cases h32 : 32 ≤ off
  · rw [if_pos h32]
    by_cases hwide : d + 32 ≤ b.hi
    · rw [if_pos hwide]
      exact Holds.matchCopy32Hot h hd h32 hle hroom hwide
    · rw [if_neg hwide]
      exact Holds.matchCopy32 h hd h32 hle hroom
  rw [if_neg h32]
  by_cases h16 : 16 ≤ off
  · rw [if_pos h16]
    exact Holds.copyChunks h hd (by omega) h16 hle hroom
  rw [if_neg h16]
  by_cases h8 : 8 ≤ off
  · rw [if_pos h8]
    exact Holds.copyWords h hd h8 hle hroom
  · rw [if_neg h8]
    exact h.copyCells hd hoff hle hroom

/-- **THE SEQUENCE LOOP** copies matches of three bytes and more as the byte
    loop does. -/
theorem Holds.seqMatchCopy (h : Holds b m0 m out) {d off n : Nat} (hd : d = b.lo + out.length)
    (hoff : 0 < off) (hle : off ≤ out.length) (hn : 3 ≤ n) (hroom : d + n ≤ b.hi) :
    Gives b m0 (seqMatchCopy b m d off n) (extend out off n) := by
  rw [VaptVupt.seqMatchCopy]
  by_cases h16 : 16 ≤ off
  · rw [if_pos h16]
    by_cases hwide : 4 ≤ n ∧ n ≤ 16 ∧ d + 16 ≤ b.hi
    · rw [if_pos hwide]
      exact h.copy hd rfl hle h16 hwide.2.1 hwide.2.2
    rw [if_neg hwide]
    by_cases hthree : n = 3 ∧ d + 16 ≤ b.hi
    · rw [if_pos hthree, hthree.1]
      exact h.copyCells hd hoff hle (by omega)
    · rw [if_neg hthree]
      exact Holds.copyChunks h hd (by omega) h16 hle hroom
  rw [if_neg h16]
  by_cases h8 : 8 ≤ off
  · rw [if_pos h8]
    by_cases hwide : 4 ≤ n ∧ n ≤ 8 ∧ d + 8 ≤ b.hi
    · rw [if_pos hwide]
      exact h.copy hd rfl hle h8 hwide.2.1 hwide.2.2
    rw [if_neg hwide]
    by_cases hthree : n ≤ 8 ∧ d + 8 ≤ b.hi
    · obtain rfl : n = 3 := by omega
      rw [if_pos hthree]
      exact h.copyCells hd hoff hle hroom
    · rw [if_neg hthree]
      exact Holds.copyWords h hd h8 hle hroom
  · rw [if_neg h8]
    exact h.copyCells hd hoff hle hroom

end Meaning

end Zupt.VaptVupt
