import Zupt.Mlkem.Encode

/-! # Sampling of ML-KEM

    Noise has two bits a term, and a uniform polynomial takes the twelve-bit numbers below
    `Q` out of a stream.  The hash functions are parameters: whatever bytes they return,
    the samples are in range. -/

namespace Zupt.Mlkem

/-- The functions of `zupt_keccak`, each by the bytes that come out for an input. -/
structure Keccak where
  sha3_256 : Bytes → Nat → UInt8
  sha3_512 : Bytes → Nat → UInt8
  shake128 : Bytes → Nat → UInt8
  shake256 : Bytes → Nat → UInt8

/-- `n` bytes of an output, from `s` on. -/
def squeeze (out : Nat → UInt8) (s n : Nat) : Bytes := (List.range n).map fun i => out (s + i)

theorem squeeze_length (out : Nat → UInt8) (s n : Nat) : (squeeze out s n).length = n := by
  rw [squeeze, List.length_map, List.length_range]

/-! ## Noise -/

/-- The 32 bits of row `i`. -/
def cbdWord (buf : Bytes) (i : Nat) : Nat :=
  byteAt buf (4 * i) ||| byteAt buf (4 * i + 1) <<< 8 ||| byteAt buf (4 * i + 2) <<< 16 |||
    byteAt buf (4 * i + 3) <<< 24

/-- The sums of two neighbouring bits. -/
def cbdSums (t : Nat) : Nat := (t &&& 0x55555555) + (t >>> 1 &&& 0x55555555)

/-- A difference of two sums. -/
def cbdTerm (d j : Nat) : Int := (d >>> (4 * j) &&& 3 : Nat) - (d >>> (4 * j + 2) &&& 3 : Nat)

/-- `cbd2`. -/
def cbd2 (buf : Bytes) : Checked Poly := do
  let l ← rowLoop (fun i => do
    let d ← uint32 (cbdSums (cbdWord buf i) : Nat)
    (List.range 8).mapM fun j => int16 (cbdTerm d j)) 32
  return cells l

/-- `poly_noise`. -/
def polyNoise (K : Keccak) (seed : Bytes) (nonce : Nat) : Checked Poly :=
  cbd2 (squeeze (K.shake256 (seed.take 32 ++ [UInt8.ofNat nonce])) 0 128)

/-- The coefficients of `cbd2`. -/
def cbd2Exact (buf : Bytes) (i : Nat) : Zq := (cbdTerm (cbdSums (cbdWord buf (i / 8))) (i % 8) : Int)

def polyNoiseExact (K : Keccak) (seed : Bytes) (nonce : Nat) : Nat → Zq :=
  cbd2Exact (squeeze (K.shake256 (seed.take 32 ++ [UInt8.ofNat nonce])) 0 128)

/-- Neighbouring bits add up to two bits, without a carry out of the word. -/
theorem cbdSums_lt (t : Nat) : cbdSums t < 2 ^ 32 := by
  have h0 : t &&& 0x55555555 ≤ 0x55555555 := Nat.and_le_right
  have h1 : t >>> 1 &&& 0x55555555 ≤ 0x55555555 := Nat.and_le_right
  rw [cbdSums]
  omega

theorem cbdTerm_range (d j : Nat) : -3 ≤ cbdTerm d j ∧ cbdTerm d j ≤ 3 := by
  have h0 : d >>> (4 * j) &&& 3 ≤ 3 := Nat.and_le_right
  have h1 : d >>> (4 * j + 2) &&& 3 ≤ 3 := Nat.and_le_right
  rw [cbdTerm]
  omega

theorem cbd2_rep (buf : Bytes) : ∃ r, cbd2 buf = .ok r ∧ Rep 3 r (cbd2Exact buf) := by
  obtain ⟨l, hl, -, hall⟩ := rowLoop_all (w := 8) (n := 32) (d := 0)
    (g := fun i => do
      let d ← uint32 (cbdSums (cbdWord buf i) : Nat)
      (List.range 8).mapM fun j => int16 (cbdTerm d j))
    (P := fun i x => (-3 ≤ x ∧ x ≤ 3) ∧ (x : Zq) = cbd2Exact buf i) fun i _ => by
      have hterm : ∀ j ∈ List.range 8, int16 (cbdTerm (cbdSums (cbdWord buf i)) j) =
          .ok (cbdTerm (cbdSums (cbdWord buf i)) j) := fun j _ => by
        have hrange := cbdTerm_range (cbdSums (cbdWord buf i)) j
        exact int16_ok (by omega)
      refine ⟨(List.range 8).map (cbdTerm (cbdSums (cbdWord buf i))), ?_,
        by rw [List.length_map, List.length_range], fun k hk => ?_⟩
      · rw [uint32_ok (cbdSums_lt _), ok_bind, mapM_ok hterm]
      · have hget : ((List.range 8).map (cbdTerm (cbdSums (cbdWord buf i)))).getD k 0 =
            cbdTerm (cbdSums (cbdWord buf i)) k := by
          rw [List.getD_eq_getElem _ _ (by rw [List.length_map, List.length_range]; exact hk),
            List.getElem_map, List.getElem_range]
        rw [hget, cbd2Exact, show (8 * i + k) / 8 = i by omega, show (8 * i + k) % 8 = k by omega]
        exact ⟨cbdTerm_range _ _, rfl⟩
  exact ⟨cells l, by rw [cbd2, hl]; rfl, hall⟩

theorem polyNoise_rep (K : Keccak) (seed : Bytes) (nonce : Nat) :
    ∃ r, polyNoise K seed nonce = .ok r ∧ Rep 3 r (polyNoiseExact K seed nonce) := cbd2_rep _

/-! ## Uniform polynomials -/

/-- A coefficient is taken where there is room and it is below `Q`. -/
def accept (d : Nat) (s : Poly × Nat) : Poly × Nat :=
  if s.2 < 256 ∧ d < 3329 then (Function.update s.1 s.2 d, s.2 + 1) else s

/-- The loop of `poly_uniform`, for `turns` turns; three bytes are squeezed at `pos`. -/
def uniformLoop (out : Nat → UInt8) : (turns pos : Nat) → Poly × Nat → Option Poly
  | 0, _, s => if s.2 < 256 then none else some s.1
  | turns + 1, pos, s =>
      if s.2 < 256 then
        let b0 := (out pos).toNat
        let b1 := (out (pos + 1)).toNat
        let b2 := (out (pos + 2)).toNat
        let d1 := b0 ||| (b1 &&& 0x0F) <<< 8
        let d2 := b1 >>> 4 ||| b2 <<< 4
        uniformLoop out turns (pos + 3) (accept d2 (accept d1 s))
      else some s.1

/-- `poly_uniform`. -/
def polyUniform (K : Keccak) (turns : Nat) (seed : Bytes) (i j : Nat) : Option Poly :=
  uniformLoop (K.shake128 (seed.take 32 ++ [UInt8.ofNat i, UInt8.ofNat j])) turns 0 (fun _ => 0, 0)

/-- What has been sampled is below `Q`. -/
def Accepted (s : Poly × Nat) : Prop := ∀ i, 0 ≤ s.1 i ∧ s.1 i ≤ 3328

theorem accept_accepted {d : Nat} {s : Poly × Nat} (h : Accepted s) : Accepted (accept d s) := by
  rw [accept]
  by_cases hd : s.2 < 256 ∧ d < 3329
  · rw [if_pos hd]
    intro i
    show 0 ≤ Function.update s.1 s.2 (d : Int) i ∧ Function.update s.1 s.2 (d : Int) i ≤ 3328
    by_cases hi : i = s.2
    · rw [hi, Function.update_self]
      omega
    · rw [Function.update_of_ne hi]
      exact h i
  · rw [if_neg hd]
    exact h

theorem uniformLoop_accepted {out : Nat → UInt8} {turns pos : Nat} {s : Poly × Nat} {r : Poly}
    (hs : Accepted s) (h : uniformLoop out turns pos s = some r) : ∀ i, 0 ≤ r i ∧ r i ≤ 3328 := by
  induction turns generalizing pos s with
  | zero =>
      rw [uniformLoop] at h
      by_cases hmore : s.2 < 256
      · rw [if_pos hmore] at h
        cases h
      · rw [if_neg hmore] at h
        cases h
        exact hs
  | succ turns ih =>
      rw [uniformLoop] at h
      by_cases hmore : s.2 < 256
      · rw [if_pos hmore] at h
        exact ih (accept_accepted (accept_accepted hs)) h
      · rw [if_neg hmore] at h
        cases h
        exact hs

/-- What an array stands for. -/
def classes (r : Poly) (i : Nat) : Zq := r i

theorem polyUniform_rep {K : Keccak} {turns i j : Nat} {seed : Bytes} {r : Poly}
    (h : polyUniform K turns seed i j = some r) : Rep 4095 r (classes r) := by
  intro k _
  have hall := uniformLoop_accepted (s := (fun _ => 0, 0))
    (fun i => ⟨Int.le_refl 0, (by decide : (0 : Int) ≤ 3328)⟩) h k
  exact ⟨by omega, rfl⟩

/-- A sampling that may not have come to its end. -/
def sampled {α : Type} : Option α → Checked α
  | some x => .ok x
  | none => .error .unfinished

end Zupt.Mlkem
