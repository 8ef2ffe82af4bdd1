import Zupt.VaptVupt.AnsTable
import Mathlib.Tactic.Ring

/-! # Normalised frequencies

    `normalize_freq` of `vv_ans.c`: a histogram is scaled to the size of a decode
    table.  Rounding leaves the sum a little off; the symbols with the largest
    remainders are raised, or those with the smallest lowered, until it fits. -/

namespace Zupt.VaptVupt

/-! ## The scaled histogram -/

/-- The base frequency of a symbol, at least 1 for one that occurs. -/
def baseFreq (raw : Nat → Nat) (i : Nat) : Nat :=
  if raw i = 0 then 0
  else if raw i * ansL / normSum raw 256 = 0 then 1
  else raw i * ansL / normSum raw 256

/-- `frac[i]`, the remainder as an `int32_t`. -/
def baseFrac (raw : Nat → Nat) (i : Nat) : Int :=
  if raw i = 0 then 0 else Int.bmod (raw i * ansL % normSum raw 256 : Nat) (2 ^ 32)

/-- The scan for the largest remainder among the first `n` symbols: the symbol
    and `br`. -/
def pickMost (raw : Nat → Nat) (frac : Nat → Int) : (n : Nat) → Option Nat × Int
  | 0 => (none, -1)
  | n + 1 =>
      let p := pickMost raw frac n
      if raw n ≠ 0 ∧ p.2 < frac n then (some n, frac n) else p

/-- `while (diff > 0)`. -/
def raiseFreqs (raw : Nat → Nat) : (diff : Nat) → Norm → (frac : Nat → Int) → Norm
  | 0, norm, _ => norm
  | diff + 1, norm, frac =>
      match (pickMost raw frac 256).1 with
      | none => norm
      | some b =>
          raiseFreqs raw diff (Function.update norm b (norm b + 1)) (Function.update frac b (-1))

/-- `INT32_MAX`. -/
def int32Max : Int := 0x7FFFFFFF

/-- The scan for the smallest remainder among the first `n` symbols that can be
    lowered. -/
def pickLeast (norm : Norm) (frac : Nat → Int) : (n : Nat) → Option Nat × Int
  | 0 => (none, int32Max)
  | n + 1 =>
      let p := pickLeast norm frac n
      if 1 < norm n ∧ frac n < p.2 then (some n, frac n) else p

/-- The scan for the largest frequency among the first `n`: the symbol and
    `lf`. -/
def pickLargest (norm : Norm) : (n : Nat) → Option Nat × Nat
  | 0 => (none, 0)
  | n + 1 =>
      let p := pickLargest norm n
      if p.2 < norm n then (some n, norm n) else p

/-- `while (diff < 0)`, with `-diff` turns. -/
def lowerFreqs : (excess : Nat) → Norm → (frac : Nat → Int) → Norm
  | 0, norm, _ => norm
  | excess + 1, norm, frac =>
      match (pickLeast norm frac 256).1 with
      | some b =>
          lowerFreqs excess (Function.update norm b (norm b - 1))
            (Function.update frac b int32Max)
      | none =>
          match (pickLargest norm 256).1 with
          | some lg =>
              if 1 < norm lg then lowerFreqs excess (Function.update norm lg (norm lg - 1)) frac
              else norm
          | none => norm

/-- `normalize_freq`: the number of symbols that occur, and their
    frequencies. -/
def normalizeFreq (raw : Nat → Nat) : Nat × Norm :=
  let np := symbolCount raw 256
  if np = 0 then (0, fun _ => 0)
  else if np = 1 then (1, fun i => if raw i ≠ 0 then ansL else 0)
  else
    let assigned := normSum (baseFreq raw) 256
    (np, lowerFreqs (assigned - ansL)
      (raiseFreqs raw (ansL - assigned) (baseFreq raw) (baseFrac raw)) (baseFrac raw))

/-! ## Sums -/

theorem normSum_congr {f g : Nat → Nat} {n : Nat} (h : ∀ i, i < n → f i = g i) :
    normSum f n = normSum g n := by
  induction n with
  | zero => rfl
  | succ n ih =>
      rw [normSum, normSum, ih fun i hi => h i (by omega), h n (Nat.lt_succ_self n)]

theorem normSum_le {f g : Nat → Nat} {n : Nat} (h : ∀ i, i < n → f i ≤ g i) :
    normSum f n ≤ normSum g n := by
  induction n with
  | zero => exact Nat.le_refl 0
  | succ n ih =>
      have hlast := h n (Nat.lt_succ_self n)
      have hrest := ih fun i hi => h i (by omega)
      rw [normSum, normSum]
      omega

theorem normSum_add (f g : Nat → Nat) (n : Nat) :
    normSum (fun i => f i + g i) n = normSum f n + normSum g n := by
  induction n with
  | zero => rfl
  | succ n ih =>
      rw [normSum, normSum, normSum, ih]
      omega

theorem normSum_mul (c : Nat) (f : Nat → Nat) (n : Nat) :
    normSum (fun i => c * f i) n = c * normSum f n := by
  induction n with
  | zero => rfl
  | succ n ih => rw [normSum, normSum, ih, Nat.mul_add]

/-- A cell that changes changes the sum by as much. -/
theorem normSum_update (f : Nat → Nat) {b n : Nat} (hb : b < n) (x : Nat) :
    normSum (Function.update f b x) n + f b = normSum f n + x := by
  induction n with
  | zero => exact absurd hb (Nat.not_lt_zero b)
  | succ n ih =>
      rw [normSum, normSum]
      by_cases hlast : b = n
      · subst hlast
        have hrest : normSum (Function.update f b x) b = normSum f b := by
          refine normSum_congr ?_
          intro i hi
          exact Function.update_of_ne (Nat.ne_of_lt hi) x f
        rw [Function.update_self, hrest]
        omega
      · have hstep := ih (by omega)
        rw [Function.update_of_ne (Ne.symm hlast)]
        omega

theorem normSum_eq_zero {f : Nat → Nat} {n : Nat} (h : ∀ i, i < n → f i = 0) :
    normSum f n = 0 := by
  induction n with
  | zero => rfl
  | succ n ih => rw [normSum, ih fun i hi => h i (by omega), h n (Nat.lt_succ_self n)]

theorem le_normSum (f : Nat → Nat) {b n : Nat} (hb : b < n) : f b ≤ normSum f n := by
  induction n with
  | zero => exact absurd hb (Nat.not_lt_zero b)
  | succ n ih =>
      rw [normSum]
      by_cases hlast : b = n
      · subst hlast
        exact Nat.le_add_left _ _
      · exact (ih (by omega)).trans (Nat.le_add_right _ _)

/-- Counting is summing ones. -/
theorem symbolCount_eq (f : Nat → Nat) (n : Nat) :
    symbolCount f n = normSum (fun i => if f i ≠ 0 then 1 else 0) n := by
  induction n with
  | zero => rfl
  | succ n ih => rw [symbolCount, normSum, ih]

/-- A histogram of something has a symbol that occurs. -/
theorem symbolCount_pos {f : Nat → Nat} {n : Nat} (h : 0 < normSum f n) : 0 < symbolCount f n := by
  by_contra hnone
  have hall : ∀ i, i < n → f i = 0 := by
    intro i hi
    by_contra hf
    have hle := le_normSum (fun i => if f i ≠ 0 then 1 else 0) hi
    rw [if_pos hf, ← symbolCount_eq] at hle
    omega
  have hzero := normSum_eq_zero hall
  omega

theorem symbolCount_congr {f g : Nat → Nat} {n : Nat} (h : ∀ i, i < n → (f i ≠ 0 ↔ g i ≠ 0)) :
    symbolCount f n = symbolCount g n := by
  rw [symbolCount_eq, symbolCount_eq]
  refine normSum_congr ?_
  intro i hi
  by_cases hf : f i ≠ 0
  · rw [if_pos hf, if_pos ((h i hi).mp hf)]
  · rw [if_neg hf, if_neg fun hg => hf ((h i hi).mpr hg)]

/-! ## The scans -/

/-- The scan finds a symbol as soon as one has a remainder that was not used. -/
theorem pickMost_spec (raw : Nat → Nat) (frac : Nat → Int) (n : Nat) :
    (∀ b, (pickMost raw frac n).1 = some b → b < n ∧ raw b ≠ 0 ∧ 0 ≤ frac b) ∧
      -1 ≤ (pickMost raw frac n).2 ∧
      ((pickMost raw frac n).1 = none → (pickMost raw frac n).2 = -1 ∧
        ∀ i, i < n → ¬ (raw i ≠ 0 ∧ 0 ≤ frac i)) := by
  induction n with
  | zero =>
      refine ⟨fun b h => ?_, Int.le_refl _, fun _ => ⟨rfl, fun i hi => ?_⟩⟩
      · cases h
      · exact absurd hi (Nat.not_lt_zero i)
  | succ n ih =>
      obtain ⟨hsome, hbr, hnone⟩ := ih
      rw [pickMost]
      by_cases htake : raw n ≠ 0 ∧ (pickMost raw frac n).2 < frac n
      · rw [if_pos htake]
        refine ⟨?_, by omega, fun h => ?_⟩
        · intro b h
          obtain rfl := Option.some.inj h
          exact ⟨Nat.lt_succ_self _, htake.1, by omega⟩
        · cases h
      · rw [if_neg htake]
        refine ⟨?_, hbr, ?_⟩
        · intro b h
          obtain ⟨hlt, hrest⟩ := hsome b h
          exact ⟨by omega, hrest⟩
        · intro h
          obtain ⟨hbreq, hall⟩ := hnone h
          refine ⟨hbreq, ?_⟩
          intro i hi
          by_cases hlast : i = n
          · subst hlast
            rintro ⟨hraw, hfrac⟩
            exact htake ⟨hraw, by omega⟩
          · exact hall i (by omega)

theorem pickLeast_spec (norm : Norm) (frac : Nat → Int) {n b : Nat}
    (h : (pickLeast norm frac n).1 = some b) : b < n ∧ 1 < norm b := by
  induction n with
  | zero => cases h
  | succ n ih =>
      rw [pickLeast] at h
      by_cases htake : 1 < norm n ∧ frac n < (pickLeast norm frac n).2
      · rw [if_pos htake] at h
        obtain rfl := Option.some.inj h
        exact ⟨Nat.lt_succ_self _, htake.1⟩
      · rw [if_neg htake] at h
        obtain ⟨hlt, hnorm⟩ := ih h
        exact ⟨by omega, hnorm⟩

/-- The scan finds a largest frequency. -/
theorem pickLargest_spec (norm : Norm) (n : Nat) :
    (∀ i, i < n → norm i ≤ (pickLargest norm n).2) ∧
      (∀ b, (pickLargest norm n).1 = some b → b < n ∧ norm b = (pickLargest norm n).2) ∧
      ((pickLargest norm n).1 = none → (pickLargest norm n).2 = 0) := by
  induction n with
  | zero =>
      refine ⟨fun i hi => absurd hi (Nat.not_lt_zero i), fun b h => ?_, fun _ => rfl⟩
      cases h
  | succ n ih =>
      obtain ⟨hall, hsome, hnone⟩ := ih
      rw [pickLargest]
      by_cases htake : (pickLargest norm n).2 < norm n
      · rw [if_pos htake]
        refine ⟨?_, ?_, fun h => ?_⟩
        · intro i hi
          by_cases hlast : i = n
          · subst hlast
            exact Nat.le_refl _
          · have hle := hall i (by omega)
            dsimp only
            omega
        · intro b h
          obtain rfl := Option.some.inj h
          exact ⟨Nat.lt_succ_self _, rfl⟩
        · cases h
      · rw [if_neg htake]
        refine ⟨?_, ?_, hnone⟩
        · intro i hi
          by_cases hlast : i = n
          · subst hlast
            exact Nat.not_lt.mp htake
          · exact hall i (by omega)
        · intro b h
          obtain ⟨hlt, hnorm⟩ := hsome b h
          exact ⟨by omega, hnorm⟩

/-! ## The loops -/

/-- The frequencies are of the symbols that occur. -/
def SameSupport (raw : Nat → Nat) (norm : Norm) : Prop := ∀ i, norm i ≠ 0 ↔ raw i ≠ 0

theorem SameSupport.update {raw : Nat → Nat} {norm : Norm} (h : SameSupport raw norm) {b x : Nat}
    (hb : norm b ≠ 0) (hx : x ≠ 0) : SameSupport raw (Function.update norm b x) := by
  intro i
  by_cases hi : i = b
  · subst hi
    rw [Function.update_self]
    exact ⟨fun _ => (h i).mp hb, fun _ => hx⟩
  · rw [Function.update_of_ne hi]
    exact h i

/-- 1 for a symbol whose remainder was not used. -/
def unused (raw : Nat → Nat) (frac : Nat → Int) (i : Nat) : Nat :=
  if raw i ≠ 0 ∧ 0 ≤ frac i then 1 else 0

/-- With enough remainders the frequencies are raised as often as asked. -/
theorem raiseFreqs_spec {raw : Nat → Nat} (diff : Nat) {norm : Norm} (frac : Nat → Int)
    (h : SameSupport raw norm) (henough : diff ≤ normSum (unused raw frac) 256) :
    SameSupport raw (raiseFreqs raw diff norm frac) ∧
      normSum (raiseFreqs raw diff norm frac) 256 = normSum norm 256 + diff := by
  induction diff generalizing norm frac with
  | zero =>
      rw [raiseFreqs, Nat.add_zero]
      exact ⟨h, rfl⟩
  | succ diff ih =>
      obtain ⟨hsome, -, hnone⟩ := pickMost_spec raw frac 256
      rw [raiseFreqs]
      cases hpick : (pickMost raw frac 256).1 with
      | none =>
          obtain ⟨-, hall⟩ := hnone hpick
          have hzero : normSum (unused raw frac) 256 = 0 :=
            normSum_eq_zero fun i hi => if_neg (hall i hi)
          omega
      | some b =>
          obtain ⟨hlt, hraw, hfrac⟩ := hsome b hpick
          have hused : unused raw frac b = 1 := if_pos ⟨hraw, hfrac⟩
          have hnext : unused raw (Function.update frac b (-1)) =
              Function.update (unused raw frac) b 0 := by
            funext i
            by_cases hi : i = b
            · subst hi
              rw [Function.update_self, unused, Function.update_self]
              simp
            · rw [Function.update_of_ne hi, unused, unused, Function.update_of_ne hi]
          have hcount := normSum_update (unused raw frac) hlt 0
          have hsum := normSum_update norm hlt (norm b + 1)
          have hnorm := (h b).mpr hraw
          dsimp only
          have hleft : diff ≤ normSum (unused raw (Function.update frac b (-1))) 256 := by
            rw [hnext]
            omega
          obtain ⟨hsup, hend⟩ := ih _ (h.update hnorm (Nat.add_one_ne_zero (norm b))) hleft
          exact ⟨hsup, by omega⟩

/-- The frequencies are lowered as often as asked: one of them is above 1, as
    long as there are more than 256 in all. -/
theorem lowerFreqs_spec {raw : Nat → Nat} (excess : Nat) {norm : Norm} (frac : Nat → Int)
    (h : SameSupport raw norm) (hsum : normSum norm 256 = ansL + excess) :
    SameSupport raw (lowerFreqs excess norm frac) ∧
      normSum (lowerFreqs excess norm frac) 256 = ansL := by
  induction excess generalizing norm frac with
  | zero => exact ⟨h, hsum⟩
  | succ excess ih =>
      have hstep {b : Nat} (hlt : b < 256) (hnorm : 1 < norm b) (frac : Nat → Int) :
          SameSupport raw (lowerFreqs excess (Function.update norm b (norm b - 1)) frac) ∧
            normSum (lowerFreqs excess (Function.update norm b (norm b - 1)) frac) 256 = ansL := by
        have hchange := normSum_update norm hlt (norm b - 1)
        exact ih frac (h.update (by omega) (by omega)) (by omega)
      rw [lowerFreqs]
      cases hleast : (pickLeast norm frac 256).1 with
      | some b =>
          obtain ⟨hlt, hnorm⟩ := pickLeast_spec norm frac hleast
          exact hstep hlt hnorm _
      | none =>
          obtain ⟨hall, hsome, hnone⟩ := pickLargest_spec norm 256
          -- a sum above 256 is not one of zeros and ones
          have hbig : 1 < (pickLargest norm 256).2 := by
            by_contra hsmall
            have hle := normSum_le (g := fun _ => 1) fun i hi =>
              (hall i hi).trans (Nat.not_lt.mp hsmall)
            have hones : normSum (fun _ => 1) 256 = 256 := by decide +kernel
            rw [hsum, hones, ansL] at hle
            omega
          dsimp only
          cases hlargest : (pickLargest norm 256).1 with
          | none =>
              rw [hnone hlargest] at hbig
              omega
          | some lg =>
              obtain ⟨hlt, hnorm⟩ := hsome lg hlargest
              rw [← hnorm] at hbig
              dsimp only
              rw [if_pos hbig]
              exact hstep hlt hbig _

/-! ## The result -/

theorem baseFreq_support (raw : Nat → Nat) : SameSupport raw (baseFreq raw) := by
  intro i
  rw [baseFreq]
  by_cases hraw : raw i = 0
  · rw [if_pos hraw]
    exact ⟨fun h => absurd rfl h, fun h => absurd hraw h⟩
  · rw [if_neg hraw]
    refine ⟨fun _ => hraw, fun _ => ?_⟩
    split
    · exact Nat.one_ne_zero
    · assumption

/-- Rounding down loses less than one for every symbol that occurs. -/
theorem lt_normSum_baseFreq (raw : Nat → Nat) (htotal : 0 < normSum raw 256) :
    ansL < normSum (baseFreq raw) 256 + symbolCount raw 256 := by
  have hcell : ∀ i, i < 256 →
      ansL * raw i + (if raw i ≠ 0 then 1 else 0) ≤
        normSum raw 256 * (baseFreq raw i + if raw i ≠ 0 then 1 else 0) := by
    intro i hi
    rw [baseFreq]
    by_cases hraw : raw i = 0
    · rw [hraw]
      simp
    · rw [if_neg hraw, if_pos hraw]
      have hdiv := Nat.div_add_mod (raw i * ansL) (normSum raw 256)
      have hmod := Nat.mod_lt (raw i * ansL) htotal
      rw [Nat.mul_comm ansL, Nat.mul_add, Nat.mul_one]
      split
      · rename_i hzero
        rw [hzero, Nat.mul_zero] at hdiv
        omega
      · omega
  have hsum := normSum_le hcell
  rw [normSum_add, normSum_mul, normSum_mul, normSum_add, ← symbolCount_eq] at hsum
  -- some symbol occurs, so the rounding lost less than the whole
  have hcount := symbolCount_pos htotal
  have hlt : normSum raw 256 * ansL <
      normSum raw 256 * (normSum (baseFreq raw) 256 + symbolCount raw 256) := by
    rw [Nat.mul_comm _ ansL]
    omega
  exact Nat.lt_of_mul_lt_mul_left hlt

/-- No remainder of a histogram of less than 2^31 symbols is negative. -/
theorem unused_baseFrac {raw : Nat → Nat} (htotal : 0 < normSum raw 256)
    (hfits : normSum raw 256 < 2 ^ 31) :
    normSum (unused raw (baseFrac raw)) 256 = symbolCount raw 256 := by
  rw [symbolCount_eq]
  refine normSum_congr ?_
  intro i _
  rw [unused]
  by_cases hraw : raw i = 0
  · rw [if_neg fun h => h.1 hraw, if_neg (not_not.mpr hraw)]
  · have hmod := Nat.mod_lt (raw i * ansL) htotal
    have hfrac : 0 ≤ baseFrac raw i := by
      rw [baseFrac, if_neg hraw, Int.bmod_eq_of_le (by omega) (by omega)]
      omega
    rw [if_pos ⟨hraw, hfrac⟩, if_pos hraw]

theorem normSum_single (raw : Nat → Nat) (n : Nat) :
    normSum (fun i => if raw i ≠ 0 then ansL else 0) n = ansL * symbolCount raw n := by
  rw [symbolCount_eq, ← normSum_mul]
  refine normSum_congr ?_
  intro i _
  split
  · rw [Nat.mul_one]
  · rw [Nat.mul_zero]

/-- What a normalised histogram is. -/
structure Normalized (raw : Nat → Nat) (norm : Norm) : Prop where
  support : SameSupport raw norm
  sum : normSum norm 256 = ansL

/-- **NORMALISATION ENDS WITH A WHOLE TABLE**: the frequencies of the symbols that
    occur, and of no other, add up to the size of the table. -/
theorem normalizeFreq_normalized {raw : Nat → Nat} (htotal : 0 < normSum raw 256)
    (hfits : normSum raw 256 < 2 ^ 31) : Normalized raw (normalizeFreq raw).2 := by
  have hlt := lt_normSum_baseFreq raw htotal
  rw [normalizeFreq]
  dsimp only
  rw [if_neg (Nat.pos_iff_ne_zero.mp (symbolCount_pos htotal))]
  by_cases hone : symbolCount raw 256 = 1
  · rw [if_pos hone]
    refine ⟨?_, ?_⟩
    · intro i
      show (if raw i ≠ 0 then ansL else 0) ≠ 0 ↔ raw i ≠ 0
      by_cases hraw : raw i ≠ 0
      · rw [if_pos hraw]
        exact ⟨fun _ => hraw, fun _ => by decide⟩
      · rw [if_neg hraw]
        exact ⟨fun h => absurd rfl h, fun h => absurd h hraw⟩
    · show normSum (fun i => if raw i ≠ 0 then ansL else 0) 256 = ansL
      rw [normSum_single, hone, Nat.mul_one]
  · rw [if_neg hone]
    obtain ⟨hsup, hsum⟩ := raiseFreqs_spec (ansL - normSum (baseFreq raw) 256) (baseFrac raw)
      (baseFreq_support raw) (by rw [unused_baseFrac htotal hfits]; omega)
    have hexcess : normSum (raiseFreqs raw (ansL - normSum (baseFreq raw) 256) (baseFreq raw)
        (baseFrac raw)) 256 = ansL + (normSum (baseFreq raw) 256 - ansL) := by omega
    obtain ⟨hsup', hsum'⟩ := lowerFreqs_spec _ (baseFrac raw) hsup hexcess
    dsimp only
    exact ⟨hsup', hsum'⟩

/-- The number of symbols is not changed. -/
theorem normalizeFreq_count (raw : Nat → Nat) :
    (normalizeFreq raw).1 = symbolCount raw 256 := by
  rw [normalizeFreq]
  dsimp only
  by_cases hzero : symbolCount raw 256 = 0
  · rw [if_pos hzero, hzero]
  · rw [if_neg hzero]
    by_cases hone : symbolCount raw 256 = 1
    · rw [if_pos hone, hone]
    · rw [if_neg hone]

/-- **NO SYMBOL GETS ALL** of a table that two symbols share. -/
theorem Normalized.lt_of_two {raw : Nat → Nat} {norm : Norm} (h : Normalized raw norm)
    (htwo : 2 ≤ symbolCount raw 256) {b : Nat} (hb : b < 256) : norm b < ansL := by
  by_contra hall
  -- without `b` nothing is left of the sum, so no other symbol occurs
  have hsum := normSum_update norm hb 0
  rw [h.sum] at hsum
  have hrest : normSum (Function.update norm b 0) 256 = 0 := by omega
  have hcount : symbolCount raw 256 = symbolCount norm 256 :=
    symbolCount_congr fun i _ => (h.support i).symm
  rw [hcount, symbolCount_eq] at htwo
  have hones := normSum_update (fun i => if norm i ≠ 0 then 1 else 0) hb 0
  have hothers : normSum (Function.update (fun i => if norm i ≠ 0 then 1 else 0) b 0) 256 = 0 := by
    refine normSum_eq_zero ?_
    intro i hi
    by_cases hib : i = b
    · rw [hib, Function.update_self]
    · have hle := le_normSum (Function.update norm b 0) hi
      rw [hrest, Function.update_of_ne hib] at hle
      rw [Function.update_of_ne hib, if_neg (by omega)]
  have hone : (if norm b ≠ 0 then 1 else 0) ≤ 1 := by split <;> omega
  omega

/-- `VV_MAX_BLOCK_SIZE` and `ZUPT_MAX_BLOCK_SZ`: a block has no more bytes than that. -/
def maxBlockBytes : Nat := 256 * 1024 * 1024

/-- **NORMALISATION** of the histogram of a block: the frequencies add up to the size of the
    table, are those of the symbols that occur, and leave room for a second symbol if there
    is one. -/
theorem normalizeFreq_exact {raw : Nat → Nat} (hsome : ∃ i < 256, raw i ≠ 0)
    (hblock : normSum raw 256 ≤ maxBlockBytes) :
    normSum (normalizeFreq raw).2 256 = ansL ∧
    (∀ i < 256, (normalizeFreq raw).2 i ≠ 0 ↔ raw i ≠ 0) ∧
    (2 ≤ symbolCount raw 256 → ∀ i < 256, (normalizeFreq raw).2 i ≤ 4095) ∧
    (normalizeFreq raw).1 = symbolCount raw 256 := by
  obtain ⟨b, hb, hraw⟩ := hsome
  have htotal : 0 < normSum raw 256 := lt_of_lt_of_le (Nat.pos_of_ne_zero hraw) (le_normSum raw hb)
  have hnormal := normalizeFreq_normalized htotal (lt_of_le_of_lt hblock (by decide))
  refine ⟨hnormal.sum, fun i _ => hnormal.support i, ?_, normalizeFreq_count raw⟩
  intro htwo i hi
  have hlt := hnormal.lt_of_two htwo hi
  exact Nat.le_of_lt_succ hlt

/-- A symbol that occurs a million times, and one that occurs once. -/
def rareRaw : Nat → Nat := fun i => if i = 0 then 1000000 else if i = 1 then 1 else 0

theorem normalizeFreq_exact_rare : (normalizeFreq rareRaw).2 0 ≤ 4095 ∧ (normalizeFreq rareRaw).2 1 ≠ 0 := by
  have hsome : ∃ i < 256, rareRaw i ≠ 0 := ⟨0, by decide, by decide⟩
  obtain ⟨-, hsupport, hmost, -⟩ := normalizeFreq_exact hsome (by decide +kernel)
  exact ⟨hmost (by decide +kernel) 0 (by decide), (hsupport 1 (by decide)).mpr (by decide)⟩

end Zupt.VaptVupt
