import Zupt.VaptVupt.Frame
import Zupt.Memory

/-! # Tables of the tANS coder

    The frequency header of `vv_ans.c`, and the decode tables it builds from
    one.  A table is storage that was not initialised: `spread_symbols` visits
    every slot exactly if the frequencies add up to its size, because the step
    is odd.  Then nothing of what the storage held before is left in the table. -/

namespace Zupt.VaptVupt

open Zupt.LittleEndian Zupt.Memory

/-- `ANS_L`, the size of a table. -/
def ansL : Nat := 4096

/-- `ANS_LOG`. -/
def ansLog : Nat := 12

/-- `vva_dec_entry_t`. -/
structure DecEntry where
  symbol : UInt8
  nbits : Nat
  baseline : Nat
  deriving DecidableEq, Repr

/-- The frequencies of the symbols, `uint16_t norm[NSYM]`. -/
abbrev Norm := Nat → Nat

/-! ## Headers -/

/-- A 16-bit field. -/
def u16At (s : Bytes) (pos : Nat) : Nat := leGet ((s.drop pos).take 2)

/-- The pairs of a sparse header, the later ones over the earlier ones. -/
def sparseNorm : (count : Nat) → Bytes → Norm → Norm
  | 0, _, norm => norm
  | count + 1, s, norm =>
      sparseNorm count (s.drop 3) (Function.update norm (charAt s 0).toNat (u16At s 1))

/-- The frequencies of the symbols up to `max_sym` from `pos` on. -/
def denseNorm (s : Bytes) (pos max_sym : Nat) : Norm :=
  fun i => if i ≤ max_sym then u16At s (pos + 2 * i) else 0

/-- `read_hdr_v2`: the size of the header and its frequencies; `none` is 0. -/
def readHdrV2 (s : Bytes) : Option (Nat × Norm) :=
  if s.length < 1 then none
  else if charAt s 0 = 1 then
    if s.length < 2 then none
    else some (2, Function.update (fun _ => 0) (charAt s 1).toNat ansL)
  else if charAt s 0 = 2 then
    if s.length < 2 then none
    else
      let count := (charAt s 1).toNat
      if s.length < 2 + 3 * count then none
      else some (2 + 3 * count, sparseNorm count (s.drop 2) fun _ => 0)
  else if charAt s 0 = 3 then
    if s.length < 2 then none
    else
      let max_sym := (charAt s 1).toNat
      if s.length < 2 + 2 * (max_sym + 1) then none
      else some (2 + 2 * (max_sym + 1), denseNorm s 2 max_sym)
  else
    -- the first byte of the legacy format is its largest symbol
    let max_sym := (charAt s 0).toNat
    if s.length < 1 + 2 * (max_sym + 1) then none
    else some (1 + 2 * (max_sym + 1), denseNorm s 1 max_sym)

/-- The sum of the first `n` frequencies. -/
def normSum (norm : Norm) : (n : Nat) → Nat
  | 0 => 0
  | n + 1 => normSum norm n + norm n

/-- The number of symbols among the first `n` that occur. -/
def symbolCount (norm : Norm) : (n : Nat) → Nat
  | 0 => 0
  | n + 1 => symbolCount norm n + if norm n ≠ 0 then 1 else 0

/-- The last of the first `n` symbols that occurs. -/
def lastSymbol (norm : Norm) : (n : Nat) → Nat
  | 0 => 0
  | n + 1 => if norm n ≠ 0 then n else lastSymbol norm n

/-- `validated_symbol_count`. -/
def validatedSymbolCount (norm : Norm) : Nat :=
  if normSum norm 256 = ansL then symbolCount norm 256 else 0

/-! ## Spreading the symbols -/

/-- The step from slot to slot. -/
def spreadStep : Nat := 2563

/-- `norm[s]` turns of the inner loop of `spread_symbols`: the slots, and the
    next one. -/
def spreadRun (s : UInt8) : (left : Nat) → Mem UInt8 → (pos : Nat) → Mem UInt8 × Nat
  | 0, sp, pos => (sp, pos)
  | left + 1, sp, pos =>
      spreadRun s left (Function.update sp pos s) ((pos + spreadStep) % ansL)

/-- The outer loop of `spread_symbols` over the first `n` symbols. -/
def spreadRuns (norm : Norm) (sp : Mem UInt8) : (n : Nat) → Mem UInt8 × Nat
  | 0 => (sp, 0)
  | n + 1 =>
      let st := spreadRuns norm sp n
      spreadRun (UInt8.ofNat n) (norm n) st.1 st.2

/-- `spread_symbols`. -/
def spreadSymbols (norm : Norm) (sp : Mem UInt8) : Mem UInt8 := (spreadRuns norm sp 256).1

/-- `dec[pos].symbol = s`. -/
def setSymbol (dec : Mem DecEntry) (pos : Nat) (s : UInt8) : Mem DecEntry :=
  Function.update dec pos { dec pos with symbol := s }

/-- The inner loop of the first pass of `build_dec_direct`. -/
def placeRun (s : UInt8) : (left : Nat) → Mem DecEntry → (pos : Nat) → Mem DecEntry × Nat
  | 0, dec, pos => (dec, pos)
  | left + 1, dec, pos => placeRun s left (setSymbol dec pos s) ((pos + spreadStep) % ansL)

/-- The first pass of `build_dec_direct` over the first `n` symbols. -/
def placeRuns (norm : Norm) (dec : Mem DecEntry) : (n : Nat) → Mem DecEntry × Nat
  | 0 => (dec, 0)
  | n + 1 =>
      let st := placeRuns norm dec n
      placeRun (UInt8.ofNat n) (norm n) st.1 st.2

/-! ## Filling in the entries -/

/-- `nbmax_tab[s]`. -/
def nbMax (f : Nat) : Nat := if f = 0 ∨ f = ansL then 0 else ansLog - Nat.log2 f

/-- `lowcnt_tab[s]`. -/
def lowCount (f : Nat) : Nat := if f = 0 ∨ f = ansL then 0 else 2 ^ (Nat.log2 f + 1) - f

/-- What both builders put into the slot of the `k`-th occurrence of `s`, whose
    frequency is `f`.  The guards against a frequency above `ANS_L` in
    `build_dec` are for headers that were not validated. -/
def entryAt (s : UInt8) (f k : Nat) : DecEntry :=
  if nbMax f = 0 then ⟨s, 0, 0⟩
  else if k < lowCount f then ⟨s, nbMax f, k <<< nbMax f % 65536⟩
  else
    let sh := nbMax f - 1
    ⟨s, sh, (lowCount f <<< nbMax f + (k - lowCount f) <<< sh) % 65536⟩

/-- The second pass of `build_dec_direct` over the first `n` slots, with the
    occurrences that were counted so far. -/
def fillDirect (norm : Norm) (dec : Mem DecEntry) : (n : Nat) → Mem DecEntry × (UInt8 → Nat)
  | 0 => (dec, fun _ => 0)
  | n + 1 =>
      let st := fillDirect norm dec n
      let s := (st.1 n).symbol
      (Function.update st.1 n (entryAt s (norm s.toNat) (st.2 s)),
        Function.update st.2 s (st.2 s + 1))

/-- `build_dec_direct`. -/
def buildDecDirect (norm : Norm) (dec : Mem DecEntry) : Mem DecEntry :=
  (fillDirect norm (placeRuns norm dec 256).1 ansL).1

/-- The loop of `build_dec` over the first `n` slots. -/
def fillSpread (norm : Norm) (sp : Mem UInt8) (dec : Mem DecEntry) :
    (n : Nat) → Mem DecEntry × (UInt8 → Nat)
  | 0 => (dec, fun _ => 0)
  | n + 1 =>
      let st := fillSpread norm sp dec n
      let s := sp n
      (Function.update st.1 n (entryAt s (norm s.toNat) (st.2 s)),
        Function.update st.2 s (st.2 s + 1))

/-- `build_dec`. -/
def buildDec (norm : Norm) (sp : Mem UInt8) (dec : Mem DecEntry) : Mem DecEntry :=
  (fillSpread norm sp dec ansL).1

/-! ## Every slot is written -/

/-- Two buffers agree on the slots of a table. -/
def AgreeBelow {α : Type} (n : Nat) (a b : Mem α) : Prop := ∀ i, i < n → a i = b i

/-- The slot after `k` steps. -/
def slot (k : Nat) : Nat := k * spreadStep % ansL

/-- The step is odd, so that some multiple of it is any slot. -/
theorem exists_slot {x : Nat} (h : x < ansL) : ∃ k, k < ansL ∧ slot k = x := by
  refine ⟨x * 171 % ansL, Nat.mod_lt _ (by decide), ?_⟩
  rw [slot, spreadStep, ansL] at *
  omega

theorem slot_succ (k : Nat) : (slot k + spreadStep) % ansL = slot (k + 1) := by
  rw [slot, slot, ansL, spreadStep]
  omega

/-- A run goes on from slot to slot. -/
theorem spreadRun_spec (s : UInt8) (left k : Nat) {sp sp' : Mem UInt8}
    (h : ∀ j, j < k → sp (slot j) = sp' (slot j)) :
    (spreadRun s left sp (slot k)).2 = slot (k + left) ∧
      ∀ j, j < k + left →
        (spreadRun s left sp (slot k)).1 (slot j) = (spreadRun s left sp' (slot k)).1 (slot j) := by
  induction left generalizing k sp sp' with
  | zero => exact ⟨rfl, h⟩
  | succ left ih =>
      rw [spreadRun, spreadRun, slot_succ]
      have hnext : ∀ j, j < k + 1 →
          Function.update sp (slot k) s (slot j) = Function.update sp' (slot k) s (slot j) := by
        intro j hj
        by_cases hsame : slot j = slot k
        · rw [hsame, Function.update_self, Function.update_self]
        · have hne : j ≠ k := fun hjk => hsame (congrArg slot hjk)
          rw [Function.update_of_ne hsame, Function.update_of_ne hsame, h j (by omega)]
      have hrun := ih (k + 1) hnext
      have hsum : k + 1 + left = k + (left + 1) := by omega
      rw [hsum] at hrun
      exact hrun

theorem spreadRuns_slot (norm : Norm) (sp : Mem UInt8) (n : Nat) :
    (spreadRuns norm sp n).2 = slot (normSum norm n) := by
  induction n with
  | zero => rw [spreadRuns, normSum, slot, Nat.zero_mul, Nat.zero_mod]
  | succ n ih =>
      rw [spreadRuns, normSum, ih]
      exact (spreadRun_spec (UInt8.ofNat n) (norm n) (normSum norm n)
        fun _ _ => rfl).1

theorem spreadRuns_agree (norm : Norm) (sp sp' : Mem UInt8) (n : Nat) :
    ∀ j, j < normSum norm n →
      (spreadRuns norm sp n).1 (slot j) = (spreadRuns norm sp' n).1 (slot j) := by
  induction n with
  | zero =>
      intro j hj
      exact absurd hj (Nat.not_lt_zero j)
  | succ n ih =>
      rw [spreadRuns, spreadRuns, normSum, spreadRuns_slot, spreadRuns_slot]
      exact (spreadRun_spec (UInt8.ofNat n) (norm n) (normSum norm n) ih).2

/-- **NOTHING IS LEFT OF THE STORAGE** in a spread whose frequencies add up to
    the size of the table. -/
theorem spreadSymbols_agree {norm : Norm} (h : normSum norm 256 = ansL) (sp sp' : Mem UInt8) :
    AgreeBelow ansL (spreadSymbols norm sp) (spreadSymbols norm sp') := by
  intro x hx
  obtain ⟨k, hk, rfl⟩ := exists_slot hx
  rw [← h] at hk
  exact spreadRuns_agree norm sp sp' 256 k hk

/-! ## The direct builder -/

/-- The symbols of a table. -/
def symbols (dec : Mem DecEntry) : Mem UInt8 := fun x => (dec x).symbol

theorem symbols_setSymbol (dec : Mem DecEntry) (pos : Nat) (s : UInt8) :
    symbols (setSymbol dec pos s) = Function.update (symbols dec) pos s := by
  funext x
  rw [symbols, setSymbol]
  by_cases hx : x = pos
  · subst hx
    rw [Function.update_self, Function.update_self]
  · rw [Function.update_of_ne hx, Function.update_of_ne hx, symbols]

theorem placeRun_symbols (s : UInt8) (left : Nat) (dec : Mem DecEntry) (pos : Nat) :
    (symbols (placeRun s left dec pos).1, (placeRun s left dec pos).2) =
      spreadRun s left (symbols dec) pos := by
  induction left generalizing dec pos with
  | zero => rfl
  | succ left ih => rw [placeRun, ih, spreadRun, symbols_setSymbol]

theorem placeRuns_symbols (norm : Norm) (dec : Mem DecEntry) (n : Nat) :
    (symbols (placeRuns norm dec n).1, (placeRuns norm dec n).2) =
      spreadRuns norm (symbols dec) n := by
  induction n with
  | zero => rfl
  | succ n ih =>
      rw [spreadRuns, ← ih, placeRuns]
      exact placeRun_symbols _ _ _ _

/-- The second pass reads its symbols off the table itself: the slots it has
    not reached are as the first pass left them. -/
theorem fillDirect_spec (norm : Norm) (dec : Mem DecEntry) (n : Nat) :
    (fillDirect norm dec n).2 = (fillSpread norm (symbols dec) dec n).2 ∧
      (fillDirect norm dec n).1 = (fillSpread norm (symbols dec) dec n).1 ∧
        ∀ i, n ≤ i → (fillDirect norm dec n).1 i = dec i := by
  induction n with
  | zero => exact ⟨rfl, rfl, fun _ _ => rfl⟩
  | succ n ih =>
      obtain ⟨hocc, hdec, hrest⟩ := ih
      have hsym : ((fillDirect norm dec n).1 n).symbol = symbols dec n := by
        rw [hrest n (Nat.le_refl n), symbols]
      rw [fillDirect, fillSpread]
      dsimp only
      rw [hsym, hocc, hdec]
      refine ⟨rfl, rfl, ?_⟩
      intro i hi
      have hne : i ≠ n := by omega
      rw [Function.update_of_ne hne, ← hdec, hrest i (by omega)]

/-- **THE DIRECT BUILDER** is the builder over the spread it makes itself. -/
theorem buildDecDirect_eq (norm : Norm) (dec : Mem DecEntry) :
    buildDecDirect norm dec =
      buildDec norm (spreadSymbols norm (symbols dec)) (placeRuns norm dec 256).1 := by
  have hsym : symbols (placeRuns norm dec 256).1 = spreadSymbols norm (symbols dec) :=
    congrArg Prod.fst (placeRuns_symbols norm dec 256)
  rw [buildDecDirect, buildDec, ← hsym]
  exact (fillDirect_spec norm _ ansL).2.1

theorem fillSpread_agree {norm : Norm} {sp sp' : Mem UInt8} (dec dec' : Mem DecEntry) {n : Nat}
    (h : AgreeBelow n sp sp') :
    (fillSpread norm sp dec n).2 = (fillSpread norm sp' dec' n).2 ∧
      AgreeBelow n (fillSpread norm sp dec n).1 (fillSpread norm sp' dec' n).1 := by
  induction n with
  | zero =>
      refine ⟨rfl, ?_⟩
      intro i hi
      exact absurd hi (Nat.not_lt_zero i)
  | succ n ih =>
      obtain ⟨hocc, hagree⟩ := ih fun i hi => h i (by omega)
      have hsym : sp n = sp' n := h n (Nat.lt_succ_self n)
      rw [fillSpread, fillSpread]
      dsimp only
      rw [hsym, hocc]
      refine ⟨rfl, ?_⟩
      intro i hi
      by_cases hin : i = n
      · subst hin
        rw [Function.update_self, Function.update_self]
      · rw [Function.update_of_ne hin, Function.update_of_ne hin, hagree i (by omega)]

/-- **THE TABLE OF A VALIDATED HEADER** does not depend on the storage. -/
theorem buildDec_agree {norm : Norm} (h : normSum norm 256 = ansL) (sp sp' : Mem UInt8)
    (dec dec' : Mem DecEntry) :
    AgreeBelow ansL (buildDec norm (spreadSymbols norm sp) dec)
      (buildDec norm (spreadSymbols norm sp') dec') :=
  (fillSpread_agree dec dec' (spreadSymbols_agree h sp sp')).2

theorem buildDecDirect_agree {norm : Norm} (h : normSum norm 256 = ansL)
    (dec dec' : Mem DecEntry) :
    AgreeBelow ansL (buildDecDirect norm dec) (buildDecDirect norm dec') := by
  rw [buildDecDirect_eq, buildDecDirect_eq]
  exact buildDec_agree h _ _ _ _

/-- A header with symbols adds up. -/
theorem normSum_of_validated {norm : Norm} (h : validatedSymbolCount norm ≠ 0) :
    normSum norm 256 = ansL := by
  by_contra hne
  rw [validatedSymbolCount, if_neg hne] at h
  exact h rfl

/-! ## Every symbol of a table occurs -/

/-- What a run writes is its symbol; a slot that held a symbol that occurs goes
    on holding one. -/
theorem spreadRun_occurs {norm : Norm} {s left k : Nat} (hs : s < 256) (hnorm : norm s ≠ 0)
    {sp : Mem UInt8} (h : ∀ j, j < k → norm (sp (slot j)).toNat ≠ 0) :
    ∀ j, j < k + left →
      norm ((spreadRun (UInt8.ofNat s) left sp (slot k)).1 (slot j)).toNat ≠ 0 := by
  induction left generalizing k sp with
  | zero => exact h
  | succ left ih =>
      rw [spreadRun, slot_succ]
      have hnext : ∀ j, j < k + 1 →
          norm (Function.update sp (slot k) (UInt8.ofNat s) (slot j)).toNat ≠ 0 := by
        intro j hj
        by_cases hsame : slot j = slot k
        · have hcast : (UInt8.ofNat s).toNat = s := by
            rw [UInt8.toNat_ofNat']
            omega
          rw [hsame, Function.update_self, hcast]
          exact hnorm
        · have hne : j ≠ k := fun hjk => hsame (congrArg slot hjk)
          rw [Function.update_of_ne hsame]
          exact h j (by omega)
      have hsum : k + (left + 1) = k + 1 + left := by omega
      rw [hsum]
      exact ih hnext

theorem spreadRuns_occurs (norm : Norm) (sp : Mem UInt8) {n : Nat} (hn : n ≤ 256) :
    ∀ j, j < normSum norm n → norm ((spreadRuns norm sp n).1 (slot j)).toNat ≠ 0 := by
  induction n with
  | zero =>
      intro j hj
      exact absurd hj (Nat.not_lt_zero j)
  | succ n ih =>
      rw [spreadRuns, normSum, spreadRuns_slot]
      by_cases hnorm : norm n = 0
      · rw [hnorm]
        exact ih (by omega)
      · exact spreadRun_occurs (by omega) hnorm (ih (by omega))

theorem entryAt_symbol (s : UInt8) (f k : Nat) : (entryAt s f k).symbol = s := by
  rw [entryAt]
  split
  · rfl
  · split <;> rfl

theorem fillSpread_symbol (norm : Norm) (sp : Mem UInt8) (dec : Mem DecEntry) {n i : Nat}
    (hi : i < n) : ((fillSpread norm sp dec n).1 i).symbol = sp i := by
  induction n with
  | zero => exact absurd hi (Nat.not_lt_zero i)
  | succ n ih =>
      rw [fillSpread]
      dsimp only
      by_cases hin : i = n
      · subst hin
        rw [Function.update_self, entryAt_symbol]
      · rw [Function.update_of_ne hin]
        exact ih (by omega)

/-- **A SYMBOL OF A TABLE** has a frequency. -/
theorem buildDecDirect_occurs {norm : Norm} (h : normSum norm 256 = ansL) (dec : Mem DecEntry)
    {x : Nat} (hx : x < ansL) : norm (buildDecDirect norm dec x).symbol.toNat ≠ 0 := by
  obtain ⟨k, hk, rfl⟩ := exists_slot hx
  rw [buildDecDirect_eq, buildDec, fillSpread_symbol norm _ _ hx]
  rw [← h] at hk
  exact spreadRuns_occurs norm _ (Nat.le_refl 256) k hk

end Zupt.VaptVupt
