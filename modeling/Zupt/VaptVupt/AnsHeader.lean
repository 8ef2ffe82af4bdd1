import Zupt.VaptVupt.AnsStates

/-! # Frequency headers

    A header gives back the frequencies of the bytes it was written for, in each
    of its three forms, and so the decoder builds the table whose steps the
    encoder took.  The frequencies are those of a histogram of some bytes. -/

namespace Zupt.VaptVupt

open Zupt.LittleEndian Zupt.Memory Zupt.BitStream

/-! ## Symbols that occur -/

theorem activeSymbols_length (norm : Norm) : (activeSymbols norm).length = symbolCount norm 256 := by
  have hall (n : Nat) : ((List.range n).filter fun i => decide (norm i ≠ 0)).length =
      symbolCount norm n := by
    induction n with
    | zero => rfl
    | succ n ih =>
        rw [List.range_succ, List.filter_append, List.length_append, ih, symbolCount]
        by_cases hn : norm n ≠ 0
        · simp [hn]
        · simp [not_not.mp hn]
  exact hall 256

theorem mem_activeSymbols {norm : Norm} {i : Nat} : i ∈ activeSymbols norm ↔ i < 256 ∧ norm i ≠ 0 := by
  simp [activeSymbols]

theorem symbolCount_le (f : Nat → Nat) (n : Nat) : symbolCount f n ≤ n := by
  induction n with
  | zero => exact Nat.le_refl 0
  | succ n ih =>
      rw [symbolCount]
      split
      · omega
      · omega

/-- The last symbol is one of the symbols, and none comes behind it. -/
theorem lastSymbol_spec {f : Nat → Nat} {n : Nat} (h : 0 < symbolCount f n) :
    lastSymbol f n < n ∧ f (lastSymbol f n) ≠ 0 ∧ ∀ i < n, f i ≠ 0 → i ≤ lastSymbol f n := by
  induction n with
  | zero => exact absurd h (Nat.lt_irrefl 0)
  | succ n ih =>
      rw [lastSymbol]
      by_cases hn : f n ≠ 0
      · rw [if_pos hn]
        exact ⟨Nat.lt_succ_self n, hn, fun i hi _ => Nat.le_of_lt_succ hi⟩
      · rw [symbolCount, if_neg hn] at h
        obtain ⟨hlt, hocc, hlast⟩ := ih h
        rw [if_neg hn]
        refine ⟨Nat.lt_succ_of_lt hlt, hocc, ?_⟩
        intro i hi hfi
        by_cases hin : i = n
        · rw [hin] at hfi
          exact absurd hfi hn
        · exact hlast i (by omega) hfi

/-- One symbol makes up the whole sum. -/
theorem normSum_of_one {f : Nat → Nat} {n : Nat} (h : symbolCount f n = 1) :
    normSum f n = f (lastSymbol f n) := by
  induction n with
  | zero => cases h
  | succ n ih =>
      rw [symbolCount] at h
      rw [normSum, lastSymbol]
      by_cases hn : f n ≠ 0
      · rw [if_pos hn] at h ⊢
        have hnone : normSum f n = 0 := by
          by_contra hne
          have hpos := symbolCount_pos (Nat.pos_of_ne_zero hne)
          omega
        rw [hnone, Nat.zero_add]
      · rw [if_neg hn] at h ⊢
        rw [ih h, not_not.mp hn, Nat.add_zero]

/-- One symbol that occurs is the only one. -/
theorem eq_lastSymbol {f : Nat → Nat} {n i : Nat} (h : symbolCount f n = 1) (hi : i < n)
    (hf : f i ≠ 0) : i = lastSymbol f n := by
  by_contra hne
  obtain ⟨hlt, hocc, -⟩ := lastSymbol_spec (h ▸ Nat.one_pos)
  have hsum := normSum_of_one h
  have hupd := normSum_update f hlt 0
  have hle := le_normSum (Function.update f (lastSymbol f n) 0) hi
  rw [Function.update_of_ne hne] at hle
  omega

/-! ## Writing and reading a header -/

theorem u16At_lePut {n : Nat} (hn : n < 2 ^ 16) (pre rest : Bytes) {pos : Nat}
    (hpos : pos = pre.length) : u16At (pre ++ (lePut 2 n ++ rest)) pos = n := by
  rw [u16At, hpos, List.drop_left, List.take_left' (lePut_length 2 n), leGet_lePut]
  exact Nat.mod_eq_of_lt hn

/-- The pairs of a sparse header. -/
def sparsePairs (norm : Norm) (symbols : List Nat) : Bytes :=
  symbols.flatMap fun i => UInt8.ofNat i :: lePut 2 (norm i)

theorem sparsePairs_length (norm : Norm) (symbols : List Nat) :
    (sparsePairs norm symbols).length = 3 * symbols.length := by
  induction symbols with
  | nil => rfl
  | cons s symbols ih =>
      rw [sparsePairs, List.flatMap_cons, List.length_append, List.length_cons, lePut_length,
        ← sparsePairs, ih, List.length_cons]
      omega

/-- Pairs over frequencies that are already there. -/
theorem sparseNorm_pairs {norm : Norm} (hnorm : ∀ i < 256, norm i < 2 ^ 16) {symbols : List Nat}
    (hsym : ∀ s ∈ symbols, s < 256) (rest : Bytes) (norm0 : Norm) (i : Nat) :
    sparseNorm symbols.length (sparsePairs norm symbols ++ rest) norm0 i =
      if i ∈ symbols then norm i else norm0 i := by
  induction symbols generalizing norm0 with
  | nil => simp [sparseNorm]
  | cons s symbols ih =>
      have hs : s < 256 := hsym s List.mem_cons_self
      have hcast : (UInt8.ofNat s).toNat = s := by
        rw [UInt8.toNat_ofNat']
        omega
      have hbytes : sparsePairs norm (s :: symbols) ++ rest =
          [UInt8.ofNat s] ++ (lePut 2 (norm s) ++ (sparsePairs norm symbols ++ rest)) := by
        simp [sparsePairs]
      have hdrop : ([UInt8.ofNat s] ++ (lePut 2 (norm s) ++ (sparsePairs norm symbols ++ rest))).drop 3 =
          sparsePairs norm symbols ++ rest := by
        rw [← List.append_assoc]
        exact List.drop_left' (by simp)
      have hfreq := u16At_lePut (hnorm s hs) [UInt8.ofNat s] (sparsePairs norm symbols ++ rest)
        (show 1 = [UInt8.ofNat s].length from rfl)
      rw [List.length_cons, hbytes, sparseNorm, hdrop, hfreq,
        ih (fun t ht => hsym t (List.mem_cons_of_mem s ht))]
      show (if i ∈ symbols then norm i else Function.update norm0 (UInt8.ofNat s).toNat (norm s) i) = _
      rw [hcast]
      by_cases hmem : i ∈ symbols
      · rw [if_pos hmem, if_pos (List.mem_cons_of_mem s hmem)]
      · rw [if_neg hmem]
        by_cases his : i = s
        · subst his
          rw [Function.update_self, if_pos List.mem_cons_self]
        · have hnot : i ∉ s :: symbols := by
            rintro (_ | ⟨_, hi⟩)
            · exact his rfl
            · exact hmem hi
          rw [Function.update_of_ne his, if_neg hnot]

/-- The frequencies of a dense header, one behind another. -/
def denseFreqs (norm : Norm) (n : Nat) : Bytes := (List.range n).flatMap fun i => lePut 2 (norm i)

theorem denseFreqs_succ (norm : Norm) (n : Nat) :
    denseFreqs norm (n + 1) = denseFreqs norm n ++ lePut 2 (norm n) := by
  simp [denseFreqs, List.range_succ]

theorem denseFreqs_length (norm : Norm) (n : Nat) : (denseFreqs norm n).length = 2 * n := by
  induction n with
  | zero => rfl
  | succ n ih =>
      rw [denseFreqs_succ, List.length_append, ih, lePut_length]
      omega

/-- A frequency stands at its place. -/
theorem u16At_denseFreqs {norm : Norm} {n i : Nat} (hnorm : ∀ i < n, norm i < 2 ^ 16) (hi : i < n)
    (pre rest : Bytes) :
    u16At (pre ++ (denseFreqs norm n ++ rest)) (pre.length + 2 * i) = norm i := by
  induction n generalizing rest with
  | zero => exact absurd hi (Nat.not_lt_zero i)
  | succ n ih =>
      rw [denseFreqs_succ, List.append_assoc]
      by_cases hlast : i = n
      · subst hlast
        rw [← List.append_assoc]
        refine u16At_lePut (hnorm i hi) _ _ ?_
        rw [List.length_append, denseFreqs_length]
      · exact ih (fun j hj => hnorm j (Nat.lt_succ_of_lt hj)) (by omega) _

/-- What a header tells of frequencies: those of the bytes. -/
theorem readHdrV2_writeHdrV2 {norm : Norm} (hsum : normSum norm 256 = ansL) {cap : Nat} {hdr : Bytes}
    (h : writeHdrV2 norm cap = some hdr) (rest : Bytes) :
    ∃ norm', readHdrV2 (hdr ++ rest) = some (hdr.length, norm') ∧ SameBytes norm norm' := by
  have hfits : ∀ i < 256, norm i < 2 ^ 16 := fun i hi =>
    (freq_le hsum i hi).trans_lt (by decide)
  have hpos : 0 < symbolCount norm 256 := symbolCount_pos (hsum ▸ (by decide : 0 < ansL))
  obtain ⟨hlast, -, hmax⟩ := lastSymbol_spec hpos
  have hcast : (UInt8.ofNat (lastSymbol norm 256)).toNat = lastSymbol norm 256 := by
    rw [UInt8.toNat_ofNat']
    omega
  rw [writeHdrV2] at h
  rw [if_neg (by omega)] at h
  by_cases hone : symbolCount norm 256 = 1
  · rw [if_pos hone] at h
    split at h
    · cases h
    obtain rfl := Option.some.inj h
    refine ⟨Function.update (fun _ => 0) (lastSymbol norm 256) ansL, ?_, ?_⟩
    · rw [readHdrV2, if_neg (by simp)]
      rw [show charAt ([1, UInt8.ofNat (lastSymbol norm 256)] ++ rest) 0 = 1 from rfl,
        show charAt ([1, UInt8.ofNat (lastSymbol norm 256)] ++ rest) 1 =
          UInt8.ofNat (lastSymbol norm 256) from rfl, if_pos rfl, if_neg (by simp), hcast]
      rfl
    · intro i hi
      by_cases hil : i = lastSymbol norm 256
      · rw [hil, Function.update_self, ← normSum_of_one hone, hsum]
      · rw [Function.update_of_ne hil]
        by_contra hne
        exact hil (eq_lastSymbol hone hi hne)
  rw [if_neg hone] at h
  by_cases hsparse : symbolCount norm 256 ≤ sparseThreshold
  · rw [if_pos hsparse] at h
    split at h
    · cases h
    obtain rfl := Option.some.inj h
    have hcount : (UInt8.ofNat (symbolCount norm 256)).toNat = symbolCount norm 256 := by
      rw [sparseThreshold] at hsparse
      rw [UInt8.toNat_ofNat']
      omega
    have hlen := sparsePairs_length norm (activeSymbols norm)
    have hlen' := activeSymbols_length norm
    show ∃ norm', readHdrV2 (2 :: UInt8.ofNat (symbolCount norm 256) ::
      sparsePairs norm (activeSymbols norm) ++ rest) = some ((2 :: UInt8.ofNat (symbolCount norm 256) ::
      sparsePairs norm (activeSymbols norm)).length, norm') ∧ SameBytes norm norm'
    refine ⟨sparseNorm (activeSymbols norm).length (sparsePairs norm (activeSymbols norm) ++ rest)
      fun _ => 0, ?_, ?_⟩
    · rw [readHdrV2, if_neg (by simp)]
      rw [show charAt (2 :: UInt8.ofNat (symbolCount norm 256) ::
          sparsePairs norm (activeSymbols norm) ++ rest) 0 = 2 from rfl,
        show charAt (2 :: UInt8.ofNat (symbolCount norm 256) ::
          sparsePairs norm (activeSymbols norm) ++ rest) 1 = UInt8.ofNat (symbolCount norm 256) from rfl,
        if_neg (by decide), if_pos rfl, if_neg (by simp), hcount]
      dsimp only
      rw [if_neg (by simp only [List.length_cons, List.length_append]; omega), hlen']
      refine congrArg some (Prod.ext ?_ rfl)
      show 2 + 3 * symbolCount norm 256 = (sparsePairs norm (activeSymbols norm)).length + 1 + 1
      omega
    · intro i hi
      rw [sparseNorm_pairs hfits (fun s hs => (mem_activeSymbols.mp hs).1)]
      by_cases hocc : norm i ≠ 0
      · rw [if_pos (mem_activeSymbols.mpr ⟨hi, hocc⟩)]
      · rw [if_neg fun hmem => hocc (mem_activeSymbols.mp hmem).2, not_not.mp hocc]
  · rw [if_neg hsparse] at h
    split at h
    · cases h
    obtain rfl := Option.some.inj h
    have hlen := denseFreqs_length norm (lastSymbol norm 256 + 1)
    show ∃ norm', readHdrV2 (3 :: UInt8.ofNat (lastSymbol norm 256) ::
      denseFreqs norm (lastSymbol norm 256 + 1) ++ rest) = some ((3 :: UInt8.ofNat (lastSymbol norm 256) ::
      denseFreqs norm (lastSymbol norm 256 + 1)).length, norm') ∧ SameBytes norm norm'
    refine ⟨denseNorm ([3, UInt8.ofNat (lastSymbol norm 256)] ++
      (denseFreqs norm (lastSymbol norm 256 + 1) ++ rest)) 2 (lastSymbol norm 256), ?_, ?_⟩
    · rw [readHdrV2, if_neg (by simp)]
      rw [show charAt (3 :: UInt8.ofNat (lastSymbol norm 256) ::
          denseFreqs norm (lastSymbol norm 256 + 1) ++ rest) 0 = 3 from rfl,
        show charAt (3 :: UInt8.ofNat (lastSymbol norm 256) ::
          denseFreqs norm (lastSymbol norm 256 + 1) ++ rest) 1 = UInt8.ofNat (lastSymbol norm 256) from rfl,
        if_neg (by decide), if_neg (by decide), if_pos rfl, if_neg (by simp), hcast]
      dsimp only
      rw [if_neg (by simp only [List.length_cons, List.length_append]; omega)]
      refine congrArg some (Prod.ext ?_ rfl)
      show 2 + 2 * (lastSymbol norm 256 + 1) =
        (denseFreqs norm (lastSymbol norm 256 + 1)).length + 1 + 1
      omega
    · intro i hi
      rw [denseNorm]
      by_cases hle : i ≤ lastSymbol norm 256
      · rw [if_pos hle]
        refine (u16At_denseFreqs ?_ (Nat.lt_succ_of_le hle) _ rest).symm
        exact fun j hj => hfits j (by omega)
      · rw [if_neg hle]
        by_contra hne
        exact hle (hmax i hi hne)

theorem writeHdrV2_length {norm : Norm} {cap : Nat} {hdr : Bytes} (h : writeHdrV2 norm cap = some hdr) :
    hdr.length ≤ cap := by
  rw [writeHdrV2] at h
  split at h
  · cases h
  split at h
  · split at h
    · cases h
    · obtain rfl := Option.some.inj h
      show 2 ≤ cap
      omega
  split at h
  · split at h
    · cases h
    · obtain rfl := Option.some.inj h
      have hlen := sparsePairs_length norm (activeSymbols norm)
      rw [activeSymbols_length] at hlen
      show (sparsePairs norm (activeSymbols norm)).length + 1 + 1 ≤ cap
      omega
  · split at h
    · cases h
    · obtain rfl := Option.some.inj h
      have hlen := denseFreqs_length norm (lastSymbol norm 256 + 1)
      show (denseFreqs norm (lastSymbol norm 256 + 1)).length + 1 + 1 ≤ cap
      omega

/-! ## What the decoder makes of it -/

section Decoder

variable {norm norm' : Norm}

theorem SameBytes.sum (h : SameBytes norm norm') : normSum norm 256 = normSum norm' 256 :=
  normSum_congr h

/-- The number of symbols of frequencies that add up. -/
theorem validatedSymbolCount_same (h : SameBytes norm norm') (hsum : normSum norm 256 = ansL) :
    validatedSymbolCount norm' = symbolCount norm 256 := by
  rw [validatedSymbolCount, ← h.sum, if_pos hsum]
  exact symbolCount_congr fun i hi => by rw [h i hi]

/-- The last symbol of frequencies that are the same. -/
theorem lastSymbol_same (h : SameBytes norm norm') (hone : symbolCount norm 256 = 1) :
    lastSymbol norm' 256 = lastSymbol norm 256 := by
  have hone' : symbolCount norm' 256 = 1 := by
    rw [← hone]
    exact symbolCount_congr fun i hi => by rw [h i hi]
  obtain ⟨hlt, hocc, -⟩ := lastSymbol_spec (f := norm) (n := 256) (by omega)
  rw [h _ hlt] at hocc
  exact (eq_lastSymbol hone' hlt hocc).symm

/-- The decode table of some frequencies, whatever was in its storage. -/
def TableFor (norm : Norm) (dec : Mem DecEntry) : Prop :=
  ∀ sp dec', AgreeBelow ansL dec (buildDec norm (spreadSymbols norm sp) dec')

theorem TableFor.undone {dec : Mem DecEntry} (h : TableFor norm dec) (hsum : normSum norm 256 = ansL)
    (t : TableMemory) : Undone norm (buildAll norm t) dec :=
  buildAll_undone hsum t (h _ _)

theorem buildDecDirect_for (h : SameBytes norm norm') (hsum : normSum norm 256 = ansL)
    (dec : Mem DecEntry) : TableFor norm (buildDecDirect norm' dec) :=
  fun sp dec' => buildDecDirect_same h hsum dec sp dec'

/-- **A CONTEXT'S TABLE**, built over the spread or filled with one symbol. -/
theorem ctxTable_for (h : SameBytes norm norm') (hsum : normSum norm 256 = ansL) (sp : Mem UInt8)
    (dec : Mem DecEntry) : TableFor norm (ctxTable norm' sp dec).2 := by
  intro sp' dec'
  have hpos : 0 < symbolCount norm 256 := symbolCount_pos (hsum ▸ (by decide : 0 < ansL))
  rw [ctxTable, validatedSymbolCount_same h hsum]
  by_cases hmany : 1 < symbolCount norm 256
  · rw [if_pos hmany]
    dsimp only
    rw [← buildDec_congr h]
    exact buildDec_agree hsum _ _ _ _
  · rw [if_neg hmany]
    have hone : symbolCount norm 256 = 1 := by omega
    obtain ⟨hlt, -, -⟩ := lastSymbol_spec hpos
    have hall : norm (lastSymbol norm 256) = ansL := by rw [← normSum_of_one hone, hsum]
    intro x hx
    rw [buildDec_alone hsum sp' dec' hlt hall hx, lastSymbol_same h hone]
    exact if_pos hx

end Decoder

/-! ## Histograms -/

/-- Counts of things that are counted once each are no more than there are. -/
theorem normSum_countP_le {α : Type} (l : List α) (p : Nat → α → Bool) {n : Nat}
    (honce : ∀ a s t, s < n → t < n → p s a = true → p t a = true → s = t) :
    normSum (fun s => l.countP (p s)) n ≤ l.length := by
  induction l with
  | nil =>
      have hzero : normSum (fun s => ([] : List α).countP (p s)) n = 0 :=
        normSum_eq_zero fun _ _ => rfl
      omega
  | cons a l ih =>
      have hsum : normSum (fun s => (a :: l).countP (p s)) n =
          normSum (fun s => l.countP (p s)) n + normSum (fun s => if p s a = true then 1 else 0) n := by
        rw [← normSum_add]
        exact normSum_congr fun s _ => List.countP_cons
      have hone : normSum (fun s => if p s a = true then 1 else 0) n ≤ 1 := by
        clear ih hsum
        induction n with
        | zero => exact Nat.zero_le 1
        | succ n ihn =>
            rw [normSum]
            by_cases hn : p n a = true
            · have hnone : normSum (fun s => if p s a = true then 1 else 0) n = 0 := by
                refine normSum_eq_zero fun s hs => if_neg fun hps => ?_
                have hsame := honce a s n (by omega) (Nat.lt_succ_self n) hps hn
                omega
              rw [hnone, if_pos hn]
            · rw [if_neg hn, Nat.add_zero]
              exact ihn fun a s t hs ht => honce a s t (by omega) (by omega)
      rw [hsum, List.length_cons]
      omega

theorem ofNat_inj {s t : Nat} (hs : s < 256) (ht : t < 256) (h : UInt8.ofNat s = UInt8.ofNat t) :
    s = t := by
  have hnat := congrArg UInt8.toNat h
  rw [UInt8.toNat_ofNat', UInt8.toNat_ofNat'] at hnat
  omega

theorem normSum_histogram_le (src : Bytes) : normSum (histogram src) 256 ≤ src.length := by
  refine le_trans (normSum_le fun s _ => Nat.mod_le _ _) ?_
  refine normSum_countP_le src (fun s b => b == UInt8.ofNat s) ?_
  intro b s t hs ht hbs hbt
  exact ofNat_inj hs ht ((eq_of_beq hbs).symm.trans (eq_of_beq hbt))

theorem normSum_ctxHist_le (src : Bytes) (c : Nat) : normSum (ctxHist src c) 256 ≤ src.length := by
  have hzip : ((0 :: src).zip src).length = src.length := by simp
  refine le_trans (normSum_le fun s _ => Nat.mod_le _ _) ?_
  rw [← hzip]
  refine normSum_countP_le _ (fun s p => p == (UInt8.ofNat c, UInt8.ofNat s)) ?_
  intro p s t hs ht hps hpt
  exact ofNat_inj hs ht (congrArg Prod.snd ((eq_of_beq hps).symm.trans (eq_of_beq hpt)))

/-- The frequencies of a source. -/
theorem histogram_normalized {src : Bytes} (hne : src ≠ []) (hlen : src.length < 2 ^ 31) :
    Normalized (histogram src) (normalizeFreq (histogram src)).2 := by
  have hle := normSum_histogram_le src
  refine normalizeFreq_normalized ?_ (by omega)
  obtain ⟨b, hb⟩ := List.exists_mem_of_ne_nil src hne
  refine lt_of_lt_of_le ?_ (le_normSum (histogram src) b.toNat_lt)
  rw [histogram_eq (by omega), UInt8.ofNat_toNat]
  exact List.count_pos_iff.mpr hb

/-- Every byte of the source has a frequency. -/
theorem histogram_occurs {src : Bytes} (hne : src ≠ []) (hlen : src.length < 2 ^ 31) :
    Occurs (normalizeFreq (histogram src)).2 src := by
  intro b hb
  refine Nat.pos_of_ne_zero (((histogram_normalized hne hlen).support b.toNat).mpr ?_)
  rw [histogram_eq (by omega), UInt8.ofNat_toNat]
  exact Nat.pos_iff_ne_zero.mp (List.count_pos_iff.mpr hb)

end Zupt.VaptVupt
