import Zupt.VaptVupt.AnsRoundTrip

/-! # The round trip with a table for each preceding byte

    Every preceding byte has a state of its own, and a table of its own or the
    one of all bytes.  A symbol moves the state of the byte before it, and leaves
    the others where they are. -/

namespace Zupt.VaptVupt

open Zupt.LittleEndian Zupt.Memory Zupt.BitStream

/-! ## The states -/

/-- Every symbol has a frequency behind the byte before it. -/
def CtxOccurs (norms : Nat → Norm) : (prev : UInt8) → Bytes → Prop
  | _, [] => True
  | prev, b :: src => 0 < norms prev.toNat b.toNat ∧ CtxOccurs norms b src

theorem ctxOccurs_of_zip {norms : Nat → Norm} {prev : UInt8} {src : Bytes}
    (h : ∀ p ∈ (prev :: src).zip src, 0 < norms p.1.toNat p.2.toNat) : CtxOccurs norms prev src := by
  induction src generalizing prev with
  | nil => trivial
  | cons b src ih =>
      refine ⟨h (prev, b) List.mem_cons_self, ih ?_⟩
      intro p hp
      exact h p (List.mem_cons_of_mem _ hp)

section States

variable {norms : Nat → Norm} {enc : Nat → EncCtx} {dec : Nat → Mem DecEntry}

/-- The tables of all bytes. -/
def CtxUndone (norms : Nat → Norm) (enc : Nat → EncCtx) (dec : Nat → Mem DecEntry) : Prop :=
  ∀ c : UInt8, Undone (norms c.toNat) (enc c.toNat) (dec c.toNat)

/-- The states of all bytes. -/
def CtxCoding (norms : Nat → Norm) (states : Nat → Nat) : Prop :=
  ∀ c : UInt8, Coding (norms c.toNat) (states c.toNat)

/-- One state moves. -/
theorem CtxCoding.update {states : Nat → Nat} (h : CtxCoding norms states) {prev : UInt8} {x : Nat}
    (hx : Coding (norms prev.toNat) x) : CtxCoding norms (Function.update states prev.toNat x) := by
  intro c
  by_cases hc : c.toNat = prev.toNat
  · rw [hc, Function.update_self]
    exact hx
  · rw [Function.update_of_ne hc]
    exact h c

theorem Coding.mod {norm : Norm} {x : Nat} (h : Coding norm x) : x % 65536 = x :=
  Nat.mod_eq_of_lt (h.1.trans (by decide))

/-- The backward loop never stops, and what it sheds is narrow. -/
theorem encodeCtx_some (h : CtxUndone norms enc dec) {prev : UInt8} {src : Bytes}
    (hocc : CtxOccurs norms prev src) :
    ∃ states pairs, encodeCtx enc prev src (fun _ => 0) = some (states, pairs) ∧
      CtxCoding norms states ∧ pairs.length = src.length ∧ Narrow pairs := by
  induction src generalizing prev with
  | nil =>
      refine ⟨fun _ => 0, [], rfl, fun c => coding_zero _, rfl, ?_⟩
      intro p hp
      cases hp
  | cons b src ih =>
      obtain ⟨states, pairs, hback, hcoding, hlen, hnarrow⟩ := ih hocc.2
      obtain ⟨x, bv, bn, hsym, hstep⟩ := h prev b.toNat b.toNat_lt hocc.1 _ (hcoding prev)
      refine ⟨Function.update states prev.toNat x, (bv, bn) :: pairs, ?_, hcoding.update hstep.coding, ?_,
        hnarrow.cons hstep.few⟩
      · rw [encodeCtx, hback]
        dsimp only
        rw [hsym]
        dsimp only
        rw [hstep.coding.mod]
      · rw [List.length_cons, List.length_cons, hlen]

/-- What the backward loop did last. -/
theorem encodeCtx_cons (h : CtxUndone norms enc dec) {prev b : UInt8} {src : Bytes}
    (hocc : CtxOccurs norms prev (b :: src)) {states : Nat → Nat} {pairs : List (Nat × Nat)}
    (hback : encodeCtx enc prev (b :: src) (fun _ => 0) = some (states, pairs)) :
    ∃ before x bv bn rest, encodeCtx enc b src (fun _ => 0) = some (before, rest) ∧
      CtxCoding norms before ∧ pairs = (bv, bn) :: rest ∧ states = Function.update before prev.toNat x ∧
      StepBack (norms prev.toNat) (dec prev.toNat) b.toNat (before prev.toNat) x bv bn := by
  obtain ⟨before, rest, hrest, hcoding, -, -⟩ := encodeCtx_some h hocc.2
  obtain ⟨x, bv, bn, hsym, hstep⟩ := h prev b.toNat b.toNat_lt hocc.1 _ (hcoding prev)
  rw [encodeCtx, hrest] at hback
  dsimp only at hback
  rw [hsym] at hback
  obtain ⟨rfl, rfl⟩ := Prod.mk.inj (Option.some.inj hback)
  exact ⟨before, x, bv, bn, rest, hrest, hcoding, rfl, by rw [hstep.coding.mod], hstep⟩

/-- **THE STREAM** is decoded to its source, from states that are those of the
    encoder for each byte. -/
theorem ctxLoop_encoded (h : CtxUndone norms enc dec) {prev : UInt8} {src : Bytes}
    (hocc : CtxOccurs norms prev src) {states : Nat → Nat} {pairs : List (Nat × Nat)}
    (hback : encodeCtx enc prev src (fun _ => 0) = some (states, pairs)) {st : Nat → Nat}
    (hst : ∀ c : UInt8, st c.toNat = states c.toNat) {r : AnsBr} {spare len : Nat}
    (hbefore : r.Before pairs spare len) :
    ∃ r', ctxLoop dec src.length st prev r = some (src, r') ∧ r'.Before [] spare len := by
  induction src generalizing prev states pairs st r with
  | nil =>
      obtain ⟨-, rfl⟩ := Prod.mk.inj (Option.some.inj hback)
      exact ⟨r, rfl, hbefore⟩
  | cons b src ih =>
      obtain ⟨before, x, bv, bn, rest, hrest, hcoding, rfl, rfl, hstep⟩ := encodeCtx_cons h hocc hback
      have hx : st prev.toNat = x := by rw [hst, Function.update_self]
      obtain ⟨hval, hnext⟩ := hbefore.refill.1.read (hstep.few.trans (by decide))
      have hst' : ∀ c : UInt8,
          Function.update st prev.toNat (before prev.toNat) c.toNat = before c.toNat := by
        intro c
        by_cases hc : c.toNat = prev.toNat
        · rw [hc, Function.update_self]
        · rw [Function.update_of_ne hc, hst, Function.update_of_ne hc]
      obtain ⟨r', hloop, hdone⟩ := ih hocc.2 hrest hst' hnext
      refine ⟨r', ?_, hdone⟩
      rw [List.length_cons, ctxLoop]
      dsimp only
      rw [hx, if_neg (Nat.not_le.mpr hstep.coding.1), hstep.nbits, hval, Nat.mod_eq_of_lt hstep.small,
        hstep.baseline, (hcoding prev).mod, hstep.symbol, UInt8.ofNat_toNat, hloop]

end States

/-! ## The bitmap -/

/-- A bit that is cleared, and one that stays. -/
theorem clear_bit {j k : Nat} (hj : j < 8) (hk : k < 8) (x : UInt8) :
    (x &&& ~~~(1 <<< UInt8.ofNat j)) &&& (1 <<< UInt8.ofNat k) =
      if j = k then 0 else x &&& ((1 : UInt8) <<< UInt8.ofNat k) := by
  have hmask : ∀ j k : Fin 8, ~~~((1 : UInt8) <<< UInt8.ofNat j) &&& (1 <<< UInt8.ofNat k) =
      if j = k then 0 else (1 : UInt8) <<< UInt8.ofNat k := by decide
  have hboth := hmask ⟨j, hj⟩ ⟨k, hk⟩
  rw [UInt8.and_assoc, hboth]
  by_cases hjk : j = k
  · subst hjk
    simp
  · have hfin : (⟨j, hj⟩ : Fin 8) ≠ ⟨k, hk⟩ := fun hsame => hjk (congrArg Fin.val hsame)
    rw [if_neg hfin, if_neg hjk]

theorem set_bit {k : Nat} (hk : k < 8) : (0xFF : UInt8) &&& (1 <<< UInt8.ofNat k) ≠ 0 := by
  have hall : ∀ k : Fin 8, (0xFF : UInt8) &&& (1 <<< UInt8.ofNat k) ≠ 0 := by decide
  exact hall ⟨k, hk⟩

theorem inheritedMap_bit (own : Nat → Bool) (n c : Nat) :
    inheritedMap own n (c / 8) &&& (1 <<< UInt8.ofNat (c % 8)) = 0 ↔ c < n ∧ own c = true := by
  have hk : c % 8 < 8 := Nat.mod_lt _ (by decide)
  induction n with
  | zero =>
      refine iff_of_false (set_bit hk) ?_
      rintro ⟨hlt, -⟩
      exact absurd hlt (Nat.not_lt_zero c)
  | succ n ih =>
      have hother : c ≠ n → (c < n ∧ own c = true ↔ c < n + 1 ∧ own c = true) := by
        intro hcn
        refine and_congr_left fun _ => ?_
        omega
      rw [inheritedMap]
      by_cases hown : own n = true
      · rw [if_pos hown]
        by_cases hbyte : c / 8 = n / 8
        · rw [hbyte, Function.update_self, clear_bit (Nat.mod_lt _ (by decide)) hk, ← hbyte]
          by_cases hcn : c = n
          · subst hcn
            rw [if_pos rfl]
            exact iff_of_true rfl ⟨Nat.lt_succ_self c, hown⟩
          · rw [if_neg (show ¬ n % 8 = c % 8 by omega)]
            exact ih.trans (hother hcn)
        · rw [Function.update_of_ne hbyte]
          refine ih.trans (hother ?_)
          rintro rfl
          exact hbyte rfl
      · rw [if_neg hown]
        by_cases hcn : c = n
        · subst hcn
          refine ih.trans (iff_of_false ?_ ?_)
          · exact fun hboth => hown hboth.2
          · exact fun hboth => hown hboth.2
        · exact ih.trans (hother hcn)

/-- **THE BITMAP** tells which contexts have no table of their own. -/
theorem inheritedBit_map (own : Nat → Bool) {c : Nat} (hc : c < 256) :
    inheritedBit ((List.range 32).map (inheritedMap own 256)) c = !own c := by
  have hat : charAt ((List.range 32).map (inheritedMap own 256)) (c / 8) = inheritedMap own 256 (c / 8) := by
    rw [charAt, List.getD_eq_getElem?_getD, List.getElem?_map, List.getElem?_range (by omega)]
    rfl
  rw [inheritedBit, hat]
  by_cases hown : own c = true
  · rw [hown]
    refine decide_eq_false ?_
    rw [not_not]
    exact (inheritedMap_bit own 256 c).mpr ⟨hc, hown⟩
  · rw [Bool.not_eq_true] at hown
    rw [hown]
    refine decide_eq_true ?_
    intro hzero
    obtain ⟨-, htrue⟩ := (inheritedMap_bit own 256 c).mp hzero
    rw [hown] at htrue
    cases htrue

/-! ## The tables -/

/-- The frequencies of every context add up. -/
def CtxSums (src : Bytes) : Prop := ∀ c, normSum (ctxNorm src c) 256 = ansL

theorem ctxHist_normalized {src : Bytes} (hlen : src.length < 2 ^ 31) {c : Nat}
    (hown : ctxOwn src c = true) : Normalized (ctxHist src c) (normalizeFreq (ctxHist src c)).2 := by
  have hle := normSum_ctxHist_le src c
  have hmany : ctxMinObs ≤ normSum (ctxHist src c) 256 % 2 ^ 32 := of_decide_eq_true hown
  rw [ctxMinObs, Nat.mod_eq_of_lt (by omega)] at hmany
  exact normalizeFreq_normalized (by omega) (by omega)

theorem ctxSums {src : Bytes} (hne : src ≠ []) (hlen : src.length < 2 ^ 31) : CtxSums src := by
  intro c
  rw [ctxNorm]
  by_cases hown : ctxOwn src c = true
  · rw [if_pos hown]
    exact (ctxHist_normalized hlen hown).sum
  · rw [if_neg hown]
    exact (histogram_normalized hne hlen).sum

/-- Every byte has a frequency behind the one before it. -/
theorem ctxOccurs {src : Bytes} (hne : src ≠ []) (hlen : src.length < 2 ^ 31) :
    CtxOccurs (ctxNorm src) 0 src := by
  refine ctxOccurs_of_zip ?_
  intro p hp
  rw [ctxNorm]
  by_cases hown : ctxOwn src p.1.toNat = true
  · rw [if_pos hown]
    refine Nat.pos_of_ne_zero (((ctxHist_normalized hlen hown).support p.2.toNat).mpr ?_)
    have hcount : ((0 :: src).zip src).count (p.1, p.2) ≤ ((0 :: src).zip src).length :=
      List.count_le_length
    have hzip : ((0 :: src).zip src).length = src.length := by simp
    show ((0 :: src).zip src).count (UInt8.ofNat p.1.toNat, UInt8.ofNat p.2.toNat) % 2 ^ 32 ≠ 0
    rw [UInt8.ofNat_toNat, UInt8.ofNat_toNat, Nat.mod_eq_of_lt (by omega)]
    exact Nat.pos_iff_ne_zero.mp (List.count_pos_iff.mpr hp)
  · rw [if_neg hown]
    exact histogram_occurs hne hlen p.2 (List.of_mem_zip hp).2

/-- **THE HEADERS OF THE CONTEXTS** are read in their order, and each context with a
    header gets the table of its frequencies. -/
theorem ctxTables_headers {src : Bytes} (hsums : CtxSums src) {inherited : Bytes}
    (hbits : ∀ c < 256, inheritedBit inherited c = !ctxOwn src c) (own : Nat → Mem DecEntry)
    {dst_cap left c used : Nat} (hc : c + left = 256) {hdrs : Bytes}
    (h : ctxHeaders src dst_cap left c used = some hdrs) (sp : Mem UInt8)
    (ctx_dec : Nat → Mem DecEntry) (rest : Bytes) :
    ∃ tables, ctxTables own inherited left c sp ctx_dec (hdrs ++ rest) = some (tables, rest) ∧
      (∀ i, c ≤ i → i < 256 → ctxOwn src i = true → TableFor (ctxNorm src i) (tables i)) ∧
      ∀ i, (i < c ∨ ctxOwn src i = false) → tables i = ctx_dec i := by
  induction left generalizing c used hdrs sp ctx_dec with
  | zero =>
      obtain rfl := Option.some.inj h
      refine ⟨ctx_dec, rfl, ?_, fun _ _ => rfl⟩
      intro i hlow hhigh
      omega
  | succ left ih =>
      rw [ctxHeaders] at h
      rw [ctxTables, hbits c (by omega)]
      by_cases hown : ctxOwn src c = true
      · rw [if_pos hown] at h
        cases hhdr : writeHdrV2 (ctxNorm src c) 600 with
        | none =>
            rw [hhdr] at h
            cases h
        | some hdr =>
            rw [hhdr] at h
            dsimp only at h
            split at h
            · cases h
            obtain ⟨more, hmore, rfl⟩ := Option.map_eq_some_iff.mp h
            have hshort := writeHdrV2_length hhdr
            have hcast : (UInt8.ofNat c).toNat = c := by
              rw [UInt8.toNat_ofNat']
              omega
            have hbytes : UInt8.ofNat c :: (lePut 2 hdr.length ++ hdr) ++ more ++ rest =
                [UInt8.ofNat c] ++ (lePut 2 hdr.length ++ (hdr ++ (more ++ rest))) := by simp
            rw [hbytes]
            have hsmall : hdr.length < 2 ^ 16 := by omega
            have hsize := u16At_lePut hsmall [UInt8.ofNat c] (hdr ++ (more ++ rest))
              (show 1 = [UInt8.ofNat c].length from rfl)
            have hdrop : ([UInt8.ofNat c] ++ (lePut 2 hdr.length ++ (hdr ++ (more ++ rest)))).drop 3 =
                hdr ++ (more ++ rest) := by
              rw [← List.append_assoc]
              exact List.drop_left' (by simp)
            obtain ⟨norm', hread, hsame⟩ := readHdrV2_writeHdrV2 (hsums c) hhdr []
            rw [List.append_nil] at hread
            have hvalid := validatedSymbolCount_same hsame (hsums c)
            have hpos : symbolCount (ctxNorm src c) 256 ≠ 0 :=
              Nat.pos_iff_ne_zero.mp (symbolCount_pos (hsums c ▸ (by decide : 0 < ansL)))
            have hnext : c + 1 + left = 256 := by omega
            obtain ⟨tables, htables, hfor, hothers⟩ := ih hnext hmore
              (ctxTable norm' sp (own c)).1
              (Function.update ctx_dec c (ctxTable norm' sp (own c)).2)
            refine ⟨tables, ?_, ?_, ?_⟩
            · have hlong : ¬ ([UInt8.ofNat c] ++ (lePut 2 hdr.length ++ (hdr ++ (more ++ rest)))).length < 3 := by
                simp only [List.length_append, lePut_length, List.length_singleton]
                omega
              rw [hown, if_neg (by simp), if_neg hlong]
              dsimp only
              rw [hsize, hdrop, if_neg (by rw [List.length_append]; omega), List.take_left, hread]
              dsimp only
              rw [hvalid, if_neg hpos, List.drop_left]
              show ctxTables own inherited left (c + 1) _
                (Function.update ctx_dec (UInt8.ofNat c).toNat _) _ = _
              rw [hcast]
              exact htables
            · intro i hlow hhigh howns
              by_cases hic : i = c
              · subst hic
                rw [hothers i (Or.inl (Nat.lt_succ_self i)), Function.update_self]
                exact ctxTable_for hsame (hsums i) sp (own i)
              · exact hfor i (by omega) hhigh howns
            · intro i hi
              have hic : i ≠ c := by
                rintro rfl
                rcases hi with hlt | hno
                · exact absurd hlt (Nat.lt_irrefl i)
                · rw [hown] at hno
                  cases hno
              rw [hothers i (hi.imp_left fun hlt => by omega), Function.update_of_ne hic]
      · rw [if_neg hown] at h
        rw [Bool.not_eq_true] at hown
        have hnext : c + 1 + left = 256 := by omega
        obtain ⟨tables, htables, hfor, hothers⟩ := ih hnext h sp ctx_dec
        refine ⟨tables, ?_, ?_, ?_⟩
        · rw [hown, if_pos (by rfl)]
          exact htables
        · intro i hlow hhigh howns
          have hic : i ≠ c := by
            rintro rfl
            rw [hown] at howns
            cases howns
          exact hfor i (by omega) hhigh howns
        · intro i hi
          exact hothers i (hi.imp_left fun hlt => by omega)

/-! ## The coder -/

section Coder

variable {src out : Bytes} {dst_cap : Nat}

/-- What `vva_encode_ctx` leaves. -/
theorem vvaEncodeCtx_ok (hne : src ≠ []) {alloc : CtxAlloc} (h : vvaEncodeCtx alloc src dst_cap = .ok out) :
    ∃ global hdrs mem states pairs, writeHdrV2 (normalizeFreq (histogram src)).2 600 = some global ∧
      (∃ used, ctxHeaders src dst_cap 256 0 used = some hdrs) ∧
      encodeCtx (ctxEnc mem src) 0 src (fun _ => 0) = some (states, pairs) ∧
      out = lePut 2 global.length ++ (global ++ ((List.range 32).map (inheritedMap (ctxOwn src) 256) ++
        (hdrs ++ (denseFreqs states 256 ++ writePairs ((src.length * 15 + 7) / 8 + 16) pairs)))) := by
  rw [vvaEncodeCtx, if_neg (mt List.length_eq_zero_iff.mp hne)] at h
  split at h
  swap
  · cases h
  split at h
  · cases h
  split at h
  · cases h
  rename_i hdr hhdr
  split at h
  · cases h
  rename_i mem hmem
  split at h
  · cases h
  rename_i states pairs hback
  split at h
  swap
  · cases h
  dsimp only at h
  obtain ⟨rfl, -, -⟩ := putSmaller_ok h
  rw [ctxHeader] at hhdr
  split at hhdr
  · cases hhdr
  rename_i global hglobal
  split at hhdr
  · cases hhdr
  obtain ⟨hdrs, hhdrs, rfl⟩ := Option.map_eq_some_iff.mp hhdr
  refine ⟨global, hdrs, mem, states, pairs, hglobal, ⟨_, hhdrs⟩, hback, ?_⟩
  simp only [List.append_assoc, denseFreqs]

/-- **A STREAM OF `vva_encode_ctx`** is decoded to its source. -/
theorem vvaDecodeCtx_vvaEncodeCtx (hlen : src.length < 2 ^ 31) {alloc : CtxAlloc}
    (h : vvaEncodeCtx alloc src dst_cap = .ok out) (storage : CtxStorage) {cap : Nat}
    (hcap : src.length ≤ cap) : vvaDecodeCtx storage out cap src.length = .ok (src, out.length) := by
  by_cases hne : src = []
  · subst hne
    obtain rfl : [] = out := Except.ok.inj h
    rfl
  obtain ⟨global, hdrs, mem, states, pairs, hglobal, ⟨used, hhdrs⟩, hback, hout⟩ := vvaEncodeCtx_ok hne h
  have hsum : normSum (normalizeFreq (histogram src)).2 256 = ansL := (histogram_normalized hne hlen).sum
  have hsums := ctxSums hne hlen
  have hshort := writeHdrV2_length hglobal
  obtain ⟨gnorm, hgread, hgsame⟩ := readHdrV2_writeHdrV2 hsum hglobal []
  rw [List.append_nil] at hgread
  have hgpos : symbolCount (normalizeFreq (histogram src)).2 256 ≠ 0 :=
    Nat.pos_iff_ne_zero.mp (symbolCount_pos (hsum ▸ (by decide : 0 < ansL)))
  generalize hmap : (List.range 32).map (inheritedMap (ctxOwn src) 256) = bitmap at hout
  have hmaplen : bitmap.length = 32 := by
    rw [← hmap, List.length_map, List.length_range]
  have hbits : ∀ c < 256, inheritedBit bitmap c = !ctxOwn src c := fun c hc => by
    rw [← hmap, inheritedBit_map _ hc]
  generalize hbs : writePairs ((src.length * 15 + 7) / 8 + 16) pairs = bs at hout
  -- the tables
  obtain ⟨tables, htables, hfor, hothers⟩ := ctxTables_headers hsums hbits storage.own
    (Nat.zero_add 256) hhdrs (ctxTable gnorm storage.sp storage.global).1
    (fun _ => (ctxTable gnorm storage.sp storage.global).2) (denseFreqs states 256 ++ bs)
  have hund : CtxUndone (ctxNorm src) (ctxEnc mem src) tables := by
    intro c
    rw [ctxEnc]
    by_cases hown : ctxOwn src c.toNat = true
    · rw [if_pos hown]
      exact (hfor _ (Nat.zero_le _) c.toNat_lt hown).undone (hsums _) _
    · rw [if_neg hown, ctxNorm, if_neg hown, hothers _ (Or.inr (Bool.not_eq_true _ ▸ hown))]
      exact (ctxTable_for hgsame hsum _ _).undone hsum _
  -- the stream
  have hocc := ctxOccurs hne hlen
  obtain ⟨states', pairs', hback', hcoding, hpairs, hnarrow⟩ := encodeCtx_some hund hocc
  obtain ⟨rfl, rfl⟩ := Prod.mk.inj (Option.some.inj (hback.symm.trans hback'))
  have hroom : bytesFor (ansLog * pairs.length) ≤ (src.length * 15 + 7) / 8 + 16 := by
    rw [bytesFor, ansLog, hpairs]
    omega
  rw [writePairs_narrow hnarrow hroom] at hbs
  have hfreqs := denseFreqs_length states 256
  have hst : ∀ c : UInt8, u16At (denseFreqs states 256 ++ bs) (2 * c.toNat) = states c.toNat := by
    intro c
    have hat : u16At ([] ++ (denseFreqs states 256 ++ bs)) (0 + 2 * c.toNat) = states c.toNat := by
      refine u16At_denseFreqs ?_ c.toNat_lt [] bs
      intro i hi
      have hstate := (hcoding (UInt8.ofNat i)).1
      have hcast : (UInt8.ofNat i).toNat = i := by
        rw [UInt8.toNat_ofNat']
        omega
      rw [hcast] at hstate
      exact hstate.trans (by decide)
    rw [List.nil_append, Nat.zero_add] at hat
    exact hat
  obtain ⟨r', hloop, hdone⟩ : ∃ r', ctxLoop tables src.length
      (fun c => u16At (denseFreqs states 256 ++ bs) (2 * c)) 0 (ansBrFill (ansBrInit (packed pairs))) =
        some (src, r') ∧ r'.Before [] (spareBits pairs) (packed pairs).length :=
    ctxLoop_encoded hund hocc hback hst (ansBefore_start pairs)
  rw [hbs] at hloop hdone
  -- the parts of the output
  have hsize : u16At out 0 = global.length := by
    rw [hout]
    exact u16At_lePut (by omega) [] _ rfl
  have hdrop2 : out.drop 2 = global ++ (bitmap ++ (hdrs ++ (denseFreqs states 256 ++ bs))) := by
    rw [hout]
    exact List.drop_left' (lePut_length 2 _)
  have hlength : out.length = 2 + (global.length + (32 + (hdrs.length + (512 + bs.length)))) := by
    rw [hout]
    simp only [List.length_append, lePut_length, hmaplen, hfreqs]
  have hdrop512 : (denseFreqs states 256 ++ bs).drop 512 = bs := List.drop_left' hfreqs
  have htake32 : (bitmap ++ (hdrs ++ (denseFreqs states 256 ++ bs))).take 32 = bitmap :=
    List.take_left' hmaplen
  have hdrop32 : (bitmap ++ (hdrs ++ (denseFreqs states 256 ++ bs))).drop 32 =
      hdrs ++ (denseFreqs states 256 ++ bs) := List.drop_left' hmaplen
  rw [vvaDecodeCtx, if_neg (mt List.length_eq_zero_iff.mp hne), if_neg (Nat.not_lt.mpr hcap),
    if_neg (by omega)]
  dsimp only
  rw [hsize, hdrop2, if_neg (by rw [List.length_append]; omega), List.take_left, hgread]
  dsimp only
  rw [List.drop_left, validatedSymbolCount_same hgsame hsum, if_neg hgpos,
    if_neg (by rw [List.length_append]; omega), htake32, hdrop32, htables]
  dsimp only
  rw [vvaDecodeCtxBody, if_neg (by rw [List.length_append]; omega), hdrop512, hloop]
  dsimp only
  rw [ansConsumed_done hdone (spareBits_lt pairs), hlength, List.length_append, hfreqs]
  refine congrArg Except.ok (Prod.ext rfl ?_)
  dsimp only
  omega

theorem vvaEncodeCtx_stops (hlen : src.length < 2 ^ 31) (alloc : CtxAlloc) :
    StopsForRoom (vvaEncodeCtx alloc src dst_cap) := by
  intro e h
  by_cases hne : src = []
  · subst hne
    cases h
  have hnormal := histogram_normalized hne hlen
  have hpos : symbolCount (histogram src) 256 ≠ 0 := by
    rw [← symbolCount_congr fun i _ => hnormal.support i]
    exact Nat.pos_iff_ne_zero.mp (symbolCount_pos (hnormal.sum ▸ (by decide : 0 < ansL)))
  rw [vvaEncodeCtx, if_neg (mt List.length_eq_zero_iff.mp hne), normalizeFreq_count, if_neg hpos] at h
  split at h
  swap
  · exact Or.inr (Except.error.inj h).symm
  split at h
  · exact Or.inl (Except.error.inj h).symm
  split at h
  · exact Or.inr (Except.error.inj h).symm
  rename_i mem hmem
  have hund : CtxUndone (ctxNorm src) (ctxEnc mem src)
      fun c => buildDecDirect (ctxNorm src c) (mem.own c).dec := by
    intro c
    dsimp only
    have htable : TableFor (ctxNorm src c.toNat)
        (buildDecDirect (ctxNorm src c.toNat) (mem.own c.toNat).dec) :=
      buildDecDirect_for (fun _ _ => rfl) (ctxSums hne hlen _) _
    by_cases hown : ctxOwn src c.toNat = true
    · rw [ctxEnc, if_pos hown]
      exact htable.undone (ctxSums hne hlen _) _
    · rw [ctxNorm, if_neg hown] at htable ⊢
      rw [ctxEnc, if_neg hown]
      exact htable.undone hnormal.sum _
  obtain ⟨states, pairs, hback, -, -, -⟩ := encodeCtx_some hund (ctxOccurs hne hlen)
  rw [hback] at h
  dsimp only at h
  split at h
  · exact putSmaller_stops _ _ _ e h
  · exact Or.inr (Except.error.inj h).symm

end Coder

/-- **TANS ROUND TRIPS**: what an encoder leaves for a source, its decoder turns back
    into the source, using all of it; and an encoder that leaves nothing had no room
    or no memory. -/
theorem ans_round_trips {src : Bytes} (hlen : src.length < 2 ^ 31) {cap : Nat} (hcap : src.length ≤ cap)
    (dst_cap : Nat) :
    (∀ mem, StopsForRoom (vvaEncode mem src dst_cap) ∧
      ∀ out workspace, vvaEncode mem src dst_cap = .ok out →
        vvaDecode workspace out cap src.length = .ok (src, out.length)) ∧
    (∀ mem, StopsForRoom (vvaEncode4 mem src dst_cap) ∧
      ∀ out workspace, vvaEncode4 mem src dst_cap = .ok out →
        vvaDecode4 workspace out cap src.length = .ok (src, out.length)) ∧
    (∀ alloc, StopsForRoom (vvaEncodeCtx alloc src dst_cap) ∧
      ∀ out storage, vvaEncodeCtx alloc src dst_cap = .ok out →
        vvaDecodeCtx storage out cap src.length = .ok (src, out.length)) := by
  refine ⟨fun mem => ⟨vvaEncode_stops hlen mem, fun out workspace h => ?_⟩,
    fun mem => ⟨vvaEncode4_stops hlen mem, fun out workspace h => ?_⟩,
    fun alloc => ⟨vvaEncodeCtx_stops hlen alloc, fun out storage h => ?_⟩⟩
  · exact vvaDecode_vvaEncode hlen h workspace hcap
  · exact vvaDecode4_vvaEncode4 hlen h workspace hcap
  · exact vvaDecodeCtx_vvaEncodeCtx hlen h storage hcap

set_option maxRecDepth 8000 in
/-- Ten times the same byte. -/
theorem ans_round_trips_run :
    (vvaEncode ⟨none, false⟩ (List.replicate 10 5) 2).toOption = some [1, 5] ∧
      ∀ out workspace, vvaEncode ⟨none, false⟩ (List.replicate 10 5) 2 = .ok out →
        vvaDecode workspace out 10 10 = .ok (List.replicate 10 5, out.length) := by
  refine ⟨by decide, ?_⟩
  intro out workspace h
  have hten : (List.replicate 10 (5 : UInt8)).length = 10 := List.length_replicate
  have hrun := ((ans_round_trips (hten ▸ (by decide : 10 < 2 ^ 31)) (Nat.le_of_eq hten) 2).1
    ⟨none, false⟩).2 out workspace h
  rwa [hten] at hrun

end Zupt.VaptVupt
