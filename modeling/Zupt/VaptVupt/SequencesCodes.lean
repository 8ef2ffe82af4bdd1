import Zupt.VaptVupt.SequencesEncode
import Zupt.VaptVupt.Stripping
import Zupt.VaptVupt.Emit

/-! # Codes and entries of sequences

    A code with its extra bits stands for the length or the offset it was made
    from: the tables leave no gap between the ranges of two codes.  The entries
    that `parse_sequences` makes of a token stream are those of the sequences that
    are read back from it. -/

namespace Zupt.VaptVupt

open Zupt.LittleEndian

/-! ## Codes -/

/-- The code and its extra bits give the value in these tables. -/
structure SeqCode.Stands (c : SeqCode) (base extra : List Nat) (v : Nat) : Prop where
  value : ∃ b, base[c.code]? = some b ∧ b + c.extra = v
  nbits : extra[c.code]? = some c.nbits
  small : c.extra < 2 ^ c.nbits

/-- The ranges of the 36 codes follow one another up to `top`. -/
structure Tiles (base extra : List Nat) (top : Nat) : Prop where
  base_length : base.length = 36
  extra_length : extra.length = 36
  last : base.getD 35 0 + 2 ^ extra.getD 35 0 = top
  next : ∀ c < 35, base.getD c 0 + 2 ^ extra.getD c 0 = base.getD (c + 1) 0
  narrow : ∀ c < 16, extra.getD c 0 = 0

theorem mlBase_tiles : Tiles mlBase mlExtra 65536 := by
  constructor <;> decide

theorem mlBaseV2_tiles : Tiles mlBaseV2 mlExtra 65535 := by
  constructor <;> decide

theorem llBase_tiles : Tiles llBase llExtra 65536 := by
  constructor <;> decide

section Tables

variable {base extra : List Nat} {top v : Nat}

/-- The end of the range of a code. -/
theorem Tiles.range_end (h : Tiles base extra top) {c : Nat} (hc : c < 36)
    (hlt : c = 35 ∧ v < top ∨ v < base.getD (c + 1) 0) : v < base.getD c 0 + 2 ^ extra.getD c 0 := by
  by_cases hlast : c = 35
  · subst hlast
    rcases hlt with ⟨-, hv⟩ | hv
    · rw [h.last]
      exact hv
    · rw [List.getD_eq_default _ _ (by rw [h.base_length])] at hv
      exact absurd hv (Nat.not_lt_zero v)
  · rw [h.next c (by omega)]
    rcases hlt with ⟨heq, -⟩ | hv
    · exact absurd heq hlast
    · exact hv

/-- **THE SEARCH** ends at the code whose range holds the value. -/
theorem searchCode_spec (turns : Nat) {lo hi : Nat} (hlo : base.getD lo 0 ≤ v) (hle : lo ≤ hi)
    (hhi : hi = 35 ∧ v < top ∨ v < base.getD (hi + 1) 0) (hturns : hi - lo < 2 ^ turns) :
    lo ≤ searchCode base v turns lo hi ∧ searchCode base v turns lo hi ≤ hi ∧
      base.getD (searchCode base v turns lo hi) 0 ≤ v ∧
      (searchCode base v turns lo hi = 35 ∧ v < top ∨
        v < base.getD (searchCode base v turns lo hi + 1) 0) := by
  induction turns generalizing lo hi with
  | zero =>
      have hone : hi = lo := by
        rw [Nat.pow_zero] at hturns
        omega
      subst hone
      exact ⟨Nat.le_refl _, Nat.le_refl _, hlo, hhi⟩
  | succ turns ih =>
      rw [Nat.pow_succ] at hturns
      rw [searchCode]
      by_cases hmore : lo < hi
      · rw [if_pos hmore]
        dsimp only
        by_cases hmid : base.getD ((lo + hi + 1) / 2) 0 ≤ v
        · rw [if_pos hmid]
          obtain ⟨hge, hres⟩ := ih hmid (by omega) hhi (by omega)
          exact ⟨by omega, hres⟩
        · rw [if_neg hmid]
          have hbelow : v < base.getD ((lo + hi + 1) / 2 - 1 + 1) 0 := by
            rw [Nat.sub_add_cancel (by omega)]
            omega
          obtain ⟨hge, hle', hres⟩ := ih hlo (by omega) (Or.inr hbelow) (by omega)
          exact ⟨hge, by omega, hres⟩
      · rw [if_neg hmore]
        have hone : hi = lo := by omega
        subst hone
        exact ⟨Nat.le_refl _, Nat.le_refl _, hlo, hhi⟩

theorem getElem?_getD {l : List Nat} {i : Nat} (h : i < l.length) : l[i]? = some (l.getD i 0) := by
  rw [List.getElem?_eq_getElem h, List.getD_eq_getElem l 0 h]

/-- A code of the table, for a value of its range. -/
theorem Tiles.stands (h : Tiles base extra top) {c : Nat} (hc : c < 36) (hlo : base.getD c 0 ≤ v)
    (hhi : v < base.getD c 0 + 2 ^ extra.getD c 0) :
    SeqCode.Stands ⟨c, v - base.getD c 0, extra.getD c 0⟩ base extra v where
  value := ⟨base.getD c 0, getElem?_getD (by rw [h.base_length]; exact hc), Nat.add_sub_cancel' hlo⟩
  nbits := getElem?_getD (by rw [h.extra_length]; exact hc)
  small := by
    dsimp only
    omega

theorem Tiles.searched (h : Tiles base extra top) (hlo : base.getD 16 0 ≤ v) (hhi : v < top) :
    (searchedCode base extra v).Stands base extra v ∧ (searchedCode base extra v).code < 36 := by
  obtain ⟨-, hle, hlow, hhigh⟩ := searchCode_spec 20 hlo (by decide : 16 ≤ 35)
    (Or.inl ⟨rfl, hhi⟩) (by decide)
  have hc : searchCode base v 20 16 35 < 36 := by omega
  exact ⟨h.stands hc hlow (h.range_end hc hhigh), hc⟩

/-- The first 16 codes have a range of one value each. -/
theorem Tiles.first (h : Tiles base extra top) {c : Nat} (hc : c ≤ 15) :
    base.getD c 0 = base.getD 0 0 + c := by
  induction c with
  | zero => rfl
  | succ c ih =>
      rw [← h.next c (by omega), h.narrow c (by omega), ih (by omega)]
      rfl

theorem Tiles.direct (h : Tiles base extra top) (hlo : base.getD 0 0 ≤ v)
    (hhi : v ≤ base.getD 15 0) :
    SeqCode.Stands ⟨v - base.getD 0 0, 0, 0⟩ base extra v := by
  have hfirst := h.first (Nat.le_refl 15)
  have hc : v - base.getD 0 0 ≤ 15 := by omega
  have hbase := h.first hc
  have hstands := h.stands (v := v) (by omega : v - base.getD 0 0 < 36) (by omega)
    (by rw [h.narrow _ (by omega)]; omega)
  have hzero : v - base.getD (v - base.getD 0 0) 0 = 0 := by omega
  rw [hzero, h.narrow _ (by omega)] at hstands
  exact hstands

/-- **MATCH LENGTHS** of either table. -/
theorem mlEncodeWith_stands (h : Tiles base mlExtra top) (hlo : base.getD 0 0 ≤ v) (hhi : v < top) :
    (mlEncodeWith v base).Stands base mlExtra v ∧ (mlEncodeWith v base).code < 36 := by
  have hnext : base.getD 15 0 + 1 = base.getD 16 0 := by
    rw [← h.next 15 (by decide), h.narrow 15 (by decide), Nat.pow_zero]
  rw [mlEncodeWith]
  by_cases hsmall : v ≤ base.getD 15 0
  · rw [if_pos hsmall, if_pos hlo]
    have hfirst := h.first (Nat.le_refl 15)
    exact ⟨h.direct hlo hsmall, by dsimp only; omega⟩
  · rw [if_neg hsmall]
    exact h.searched (by omega) hhi

end Tables

/-- **LITERAL LENGTHS** up to the longest run of an entry. -/
theorem llEncode_stands {v : Nat} (hv : v ≤ llMax) :
    (llEncode v).Stands llBase llExtra v ∧ (llEncode v).code < 36 := by
  rw [llMax] at hv
  rw [llEncode]
  by_cases hsmall : v ≤ 15
  · rw [if_pos hsmall]
    exact ⟨llBase_tiles.direct (Nat.zero_le v) hsmall, by dsimp only; omega⟩
  · rw [if_neg hsmall]
    have hbase : llBase.getD 16 0 = 16 := rfl
    exact llBase_tiles.searched (by omega) (by omega)

theorem ofTables (c : Nat) (hc : c < 24) : ofBase[c + 3]? = some (2 ^ c) ∧ ofExtra[c + 3]? = some c := by
  revert c
  decide

/-- **OFFSETS** of the largest window. -/
theorem ofEncode_stands {off : Nat} (hpos : 0 < off) (hlt : off < 2 ^ 24) :
    (ofEncode off).Stands ofBase ofExtra off ∧ 3 ≤ (ofEncode off).code ∧ (ofEncode off).code < 27 := by
  have hne : off ≠ 0 := Nat.pos_iff_ne_zero.mp hpos
  have hlog : Nat.log2 off < 24 := (Nat.log2_lt hne).mpr hlt
  have hlow : 2 ^ Nat.log2 off ≤ off := Nat.log2_self_le hne
  have hhigh : off < 2 ^ (Nat.log2 off + 1) := Nat.lt_log2_self
  obtain ⟨hbase, hextra⟩ := ofTables _ hlog
  have hnbits : ofExtra.getD (Nat.log2 off + 3) 0 = Nat.log2 off := by
    rw [List.getD_eq_getElem?_getD, hextra]
    rfl
  rw [ofEncode, if_neg hne, if_neg (by omega)]
  dsimp only
  rw [hnbits]
  rw [Nat.pow_succ] at hhigh
  refine ⟨⟨⟨_, hbase, Nat.add_sub_cancel' hlow⟩, hextra, ?_⟩, ?_, ?_⟩
  · dsimp only
    omega
  · exact Nat.le_add_left 3 _
  · omega

/-! ## Entries -/

/-- The entry of a sequence. -/
def Seq.entry (q : Seq) : SeqEntry := ⟨q.lits.length, q.len % 2 ^ 32, q.off⟩

/-- The entries of the literals that end a block. -/
def runEntries (turns ll : Nat) : List SeqEntry :=
  (splitRun turns ll).1 ++ [⟨(splitRun turns ll).2, 0, 0⟩]

theorem runEntries_long {turns ll : Nat} (h : llMax < ll) :
    runEntries (turns + 1) ll = ⟨llMax, 0, 0⟩ :: runEntries turns (ll - llMax) := by
  rw [runEntries, splitRun, if_pos h]
  rfl

theorem runEntries_short {turns ll : Nat} (h : ll ≤ llMax) : runEntries turns ll = [⟨ll, 0, 0⟩] := by
  cases turns with
  | zero => rfl
  | succ turns =>
      rw [runEntries, splitRun, if_neg (Nat.not_lt.mpr h)]
      rfl

theorem splitRun_short {turns ll : Nat} (h : ll ≤ llMax) : splitRun turns ll = ([], ll) := by
  cases turns with
  | zero => rfl
  | succ turns => rw [splitRun, if_neg (Nat.not_lt.mpr h)]

/-- The literals of a block. -/
def blockLits (qs : List Seq) (tail : Bytes) : Bytes := qs.flatMap Seq.lits ++ tail

/-- The entries of a block. -/
def blockEntries (qs : List Seq) (tail : Bytes) : List SeqEntry :=
  qs.map Seq.entry ++ runEntries tail.length tail.length

theorem copyExt_of_readExtLen {tp rest : Bytes} {v : Nat} (h : readExtLen tp = some (v, rest)) :
    ∃ ext, copyExt tp = some (v, ext, rest) := by
  induction tp generalizing v with
  | nil => cases h
  | cons b tp ih =>
      rw [readExtLen] at h
      by_cases hlast : b < 255
      · rw [if_pos hlast] at h
        obtain ⟨rfl, rfl⟩ := Prod.mk.inj (Option.some.inj h)
        cases tp with
        | nil => exact ⟨[b], by rw [copyExt, if_pos hlast]⟩
        | cons c tp => exact ⟨[b], if_pos hlast⟩
      · rw [if_neg hlast] at h
        have hfull : b.toNat = 255 := by
          have hlt := b.toNat_lt
          rw [UInt8.lt_iff_toNat_lt] at hlast
          have hval : (255 : UInt8).toNat = 255 := rfl
          omega
        split at h
        · cases h
        rename_i v' rest' hread
        obtain ⟨rfl, rfl⟩ := Prod.mk.inj (Option.some.inj h)
        obtain ⟨ext, hcopy⟩ := ih hread
        cases tp with
        | nil => cases hread
        | cons c tp =>
            refine ⟨b :: ext, ?_⟩
            show (if b < 255 then some (b.toNat, [b], c :: tp)
              else (copyExt (c :: tp)).map fun r => (255 + r.1, b :: r.2.1, r.2.2)) = _
            rw [if_neg hlast, hcopy, hfull]
            rfl

/-- A length that is read whole is parsed to the same value. -/
theorem copyLen_of_readLen {nibble : Nat} {tp rest : Bytes} {v : Nat}
    (h : readLen nibble tp = some (v, rest)) : ∃ ext, copyLen nibble tp = some (v, ext, rest) := by
  rw [readLen] at h
  rw [copyLen]
  by_cases hext : nibble = 15
  · rw [if_pos hext] at h ⊢
    cases hread : readExtLen tp with
    | none =>
        rw [hread] at h
        cases h
    | some p =>
        obtain ⟨e, rest'⟩ := p
        rw [hread] at h
        obtain ⟨rfl, rfl⟩ := Prod.mk.inj (Option.some.inj h)
        obtain ⟨ext, hcopy⟩ := copyExt_of_readExtLen hread
        exact ⟨ext, by rw [hcopy, hext]; rfl⟩
  · rw [if_neg hext] at h ⊢
    obtain ⟨rfl, rfl⟩ := Prod.mk.inj (Option.some.inj h)
    exact ⟨[], rfl⟩

/-- What the parser has made of a stream of sequences. -/
structure ParsedAs (seq_cap lit_cap nseq nlits : Nat) (qs : List Seq) (tail : Bytes)
    (es : List SeqEntry) (lits : Bytes) : Prop where
  entries : es = blockEntries qs tail
  literals : lits = blockLits qs tail
  runs : ∀ q ∈ qs, q.lits.length ≤ llMax
  count : nseq + es.length ≤ seq_cap
  fits : nlits + lits.length ≤ lit_cap

/-- **THE PARSER** makes the entries of the sequences that are read back. -/
theorem parseLoop_parsed {lit_cap seq_cap off_bytes min_match : Nat}
    (hbytes : off_bytes = 2 ∨ off_bytes = 3) {n : Nat} {tokens : Bytes} {qs : List Seq} {tail : Bytes}
    (hread : readSeqs off_bytes min_match n tokens = some (qs, tail)) {turns : Nat}
    (hturns : tokens.length ≤ turns) {nseq nlits : Nat} {es : List SeqEntry} {lits : Bytes}
    (hparse : parseLoop lit_cap seq_cap off_bytes min_match turns tokens nseq nlits = some (es, lits)) :
    ParsedAs seq_cap lit_cap nseq nlits qs tail es lits := by
  induction n generalizing tokens qs turns nseq nlits es lits with
  | zero => cases hread
  | succ n ih =>
      match tokens, turns, hread, hturns, hparse with
      | [], _, hread, _, _ => cases hread
      | token :: ip, 0, _, hturns, _ => exact absurd hturns (Nat.not_succ_le_zero _)
      | token :: ip, turns + 1, hread, hturns, hparse =>
          have hturns' : ip.length + 1 ≤ turns + 1 := hturns
          rw [parseLoop] at hparse
          dsimp only at hparse
          split at hparse
          · cases hparse
          cases readSeqs_first hread with
          | last hll =>
              obtain ⟨ext, hcopy⟩ := copyLen_of_readLen hll
              rw [hcopy] at hparse
              dsimp only at hparse
              rw [List.take_length, List.drop_length] at hparse
              split at hparse
              · cases hparse
              rename_i hfull
              split at hparse
              · cases hparse
              split at hparse
              · cases hparse
              rename_i hcap
              rw [if_pos List.length_nil] at hparse
              obtain ⟨rfl, rfl⟩ := Prod.mk.inj (Option.some.inj hparse)
              refine ⟨rfl, rfl, fun q hq => absurd hq List.not_mem_nil, ?_, ?_⟩
              · rw [List.length_append, List.length_singleton]
                omega
              · omega
          | @more ll ml ip' rest _ qs' hll hroom hend hoff hml hmore =>
              obtain ⟨ext, hcopy⟩ := copyLen_of_readLen hll
              obtain ⟨hsplit, -⟩ := copyLen_spec hcopy
              have hshorter : ip'.length ≤ ip.length := by
                rw [hsplit, List.length_append]
                exact Nat.le_add_left _ _
              rw [hcopy] at hparse
              dsimp only at hparse
              have htake : (ip'.take ll).length = ll := List.length_take_of_le (Nat.not_lt.mp hroom)
              by_cases hfull : ip'.length < ll ∨ lit_cap < nlits + ll
              · rw [if_pos hfull] at hparse
                cases hparse
              by_cases hrun : llMax < ll ∧ ip'.drop ll ≠ []
              · rw [if_neg hfull, if_pos hrun] at hparse
                cases hparse
              by_cases hcap : seq_cap ≤ nseq + (splitRun ll ll).1.length
              · rw [if_neg hfull, if_neg hrun, if_pos hcap] at hparse
                cases hparse
              rw [if_neg hfull, if_neg hrun, if_neg hcap, if_neg hend, if_neg hoff] at hparse
              have hshort : ll ≤ llMax := by
                by_contra hlong
                exact hrun ⟨Nat.not_le.mp hlong, mt List.length_eq_zero_iff.mpr hend⟩
              rw [splitRun_short hshort] at hparse hcap
              dsimp only [List.length_nil] at hparse hcap
              obtain ⟨mext, hmcopy⟩ := copyLen_of_readLen hml
              obtain ⟨hmsplit, -⟩ := copyLen_spec hmcopy
              have hrest : rest.length ≤ turns := by
                have hlen := congrArg List.length hmsplit
                rw [List.length_append, List.length_drop, List.length_drop] at hlen
                omega
              rw [hmcopy] at hparse
              dsimp only at hparse
              split at hparse
              · cases hparse
              rename_i es' lits' hnext
              obtain ⟨rfl, rfl⟩ := Prod.mk.inj (Option.some.inj hparse)
              have hih := ih hmore hrest hnext
              refine ⟨?_, ?_, ?_, ?_, ?_⟩
              · have hoffset : offsetGet off_bytes (ip'.drop ll) =
                    leGet ((ip'.drop ll).take (if off_bytes = 3 then 3 else 2)) := by
                  rcases hbytes with rfl | rfl <;> rfl
                rw [hih.entries, blockEntries, blockEntries, List.map_cons, Seq.entry, htake, hoffset]
                rfl
              · rw [hih.literals, blockLits, blockLits, List.flatMap_cons, List.append_assoc]
              · intro q hq
                rcases List.mem_cons.mp hq with rfl | hq
                · rw [htake]
                  exact hshort
                · exact hih.runs q hq
              · have hcount := hih.count
                rw [List.nil_append, List.length_cons]
                omega
              · have hfits := hih.fits
                rw [List.length_append]
                omega

/-- The parser of a whole stream. -/
theorem parseSequences_parsed {lit_cap seq_cap off_bytes min_match : Nat}
    (hbytes : off_bytes = 2 ∨ off_bytes = 3) {n : Nat} {tokens : Bytes} {qs : List Seq} {tail : Bytes}
    (hread : readSeqs off_bytes min_match n tokens = some (qs, tail)) {es : List SeqEntry}
    {lits : Bytes} (hparse : parseSequences tokens lit_cap seq_cap off_bytes min_match = some (es, lits)) :
    ParsedAs seq_cap lit_cap 0 0 qs tail es lits := by
  rw [parseSequences] at hparse
  split at hparse
  · cases hparse
  rename_i es' lits' hloop
  split at hparse
  · cases hparse
  · obtain ⟨rfl, rfl⟩ := Prod.mk.inj (Option.some.inj hparse)
    exact parseLoop_parsed hbytes hread (Nat.le_refl _) hloop

end Zupt.VaptVupt
