import Zupt.VaptVupt.AnsHeader

/-! # tANS round trips

    What the encoders of one stream, of four lanes and of a table for each
    preceding byte leave is decoded to their source.  Allocations may fail, then
    nothing is left; the storage that was granted may hold anything. -/

namespace Zupt.VaptVupt

open Zupt.LittleEndian Zupt.Memory Zupt.BitStream

/-! ## What the encoders put together -/

theorem putSmaller_ok {src out res : Bytes} {dst_cap : Nat}
    (h : putSmaller src out dst_cap = .ok res) :
    res = out ∧ out.length ≤ dst_cap ∧ out.length < src.length := by
  rw [putSmaller] at h
  split at h
  · cases h
  · rename_i hfits
    obtain rfl := Except.ok.inj h
    exact ⟨rfl, by omega, by omega⟩

/-- The stream of narrow pairs, in a buffer of 15 bits for each of them. -/
theorem writePairs_narrow {pairs : List (Nat × Nat)} (h : Narrow pairs) {c : Nat}
    (hroom : bytesFor (ansLog * pairs.length) ≤ c) : writePairs c pairs = packed pairs :=
  writePairs_packed ((bytesFor_mono (width_le h)).trans hroom)

/-- What the shared start of two encoders leaves: a header alone, or the body
    behind it. -/
theorem vvaEncodeWith_ok {body : EncCtx → (hdr : Bytes) → Except VvError Bytes} {mem : AnsMemory}
    {src out : Bytes} {dst_cap : Nat} (hne : src ≠ [])
    (h : vvaEncodeWith body mem src dst_cap = .ok out) :
    ∃ hdr, writeHdrV2 (normalizeFreq (histogram src)).2 dst_cap = some hdr ∧
      ((symbolCount (histogram src) 256 = 1 ∧ out = hdr ∧ out.length < src.length) ∨
        (symbolCount (histogram src) 256 ≠ 1 ∧
          ∃ t, body (buildAll (normalizeFreq (histogram src)).2 t) hdr = .ok out)) := by
  rw [vvaEncodeWith, if_neg (mt List.length_eq_zero_iff.mp hne)] at h
  dsimp only at h
  rw [normalizeFreq_count] at h
  split at h
  · cases h
  split at h
  · cases h
  rename_i hdr hhdr
  refine ⟨hdr, hhdr, ?_⟩
  by_cases hone : symbolCount (histogram src) 256 = 1
  · rw [if_pos hone] at h
    split at h
    · cases h
    · rename_i hless
      obtain rfl := Except.ok.inj h
      exact Or.inl ⟨hone, rfl, Nat.not_le.mp hless⟩
  · rw [if_neg hone] at h
    split at h
    · cases h
    rename_i t htables
    split at h
    · exact Or.inr ⟨hone, t, h⟩
    · cases h

section Bytewise

variable {src out : Bytes} {dst_cap : Nat}

/-- A source of one symbol is that symbol all along. -/
theorem eq_replicate_lastSymbol {norm : Norm} (hone : symbolCount norm 256 = 1)
    (hocc : Occurs norm src) : List.replicate src.length (UInt8.ofNat (lastSymbol norm 256)) = src := by
  refine (List.eq_replicate_iff.mpr ⟨rfl, ?_⟩).symm
  intro b hb
  have hsame := eq_lastSymbol hone b.toNat_lt (Nat.pos_iff_ne_zero.mp (hocc b hb))
  rw [← hsame, UInt8.ofNat_toNat]

/-- **THE SHARED START** of the decoders undoes that of the encoders, if the body
    does. -/
theorem vvaDecodeWith_encoded {enc : EncCtx → (hdr : Bytes) → Except VvError Bytes}
    {dec : Mem DecEntry → Bytes → (hdr n : Nat) → Except VvError (Bytes × Nat)}
    (hne : src ≠ []) (hlen : src.length < 2 ^ 31)
    (hbody : ∀ c table hdr, Undone (normalizeFreq (histogram src)).2 c table →
      enc c hdr = .ok out → (∃ rest, out = hdr ++ rest) ∧
        dec table out hdr.length src.length = .ok (src, out.length))
    {mem : AnsMemory} (h : vvaEncodeWith enc mem src dst_cap = .ok out) (workspace : Mem DecEntry)
    {cap : Nat} (hcap : src.length ≤ cap) :
    vvaDecodeWith dec workspace out cap src.length = .ok (src, out.length) := by
  obtain ⟨hdr, hhdr, hcases⟩ := vvaEncodeWith_ok hne h
  have hnormal := histogram_normalized hne hlen
  have hocc := histogram_occurs hne hlen
  have hcount : symbolCount (normalizeFreq (histogram src)).2 256 = symbolCount (histogram src) 256 :=
    symbolCount_congr fun i _ => hnormal.support i
  have hpos : symbolCount (histogram src) 256 ≠ 0 := by
    rw [← hcount]
    exact Nat.pos_iff_ne_zero.mp (symbolCount_pos (hnormal.sum ▸ (by decide : 0 < ansL)))
  rw [vvaDecodeWith, if_neg (mt List.length_eq_zero_iff.mp hne), if_neg (Nat.not_lt.mpr hcap)]
  rcases hcases with ⟨hone, rfl, -⟩ | ⟨hmany, t, hput⟩
  · obtain ⟨norm', hread, hsame⟩ := readHdrV2_writeHdrV2 hnormal.sum hhdr []
    rw [List.append_nil] at hread
    rw [hread]
    dsimp only
    rw [validatedSymbolCount_same hsame hnormal.sum, hcount, if_neg hpos, if_pos hone,
      lastSymbol_same hsame (hcount.trans hone), eq_replicate_lastSymbol (hcount.trans hone) hocc]
  · obtain ⟨⟨rest, rfl⟩, -⟩ := hbody _ _ hdr
      ((buildDecDirect_for (fun _ _ => rfl) hnormal.sum workspace).undone hnormal.sum t) hput
    obtain ⟨norm', hread, hsame⟩ := readHdrV2_writeHdrV2 hnormal.sum hhdr rest
    have hdec := hbody _ _ hdr
      ((buildDecDirect_for hsame hnormal.sum workspace).undone hnormal.sum t) hput
    rw [hread]
    dsimp only
    rw [validatedSymbolCount_same hsame hnormal.sum, hcount, if_neg hpos, if_neg hmany]
    exact hdec.2

/-! ## One stream -/

theorem vvaDecodeBody_encoded {norm : Norm} {c : EncCtx} {table : Mem DecEntry}
    (hocc : Occurs norm src) {hdr : Bytes} (hund : Undone norm c table)
    (h : vvaEncodeBody src dst_cap c hdr = .ok out) :
    (∃ rest, out = hdr ++ rest) ∧
      vvaDecodeBody table out hdr.length src.length = .ok (src, out.length) := by
  obtain ⟨x, pairs, hback, hx, hpairs, hnarrow⟩ := encodeBack_some hund hocc
  rw [vvaEncodeBody, hback] at h
  dsimp only at h
  obtain ⟨rfl, -, -⟩ := putSmaller_ok h
  have hroom : bytesFor (ansLog * pairs.length) ≤ (src.length * 15 + 7) / 8 + 16 := by
    rw [bytesFor, ansLog, hpairs]
    omega
  rw [writePairs_narrow hnarrow hroom]
  refine ⟨⟨_, rfl⟩, ?_⟩
  have hlength : (hdr ++ (lePut 2 x ++ packed pairs)).length = hdr.length + 2 + (packed pairs).length := by
    rw [List.length_append, List.length_append, lePut_length, Nat.add_assoc]
  have hstate : u16At (hdr ++ (lePut 2 x ++ packed pairs)) hdr.length = x :=
    u16At_lePut (hx.1.trans (by decide)) _ _ rfl
  have hstream : (hdr ++ (lePut 2 x ++ packed pairs)).drop (hdr.length + 2) = packed pairs := by
    rw [← List.append_assoc]
    refine List.drop_left' ?_
    rw [List.length_append, lePut_length]
  obtain ⟨r', hloop, hdone⟩ := ansLoop_encoded hund hocc hback (ansBefore_start pairs)
  rw [vvaDecodeBody, if_neg (by omega)]
  dsimp only
  rw [hstate, if_neg (Nat.not_le.mpr hx.1), hstream, hloop]
  dsimp only
  rw [ansConsumed_done hdone (spareBits_lt pairs), hlength]

/-- An encoder that stops has no room or no memory: the frequencies are there, and
    every symbol has a state. -/
def StopsForRoom (r : Except VvError Bytes) : Prop :=
  ∀ e, r = .error e → e = .overflow ∨ e = .nomem

theorem putSmaller_stops (src out : Bytes) (dst_cap : Nat) : StopsForRoom (putSmaller src out dst_cap) := by
  intro e h
  rw [putSmaller] at h
  split at h
  · exact Or.inl (Except.error.inj h).symm
  · cases h

theorem vvaEncodeWith_stops {enc : EncCtx → (hdr : Bytes) → Except VvError Bytes} (hne : src ≠ [])
    (hlen : src.length < 2 ^ 31)
    (hbody : ∀ c table hdr, Undone (normalizeFreq (histogram src)).2 c table → StopsForRoom (enc c hdr))
    (mem : AnsMemory) : StopsForRoom (vvaEncodeWith enc mem src dst_cap) := by
  intro e h
  have hnormal := histogram_normalized hne hlen
  have hpos : symbolCount (histogram src) 256 ≠ 0 := by
    rw [← symbolCount_congr fun i _ => hnormal.support i]
    exact Nat.pos_iff_ne_zero.mp (symbolCount_pos (hnormal.sum ▸ (by decide : 0 < ansL)))
  rw [vvaEncodeWith, if_neg (mt List.length_eq_zero_iff.mp hne)] at h
  dsimp only at h
  rw [normalizeFreq_count, if_neg hpos] at h
  split at h
  · exact Or.inl (Except.error.inj h).symm
  split at h
  · split at h
    · exact Or.inl (Except.error.inj h).symm
    · cases h
  split at h
  · exact Or.inr (Except.error.inj h).symm
  rename_i t htables
  split at h
  · have htable : TableFor (normalizeFreq (histogram src)).2
        (buildDecDirect (normalizeFreq (histogram src)).2 t.dec) :=
      buildDecDirect_for (fun _ _ => rfl) hnormal.sum t.dec
    exact hbody _ _ _ (htable.undone hnormal.sum t) e h
  · exact Or.inr (Except.error.inj h).symm

theorem vvaEncode_stops (hlen : src.length < 2 ^ 31) (mem : AnsMemory) :
    StopsForRoom (vvaEncode mem src dst_cap) := by
  by_cases hne : src = []
  · subst hne
    intro e h
    cases h
  · refine vvaEncodeWith_stops hne hlen ?_ mem
    intro c table hdr hund
    obtain ⟨x, pairs, hback, -, -, -⟩ := encodeBack_some hund (histogram_occurs hne hlen)
    rw [vvaEncodeBody, hback]
    exact putSmaller_stops _ _ _

/-- **A STREAM OF `vva_encode`** is decoded to its source. -/
theorem vvaDecode_vvaEncode (hlen : src.length < 2 ^ 31) {mem : AnsMemory}
    (h : vvaEncode mem src dst_cap = .ok out) (workspace : Mem DecEntry) {cap : Nat}
    (hcap : src.length ≤ cap) : vvaDecode workspace out cap src.length = .ok (src, out.length) := by
  by_cases hne : src = []
  · subst hne
    obtain rfl : [] = out := Except.ok.inj h
    rfl
  · refine vvaDecodeWith_encoded hne hlen ?_ h workspace hcap
    intro c table hdr hund hput
    exact vvaDecodeBody_encoded (histogram_occurs hne hlen) hund hput

/-! ## Four lanes -/

theorem strided_length (k : Nat) (src : Bytes) : (strided k src).length = (src.length + 3 - k) / 4 := by
  induction src generalizing k with
  | nil =>
      cases k with
      | zero => rfl
      | succ k =>
          show 0 = (0 + 3 - (k + 1)) / 4
          omega
  | cons b src ih =>
      cases k with
      | zero =>
          rw [strided, List.length_cons, ih, List.length_cons]
          omega
      | succ k =>
          rw [strided, ih, List.length_cons]
          omega

/-- **A LANE** is a state and a stream in front of every fourth symbol. -/
theorem encodeLane_some {norm : Norm} {c : EncCtx} {table : Mem DecEntry} (hund : Undone norm c table)
    (hocc : Occurs norm src) (k : Nat) :
    ∃ x b, encodeLane c src k = some (x, b) ∧ x < ansL ∧
      LaneAt c (strided k src) ⟨x, ansBrFill (ansBrInit b)⟩ := by
  obtain ⟨x, pairs, hback, hx, hpairs, hnarrow⟩ := encodeBack_some hund (hocc.strided k)
  have hroom : bytesFor (ansLog * pairs.length) ≤ laneCap src.length := by
    rw [bytesFor, ansLog, hpairs, strided_length, laneCap]
    omega
  refine ⟨x, packed pairs, ?_, hx.1, pairs, _, _, hback, ansBefore_start pairs⟩
  rw [encodeLane, hback]
  dsimp only
  rw [writePairs_narrow hnarrow hroom]

theorem u32At_lePut {n : Nat} (hn : n < 2 ^ 32) (pre rest : Bytes) {pos : Nat}
    (hpos : pos = pre.length) : leGet (((pre ++ (lePut 4 n ++ rest)).drop pos).take 4) = n := by
  rw [hpos, List.drop_left, List.take_left' (lePut_length 4 n), leGet_lePut]
  exact Nat.mod_eq_of_lt hn

/-- Fields of two bytes, one behind another. -/
theorem u16At_four {a b c d : Nat} (ha : a < 2 ^ 16) (hb : b < 2 ^ 16) (hc : c < 2 ^ 16)
    (hd : d < 2 ^ 16) (pre rest : Bytes) :
    let out := pre ++ (lePut 2 a ++ (lePut 2 b ++ (lePut 2 c ++ lePut 2 d)) ++ rest)
    u16At out (pre.length + 2 * 0) = a ∧ u16At out (pre.length + 2 * 1) = b ∧
      u16At out (pre.length + 2 * 2) = c ∧ u16At out (pre.length + 2 * 3) = d := by
  intro out
  simp only [out, List.append_assoc]
  refine ⟨u16At_lePut ha _ _ rfl, ?_, ?_, ?_⟩
  · rw [← List.append_assoc]
    exact u16At_lePut hb _ _ (by simp)
  · rw [← List.append_assoc, ← List.append_assoc]
    exact u16At_lePut hc _ _ (by simp)
  · rw [← List.append_assoc, ← List.append_assoc, ← List.append_assoc]
    exact u16At_lePut hd _ _ (by simp)

/-- Fields of four bytes, one behind another. -/
theorem u32At_four {a b c d : Nat} (ha : a < 2 ^ 32) (hb : b < 2 ^ 32) (hc : c < 2 ^ 32)
    (hd : d < 2 ^ 32) (pre rest : Bytes) {pos : Nat} (hpos : pos = pre.length) :
    let out := pre ++ (lePut 4 a ++ (lePut 4 b ++ (lePut 4 c ++ lePut 4 d)) ++ rest)
    leGet ((out.drop (pos + 4 * 0)).take 4) = a ∧ leGet ((out.drop (pos + 4 * 1)).take 4) = b ∧
      leGet ((out.drop (pos + 4 * 2)).take 4) = c ∧ leGet ((out.drop (pos + 4 * 3)).take 4) = d := by
  intro out
  simp only [out, List.append_assoc, hpos]
  refine ⟨u32At_lePut ha _ _ rfl, ?_, ?_, ?_⟩
  · rw [← List.append_assoc]
    exact u32At_lePut hb _ _ (by simp)
  · rw [← List.append_assoc, ← List.append_assoc]
    exact u32At_lePut hc _ _ (by simp)
  · rw [← List.append_assoc, ← List.append_assoc, ← List.append_assoc]
    exact u32At_lePut hd _ _ (by simp)

theorem vvaDecode4Body_encoded {norm : Norm} {c : EncCtx} {table : Mem DecEntry}
    (hlen : src.length < 2 ^ 31) (hocc : Occurs norm src) {hdr : Bytes} (hund : Undone norm c table)
    (h : vvaEncode4Body src dst_cap c hdr = .ok out) :
    (∃ rest, out = hdr ++ rest) ∧
      vvaDecode4Body table out hdr.length src.length = .ok (src, out.length) := by
  obtain ⟨x0, b0, h0, hx0, hl0⟩ := encodeLane_some hund hocc 0
  obtain ⟨x1, b1, h1, hx1, hl1⟩ := encodeLane_some hund hocc 1
  obtain ⟨x2, b2, h2, hx2, hl2⟩ := encodeLane_some hund hocc 2
  obtain ⟨x3, b3, h3, hx3, hl3⟩ := encodeLane_some hund hocc 3
  rw [vvaEncode4Body, h0, h1, h2, h3] at h
  dsimp only at h
  obtain ⟨hout, -, hless⟩ := putSmaller_ok h
  generalize hstates : lePut 2 x0 ++ (lePut 2 x1 ++ (lePut 2 x2 ++ lePut 2 x3)) = states at hout hless
  generalize hsizes : lePut 4 b0.length ++ (lePut 4 b1.length ++ (lePut 4 b2.length ++
    lePut 4 b3.length)) = sizes at hout hless
  have hslen : states.length = 8 := by
    rw [← hstates]
    simp
  have hzlen : sizes.length = 16 := by
    rw [← hsizes]
    simp
  have hlength : out.length = hdr.length + 24 + (b0.length + b1.length + b2.length + b3.length) := by
    rw [hout]
    simp only [List.length_append, hslen, hzlen]
    omega
  rw [← hout, hlength] at hless
  have hstate : ∀ {x : Nat}, x < ansL → x < 2 ^ 16 := fun hx => hx.trans (by decide)
  obtain ⟨hs0, hs1, hs2, hs3⟩ := u16At_four (hstate hx0) (hstate hx1) (hstate hx2) (hstate hx3) hdr
    (sizes ++ (b0 ++ (b1 ++ (b2 ++ b3))))
  rw [hstates, ← hout] at hs0 hs1 hs2 hs3
  have hplace : hdr.length + 8 = (hdr ++ states).length := by rw [List.length_append, hslen]
  obtain ⟨hz0, hz1, hz2, hz3⟩ := u32At_four (a := b0.length) (b := b1.length) (c := b2.length)
    (d := b3.length) (by omega) (by omega) (by omega) (by omega) (hdr ++ states)
    (b0 ++ (b1 ++ (b2 ++ b3))) hplace
  rw [hsizes, List.append_assoc, ← hout] at hz0 hz1 hz2 hz3
  have hstreams : out.drop (hdr.length + 24) = b0 ++ (b1 ++ (b2 ++ b3)) := by
    rw [hout, ← List.append_assoc, ← List.append_assoc]
    refine List.drop_left' ?_
    rw [List.length_append, List.length_append, hslen, hzlen]
  have hd0 : ((b0 ++ (b1 ++ (b2 ++ b3))).drop 0).take b0.length = b0 := List.take_left
  have hd1 : ((b0 ++ (b1 ++ (b2 ++ b3))).drop b0.length).take b1.length = b1 := take_drop_middle _ _ _
  have hd2 : ((b0 ++ (b1 ++ (b2 ++ b3))).drop (b0.length + b1.length)).take b2.length = b2 := by
    rw [← List.append_assoc, ← List.length_append]
    exact take_drop_middle _ _ _
  have hd3 : ((b0 ++ (b1 ++ (b2 ++ b3))).drop (b0.length + b1.length + b2.length)).take b3.length =
      b3 := by
    rw [← List.append_assoc, ← List.append_assoc, ← List.length_append, ← List.length_append,
      List.drop_left, List.take_length]
  obtain ⟨m0, m1, m2, m3, hquads, hrest⟩ := quadLoop_encoded hund (src.length / 4) hocc
    (Nat.mul_div_le src.length 4) ⟨hl0, hl1, hl2, hl3⟩
  have htail := laneTail_encoded hund
    (fun b hb => hocc b (List.mem_of_mem_drop hb)) (by rw [List.length_drop]; omega) hrest
  have hleft : (src.drop (4 * (src.length / 4))).length = src.length % 4 := by
    rw [List.length_drop]
    omega
  rw [hleft] at htail
  refine ⟨⟨_, hout⟩, ?_⟩
  rw [vvaDecode4Body, if_neg (by omega)]
  simp only [hs0, hs1, hs2, hs3, hz0, hz1, hz2, hz3, hstreams]
  rw [if_neg (by omega), if_neg (by simp only [List.length_append]; omega), hd0, hd1, hd2, hd3, hquads]
  dsimp only
  rw [htail]
  dsimp only
  rw [List.take_append_drop, hlength]

theorem vvaEncode4_stops (hlen : src.length < 2 ^ 31) (mem : AnsMemory) :
    StopsForRoom (vvaEncode4 mem src dst_cap) := by
  by_cases hne : src = []
  · subst hne
    intro e h
    cases h
  · refine vvaEncodeWith_stops hne hlen ?_ mem
    intro c table hdr hund
    have hocc := histogram_occurs hne hlen
    obtain ⟨x0, b0, h0, -, -⟩ := encodeLane_some hund hocc 0
    obtain ⟨x1, b1, h1, -, -⟩ := encodeLane_some hund hocc 1
    obtain ⟨x2, b2, h2, -, -⟩ := encodeLane_some hund hocc 2
    obtain ⟨x3, b3, h3, -, -⟩ := encodeLane_some hund hocc 3
    rw [vvaEncode4Body, h0, h1, h2, h3]
    exact putSmaller_stops _ _ _

/-- **FOUR LANES OF `vva_encode4`** are decoded to their source. -/
theorem vvaDecode4_vvaEncode4 (hlen : src.length < 2 ^ 31) {mem : AnsMemory}
    (h : vvaEncode4 mem src dst_cap = .ok out) (workspace : Mem DecEntry) {cap : Nat}
    (hcap : src.length ≤ cap) : vvaDecode4 workspace out cap src.length = .ok (src, out.length) := by
  by_cases hne : src = []
  · subst hne
    obtain rfl : [] = out := Except.ok.inj h
    rfl
  · refine vvaDecodeWith_encoded hne hlen ?_ h workspace hcap
    intro c table hdr hund hput
    exact vvaDecode4Body_encoded hlen (histogram_occurs hne hlen) hund hput

end Bytewise

end Zupt.VaptVupt
