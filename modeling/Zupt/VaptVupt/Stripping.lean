import Zupt.VaptVupt.Encoder
import Zupt.VaptVupt.TokensExact

/-! # Literal stripping

    `extract_literals` takes the literals out of a token stream, and
    `decode_stripped_tokens` puts them in again.  The two streams end together: what
    is left behind the literals of a token is an offset or nothing, with or without
    the literals in front of it. -/

namespace Zupt.VaptVupt

open Zupt.LittleEndian Zupt.Memory Zupt.Window

/-! ## Lengths -/

/-- Bytes that are read for a length, whatever stands behind them. -/
def Spans (nibble : Nat) (ext : Bytes) (n : Nat) : Prop :=
  ∀ rest, readLen nibble (ext ++ rest) = some (n, rest)

/-- An extension is copied whole.  One that the end of the stream cuts off is copied as
    well, but it is none for `read_ext_len`. -/
theorem copyExt_spec {tp ext rest : Bytes} {n : Nat} (h : copyExt tp = some (n, ext, rest)) :
    tp = ext ++ rest ∧
      ((∀ more, readExtLen (ext ++ more) = some (n, more)) ∨
        rest = [] ∧ readExtLen ext = none ∧ 0 < n) := by
  induction tp generalizing n ext rest with
  | nil => cases h
  | cons b p ih =>
      have hbyte : ¬b < 255 → b.toNat = 255 := by
        intro hlast
        have hlt := b.toNat_lt
        have hge : ¬b.toNat < 255 := fun hsmall => hlast (UInt8.lt_iff_toNat_lt.mpr hsmall)
        omega
      cases p with
      | nil =>
          rw [copyExt] at h
          by_cases hlast : b < 255
          · rw [if_pos hlast] at h
            cases h
            refine ⟨rfl, Or.inl fun more => ?_⟩
            rw [List.singleton_append, readExtLen, if_pos hlast]
          · rw [if_neg hlast] at h
            cases h
            refine ⟨rfl, Or.inr ⟨rfl, ?_, Nat.succ_pos 254⟩⟩
            rw [readExtLen, if_neg hlast, readExtLen]
      | cons c p =>
          replace h : (if b < 255 then some (b.toNat, [b], c :: p)
            else (copyExt (c :: p)).map fun r => (255 + r.1, b :: r.2.1, r.2.2)) =
              some (n, ext, rest) := h
          by_cases hlast : b < 255
          · rw [if_pos hlast] at h
            cases h
            refine ⟨rfl, Or.inl fun more => ?_⟩
            rw [List.singleton_append, readExtLen, if_pos hlast]
          · rw [if_neg hlast] at h
            obtain ⟨⟨val, ext', rest'⟩, hmore, hr⟩ := Option.map_eq_some_iff.mp h
            cases hr
            obtain ⟨hsplit, hread⟩ := ih hmore
            refine ⟨congrArg (b :: ·) hsplit, ?_⟩
            rcases hread with hread | ⟨hrest, hnone, -⟩
            · refine Or.inl fun more => ?_
              rw [List.cons_append, readExtLen, if_neg hlast, hread, hbyte hlast]
            · refine Or.inr ⟨hrest, ?_, Nat.add_pos_left (Nat.succ_pos 254) _⟩
              rw [readExtLen, if_neg hlast, hnone]

theorem copyLen_spec {nibble : Nat} {tp ext rest : Bytes} {n : Nat}
    (h : copyLen nibble tp = some (n, ext, rest)) :
    tp = ext ++ rest ∧ (Spans nibble ext n ∨ rest = [] ∧ readLen nibble ext = none ∧ 0 < n) := by
  rw [copyLen] at h
  by_cases hext : nibble = 15
  · rw [if_pos hext] at h
    obtain ⟨⟨val, ext', rest'⟩, hcopy, hr⟩ := Option.map_eq_some_iff.mp h
    cases hr
    obtain ⟨hsplit, hread⟩ := copyExt_spec hcopy
    refine ⟨hsplit, ?_⟩
    rcases hread with hread | ⟨hrest, hnone, -⟩
    · refine Or.inl fun more => ?_
      rw [readLen, if_pos hext, hread, hext]
    · refine Or.inr ⟨hrest, ?_, by omega⟩
      rw [readLen, if_pos hext, hnone]
  · rw [if_neg hext] at h
    cases h
    refine ⟨rfl, Or.inl fun more => ?_⟩
    rw [List.nil_append, readLen, if_neg hext]

/-! ## The two streams -/

/-- A token stream, its literals and the stream without them. -/
inductive Strips (off_bytes : Nat) : (tokens lits stripped : Bytes) → Prop
  | nil : Strips off_bytes [] [] []
  /-- The last token has no match. -/
  | last {token : UInt8} {ext lits : Bytes} (hlen : Spans (token.toNat / 16) ext lits.length) :
      Strips off_bytes (token :: (ext ++ lits)) lits (token :: ext)
  /-- The length of the last match is cut off. -/
  | cut {token : UInt8} {ext lits off mext : Bytes}
      (hlen : Spans (token.toNat / 16) ext lits.length) (hoff : off.length = off_bytes)
      (hcut : readLen (token.toNat % 16) mext = none) :
      Strips off_bytes (token :: (ext ++ (lits ++ (off ++ mext)))) lits
        (token :: (ext ++ (off ++ mext)))
  | more {token : UInt8} {ext lits off mext tokens lits' stripped : Bytes} {n : Nat}
      (hlen : Spans (token.toNat / 16) ext lits.length) (hoff : off.length = off_bytes)
      (hmatch : Spans (token.toNat % 16) mext n) (h : Strips off_bytes tokens lits' stripped) :
      Strips off_bytes (token :: (ext ++ (lits ++ (off ++ (mext ++ tokens))))) (lits ++ lits')
        (token :: (ext ++ (off ++ (mext ++ stripped))))

/-- **WHAT IS EXTRACTED** is the stream in two parts. -/
theorem extractLoop_strips {lit_cap off_bytes turns : Nat} {tp lits stripped lits' stripped' : Bytes}
    (hturns : tp.length ≤ turns)
    (h : extractLoop lit_cap off_bytes turns tp lits stripped = some (lits', stripped')) :
    ∃ l s, lits' = lits ++ l ∧ stripped' = stripped ++ s ∧ Strips off_bytes tp l s := by
  induction turns generalizing tp lits stripped with
  | zero =>
      obtain rfl := List.length_eq_zero_iff.mp (Nat.le_zero.mp hturns)
      cases h
      exact ⟨[], [], (List.append_nil _).symm, (List.append_nil _).symm, .nil⟩
  | succ turns ih =>
      cases tp with
      | nil =>
          cases h
          exact ⟨[], [], (List.append_nil _).symm, (List.append_nil _).symm, .nil⟩
      | cons token tp =>
          rw [List.length_cons] at hturns
          rw [extractLoop] at h
          dsimp only at h
          split at h
          · cases h
          rename_i ll ext rest hll
          obtain ⟨rfl, hread⟩ := copyLen_spec hll
          split at h
          · cases h
          rename_i hfits
          split at h
          · cases h
          -- a length that is cut off has no literals behind it
          have hlen : Spans (token.toNat / 16) ext (rest.take ll).length := by
            rw [List.length_take, Nat.min_eq_left (Nat.not_lt.mp hfits)]
            rcases hread with hread | ⟨rfl, -, hpos⟩
            · exact hread
            · exact absurd hpos hfits
          have hsplit : rest = rest.take ll ++ rest.drop ll := (List.take_append_drop ll rest).symm
          generalize rest.take ll = l, rest.drop ll = behind at h hlen hsplit
          subst hsplit
          by_cases hend : behind.length = 0
          · rw [if_pos hend] at h
            cases h
            obtain rfl := List.length_eq_zero_iff.mp hend
            refine ⟨l, token :: ext, rfl, rfl, ?_⟩
            rw [List.append_nil]
            exact .last hlen
          rw [if_neg hend] at h
          split at h
          · cases h
          rename_i hoff
          split at h
          · cases h
          rename_i n mext tokens hml
          obtain ⟨hmatch, hmread⟩ := copyLen_spec hml
          have hofflen : (behind.take off_bytes).length = off_bytes := by
            rw [List.length_take]
            omega
          have hbehind : behind = behind.take off_bytes ++ (mext ++ tokens) := by
            rw [← hmatch, List.take_append_drop]
          generalize behind.take off_bytes = off at h hofflen hbehind
          subst hbehind
          have hfewer : tokens.length ≤ turns := by
            simp only [List.length_append] at hturns
            omega
          obtain ⟨l', s, rfl, rfl, hrest⟩ := ih hfewer h
          refine ⟨l ++ l', token :: (ext ++ (off ++ (mext ++ s))), ?_, ?_, ?_⟩
          · rw [List.append_assoc]
          · simp only [List.append_assoc, List.cons_append]
          rcases hmread with hmread | ⟨rfl, hcut, -⟩
          · exact .more hlen hofflen hmread hrest
          · cases hrest
            rw [List.append_nil, List.append_nil]
            exact .cut hlen hofflen hcut

/-! ## The two decoders -/

section Decode

variable {P : NaiveTokens} {off_bytes mc : Nat}

/-- The offset field of a token does not see what stands behind it. -/
theorem offsetGet_append (hoff : off_bytes = 2 ∨ off_bytes = 3) {off : Bytes}
    (hlen : off.length = off_bytes) (rest : Bytes) :
    offsetGet off_bytes (off ++ rest) = leGet off := by
  rcases hoff with rfl | rfl
  · rw [offsetGet, if_pos rfl, List.take_left' hlen]
  · rw [offsetGet, if_neg (by omega), List.take_left' hlen]

/-- A match is the same whatever stands behind it. -/
theorem NaiveTokens.match_append (hP : P.offBytes = off_bytes) (hoff : off_bytes = 2 ∨ off_bytes = 3)
    {off mext : Bytes} (hlen : off.length = off_bytes) {n : Nat} (hmatch : Spans mc mext n)
    (out : Bytes) :
    (∃ e, ∀ rest, P.match mc (off ++ (mext ++ rest)) out = .error e) ∨
      ∃ out', ∀ rest, P.match mc (off ++ (mext ++ rest)) out = .ok (rest, out') := by
  have hmeets : ∀ rest, P.match mc (off ++ (mext ++ rest)) out =
      if leGet off = 0 ∨ P.maxOffset < leGet off ∨ out.length < leGet off then .error .corrupt
      else if P.cap < out.length + (n + minMatch) then .error .overflow
      else .ok (rest, extend out (leGet off) (n + minMatch)) := by
    intro rest
    rw [NaiveTokens.match, hP, if_neg (by rw [List.length_append]; omega), offsetGet_append hoff hlen,
      List.drop_left' hlen, hmatch rest]
  simp only [hmeets]
  by_cases hbad : leGet off = 0 ∨ P.maxOffset < leGet off ∨ out.length < leGet off
  · exact Or.inl ⟨.corrupt, fun rest => if_pos hbad⟩
  · simp only [if_neg hbad]
    by_cases hover : P.cap < out.length + (n + minMatch)
    · exact Or.inl ⟨.overflow, fun rest => if_pos hover⟩
    · exact Or.inr ⟨_, fun rest => if_neg hover⟩

/-- A match whose length is cut off is none. -/
theorem NaiveTokens.match_cut (hP : P.offBytes = off_bytes) {off mext : Bytes}
    (hlen : off.length = off_bytes) (hcut : readLen mc mext = none) (out : Bytes) :
    P.match mc (off ++ mext) out = .error .corrupt := by
  rw [NaiveTokens.match, hP, if_neg (by rw [List.length_append]; omega), List.drop_left' hlen, hcut]

/-- The literals of a token, from the stream. -/
theorem NaiveTokens.turn_lits {token : UInt8} {ext lits : Bytes}
    (hlen : Spans (token.toNat / 16) ext lits.length) (behind out : Bytes) :
    P.turn token (ext ++ (lits ++ behind)) out =
      if P.cap < out.length + lits.length then .error .overflow
      else if behind.length = 0 then .ok (behind, out ++ lits)
      else P.match (token.toNat % 16) behind (out ++ lits) := by
  rw [NaiveTokens.turn, hlen]
  dsimp only
  rw [if_neg (by rw [List.length_append]; omega), List.drop_left, List.take_left]

/-- The literals of a token, from the buffer. -/
theorem NaiveTokens.strippedTurn_lits {token : UInt8} {ext lits : Bytes}
    (hlen : Spans (token.toNat / 16) ext lits.length) (behind lits' out : Bytes) :
    P.strippedTurn token (ext ++ behind) (lits ++ lits') out =
      if P.cap < out.length + lits.length then .error .overflow
      else if behind.length = 0 then .ok (behind, lits', out ++ lits)
      else (P.match (token.toNat % 16) behind (out ++ lits)).map fun r => (r.1, lits', r.2) := by
  rw [NaiveTokens.strippedTurn, hlen]
  dsimp only
  rw [if_neg (by rw [List.length_append]; omega), List.drop_left, List.take_left]
  cases P.match (token.toNat % 16) behind (out ++ lits) <;> rfl

theorem NaiveTokens.run_nil (turns : Nat) (out : Bytes) : P.run turns [] out = .ok out := by
  cases turns <;> rfl

theorem NaiveTokens.stripped_nil (turns : Nat) (lits out : Bytes) :
    P.stripped turns [] lits out = .ok out := by
  cases turns <;> rfl

/-- **THE LITERALS ARE PUT IN AGAIN**, and every error is found where it was. -/
theorem Strips.decode (hP : P.offBytes = off_bytes) (hoff : off_bytes = 2 ∨ off_bytes = 3)
    {tokens lits stripped : Bytes} (h : Strips off_bytes tokens lits stripped) {turns turns' : Nat}
    (hturns : tokens.length ≤ turns) (hturns' : stripped.length ≤ turns') (out : Bytes) :
    P.stripped turns' stripped lits out = P.run turns tokens out := by
  -- a stream that is not empty has a turn
  have hsucc : ∀ {n : Nat} {token : UInt8} {ip : Bytes}, (token :: ip).length ≤ n →
      ∃ k, n = k + 1 ∧ ip.length ≤ k := by
    intro n token ip hn
    rw [List.length_cons] at hn
    exact ⟨n - 1, by omega, by omega⟩
  induction h generalizing turns turns' out with
  | nil => rw [NaiveTokens.stripped_nil, NaiveTokens.run_nil]
  | @last token ext lits hlen =>
      obtain ⟨turns, rfl, -⟩ := hsucc hturns
      obtain ⟨turns', rfl, -⟩ := hsucc hturns'
      have hturn := P.turn_lits hlen [] out
      have hturn' := P.strippedTurn_lits hlen [] [] out
      rw [List.append_nil] at hturn
      rw [List.append_nil, List.append_nil] at hturn'
      rw [NaiveTokens.stripped, NaiveTokens.run, hturn, hturn']
      by_cases hover : P.cap < out.length + lits.length
      · rw [if_pos hover, if_pos hover]
      · rw [if_neg hover, if_neg hover, if_pos List.length_nil, if_pos List.length_nil]
        dsimp only
        rw [NaiveTokens.stripped_nil, NaiveTokens.run_nil]
  | @cut token ext lits off mext hlen hofflen hcut =>
      obtain ⟨turns, rfl, -⟩ := hsucc hturns
      obtain ⟨turns', rfl, -⟩ := hsucc hturns'
      have hmatch := P.match_cut hP hofflen hcut (out ++ lits)
      have hturn' := P.strippedTurn_lits hlen (off ++ mext) [] out
      rw [List.append_nil] at hturn'
      rw [NaiveTokens.stripped, NaiveTokens.run, P.turn_lits hlen, hturn']
      have hmore : (off ++ mext).length ≠ 0 := by
        rw [List.length_append]
        omega
      by_cases hover : P.cap < out.length + lits.length
      · rw [if_pos hover, if_pos hover]
      · rw [if_neg hover, if_neg hover, if_neg hmore, if_neg hmore, hmatch]
        rfl
  | @more token ext lits off mext tokens lits' stripped n hlen hofflen hspans _ ih =>
      obtain ⟨turns, rfl, hle⟩ := hsucc hturns
      obtain ⟨turns', rfl, hle'⟩ := hsucc hturns'
      simp only [List.length_append] at hle hle'
      rw [NaiveTokens.stripped, NaiveTokens.run, P.turn_lits hlen, P.strippedTurn_lits hlen]
      have hmore : ∀ rest : Bytes, (off ++ (mext ++ rest)).length ≠ 0 := by
        intro rest
        rw [List.length_append]
        omega
      by_cases hover : P.cap < out.length + lits.length
      · rw [if_pos hover, if_pos hover]
      rw [if_neg hover, if_neg hover, if_neg (hmore _), if_neg (hmore _)]
      rcases P.match_append hP hoff hofflen hspans (out ++ lits) with ⟨e, he⟩ | ⟨out', hout'⟩
      · rw [he, he]
        rfl
      · rw [hout', hout']
        exact ih (by omega) (by omega) out'

end Decode

/-! ## The decoders of the library -/

/-- Two decodings of a block at `dst`: both refuse it, or both leave the same bytes. -/
def SameBlock (dst : Nat) : Except Stop (Mem UInt8 × Nat) → Except Stop (Mem UInt8 × Nat) → Prop
  | .ok (m, n), .ok (m', n') => n = n' ∧ read m dst n = read m' dst n'
  | .error (.err _), .error (.err _) => True
  | _, _ => False

section Library

variable {b : Bounds} {dst history : Nat} {m m1 m2 : Mem UInt8} {out : Bytes}

/-- Frames that hold the same bytes hold the same block. -/
theorem read_block (h1 : Holds b m m1 out) (h2 : Holds b m m2 out) (hdst : dst = b.lo + history) :
    read m1 dst (b.lo + out.length - dst) = read m2 dst (b.lo + out.length - dst) := by
  by_cases hle : history ≤ out.length
  · have hn : b.lo + out.length - dst = out.length - history := by omega
    rw [hn, hdst, ← read_drop m1 b.lo out.length history hle,
      ← read_drop m2 b.lo out.length history hle, h1.reads, h2.reads]
  · have hn : b.lo + out.length - dst = 0 := by omega
    rw [hn, read_zero, read_zero]

/-- Decodings that end as one naive decoder does are the same. -/
theorem TokOutcome.same {r1 r2 : Except Stop (Mem UInt8 × Nat)} {naive : Except VvError Bytes}
    (h1 : TokOutcome b dst m r1 naive) (h2 : TokOutcome b dst m r2 naive)
    (hdst : dst = b.lo + history) : SameBlock dst r1 r2 := by
  cases naive with
  | error e =>
      obtain ⟨e1, rfl⟩ := h1
      obtain ⟨e2, rfl⟩ := h2
      exact trivial
  | ok out =>
      obtain ⟨m1, rfl, hholds1⟩ := h1
      obtain ⟨m2, rfl, hholds2⟩ := h2
      exact ⟨rfl, read_block hholds1 hholds2 hdst⟩

/-- **LITERAL STRIPPING IS LOSSLESS**: where the loop of `extract_literals` comes to its
    end, `decode_stripped_tokens` over the literals and the stream without them leaves
    the bytes and the length that `decode_block_tokens` leaves over the stream as it
    was, and refuses what it refuses: for both widths of the offsets, every build,
    history, capacity and window, and for every stream whose size the 24 bits in front
    of one can announce. -/
theorem literal_stripping_lossless (build : Build) {tokens lits stripped : Bytes}
    {lit_cap off_bytes : Nat} (hoff : off_bytes = 2 ∨ off_bytes = 3) (hlt : tokens.length < 2 ^ 24)
    (h : extractLoop lit_cap off_bytes tokens.length tokens [] [] = some (lits, stripped))
    (m : Mem UInt8) (dst_base history dst_cap maxOffset : Nat) :
    SameBlock (dst_base + history)
      (decodeBlockTokens build tokens ⟨dst_base, dst_base + history + dst_cap⟩
        (dst_base + history) m off_bytes maxOffset)
      (decodeStrippedTokens build stripped lits ⟨dst_base, dst_base + history + dst_cap⟩
        (dst_base + history) m off_bytes maxOffset) := by
  obtain ⟨lits', stripped', hl, hs, hstrips⟩ := extractLoop_strips (Nat.le_refl _) h
  rw [List.nil_append] at hl hs
  subst hl hs
  have hframe : Holds ⟨dst_base, dst_base + history + dst_cap⟩ m m (read m dst_base history) := by
    refine ⟨?_, by rw [read_length], fun _ _ => rfl⟩
    rw [read_length]
    exact Nat.le_add_right _ dst_cap
  have hdst : dst_base + history = dst_base + (read m dst_base history).length := by
    rw [read_length]
  have htokens := decodeBlockTokens_eq_naive build off_bytes maxOffset hframe hdst hlt
  have hstripped := decodeStrippedTokens_eq_naive build stripped lits off_bytes maxOffset hframe hdst
  rw [hstrips.decode rfl hoff (Nat.le_refl _) (Nat.le_refl _)] at hstripped
  exact htokens.same hstripped rfl

/-- Two literals, a match that repeats them and a last literal. -/
theorem literal_stripping_lossless_repeat :
    SameBlock 4
      (decodeBlockTokens ⟨true, .avx2⟩ [0x21, 7, 8, 2, 0, 0x10, 9] ⟨4, 12⟩ 4 (fun _ => 0) 2 16)
      (decodeStrippedTokens ⟨true, .avx2⟩ [0x21, 2, 0, 0x10] [7, 8, 9] ⟨4, 12⟩ 4 (fun _ => 0) 2 16) :=
  literal_stripping_lossless ⟨true, .avx2⟩ (Or.inl rfl) (by decide)
    (show extractLoop 3 2 7 [0x21, 7, 8, 2, 0, 0x10, 9] [] [] =
      some ([7, 8, 9], [0x21, 2, 0, 0x10]) by decide) (fun _ => 0) 4 0 8 16

end Library

end Zupt.VaptVupt
