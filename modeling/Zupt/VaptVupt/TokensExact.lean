import Zupt.VaptVupt.Tokens

/-! # The token loops are exact

    With or without the fast loops, whatever routines the copies dispatch to,
    and whatever the buffer holds, the token decoders accept what the naive ones
    accept, with the same bytes, and touch nothing outside of the frame and its
    capacity or of the payload. -/

namespace Zupt.VaptVupt

open Zupt.LittleEndian Zupt.Memory Zupt.Window

/-! ## Lengths -/

theorem readExtLen_bounds {ip rest : Bytes} {ext : Nat} (h : readExtLen ip = some (ext, rest)) :
    rest.length ≤ ip.length ∧ ext ≤ 255 * ip.length := by
  induction ip generalizing ext rest with
  | nil => cases h
  | cons x p ih =>
      have hx : x.toNat < 256 := x.toNat_lt
      rw [readExtLen] at h
      rw [List.length_cons]
      by_cases hlast : x < 255
      · rw [if_pos hlast] at h
        obtain ⟨rfl, rfl⟩ := Prod.mk.inj (Option.some.inj h)
        constructor <;> omega
      · rw [if_neg hlast] at h
        split at h
        · cases h
        · rename_i val rest' hmore
          obtain ⟨rfl, rfl⟩ := Prod.mk.inj (Option.some.inj h)
          have hle := ih hmore
          constructor <;> omega

theorem readLen_bounds {nibble n : Nat} {ip rest : Bytes} (h : readLen nibble ip = some (n, rest)) :
    rest.length ≤ ip.length ∧ n ≤ nibble + 255 * ip.length ∧ (n < 15 → rest = ip) := by
  rw [readLen] at h
  by_cases hext : nibble = 15
  · rw [if_pos hext] at h
    split at h
    · cases h
    · rename_i ext rest' hread
      obtain ⟨rfl, rfl⟩ := Prod.mk.inj (Option.some.inj h)
      have hle := readExtLen_bounds hread
      refine ⟨hle.1, by omega, fun hlt => ?_⟩
      omega
  · rw [if_neg hext] at h
    obtain ⟨rfl, rfl⟩ := Prod.mk.inj (Option.some.inj h)
    exact ⟨Nat.le_refl _, by omega, fun _ => rfl⟩

/-- No sum of a token wraps, since payloads are shorter than 2^24 bytes. -/
theorem readLen_small {nibble n : Nat} {ip rest : Bytes} (h : readLen nibble ip = some (n, rest))
    (hnibble : nibble < 16) (hip : ip.length < 2 ^ 24 - 1) : n + minMatch < 2 ^ 32 := by
  have hle := (readLen_bounds h).2.1
  have hmin : minMatch = 4 := rfl
  omega

theorem NaiveTokens.match_length {P : NaiveTokens} {mc : Nat} {ip out ip' out' : Bytes}
    (h : P.match mc ip out = .ok (ip', out')) : ip'.length ≤ ip.length := by
  rw [NaiveTokens.match] at h
  split at h
  · cases h
  dsimp only at h
  split at h
  · cases h
  rename_i ml rest hread
  split at h
  · cases h
  split at h
  · cases h
  · obtain ⟨rfl, -⟩ := Prod.mk.inj (Except.ok.inj h)
    have hle := (readLen_bounds hread).1
    rw [List.length_drop] at hle
    omega

theorem NaiveTokens.turn_length {P : NaiveTokens} {token : UInt8} {ip out ip' out' : Bytes}
    (h : P.turn token ip out = .ok (ip', out')) : ip'.length ≤ ip.length := by
  rw [NaiveTokens.turn] at h
  split at h
  · cases h
  rename_i ll rest hread
  have hle := (readLen_bounds hread).1
  have hdrop : (rest.drop ll).length ≤ rest.length := by
    rw [List.length_drop]
    omega
  split at h
  · cases h
  split at h
  · cases h
  split at h
  · obtain ⟨rfl, -⟩ := Prod.mk.inj (Except.ok.inj h)
    omega
  · have := NaiveTokens.match_length h
    omega

/-- A match keeps what the frame produced. -/
theorem NaiveTokens.match_prefix {P : NaiveTokens} {mc : Nat} {ip out ip' out' : Bytes}
    (h : P.match mc ip out = .ok (ip', out')) : out <+: out' := by
  rw [NaiveTokens.match] at h
  split at h
  · cases h
  dsimp only at h
  split at h
  · cases h
  split at h
  · cases h
  split at h
  · cases h
  · obtain ⟨-, rfl⟩ := Prod.mk.inj (Except.ok.inj h)
    exact prefix_extend _ _ _

theorem NaiveTokens.turn_prefix {P : NaiveTokens} {token : UInt8} {ip out ip' out' : Bytes}
    (h : P.turn token ip out = .ok (ip', out')) : out <+: out' := by
  rw [NaiveTokens.turn] at h
  split at h
  · cases h
  split at h
  · cases h
  split at h
  · cases h
  split at h
  · obtain ⟨-, rfl⟩ := Prod.mk.inj (Except.ok.inj h)
    exact List.prefix_append _ _
  · exact (List.prefix_append _ _).trans (NaiveTokens.match_prefix h)

theorem NaiveTokens.run_prefix {P : NaiveTokens} {turns : Nat} {ip out out' : Bytes}
    (h : P.run turns ip out = .ok out') : out <+: out' := by
  induction turns generalizing ip out with
  | zero =>
      obtain rfl := Except.ok.inj h
      exact List.prefix_refl _
  | succ turns ih =>
      cases ip with
      | nil =>
          obtain rfl := Except.ok.inj h
          exact List.prefix_refl _
      | cons token ip =>
          rw [NaiveTokens.run] at h
          split at h
          · cases h
          · rename_i hturn
            exact (NaiveTokens.turn_prefix hturn).trans (ih h)

theorem NaiveTokens.stripped_prefix {P : NaiveTokens} {turns : Nat} {ip lits out out' : Bytes}
    (h : P.stripped turns ip lits out = .ok out') : out <+: out' := by
  induction turns generalizing ip lits out with
  | zero =>
      obtain rfl := Except.ok.inj h
      exact List.prefix_refl _
  | succ turns ih =>
      cases ip with
      | nil =>
          obtain rfl := Except.ok.inj h
          exact List.prefix_refl _
      | cons token ip =>
          rw [NaiveTokens.stripped] at h
          split at h
          · cases h
          · rename_i hturn
            refine List.IsPrefix.trans ?_ (ih h)
            rw [NaiveTokens.strippedTurn] at hturn
            split at hturn
            · cases hturn
            split at hturn
            · cases hturn
            split at hturn
            · cases hturn
            split at hturn
            · obtain ⟨-, hrest⟩ := Prod.mk.inj (Except.ok.inj hturn)
              obtain ⟨-, rfl⟩ := Prod.mk.inj hrest
              exact List.prefix_append _ _
            split at hturn
            · cases hturn
            · rename_i hmatch
              obtain ⟨-, hrest⟩ := Prod.mk.inj (Except.ok.inj hturn)
              obtain ⟨-, rfl⟩ := Prod.mk.inj hrest
              exact (List.prefix_append _ _).trans (NaiveTokens.match_prefix hmatch)

/-- Turns to spare do not matter. -/
theorem NaiveTokens.run_spare (P : NaiveTokens) {ip : Bytes} (out : Bytes) {turns turns' : Nat}
    (h : ip.length ≤ turns) (h' : ip.length ≤ turns') :
    P.run turns ip out = P.run turns' ip out := by
  induction turns generalizing ip out turns' with
  | zero =>
      obtain rfl : ip = [] := List.eq_nil_of_length_eq_zero (by omega)
      cases turns' with
      | zero => rfl
      | succ turns' => rfl
  | succ turns ih =>
      cases ip with
      | nil =>
          cases turns' with
          | zero => rfl
          | succ turns' => rfl
      | cons token ip =>
          rw [List.length_cons] at h h'
          obtain ⟨k, rfl⟩ : ∃ k, turns' = k + 1 := ⟨turns' - 1, by omega⟩
          rw [NaiveTokens.run, NaiveTokens.run]
          cases hturn : P.turn token ip out with
          | error e => rfl
          | ok p =>
              obtain ⟨ip', out'⟩ := p
              have hle := NaiveTokens.turn_length hturn
              exact ih out' (by omega) (by omega)

/-! ## One turn -/

/-- The naive decoder with the same checks. -/
def TokParams.naive (P : TokParams) : NaiveTokens :=
  ⟨P.offBytes, P.maxOffset, P.bounds.hi - P.bounds.lo⟩

/-- The decoder stands where the naive one does. -/
structure TokTracks (P : TokParams) (m0 : Mem UInt8) (s : TokState) (ip out : Bytes) : Prop where
  ip : s.ip = ip
  holds : Holds P.bounds m0 s.m out
  op : s.op = P.bounds.lo + out.length

/-- A step against a step of the naive decoder. -/
def TokFollows (P : TokParams) (m0 : Mem UInt8) (r : Except Stop TokState) :
    Except VvError (Bytes × Bytes) → Prop
  | .error _ => ∃ e, r = .error (.err e)
  | .ok p => ∃ s, r = .ok s ∧ TokTracks P m0 s p.1 p.2

section Turn

variable {P : TokParams} {m0 : Mem UInt8} {s : TokState} {ip out : Bytes}

/-- **THE MATCH** of the general path. -/
theorem TokTracks.match (h : TokTracks P m0 s ip out) (mc : Nat) :
    TokFollows P m0 (P.match mc s) (P.naive.match mc ip out) := by
  have hop := h.op
  have hfits := h.holds.fits
  have hlen : s.op - P.bounds.lo = out.length := by omega
  have hbytes : P.naive.offBytes = P.offBytes := rfl
  have hwindow : P.naive.maxOffset = P.maxOffset := rfl
  have hcap : P.naive.cap = P.bounds.hi - P.bounds.lo := rfl
  rw [TokParams.match, NaiveTokens.match, h.ip, hbytes, hwindow, hcap, hlen]
  by_cases hshort : ip.length < P.offBytes
  · rw [if_pos hshort, if_pos hshort]
    exact ⟨_, rfl⟩
  rw [if_neg hshort, if_neg hshort]
  dsimp only
  cases hread : readLen mc (ip.drop P.offBytes) with
  | none => exact ⟨_, rfl⟩
  | some p =>
      obtain ⟨ml, rest⟩ := p
      dsimp only
      by_cases hbad : offsetGet P.offBytes ip = 0 ∨ P.maxOffset < offsetGet P.offBytes ip ∨
          out.length < offsetGet P.offBytes ip
      · rw [if_pos hbad, if_pos hbad]
        exact ⟨_, rfl⟩
      rw [if_neg hbad, if_neg hbad]
      by_cases hover : P.bounds.hi - P.bounds.lo < out.length + (ml + minMatch)
      · rw [if_pos (by omega), if_pos hover]
        exact ⟨_, rfl⟩
      rw [if_neg (by omega), if_neg hover]
      have hcopy : Gives P.bounds m0 (vvCopyMatch P.bounds s.m P.build.simd s.op
          (offsetGet P.offBytes ip) (ml + minMatch))
          (extend out (offsetGet P.offBytes ip) (ml + minMatch)) :=
        Holds.vvCopyMatch h.holds P.build.simd h.op (by omega) (by omega) (by omega)
      obtain ⟨m, hm, hholds⟩ := hcopy
      rw [hm]
      dsimp only
      refine ⟨_, rfl, rfl, hholds, ?_⟩
      show s.op + (ml + minMatch) = P.bounds.lo + (extend out (offsetGet P.offBytes ip)
        (ml + minMatch)).length
      rw [length_extend (by omega) (by omega)]
      omega

/-- **A TURN** of the general path. -/
theorem TokTracks.turn (h : TokTracks P m0 s ip out) (token : UInt8) :
    TokFollows P m0 (P.turn token s) (P.naive.turn token ip out) := by
  have hop := h.op
  have hfits := h.holds.fits
  have hcap : P.naive.cap = P.bounds.hi - P.bounds.lo := rfl
  rw [TokParams.turn, NaiveTokens.turn, h.ip, hcap]
  cases hread : readLen (token.toNat / 16) ip with
  | none => exact ⟨_, rfl⟩
  | some p =>
      obtain ⟨ll, rest⟩ := p
      dsimp only
      by_cases hshort : rest.length < ll
      · rw [if_pos hshort, if_pos hshort]
        exact ⟨_, rfl⟩
      rw [if_neg hshort, if_neg hshort]
      by_cases hover : P.bounds.hi - P.bounds.lo < out.length + ll
      · rw [if_pos (by omega), if_pos hover]
        exact ⟨_, rfl⟩
      rw [if_neg (by omega), if_neg hover]
      have hlits : (rest.take ll).length = ll := by
        rw [List.length_take]
        omega
      have hcopy : Gives P.bounds m0
          (if 0 < ll then vvCopyFast P.bounds s.m P.build.simd s.op (rest.take ll)
            else some s.m) (out ++ rest.take ll) := by
        by_cases hzero : 0 < ll
        · rw [if_pos hzero]
          exact Holds.vvCopyFast h.holds P.build.simd _ h.op (by rw [hlits]; omega)
        · obtain rfl : ll = 0 := by omega
          rw [if_neg hzero, List.take_zero, List.append_nil]
          exact h.holds.gives
      obtain ⟨m, hm, hholds⟩ := hcopy
      rw [hm]
      dsimp only
      have hnext : TokTracks P m0 ⟨rest.drop ll, s.op + ll, m⟩ (rest.drop ll)
          (out ++ rest.take ll) := by
        refine ⟨rfl, hholds, ?_⟩
        show s.op + ll = P.bounds.lo + (out ++ rest.take ll).length
        rw [List.length_append, hlits]
        omega
      by_cases hend : (rest.drop ll).length = 0
      · rw [if_pos hend, if_pos hend]
        exact ⟨_, rfl, hnext⟩
      · rw [if_neg hend, if_neg hend]
        exact hnext.match _

/-- **THE MATCH** of a fast turn: behind the warm-up the history is longer than
    the window. -/
theorem TokTracks.fastMatch (h : TokTracks P m0 s ip out) {warmup : Bool} {mc : Nat}
    (hmc : mc < 16) (hip : ip.length < 2 ^ 24 - 1)
    (hhot : warmup = false → P.maxOffset < out.length) :
    TokFollows P m0 (P.fastMatch warmup mc s) (P.naive.match mc ip out) := by
  have hop := h.op
  have hfits := h.holds.fits
  have hlen : s.op - P.bounds.lo = out.length := by omega
  have hbytes : P.naive.offBytes = P.offBytes := rfl
  have hwindow : P.naive.maxOffset = P.maxOffset := rfl
  have hcap : P.naive.cap = P.bounds.hi - P.bounds.lo := rfl
  rw [TokParams.fastMatch, NaiveTokens.match, h.ip, hbytes, hwindow, hcap, hlen]
  by_cases hshort : ip.length < P.offBytes
  · rw [if_pos hshort, if_pos hshort]
    exact ⟨_, rfl⟩
  rw [if_neg hshort, if_neg hshort]
  dsimp only
  cases hread : readLen mc (ip.drop P.offBytes) with
  | none => exact ⟨_, rfl⟩
  | some p =>
      obtain ⟨ml, rest⟩ := p
      dsimp only
      have hsmall : ml + minMatch < 2 ^ 32 :=
        readLen_small hread hmc (by rw [List.length_drop]; omega)
      rw [Nat.mod_eq_of_lt hsmall]
      have hsame : (offsetGet P.offBytes ip = 0 ∨ P.maxOffset < offsetGet P.offBytes ip ∨
          (warmup = true ∧ out.length < offsetGet P.offBytes ip)) ↔
          (offsetGet P.offBytes ip = 0 ∨ P.maxOffset < offsetGet P.offBytes ip ∨
            out.length < offsetGet P.offBytes ip) := by
        cases warmup with
        | true => simp
        | false =>
            have := hhot rfl
            simp only [Bool.false_eq_true, false_and, or_false]
            omega
      by_cases hbad : offsetGet P.offBytes ip = 0 ∨ P.maxOffset < offsetGet P.offBytes ip ∨
          out.length < offsetGet P.offBytes ip
      · rw [if_pos (hsame.mpr hbad), if_pos hbad]
        exact ⟨_, rfl⟩
      rw [if_neg (fun hc => hbad (hsame.mp hc)), if_neg hbad]
      by_cases hover : P.bounds.hi - P.bounds.lo < out.length + (ml + minMatch)
      · rw [if_pos (by omega), if_pos hover]
        exact ⟨_, rfl⟩
      rw [if_neg (by omega), if_neg hover]
      have hcopy : Gives P.bounds m0 (tokenMatchCopy P.bounds s.m s.op
          (offsetGet P.offBytes ip) (ml + minMatch))
          (extend out (offsetGet P.offBytes ip) (ml + minMatch)) :=
        Holds.tokenMatchCopy h.holds h.op (by omega) (by omega) (by omega)
      obtain ⟨m, hm, hholds⟩ := hcopy
      rw [hm]
      dsimp only
      refine ⟨_, rfl, rfl, hholds, ?_⟩
      show s.op + (ml + minMatch) = P.bounds.lo + (extend out (offsetGet P.offBytes ip)
        (ml + minMatch)).length
      rw [length_extend (by omega) (by omega)]
      omega

/-- **A FAST TURN** within the margins. -/
theorem TokTracks.fastTurn (h : TokTracks P m0 s ip out) {warmup : Bool} (token : UInt8)
    (hip : 48 ≤ ip.length) (hlt : ip.length < 2 ^ 24 - 1) (hroom : s.op + 72 < P.bounds.hi)
    (hhot : warmup = false → P.maxOffset < out.length) :
    TokFollows P m0 (P.fastTurn warmup token s) (P.naive.turn token ip out) := by
  have hop := h.op
  have hfits := h.holds.fits
  have htoken : token.toNat < 256 := token.toNat_lt
  have hcap : P.naive.cap = P.bounds.hi - P.bounds.lo := rfl
  rw [TokParams.fastTurn, NaiveTokens.turn, h.ip, hcap]
  cases hread : readLen (token.toNat / 16) ip with
  | none => exact ⟨_, rfl⟩
  | some p =>
      obtain ⟨ll, rest⟩ := p
      dsimp only
      obtain ⟨hrest, -, hplain⟩ := readLen_bounds hread
      have hsmall := readLen_small hread (by omega) hlt
      rw [Nat.mod_eq_of_lt (by omega : ll < 2 ^ 32)]
      by_cases hshort : rest.length < ll
      · rw [if_pos (Or.inl hshort), if_pos hshort]
        exact ⟨_, rfl⟩
      by_cases hover : P.bounds.hi - P.bounds.lo < out.length + ll
      · rw [if_pos (Or.inr (by omega)), if_neg hshort, if_pos hover]
        exact ⟨_, rfl⟩
      rw [if_neg (by omega), if_neg hshort, if_neg hover]
      have hlits : (rest.take ll).length = ll := by
        rw [List.length_take]
        omega
      have hcopy : Gives P.bounds m0 (P.fastLits ll { s with ip := rest })
          (out ++ rest.take ll) := by
        rw [TokParams.fastLits]
        by_cases hfew : ll ≤ 14
        · have hsame : rest = ip := hplain (by omega)
          rw [if_pos hfew]
          dsimp only
          rw [if_pos (by rw [hsame]; omega)]
          have hwide : (rest.take 16).length = 16 := by
            rw [List.length_take, hsame]
            omega
          have hstore := h.holds.store h.op (rest.take 16) (n := ll) (by omega) (by omega)
          rw [List.take_take, Nat.min_eq_left (by omega)] at hstore
          exact hstore
        · rw [if_neg hfew]
          exact h.holds.store_all h.op _ (by rw [hlits]; omega)
      obtain ⟨m, hm, hholds⟩ := hcopy
      rw [hm]
      dsimp only
      have hnext : TokTracks P m0 ⟨rest.drop ll, s.op + ll, m⟩ (rest.drop ll)
          (out ++ rest.take ll) := by
        refine ⟨rfl, hholds, ?_⟩
        show s.op + ll = P.bounds.lo + (out ++ rest.take ll).length
        rw [List.length_append, hlits]
        omega
      by_cases hend : (rest.drop ll).length = 0
      · rw [if_pos hend, if_pos hend]
        exact ⟨_, rfl, hnext⟩
      · rw [if_neg hend, if_neg hend]
        refine hnext.fastMatch (by omega) (by rw [List.length_drop]; omega) ?_
        intro hwarm
        have := hhot hwarm
        rw [List.length_append]
        omega

end Turn

/-! ## The loops -/

/-- How a run over tokens compares with the naive frame. -/
def TokOutcome (b : Bounds) (dst : Nat) (m0 : Mem UInt8) (r : Except Stop (Mem UInt8 × Nat)) :
    Except VvError Bytes → Prop
  | .error _ => ∃ e, r = .error (.err e)
  | .ok out => ∃ m, r = .ok (m, b.lo + out.length - dst) ∧ Holds b m0 m out

/-- A loop against the naive loop. -/
def TokEnds (P : TokParams) (m0 : Mem UInt8) (r : Except Stop TokState) :
    Except VvError Bytes → Prop
  | .error _ => ∃ e, r = .error (.err e)
  | .ok out => ∃ s, r = .ok s ∧ s.op = P.bounds.lo + out.length ∧ Holds P.bounds m0 s.m out

/-- **THE GENERAL PATH** ends as the naive loop. -/
theorem TokTracks.general {P : TokParams} {m0 : Mem UInt8} {s : TokState} {ip out : Bytes}
    (h : TokTracks P m0 s ip out) {turns : Nat} (hturns : ip.length ≤ turns) :
    TokEnds P m0 (P.general turns s) (P.naive.run ip.length ip out) := by
  induction turns generalizing s ip out with
  | zero =>
      obtain rfl : ip = [] := List.eq_nil_of_length_eq_zero (by omega)
      exact ⟨s, rfl, h.op, h.holds⟩
  | succ turns ih =>
      rw [TokParams.general, h.ip]
      cases ip with
      | nil => exact ⟨s, rfl, h.op, h.holds⟩
      | cons token ip =>
          rw [List.length_cons] at hturns
          rw [List.length_cons, NaiveTokens.run]
          dsimp only
          have hstart : TokTracks P m0 { s with ip := ip } ip out := ⟨rfl, h.holds, h.op⟩
          have hturn := hstart.turn token
          cases hnaive : P.naive.turn token ip out with
          | error e =>
              rw [hnaive] at hturn
              obtain ⟨e', he⟩ := hturn
              rw [he]
              exact ⟨e', rfl⟩
          | ok p =>
              obtain ⟨ip', out'⟩ := p
              rw [hnaive] at hturn
              obtain ⟨s', hs', htracks⟩ := hturn
              have hle := NaiveTokens.turn_length hnaive
              rw [hs']
              dsimp only
              rw [P.naive.run_spare out' hle (Nat.le_refl _)]
              exact ih htracks (by omega)

/-- Where a fast loop stands when it ends, against the naive loop from `ip` and
    `out`. -/
def FastEnds (P : TokParams) (m0 : Mem UInt8) (warmup : Bool) (ip out : Bytes)
    (r : Except Stop TokState) : Prop :=
  (∃ e e', r = .error (.err e) ∧ P.naive.run ip.length ip out = .error e') ∨
    ∃ s ip' out', r = .ok s ∧ TokTracks P m0 s ip' out' ∧ ¬ P.fastAt warmup s ∧
      ip'.length ≤ ip.length ∧ out.length ≤ out'.length ∧
      P.naive.run ip.length ip out = P.naive.run ip'.length ip' out'

/-- **A FAST LOOP** goes as far as its margins allow. -/
theorem TokTracks.fast {P : TokParams} {m0 : Mem UInt8} {warmup : Bool} {s : TokState}
    {ip out : Bytes} (h : TokTracks P m0 s ip out) {turns : Nat} (hturns : ip.length ≤ turns)
    (hlt : ip.length < 2 ^ 24)
    (hhot : warmup = false → P.fastAt false s → P.maxOffset < out.length) :
    FastEnds P m0 warmup ip out (P.fast warmup turns s) := by
  induction turns generalizing s ip out with
  | zero =>
      refine Or.inr ⟨s, ip, out, rfl, h, ?_, Nat.le_refl _, Nat.le_refl _, rfl⟩
      rintro ⟨hmargin, -⟩
      rw [h.ip] at hmargin
      omega
  | succ turns ih =>
      rw [TokParams.fast]
      by_cases hat : P.fastAt warmup s
      · rw [if_pos hat, h.ip]
        obtain ⟨hmargin, hroom, -⟩ := id hat
        rw [h.ip] at hmargin
        cases ip with
        | nil => exact absurd hmargin (by rw [List.length_nil]; omega)
        | cons token ip =>
            rw [List.length_cons] at hturns hlt hmargin
            have hpast : warmup = false → P.maxOffset < out.length := by
              intro hwarm
              subst hwarm
              exact hhot rfl hat
            have hstart : TokTracks P m0 { s with ip := ip } ip out := ⟨rfl, h.holds, h.op⟩
            have hturn := hstart.fastTurn token (by omega) (by omega) hroom hpast
            dsimp only
            rw [FastEnds, List.length_cons, NaiveTokens.run]
            cases hnaive : P.naive.turn token ip out with
            | error e =>
                rw [hnaive] at hturn
                obtain ⟨e', he⟩ := hturn
                rw [he]
                exact Or.inl ⟨e', e, rfl, rfl⟩
            | ok p =>
                obtain ⟨ip', out'⟩ := p
                rw [hnaive] at hturn
                obtain ⟨s', hs', htracks⟩ := hturn
                have hle := NaiveTokens.turn_length hnaive
                have hgrow := (NaiveTokens.turn_prefix hnaive).length_le
                rw [hs']
                dsimp only
                rw [P.naive.run_spare out' hle (Nat.le_refl _)]
                have hmore : FastEnds P m0 warmup ip' out' (P.fast warmup turns s') := by
                  refine ih htracks (by omega) (by omega) ?_
                  intro hwarm _
                  have := hpast hwarm
                  omega
                rcases hmore with hfail | ⟨s2, ip2, out2, hs2, htracks2, hnot, hle2, hgrow2, hsame⟩
                · exact Or.inl hfail
                · exact Or.inr ⟨s2, ip2, out2, hs2, htracks2, hnot, by omega, by omega, hsame⟩
      · rw [if_neg hat]
        exact Or.inr ⟨s, ip, out, rfl, h, hat, Nat.le_refl _, Nat.le_refl _, rfl⟩

/-- **ALL THREE LOOPS** one after another. -/
theorem TokTracks.run {P : TokParams} {m0 : Mem UInt8} {s : TokState} {ip out : Bytes}
    (h : TokTracks P m0 s ip out) (hlt : ip.length < 2 ^ 24) :
    TokEnds P m0 (P.run s) (P.naive.run ip.length ip out) := by
  have hgeneral : ∀ {s : TokState} {ip out : Bytes}, TokTracks P m0 s ip out →
      TokEnds P m0 (P.general s.ip.length s) (P.naive.run ip.length ip out) := by
    intro s ip out h
    exact h.general (by rw [h.ip])
  rw [TokParams.run]
  by_cases havx : P.build.inlineAvx2 = true
  · rw [if_pos havx]
    have hwarm : FastEnds P m0 true ip out (P.fast true s.ip.length s) := by
      refine h.fast (by rw [h.ip]) hlt ?_
      intro hc
      cases hc
    rcases hwarm with ⟨e, e', hr, hnaive⟩ | ⟨s1, ip1, out1, hr, h1, hcold, hle1, -, hsame1⟩
    · rw [hr, hnaive]
      exact ⟨e, rfl⟩
    rw [hr, hsame1]
    dsimp only
    have hhot : P.fastAt false s1 → P.maxOffset < out1.length := by
      intro hat
      have hop := h1.op
      by_contra hle
      refine hcold ⟨hat.1, hat.2.1, fun _ => ?_⟩
      omega
    have hsteady : FastEnds P m0 false ip1 out1 (P.fast false s1.ip.length s1) :=
      h1.fast (by rw [h1.ip]) (by omega) fun _ hat => hhot hat
    rcases hsteady with ⟨e, e', hr, hnaive⟩ | ⟨s2, ip2, out2, hr, h2, -, -, -, hsame2⟩
    · rw [hr, hnaive]
      exact ⟨e, rfl⟩
    rw [hr, hsame2]
    exact hgeneral h2
  · rw [if_neg havx]
    exact hgeneral h

/-! ## Stripped tokens -/

/-- A turn over a literal buffer against the naive one. -/
def StrippedFollows (P : TokParams) (m0 : Mem UInt8) (r : Except Stop (Bytes × TokState)) :
    Except VvError (Bytes × Bytes × Bytes) → Prop
  | .error _ => ∃ e, r = .error (.err e)
  | .ok p => ∃ s, r = .ok (p.2.1, s) ∧ TokTracks P m0 s p.1 p.2.2

/-- **A TURN OVER A LITERAL BUFFER**. -/
theorem TokTracks.strippedTurn {P : TokParams} {m0 : Mem UInt8} {s : TokState} {ip out : Bytes}
    (h : TokTracks P m0 s ip out) (token : UInt8) (lits : Bytes) :
    StrippedFollows P m0 (P.strippedTurn token lits s)
      (P.naive.strippedTurn token ip lits out) := by
  have hop := h.op
  have hfits := h.holds.fits
  have hcap : P.naive.cap = P.bounds.hi - P.bounds.lo := rfl
  rw [TokParams.strippedTurn, NaiveTokens.strippedTurn, h.ip, hcap]
  cases hread : readLen (token.toNat / 16) ip with
  | none => exact ⟨_, rfl⟩
  | some p =>
      obtain ⟨ll, rest⟩ := p
      dsimp only
      by_cases hshort : lits.length < ll
      · rw [if_pos hshort, if_pos hshort]
        exact ⟨_, rfl⟩
      rw [if_neg hshort, if_neg hshort]
      by_cases hover : P.bounds.hi - P.bounds.lo < out.length + ll
      · rw [if_pos (by omega), if_pos hover]
        exact ⟨_, rfl⟩
      rw [if_neg (by omega), if_neg hover]
      have hlits : (lits.take ll).length = ll := by
        rw [List.length_take]
        omega
      have hcopy : Gives P.bounds m0
          (if 0 < ll then store P.bounds s.m s.op (lits.take ll) else some s.m)
          (out ++ lits.take ll) := by
        by_cases hzero : 0 < ll
        · rw [if_pos hzero]
          exact h.holds.store_all h.op _ (by rw [hlits]; omega)
        · obtain rfl : ll = 0 := by omega
          rw [if_neg hzero, List.take_zero, List.append_nil]
          exact h.holds.gives
      obtain ⟨m, hm, hholds⟩ := hcopy
      rw [hm]
      dsimp only
      have hnext : TokTracks P m0 ⟨rest, s.op + ll, m⟩ rest (out ++ lits.take ll) := by
        refine ⟨rfl, hholds, ?_⟩
        show s.op + ll = P.bounds.lo + (out ++ lits.take ll).length
        rw [List.length_append, hlits]
        omega
      by_cases hend : rest.length = 0
      · rw [if_pos hend, if_pos hend]
        exact ⟨_, rfl, hnext⟩
      · rw [if_neg hend, if_neg hend]
        have hmatch := hnext.match (token.toNat % 16)
        cases hnaive : P.naive.match (token.toNat % 16) rest (out ++ lits.take ll) with
        | error e =>
            rw [hnaive] at hmatch
            obtain ⟨e', he⟩ := hmatch
            rw [he]
            exact ⟨e', rfl⟩
        | ok p =>
            rw [hnaive] at hmatch
            obtain ⟨s', hs', htracks⟩ := hmatch
            rw [hs']
            exact ⟨s', rfl, htracks⟩

/-- **THE LOOP OVER A LITERAL BUFFER** ends as the naive one. -/
theorem TokTracks.stripped {P : TokParams} {m0 : Mem UInt8} {s : TokState} {ip out : Bytes}
    (h : TokTracks P m0 s ip out) (turns : Nat) (lits : Bytes) :
    TokEnds P m0 (P.stripped turns lits s) (P.naive.stripped turns ip lits out) := by
  induction turns generalizing s ip lits out with
  | zero => exact ⟨s, rfl, h.op, h.holds⟩
  | succ turns ih =>
      rw [TokParams.stripped, h.ip]
      cases ip with
      | nil => exact ⟨s, rfl, h.op, h.holds⟩
      | cons token ip =>
          rw [NaiveTokens.stripped]
          dsimp only
          have hstart : TokTracks P m0 { s with ip := ip } ip out := ⟨rfl, h.holds, h.op⟩
          have hturn := hstart.strippedTurn token lits
          cases hnaive : P.naive.strippedTurn token ip lits out with
          | error e =>
              rw [hnaive] at hturn
              obtain ⟨e', he⟩ := hturn
              rw [he]
              exact ⟨e', rfl⟩
          | ok p =>
              obtain ⟨ip', lits', out'⟩ := p
              rw [hnaive] at hturn
              obtain ⟨s', hs', htracks⟩ := hturn
              rw [hs']
              exact ih htracks lits'

/-! ## The decoders -/

section Decoders

variable {m0 m : Mem UInt8} {b : Bounds} {out : Bytes} {dst : Nat}

/-- A loop with its result in the shape of the decoders. -/
def tokResult (dst : Nat) : Except Stop TokState → Except Stop (Mem UInt8 × Nat)
  | .error e => .error e
  | .ok s => .ok (s.m, s.op - dst)

theorem TokEnds.outcome {P : TokParams} {r : Except Stop TokState} {naive : Except VvError Bytes}
    (h : TokEnds P m0 r naive) (dst : Nat) : TokOutcome P.bounds dst m0 (tokResult dst r) naive := by
  cases naive with
  | error e =>
      obtain ⟨e', rfl⟩ := h
      exact ⟨e', rfl⟩
  | ok out =>
      obtain ⟨s, rfl, hop, hholds⟩ := h
      refine ⟨s.m, ?_, hholds⟩
      rw [tokResult, hop]

/-- **THE TOKEN DECODER** with its fast loops and wide copies accepts what the
    naive one accepts, with the same bytes, behind what the frame produced. -/
theorem decodeBlockTokens_eq_naive (build : Build) {payload : Bytes} (offBytes maxOffset : Nat)
    (h : Holds b m0 m out) (hdst : dst = b.lo + out.length) (hlt : payload.length < 2 ^ 24) :
    TokOutcome b dst m0 (decodeBlockTokens build payload b dst m offBytes maxOffset)
      (NaiveTokens.run ⟨offBytes, maxOffset, b.hi - b.lo⟩ payload.length payload out) := by
  have htracks : TokTracks ⟨build, b, offBytes, maxOffset⟩ m0 ⟨payload, dst, m⟩ payload out :=
    ⟨rfl, h, hdst⟩
  have hends := (htracks.run hlt).outcome dst
  rw [decodeBlockTokens]
  cases hrun : TokParams.run ⟨build, b, offBytes, maxOffset⟩ ⟨payload, dst, m⟩ with
  | error e =>
      rw [hrun] at hends
      exact hends
  | ok s =>
      rw [hrun] at hends
      exact hends

/-- **THE DECODER OF STRIPPED TOKENS** likewise. -/
theorem decodeStrippedTokens_eq_naive (build : Build) (tokens lits : Bytes)
    (offBytes maxOffset : Nat) (h : Holds b m0 m out) (hdst : dst = b.lo + out.length) :
    TokOutcome b dst m0 (decodeStrippedTokens build tokens lits b dst m offBytes maxOffset)
      (NaiveTokens.stripped ⟨offBytes, maxOffset, b.hi - b.lo⟩ tokens.length tokens lits out) := by
  have htracks : TokTracks ⟨build, b, offBytes, maxOffset⟩ m0 ⟨tokens, dst, m⟩ tokens out :=
    ⟨rfl, h, hdst⟩
  have hends := (htracks.stripped tokens.length lits).outcome dst
  rw [decodeStrippedTokens]
  cases hrun : TokParams.stripped ⟨build, b, offBytes, maxOffset⟩ tokens.length lits
      ⟨tokens, dst, m⟩ with
  | error e =>
      rw [hrun] at hends
      exact hends
  | ok s =>
      rw [hrun] at hends
      exact hends

/-- **THE FAST PATHS ARE EXACT**: for every build, history, capacity, window and
    width of offsets, and for every payload that the 24-bit size field in front of
    one can announce, the two wide loops and the general one behind them end as
    the loop over single bytes does.  They accept the same payloads, with the same
    frame; no access leaves the payload or the frame, and what lies around the
    frame stays as it was. -/
theorem decodeBlockTokens_eq_bytewise (build : Build) (payload : Bytes)
    (hlt : payload.length < 2 ^ 24) (m : Mem UInt8)
    (dst_base history dst_cap offBytes maxOffset : Nat) :
    TokOutcome ⟨dst_base, dst_base + history + dst_cap⟩ (dst_base + history) m
      (decodeBlockTokens build payload ⟨dst_base, dst_base + history + dst_cap⟩
        (dst_base + history) m offBytes maxOffset)
      (NaiveTokens.run ⟨offBytes, maxOffset, history + dst_cap⟩ payload.length payload
        (read m dst_base history)) := by
  have hframe : Holds ⟨dst_base, dst_base + history + dst_cap⟩ m m (read m dst_base history) := by
    refine ⟨?_, ?_, fun _ _ => rfl⟩
    · rw [read_length]
      show dst_base + history ≤ dst_base + history + dst_cap
      omega
    · rw [read_length]
  have hdst : dst_base + history = dst_base + (read m dst_base history).length := by
    rw [read_length]
  have hcap : dst_base + history + dst_cap - dst_base = history + dst_cap := by omega
  have hexact := decodeBlockTokens_eq_naive build offBytes maxOffset hframe hdst hlt
  dsimp only at hexact
  rw [hcap] at hexact
  exact hexact

/-- A run of 100 literals, of which the first loop takes all at once. -/
theorem decodeBlockTokens_eq_bytewise_run :
    TokOutcome ⟨4, 108⟩ 8 (fun _ => 0)
      (decodeBlockTokens ⟨true, .avx2⟩ (0xF0 :: 85 :: List.replicate 100 7) ⟨4, 108⟩ 8
        (fun _ => 0) 2 16)
      (.ok (List.replicate 4 0 ++ List.replicate 100 7)) := by
  have hrun := decodeBlockTokens_eq_bytewise ⟨true, .avx2⟩ (0xF0 :: 85 :: List.replicate 100 7)
    (by decide) (fun _ => 0) 4 4 100 2 16
  have hnaive : NaiveTokens.run ⟨2, 16, 4 + 100⟩
      ((0xF0 : UInt8) :: 85 :: List.replicate 100 7).length (0xF0 :: 85 :: List.replicate 100 7)
      (read (fun _ => 0) 4 4) = .ok (List.replicate 4 0 ++ List.replicate 100 7) := by
    decide
  rw [hnaive] at hrun
  exact hrun

end Decoders

end Zupt.VaptVupt
