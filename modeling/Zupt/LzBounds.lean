import Zupt.Bounded
import Zupt.Lz

/-! # Zupt-LZ within bounds

    `zupt_lz_decompress` on indices, where every access is checked.  It follows the
    decompressor on what is left of the input and what has been put out, and so never
    leaves the source or the output. -/

namespace Zupt.Lz

open Zupt.LittleEndian Zupt.Memory Zupt.Window

/-! ## The code -/

/-- The loop of `lz_read_extra`: `*pos` and `t`; `none` is `(size_t)-1`. -/
def extraTurn (src : Bytes) (s : Nat × Nat) : Checked (Turn (Nat × Nat) (Option (Nat × Nat))) := do
  let (pos, t) := s
  if pos < src.length then
    let b ← cellAt src pos
    if 0xFFFFFFFF - 255 < t then return .done none
    else if b < 255 then return .done (some (pos + 1, t + b.toNat))
    else return .next (pos + 1, t + b.toNat)
  else return .done (some (pos, t))

/-- `lz_read_extra`. -/
def lzReadExtraAt (src : Bytes) (pos init : Nat) : Checked (Option (Nat × Nat)) :=
  loop (extraTurn src) (src.length - pos + 1) (pos, init)

/-- A length nibble with its extension. -/
def lzReadLenAt (src : Bytes) (pos nibble init : Nat) : Checked (Option (Nat × Nat)) :=
  if nibble = 15 then lzReadExtraAt src pos (15 + init) else .ok (some (pos, nibble + init))

/-- What the loop of `zupt_lz_decompress` changes. -/
structure Cursor where
  ip : Nat
  op : Nat
  dst : Mem UInt8

/-- The literals of a token; `none` is `return 0`. -/
def takeLitsAt (src : Bytes) (dst_len lit_len : Nat) (s : Cursor) : Checked (Option Cursor) := do
  if 0 < lit_len then
    if src.length < s.ip + lit_len ∨ dst_len < s.op + lit_len then return none
    else
      let lits ← cellsAt src s.ip lit_len
      let dst ← inside (store ⟨0, dst_len⟩ s.dst s.op lits)
      return some ⟨s.ip + lit_len, s.op + lit_len, dst⟩
  else return some s

/-- The match of a token; `none` is `return 0`. -/
def takeMatchAt (src : Bytes) (dst_len match_code : Nat) (s : Cursor) : Checked (Option Cursor) := do
  if src.length < s.ip + 2 then return none
  else
    let offset ← wordAt src s.ip
    if offset = 0 ∨ s.op < offset then return none
    else
      match ← lzReadLenAt src (s.ip + 2) match_code minMatch with
      | none => return none
      | some (ip, match_len) =>
          if dst_len < s.op + match_len then return none
          else
            let dst ← inside (copyCells ⟨0, dst_len⟩ s.dst s.op offset match_len)
            return some ⟨ip, s.op + match_len, dst⟩

/-- A turn of the loop of `zupt_lz_decompress`; it is left with the number it returns. -/
def lzTurnAt (src : Bytes) (dst_len : Nat) (s : Cursor) : Checked (Turn Cursor (Nat × Mem UInt8)) := do
  if s.ip < src.length then
    let token ← cellAt src s.ip
    match ← lzReadLenAt src (s.ip + 1) (token.toNat / 16) 0 with
    | none => return .done (0, s.dst)
    | some (ip, lit_len) =>
        match ← takeLitsAt src dst_len lit_len { s with ip := ip } with
        | none => return .done (0, s.dst)
        | some s =>
            if src.length ≤ s.ip then return .done (s.op, s.dst)
            else return Turn.orElse (0, s.dst) (← takeMatchAt src dst_len (token.toNat % 16) s)
  else return .done (s.op, s.dst)

/-- `zupt_lz_decompress` into `dst`: the number it returns, and what it leaves. -/
def zuptLzDecompressAt (src : Bytes) (dst : Mem UInt8) (dst_len : Nat) : Checked (Nat × Mem UInt8) :=
  loop (lzTurnAt src dst_len) (src.length + 1) ⟨0, 0, dst⟩

/-! ## It follows the decompressor -/

/-- The cursor stands where `s` is left of the input and `out` has been put out. -/
structure Follows (src : Bytes) (dst_len : Nat) (m0 : Mem UInt8) (c : Cursor) (s out : Bytes) : Prop where
  unread : src.drop c.ip = s
  ip_le : c.ip ≤ src.length
  op_eq : c.op = out.length
  holds : Holds ⟨0, dst_len⟩ m0 c.dst out

section Follows

variable {src s out : Bytes} {dst_len : Nat} {m0 : Mem UInt8} {c : Cursor}

theorem Follows.length (h : Follows src dst_len m0 c s out) : c.ip + s.length = src.length := by
  rw [← h.unread, List.length_drop]
  have hle := h.ip_le
  omega

/-- A position, not in front of `start`, and a length against what is left and the
    length. -/
def SameLen (src : Bytes) (start : Nat) (p : Nat × Nat) (q : Nat × Bytes) : Prop :=
  p.2 = q.1 ∧ src.drop p.1 = q.2 ∧ start ≤ p.1 ∧ p.1 ≤ src.length

/-- **AN EXTENDED LENGTH** ends within the source. -/
theorem extraLoop_rel {start pos t n : Nat} (hstart : start ≤ pos) (hle : pos ≤ src.length)
    (hn : src.length - pos < n) (hs : src.drop pos = s) :
    ∃ x, loop (extraTurn src) n (pos, t) = .ok x ∧ Option.Rel (SameLen src start) x (lzReadExtra t s) := by
  -- by what is left of the input; a turn takes a byte of it
  induction n generalizing pos t s with
  | zero => omega
  | succ n ih =>
      cases s with
      | nil =>
          have hend : src.length ≤ pos := List.drop_eq_nil_iff.mp hs
          have hturn : extraTurn src (pos, t) = .ok (.done (some (pos, t))) := if_neg (by omega)
          exact ⟨_, loop_done hturn, .some ⟨rfl, hs, hstart, hle⟩⟩
      | cons b s =>
          obtain ⟨hcell, hlt, hrest⟩ := cellAt_drop hs
          rw [lzReadExtra]
          by_cases hlarge : 0xFFFFFFFF - 255 < t
          · have hturn : extraTurn src (pos, t) = .ok (.done none) := by
              rw [extraTurn, if_pos hlt, hcell, ok_bind, if_pos hlarge]
              rfl
            rw [if_pos hlarge]
            exact ⟨_, loop_done hturn, .none⟩
          rw [if_neg hlarge]
          by_cases hlast : b < 255
          · have hturn : extraTurn src (pos, t) = .ok (.done (some (pos + 1, t + b.toNat))) := by
              rw [extraTurn, if_pos hlt, hcell, ok_bind, if_neg hlarge, if_pos hlast]
              rfl
            rw [if_pos hlast]
            exact ⟨_, loop_done hturn, .some ⟨rfl, hrest, by omega, hlt⟩⟩
          · have hturn : extraTurn src (pos, t) = .ok (.next (pos + 1, t + b.toNat)) := by
              rw [extraTurn, if_pos hlt, hcell, ok_bind, if_neg hlarge, if_neg hlast]
              rfl
            rw [if_neg hlast, loop_next hturn]
            exact ih (by omega) hlt (by omega) hrest

theorem lzReadLenAt_rel (nibble init : Nat) {pos : Nat} (hle : pos ≤ src.length) (hs : src.drop pos = s) :
    ∃ x, lzReadLenAt src pos nibble init = .ok x ∧
      Option.Rel (SameLen src pos) x (lzReadLen nibble init s) := by
  rw [lzReadLenAt, lzReadLen]
  by_cases hlong : nibble = 15
  · rw [if_pos hlong, if_pos hlong]
    exact extraLoop_rel (Nat.le_refl pos) hle (Nat.lt_succ_self _) hs
  · rw [if_neg hlong, if_neg hlong]
    exact ⟨_, rfl, .some ⟨rfl, hs, Nat.le_refl pos, hle⟩⟩

/-- The literals stay within both buffers. -/
theorem takeLitsAt_rel (h : Follows src dst_len m0 c s out) (lit_len : Nat) :
    ∃ x, takeLitsAt src dst_len lit_len c = .ok x ∧
      Option.Rel (fun c' (p : Bytes × Bytes) => Follows src dst_len m0 c' p.1 p.2 ∧ c.ip ≤ c'.ip) x
        (takeLits dst_len lit_len s out) := by
  have hlen := h.length
  rw [takeLitsAt, takeLits]
  by_cases hpos : 0 < lit_len
  · rw [if_pos hpos, if_pos hpos]
    by_cases hover : s.length < lit_len ∨ dst_len < out.length + lit_len
    · rw [if_pos (by rw [h.op_eq]; omega), if_pos hover]
      exact ⟨_, rfl, .none⟩
    · have hroom : c.op + lit_len ≤ dst_len := by
        rw [h.op_eq]
        omega
      rw [if_neg (by omega), if_neg hover, cellsAt_ok (by omega), ok_bind, h.unread]
      have htake : (s.take lit_len).length = lit_len := by
        rw [List.length_take]
        omega
      obtain ⟨m, hm, hholds⟩ := (h.holds.store_all (show c.op = 0 + out.length by rw [h.op_eq, Nat.zero_add])
        (s.take lit_len) (by rw [htake]; exact hroom)).inside
      rw [hm, ok_bind]
      refine ⟨_, rfl, .some ⟨⟨?_, ?_, ?_, hholds⟩, Nat.le_add_right _ _⟩⟩
      · rw [← h.unread, List.drop_drop]
      · show c.ip + lit_len ≤ src.length
        omega
      · show c.op + lit_len = _
        rw [List.length_append, htake, h.op_eq]
  · rw [if_neg hpos, if_neg hpos]
    exact ⟨_, rfl, .some ⟨h, Nat.le_refl _⟩⟩

/-- The match stays within the output. -/
theorem takeMatchAt_rel (h : Follows src dst_len m0 c s out) (match_code : Nat) :
    ∃ x, takeMatchAt src dst_len match_code c = .ok x ∧
      Option.Rel (fun c' (p : Bytes × Bytes) => Follows src dst_len m0 c' p.1 p.2 ∧ c.ip < c'.ip) x
        (takeMatch dst_len match_code s out) := by
  have hlen := h.length
  rw [takeMatchAt, takeMatch]
  by_cases hshort : s.length < 2
  · rw [if_pos (by omega), if_pos hshort]
    exact ⟨_, rfl, .none⟩
  rw [if_neg (by omega), if_neg hshort]
  have hbehind : src.drop (c.ip + 2) = s.drop 2 := by rw [← h.unread, List.drop_drop]
  rw [wordAt_eq h.unread (by omega), ok_bind, h.op_eq]
  generalize leGet (s.take 2) = offset
  by_cases hbad : offset = 0 ∨ out.length < offset
  · rw [if_pos hbad, if_pos hbad]
    exact ⟨_, rfl, .none⟩
  rw [if_neg hbad, if_neg hbad]
  obtain ⟨x, hx, hrel⟩ := lzReadLenAt_rel match_code minMatch
    (show c.ip + 2 ≤ src.length by omega) hbehind
  rw [hx, ok_bind]
  generalize lzReadLen match_code minMatch (s.drop 2) = r at hrel ⊢
  cases hrel with
  | none => exact ⟨_, rfl, .none⟩
  | @some p q hsame =>
      obtain ⟨hmatch, hunread, hstart, hle⟩ := hsame
      dsimp only
      rw [hmatch]
      by_cases hover : dst_len < out.length + q.1
      · rw [if_pos hover, if_pos hover]
        exact ⟨_, rfl, .none⟩
      · rw [if_neg hover, if_neg hover]
        obtain ⟨m, hm, hholds⟩ := (h.holds.copyCells (show out.length = 0 + out.length from (Nat.zero_add _).symm)
          (Nat.pos_of_ne_zero fun hzero => hbad (Or.inl hzero)) (by omega)
          (show out.length + q.1 ≤ dst_len by omega)).inside
        rw [hm, ok_bind]
        refine ⟨_, rfl, .some ⟨⟨hunread, hle, ?_, hholds⟩, ?_⟩⟩
        · exact (length_extend (by omega) (by omega) _).symm
        · show c.ip < p.1
          omega

/-- **A TURN** follows the turn of the decompressor, and moves on. -/
theorem lzLoopAt_rel {n m : Nat} (h : Follows src dst_len m0 c s out) (hn : s.length < n)
    (hm : s.length ≤ m) :
    ∃ r, loop (lzTurnAt src dst_len) n c = .ok r ∧
      r.1 = ((lzUnpack dst_len m s out).getD []).length ∧
        Holds ⟨0, dst_len⟩ m0 r.2 ((lzUnpack dst_len m s out).getD []) := by
  -- by what is left of the input
  induction n generalizing m c s out with
  | zero => omega
  | succ n ih =>
      have hlen := h.length
      cases s with
      | nil =>
          have hturn : lzTurnAt src dst_len c = .ok (.done (c.op, c.dst)) :=
            if_neg (by rw [List.length_nil] at hlen; omega)
          have hdone : lzUnpack dst_len m [] out = some out := by
            cases m with
            | zero => rfl
            | succ m => rfl
          rw [hdone]
          exact ⟨_, loop_done hturn, h.op_eq, h.holds⟩
      | cons token s =>
          rw [List.length_cons] at hn hm hlen
          obtain ⟨m, rfl⟩ : ∃ k, m = k + 1 := ⟨m - 1, by omega⟩
          obtain ⟨hcell, hlt, hrest⟩ := cellAt_drop h.unread
          obtain ⟨x, hx, hlits⟩ := lzReadLenAt_rel (token.toNat / 16) 0 hlt hrest
          rw [lzUnpack]
          generalize lzReadLen (token.toNat / 16) 0 s = len at hlits ⊢
          cases hlits with
          | none =>
              have hturn : lzTurnAt src dst_len c = .ok (.done (0, c.dst)) := by
                rw [lzTurnAt, if_pos hlt, hcell, ok_bind, hx]
                rfl
              exact ⟨_, loop_done hturn, rfl, h.holds.nil⟩
          | @some p q hsame =>
              obtain ⟨hlit, hunread, hstart, hle⟩ := hsame
              have hafter : Follows src dst_len m0 { c with ip := p.1 } q.2 out :=
                ⟨hunread, hle, h.op_eq, h.holds⟩
              obtain ⟨y, hy, hmatch⟩ := takeLitsAt_rel hafter q.1
              dsimp only
              generalize takeLits dst_len q.1 q.2 out = lits at hmatch ⊢
              cases hmatch with
              | none =>
                  have hturn : lzTurnAt src dst_len c = .ok (.done (0, c.dst)) := by
                    rw [lzTurnAt, if_pos hlt, hcell, ok_bind, hx, ok_bind]
                    dsimp only
                    rw [hlit, hy]
                    rfl
                  exact ⟨_, loop_done hturn, rfl, h.holds.nil⟩
              | @some c₁ st hafter₁ =>
                  obtain ⟨hfollows, hmoved⟩ := hafter₁
                  have hlen₁ := hfollows.length
                  dsimp only at hmoved ⊢
                  by_cases hend : st.1.length = 0
                  · have hturn : lzTurnAt src dst_len c = .ok (.done (c₁.op, c₁.dst)) := by
                      rw [lzTurnAt, if_pos hlt, hcell, ok_bind, hx, ok_bind]
                      dsimp only
                      rw [hlit, hy, ok_bind]
                      dsimp only
                      rw [if_pos (by omega)]
                      rfl
                    rw [if_pos hend]
                    exact ⟨_, loop_done hturn, hfollows.op_eq, hfollows.holds⟩
                  rw [if_neg hend]
                  obtain ⟨z, hz, hstep⟩ := takeMatchAt_rel hfollows (token.toNat % 16)
                  have hturn : lzTurnAt src dst_len c = .ok (Turn.orElse (0, c₁.dst) z) := by
                    rw [lzTurnAt, if_pos hlt, hcell, ok_bind, hx, ok_bind]
                    dsimp only
                    rw [hlit, hy, ok_bind]
                    dsimp only
                    rw [if_neg (by omega), hz]
                    rfl
                  generalize takeMatch dst_len (token.toNat % 16) st.1 st.2 = step at hstep ⊢
                  cases hstep with
                  | none => exact ⟨_, loop_done hturn, rfl, hfollows.holds.nil⟩
                  | @some c₂ st₂ hfollows₂ =>
                      have hlen₂ := hfollows₂.1.length
                      rw [loop_next hturn]
                      exact ih hfollows₂.1 (by omega) (by omega)

end Follows

/-- **THE DECOMPRESSOR** stays within both buffers, and returns what it has put out. -/
theorem zuptLzDecompressAt_eq (src : Bytes) (dst : Mem UInt8) (dst_len : Nat) :
    ∃ r, zuptLzDecompressAt src dst dst_len = .ok r ∧
      r.1 = ((zuptLzDecompress src dst_len).getD []).length ∧
        Holds ⟨0, dst_len⟩ dst r.2 ((zuptLzDecompress src dst_len).getD []) :=
  lzLoopAt_rel ⟨rfl, Nat.zero_le _, rfl, ⟨Nat.zero_le _, rfl, fun _ _ => rfl⟩⟩ (Nat.lt_succ_self _)
    (Nat.le_refl _)

end Zupt.Lz
