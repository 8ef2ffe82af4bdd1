import Zupt.VaptVupt.Copy

/-! # Match copies are the byte loop

    A match may overlap what it copies from.  However wide the pieces are in which
    the copies of `vv_simd.c` and `vv_decoder.c` move it, no piece reads what it
    writes itself, so all of them leave what `dst[i] = dst[i - offset]` leaves, one
    byte after another.  Only `match_copy_32_hot` writes behind the match, up to the
    32 bytes of its one store. -/

namespace Zupt.VaptVupt

open Zupt.Memory Zupt.Window

variable {α : Type}

/-! ## A copy in a wider range -/

section Within

variable {b c : Bounds} {m m' : Mem α} {d off n : Nat}

theorem copyTail_within (h : b.Within c) (hcopy : copyTail b m d off n = some m') :
    copyTail c m d off n = some m' := by
  rw [copyTail] at hcopy ⊢
  by_cases hpos : 0 < n
  · rw [if_pos hpos] at hcopy ⊢
    exact h.copy hcopy
  · rw [if_neg hpos] at hcopy ⊢
    exact hcopy

theorem copyChunks_within (h : b.Within c) {size : Nat}
    (hcopy : copyChunks b m size d off n = some m') : copyChunks c m size d off n = some m' :=
  bind_within (fun _ hmid => h.copyPieces hmid) (fun _ _ hlast => copyTail_within h hlast) hcopy

theorem copyWords_within (h : b.Within c) (hcopy : copyWords b m d off n = some m') :
    copyWords c m d off n = some m' :=
  bind_within (fun _ hmid => h.copyPieces hmid) (fun _ _ hlast => h.copyCells hlast) hcopy

theorem matchCopy32_within (h : b.Within c) (hcopy : matchCopy32 b m d off n = some m') :
    matchCopy32 c m d off n = some m' :=
  bind_within (fun _ hmid => h.copyPieces hmid) (fun _ _ hlast => copyChunks_within h hlast) hcopy

theorem matchCopy32Hot_within (h : b.Within c) (hcopy : matchCopy32Hot b m d off n = some m') :
    matchCopy32Hot c m d off n = some m' := by
  rw [matchCopy32Hot] at hcopy ⊢
  by_cases hn : n ≤ 32
  · rw [if_pos hn] at hcopy ⊢
    exact h.copy hcopy
  · rw [if_neg hn] at hcopy ⊢
    exact bind_within (fun _ hmid => h.copy hmid) (fun _ _ hlast => matchCopy32_within h hlast) hcopy

end Within

/-! ## Against the byte loop -/

section Exact

variable {m : Mem α} {dst off n : Nat}

/-- A copy that repeats the source is the byte loop, as far as it holds the match and
    behind the range that it may touch. -/
theorem cells_of_gives (hoff : 1 ≤ off) (hdst : off ≤ dst) {top : Nat} (hroom : dst + n ≤ top)
    {r : Option (Mem α)}
    (h : Gives ⟨dst - off, top⟩ m r (extend (read m (dst - off) off) off n)) :
    ∃ m', r = some m' ∧ ∀ i, i < dst + n ∨ top ≤ i → m' i = byteLoop m dst off n i := by
  have hsource := holds_source m hdst (show dst ≤ top by omega)
  have hstart : dst = dst - off + (read m (dst - off) off).length := by
    rw [read_length]
    omega
  have hlen : (extend (read m (dst - off) off) off n).length = off + n := by
    rw [length_extend hoff (by rw [read_length]), read_length]
  have hloop := hsource.copyCells hstart hoff (by rw [read_length]) hroom
  rw [copyCells_eq_byteLoop m hdst (Nat.le_refl _) hroom] at hloop
  obtain ⟨m', hm', hholds⟩ := h
  obtain ⟨loop, hsame, hbyte⟩ := hloop
  obtain rfl := Option.some.inj hsame
  refine ⟨m', hm', fun i hi => hholds.cells hbyte ?_⟩
  rw [hlen]
  show i < dst - off + (off + n) ∨ top ≤ i
  omega

/-- Within the match itself it is the byte loop everywhere. -/
theorem eq_byteLoop_of_gives (hoff : 1 ≤ off) (hdst : off ≤ dst) {r : Option (Mem α)}
    (h : Gives ⟨dst - off, dst + n⟩ m r (extend (read m (dst - off) off) off n)) :
    r = some (byteLoop m dst off n) := by
  obtain ⟨m', rfl, hcells⟩ := cells_of_gives hoff hdst (Nat.le_refl _) h
  exact congrArg some (funext fun i => hcells i (Nat.lt_or_ge i _))

theorem source_end (m : Mem α) (hdst : off ≤ dst) :
    dst = dst - off + (read m (dst - off) off).length := by
  rw [read_length]
  omega

theorem source_length (m : Mem α) : off ≤ (read m (dst - off) off).length := by
  rw [read_length]

theorem vvCopyMatch_eq_byteLoop (simd : Simd) (hoff : 1 ≤ off) (hdst : off ≤ dst) :
    vvCopyMatch ⟨dst - off, dst + n⟩ m simd dst off n = some (byteLoop m dst off n) :=
  eq_byteLoop_of_gives hoff hdst
    (Holds.vvCopyMatch (holds_source m hdst (Nat.le_add_right dst n)) simd (source_end m hdst) hoff
      (source_length m) (Nat.le_refl _))

theorem matchCopy32_eq_byteLoop (h32 : 32 ≤ off) (hdst : off ≤ dst) :
    matchCopy32 ⟨dst - off, dst + n⟩ m dst off n = some (byteLoop m dst off n) :=
  eq_byteLoop_of_gives (by omega) hdst
    (Holds.matchCopy32 (holds_source m hdst (Nat.le_add_right dst n)) (source_end m hdst) h32
      (source_length m) (Nat.le_refl _))

theorem copyChunks_eq_byteLoop {size : Nat} (hsize : 0 < size) (hoff : size ≤ off)
    (hdst : off ≤ dst) :
    copyChunks ⟨dst - off, dst + n⟩ m size dst off n = some (byteLoop m dst off n) :=
  eq_byteLoop_of_gives (by omega) hdst
    (Holds.copyChunks (holds_source m hdst (Nat.le_add_right dst n)) (source_end m hdst) hsize hoff
      (source_length m) (Nat.le_refl _))

theorem copyWords_eq_byteLoop (h8 : 8 ≤ off) (hdst : off ≤ dst) :
    copyWords ⟨dst - off, dst + n⟩ m dst off n = some (byteLoop m dst off n) :=
  eq_byteLoop_of_gives (by omega) hdst
    (Holds.copyWords (holds_source m hdst (Nat.le_add_right dst n)) (source_end m hdst) h8
      (source_length m) (Nat.le_refl _))

/-- The one store of 32 bytes may go behind the match, and no further. -/
theorem matchCopy32Hot_cells (h32 : 32 ≤ off) (hdst : off ≤ dst) :
    ∃ m', matchCopy32Hot ⟨dst - off, dst + max n 32⟩ m dst off n = some m' ∧
      ∀ i, i < dst + n ∨ dst + max n 32 ≤ i → m' i = byteLoop m dst off n i := by
  have hmatch : dst + n ≤ dst + max n 32 := Nat.add_le_add_left (Nat.le_max_left n 32) dst
  have hstore : dst + 32 ≤ dst + max n 32 := Nat.add_le_add_left (Nat.le_max_right n 32) dst
  have hsource := holds_source m hdst (Nat.le_add_right dst (max n 32))
  exact cells_of_gives (by omega) hdst hmatch
    (Holds.matchCopy32Hot hsource (source_end m hdst) h32 (source_length m) hmatch hstore)

/-- The copy that a token loop chooses in an output that ends at `top`. -/
theorem tokenMatchCopy_cells (hdst : off ≤ dst) {top : Nat} (hroom : dst + n ≤ top) :
    ∃ m', tokenMatchCopy ⟨dst - off, top⟩ m dst off n = some m' ∧
      ∀ i, i < dst + n ∨ dst + max n 32 ≤ i ∨ top ≤ i → m' i = byteLoop m dst off n i := by
  have hwithin : Bounds.Within ⟨dst - off, dst + n⟩ ⟨dst - off, top⟩ := ⟨Nat.le_refl _, hroom⟩
  rw [tokenMatchCopy]
  by_cases h32 : 32 ≤ off
  · rw [if_pos h32]
    by_cases hwide : dst + 32 ≤ top
    · rw [if_pos hwide]
      obtain ⟨m', hm', hcells⟩ := matchCopy32Hot_cells (n := n) (m := m) h32 hdst
      have hstore : Bounds.Within ⟨dst - off, dst + max n 32⟩ ⟨dst - off, top⟩ :=
        ⟨Nat.le_refl _, by show dst + max n 32 ≤ top; omega⟩
      exact ⟨m', matchCopy32Hot_within hstore hm', fun i hi => hcells i (by omega)⟩
    · rw [if_neg hwide]
      exact ⟨_, matchCopy32_within hwithin (matchCopy32_eq_byteLoop h32 hdst), fun _ _ => rfl⟩
  rw [if_neg h32]
  by_cases h16 : 16 ≤ off
  · rw [if_pos h16]
    exact ⟨_, copyChunks_within hwithin (copyChunks_eq_byteLoop (Nat.succ_pos 15) h16 hdst),
      fun _ _ => rfl⟩
  rw [if_neg h16]
  by_cases h8 : 8 ≤ off
  · rw [if_pos h8]
    exact ⟨_, copyWords_within hwithin (copyWords_eq_byteLoop h8 hdst), fun _ _ => rfl⟩
  · rw [if_neg h8]
    exact ⟨_, copyCells_eq_byteLoop m hdst (Nat.le_refl _) hroom, fun _ _ => rfl⟩

/-- **MATCH COPIES ARE THE BYTE LOOP**: for every distance from 1 up and every length,
    overlapping or not, each `vv_copy_match` leaves all cells as `dst[i] = dst[i - offset]`
    does, and touches nothing but the match and its source.  So do `match_copy_32`,
    `match_copy_16`, `match_copy_8` and `match_overlap` from the distances they are
    called with.  `match_copy_32_hot`, and with it the choice of the token loops, leaves
    the match so and everything but the rest of 32 bytes behind its start. -/
theorem match_copies_eq_byteLoop (m : Mem α) (hoff : 1 ≤ off) (hdst : off ≤ dst) (n : Nat) :
    (∀ simd, vvCopyMatch ⟨dst - off, dst + n⟩ m simd dst off n = some (byteLoop m dst off n)) ∧
      (32 ≤ off →
        matchCopy32 ⟨dst - off, dst + n⟩ m dst off n = some (byteLoop m dst off n)) ∧
      (16 ≤ off →
        copyChunks ⟨dst - off, dst + n⟩ m 16 dst off n = some (byteLoop m dst off n)) ∧
      (8 ≤ off → copyWords ⟨dst - off, dst + n⟩ m dst off n = some (byteLoop m dst off n)) ∧
      copyCells ⟨dst - off, dst + n⟩ m dst off n = some (byteLoop m dst off n) ∧
      (32 ≤ off → ∃ m', matchCopy32Hot ⟨dst - off, dst + max n 32⟩ m dst off n = some m' ∧
        ∀ i, i < dst + n ∨ dst + max n 32 ≤ i → m' i = byteLoop m dst off n i) ∧
      ∀ top, dst + n ≤ top → ∃ m', tokenMatchCopy ⟨dst - off, top⟩ m dst off n = some m' ∧
        ∀ i, i < dst + n ∨ dst + max n 32 ≤ i ∨ top ≤ i → m' i = byteLoop m dst off n i := by
  refine ⟨?_, ?_, ?_, ?_, ?_, ?_, ?_⟩
  · intro simd
    exact vvCopyMatch_eq_byteLoop simd hoff hdst
  · intro h32
    exact matchCopy32_eq_byteLoop h32 hdst
  · intro h16
    exact copyChunks_eq_byteLoop (Nat.succ_pos 15) h16 hdst
  · intro h8
    exact copyWords_eq_byteLoop h8 hdst
  · exact copyCells_eq_byteLoop m hdst (Nat.le_refl _) (Nat.le_refl _)
  · intro h32
    exact matchCopy32Hot_cells h32 hdst
  · intro top hroom
    exact tokenMatchCopy_cells hdst hroom

/-- Ten cells from three back: the match overlaps itself. -/
theorem match_copies_eq_byteLoop_overlap :
    vvCopyMatch ⟨1, 14⟩ (fun i => i) .avx2 4 3 10 = some (byteLoop (fun i => i) 4 3 10) :=
  (match_copies_eq_byteLoop (fun i => i) (show 1 ≤ 3 by decide) (show 3 ≤ 4 by decide) 10).1 .avx2

end Exact

end Zupt.VaptVupt
