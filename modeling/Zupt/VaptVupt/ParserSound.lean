import Zupt.VaptVupt.MatchSound

/-! # What `compress_block` emits expands to the block -/

namespace Zupt.VaptVupt

open Zupt.Window

/-! ## Settings -/

theorem Matcher.insertRange_same (m : Matcher) (src : Bytes) («end» hi lo n : Nat) :
    m.SameSettings (m.insertRange src «end» hi lo n) := by
  induction n generalizing m lo with
  | zero => exact Matcher.SameSettings.refl m
  | succ n ih =>
      rw [Matcher.insertRange]
      split
      · exact (m.insertHashed_same src lo _).trans (ih (m.insertFast src lo) (lo + 1))
      · exact Matcher.SameSettings.refl m

theorem Matcher.insertMatch_same (m : Matcher) (src : Bytes) («end» ins_first pos mlen : Nat) :
    m.SameSettings (m.insertMatch src «end» ins_first pos mlen) := by
  rw [Matcher.insertMatch]
  split
  · exact (m.insertRange_same src «end» _ _ _).trans (Matcher.insertRange_same _ src «end» _ _ _)
  · exact m.insertRange_same src «end» _ _ _

theorem Matcher.RepBound.same {m m' : Matcher} (h : m.RepBound) (hs : m.SameSettings m') :
    m'.RepBound := by
  intro i
  rw [hs.rep, hs.wlog]
  exact h i

theorem Matcher.RepBound.update {m : Matcher} (h : m.RepBound) {offset : Nat}
    (hoff : offset ≤ 2 ^ m.wlog - 1) : (m.updateRep offset).RepBound := by
  rw [Matcher.updateRep]
  split
  · exact h
  · intro i
    match i with
    | 0 => exact hoff
    | 1 => exact h 0
    | 2 => exact h 1

@[simp] theorem Matcher.updateRep_wlog (m : Matcher) (offset : Nat) :
    (m.updateRep offset).wlog = m.wlog := by
  rw [Matcher.updateRep]
  split
  · rfl
  · rfl

@[simp] theorem Matcher.updateRep_max_match (m : Matcher) (offset : Nat) :
    (m.updateRep offset).max_match = m.max_match := by
  rw [Matcher.updateRep]
  split
  · rfl
  · rfl

/-! ## The choice of a match -/

/-- What is asked of the arguments and of the matcher: the block lies in the
    source, and no setting is out of its range. -/
structure BlockArgs.Fits (A : BlockArgs) (m : Matcher) : Prop where
  inside : A.end ≤ A.src.length
  min_match : A.min_match = 3 ∨ A.min_match = 4
  max_match : 4 ≤ m.max_match
  rep : m.RepBound

theorem BlockArgs.Fits.same {A : BlockArgs} {m m' : Matcher} (h : A.Fits m)
    (hs : m.SameSettings m') : A.Fits m' :=
  ⟨h.inside, h.min_match, by rw [hs.max_match]; exact h.max_match, h.rep.same hs⟩

section Choice

variable {A : BlockArgs} {m : Matcher} {pos : Nat}

theorem BlockArgs.findRep_good (hA : A.Fits m) (hroom : pos + 4 ≤ A.end) :
    m.Good A.src pos A.end (A.findRep m pos).mlen (A.findRep m pos).moff := by
  rw [BlockArgs.findRep]
  cases hrep : m.tryRep A.src pos A.end with
  | none => exact m.good_zero A.src pos A.end 0
  | some p =>
      rw [Matcher.tryRep] at hrep
      split at hrep
      · cases hrep
      · dsimp only
        split
        · exact m.tryRepMatch_good hA.rep hA.inside hroom hA.max_match hrep
        · exact m.good_zero A.src pos A.end 0

theorem BlockArgs.find_good (hA : A.Fits m) (hroom : pos + 4 ≤ A.end) :
    m.Good A.src pos A.end (A.find m pos).mlen (A.find m pos).moff := by
  have hrep := A.findRep_good hA hroom
  rw [BlockArgs.find]
  split
  · dsimp only
    split
    · exact m.search_good hA.inside hA.max_match
    · exact hrep
  · exact hrep

theorem BlockArgs.findNext_good (hA : A.Fits m) (hroom : pos + 1 + 4 ≤ A.end) :
    m.Good A.src (pos + 1) A.end (A.findNext m pos).mlen (A.findNext m pos).moff := by
  have hchain : m.Good A.src (pos + 1) A.end (m.chainMatch A.src (pos + 1) A.end).len
      (m.chainMatch A.src (pos + 1) A.end).off := m.chainMatch_good hA.inside hA.max_match
  rw [BlockArgs.findNext]
  cases hrep : m.tryRep A.src (pos + 1) A.end with
  | none => exact hchain
  | some p =>
      rw [Matcher.tryRep] at hrep
      split at hrep
      · cases hrep
      · dsimp only
        split
        · exact m.tryRepMatch_good hA.rep hA.inside hroom hA.max_match hrep
        · exact hchain

/-- What step 3 leaves. -/
structure Chosen.Sound (A : BlockArgs) (m : Matcher) (pos : Nat) (c : Chosen) : Prop where
  same : m.SameSettings c.m
  pos_le : pos ≤ c.pos
  room : c.pos + A.min_match < A.end
  good : m.Good A.src c.pos A.end c.found.mlen c.found.moff

theorem BlockArgs.choose_sound (hA : A.Fits m) (hroom : pos + A.min_match < A.end) :
    (A.choose m pos).Sound A m pos := by
  have hfour : pos + 4 ≤ A.end := by
    rcases hA.min_match with h | h
    · omega
    · omega
  have hfind := A.find_good hA hfour
  have hsame := m.insert_same A.src pos A.end
  rw [BlockArgs.choose]
  dsimp only
  split
  · rename_i hlazy
    have hnextRoom : pos + 1 + A.min_match < A.end := hlazy.2.2.2
    have hnext : (m.insert A.src pos A.end).Good A.src (pos + 1) A.end
        (A.findNext (m.insert A.src pos A.end) pos).mlen
        (A.findNext (m.insert A.src pos A.end) pos).moff := by
      apply A.findNext_good (hA.same hsame)
      rcases hA.min_match with h | h
      · omega
      · omega
    rw [Matcher.Good, hsame.wlog, Matcher.maxLen, hsame.max_match] at hnext
    split
    · exact ⟨hsame, Nat.le_succ pos, hnextRoom, hnext⟩
    · exact ⟨hsame, Nat.le_refl pos, hroom, hfind⟩
  · exact ⟨Matcher.SameSettings.refl m, Nat.le_refl pos, hroom, hfind⟩

end Choice

/-! ## A turn, and the loop -/

/-- What a sequence of the block meets: the distance within the window, the
    length within the bounds of the matcher. -/
structure Seq.Within (wlog max_match min_match : Nat) (q : Seq) : Prop where
  far : 1 ≤ q.off
  window : q.off ≤ 2 ^ wlog - 1
  min_match : min_match ≤ q.len
  max_match : q.len ≤ max_match

/-- What the loop has made of the block so far: sequences that are in the
    output and that expand to the source in front of the waiting literals. -/
structure Parse.Sound (A : BlockArgs) (m0 : Matcher) (s : Parse) (qs : List Seq) : Prop where
  wlog : s.m.wlog = m0.wlog
  max_match : s.m.max_match = m0.max_match
  rep : s.m.RepBound
  out : s.out = qs.flatMap (Seq.emit m0.offBytes A.min_match)
  within : ∀ q ∈ qs, q.Within m0.wlog m0.max_match A.min_match
  expands : qs.foldl Seq.expand (A.src.take A.start_pos) = A.src.take s.lit_start
  reach : Reaches (A.src.take A.start_pos) qs
  start_le : A.start_pos ≤ s.lit_start
  lit_le : s.lit_start ≤ s.pos
  lit_end : s.lit_start ≤ A.end

section Turn

variable {A : BlockArgs} {m0 : Matcher} {s s' : Parse} {qs : List Seq}

theorem Parse.Sound.fits (h : s.Sound A m0 qs) (hA : A.Fits m0) : A.Fits s.m :=
  ⟨hA.inside, hA.min_match, by rw [h.max_match]; exact hA.max_match, h.rep⟩

/-- The literals in front of a position. -/
theorem take_append_lits {A : BlockArgs} {lit_start pos : Nat} (h : lit_start ≤ pos) :
    A.src.take lit_start ++ A.lits lit_start pos = A.src.take pos := by
  rw [BlockArgs.lits, bytesAt]
  conv_rhs => rw [← Nat.add_sub_cancel' h, List.take_add]

theorem emitMatch_sound (hA : A.Fits m0) (h : s.Sound A m0 qs) {c : Chosen}
    (hc : c.Sound A s.m s.pos) (hlen : A.min_match ≤ c.found.mlen)
    (hstep : A.emitMatch s c = .ok s') :
    s.pos < s'.pos ∧ ∃ q, s'.Sound A m0 (qs ++ [q]) := by
  have hpos : 0 < A.min_match := by
    rcases hA.min_match with h3 | h4
    · omega
    · omega
  obtain ⟨hmatch, hwindow, hmax⟩ : IsMatch A.src c.pos c.found.moff c.found.mlen ∧
      c.found.moff ≤ 2 ^ s.m.wlog - 1 ∧ c.found.mlen ≤ s.m.maxLen c.pos A.end := by
    rcases hc.good with hzero | hgood
    · omega
    · exact hgood
  rw [Matcher.maxLen, h.max_match] at hmax
  rw [h.wlog] at hwindow
  have hlit := h.lit_le
  have hback := hc.pos_le
  have hsame := hc.same.trans (c.m.insertMatch_same A.src A.end
    (if c.pos_inserted then c.pos + 1 else c.pos) c.pos c.found.mlen)
  have hwlog := hsame.wlog.trans h.wlog
  rw [BlockArgs.emitMatch] at hstep
  dsimp only at hstep
  split at hstep
  · cases hstep
  · cases hstep
    refine ⟨by dsimp only; omega,
      ⟨A.lits s.lit_start c.pos, c.found.moff, c.found.mlen⟩, ?_⟩
    refine
      { wlog := ?_
        max_match := ?_
        rep := ?_
        out := ?_
        within := ?_
        expands := ?_
        reach := ?_
        start_le := ?_
        lit_le := ?_
        lit_end := ?_ }
    · rw [Matcher.updateRep_wlog, hwlog]
    · rw [Matcher.updateRep_max_match, hsame.max_match, h.max_match]
    · apply (h.rep.same hsame).update
      rw [hwlog]
      exact hwindow
    · have hbytes : ∀ m : Matcher, m.wlog = m0.wlog → m.offBytes = m0.offBytes := by
        intro m hm
        rw [Matcher.offBytes, Matcher.offBytes, hm]
      dsimp only
      rw [h.out, hbytes _ hwlog, List.flatMap_append, List.flatMap_singleton, Seq.emit]
    · intro q hq
      rcases List.mem_append.mp hq with hq | hq
      · exact h.within q hq
      · rw [List.mem_singleton.mp hq]
        exact ⟨hmatch.far, hwindow, hlen, by dsimp only; omega⟩
    · rw [List.foldl_append, h.expands, List.foldl_cons, List.foldl_nil, Seq.expand]
      dsimp only
      rw [take_append_lits (by omega)]
      exact hmatch.extend (by have := hA.inside; omega)
    · rw [reaches_append, h.expands]
      refine ⟨h.reach, hmatch.far, ?_, trivial⟩
      have hinside := hA.inside
      have hback := hmatch.back
      rw [take_append_lits (by omega), List.length_take_of_le (by omega)]
      exact hback
    · have := h.start_le
      dsimp only
      omega
    · exact Nat.le_refl _
    · dsimp only
      omega

theorem skip_sound (h : s.Sound A m0 qs) {c : Chosen} (hc : c.Sound A s.m s.pos)
    (hstep : A.skip s c = .ok s') : s.pos < s'.pos ∧ s'.Sound A m0 qs := by
  have hlit := h.lit_le
  have hback := hc.pos_le
  have hsame : s.m.SameSettings
      (if c.pos_inserted then c.m else c.m.insert A.src c.pos A.end) := by
    split
    · exact hc.same
    · exact hc.same.trans (c.m.insert_same A.src c.pos A.end)
  rw [BlockArgs.skip] at hstep
  dsimp only at hstep
  generalize (if c.pos_inserted then c.m else c.m.insert A.src c.pos A.end) = m at hstep hsame
  have hsound {pos failures : Nat} (hpos : s.lit_start ≤ pos) :
      Parse.Sound A m0 { s with pos := pos, failures := failures, m := m } qs :=
    { h with
      wlog := hsame.wlog.trans h.wlog
      max_match := hsame.max_match.trans h.max_match
      rep := h.rep.same hsame
      lit_le := hpos }
  have hstride : 0 < A.stride m s.failures := by
    rw [BlockArgs.stride]
    split
    · decide
    · omega
  by_cases haccel : m.accel = 0
  · rw [if_pos haccel] at hstep
    cases hstep
    exact ⟨by dsimp only; omega, hsound (by omega)⟩
  · rw [if_neg haccel] at hstep
    split at hstep
    · cases hstep
    · cases hstep
      exact ⟨by dsimp only; omega, hsound (by omega)⟩

/-- A turn passes a byte at least, and keeps what the loop has made. -/
theorem turn_sound (hA : A.Fits m0) (h : s.Sound A m0 qs) (hroom : s.pos + A.min_match < A.end)
    (hstep : A.turn s = .ok s') : s.pos < s'.pos ∧ ∃ qs', s'.Sound A m0 qs' := by
  have hc := A.choose_sound (h.fits hA) hroom
  rw [BlockArgs.turn] at hstep
  split at hstep
  · rename_i hlen
    obtain ⟨hmoved, q, hnext⟩ := emitMatch_sound hA h hc hlen hstep
    exact ⟨hmoved, qs ++ [q], hnext⟩
  · obtain ⟨hmoved, hnext⟩ := skip_sound h hc hstep
    exact ⟨hmoved, qs, hnext⟩

end Turn

section Loop

variable {A : BlockArgs} {m0 : Matcher}

/-- What an error leaves: the matcher, whose offsets are bounded as before. -/
def Matcher.Kept (m0 m : Matcher) : Prop := m.wlog = m0.wlog ∧ m.RepBound

theorem turn_error {s : Parse} {qs : List Seq} {m : Matcher} (hA : A.Fits m0)
    (h : s.Sound A m0 qs) (hroom : s.pos + A.min_match < A.end) (hstep : A.turn s = .error m) :
    m0.Kept m := by
  have hc := A.choose_sound (h.fits hA) hroom
  have hkept {m' : Matcher} (hsame : s.m.SameSettings m') : m0.Kept m' :=
    ⟨hsame.wlog.trans h.wlog, h.rep.same hsame⟩
  rw [BlockArgs.turn] at hstep
  split at hstep
  · rw [BlockArgs.emitMatch] at hstep
    dsimp only at hstep
    split at hstep
    · cases hstep
      exact hkept hc.same
    · cases hstep
  · have hsame : s.m.SameSettings
        (if (A.choose s.m s.pos).pos_inserted then (A.choose s.m s.pos).m
          else (A.choose s.m s.pos).m.insert A.src (A.choose s.m s.pos).pos A.end) := by
      split
      · exact hc.same
      · exact hc.same.trans (Matcher.insert_same _ A.src _ A.end)
    rw [BlockArgs.skip] at hstep
    dsimp only at hstep
    generalize (if (A.choose s.m s.pos).pos_inserted then (A.choose s.m s.pos).m
      else (A.choose s.m s.pos).m.insert A.src (A.choose s.m s.pos).pos A.end) = m' at hstep hsame
    by_cases haccel : m'.accel = 0
    · rw [if_pos haccel] at hstep
      cases hstep
    · rw [if_neg haccel] at hstep
      split at hstep
      · cases hstep
        exact hkept hsame
      · cases hstep

/-- What the loop ends with. -/
def LoopSound (A : BlockArgs) (m0 : Matcher) : Except Matcher Parse → Prop
  | .error m => m0.Kept m
  | .ok s => ∃ qs, s.Sound A m0 qs

/-- The loop ends within as many turns as the block has bytes left. -/
theorem loop_sound (hA : A.Fits m0) (fuel : Nat) (s : Parse) (qs : List Seq)
    (h : s.Sound A m0 qs) (hfuel : A.end - s.pos < fuel) :
    ∃ r, A.loop fuel s = some r ∧ LoopSound A m0 r := by
  induction fuel generalizing s qs with
  | zero => omega
  | succ fuel ih =>
      rw [BlockArgs.loop]
      by_cases hroom : s.pos + A.min_match < A.end
      · rw [if_pos hroom]
        cases hstep : A.turn s with
        | error m => exact ⟨.error m, rfl, turn_error hA h hroom hstep⟩
        | ok s' =>
            obtain ⟨hmoved, qs', hnext⟩ := turn_sound hA h hroom hstep
            exact ih s' qs' hnext (by omega)
      · rw [if_neg hroom]
        exact ⟨.ok s, rfl, qs, h⟩

theorem start_sound (hA : A.Fits m0) : (A.start m0).Sound A m0 [] where
  wlog := rfl
  max_match := rfl
  rep := hA.rep
  out := rfl
  within := by
    intro q hq
    cases hq
  expands := rfl
  reach := trivial
  start_le := Nat.le_refl _
  lit_le := Nat.le_refl _
  lit_end := Nat.le_add_right _ _

/-- A distance of the window fits the offset field. -/
theorem offset_fits {m : Matcher} (hwlog : m.wlog ≤ 24) {off : Nat} (h : off ≤ 2 ^ m.wlog - 1) :
    off < 256 ^ m.offBytes := by
  have hpow : 0 < 2 ^ m.wlog := Nat.two_pow_pos _
  rw [Matcher.offBytes]
  split
  · have hle : 2 ^ m.wlog ≤ 2 ^ 24 := Nat.pow_le_pow_right (by decide) hwlog
    omega
  · have hle : 2 ^ m.wlog ≤ 2 ^ 16 := Nat.pow_le_pow_right (by decide) (by omega)
    omega

theorem offBytes_eq (m : Matcher) : m.offBytes = 2 ∨ m.offBytes = 3 := by
  rw [Matcher.offBytes]
  split
  · exact Or.inr rfl
  · exact Or.inl rfl

/-- A token stream for the block: its sequences are those read back from it,
    they stay within the bounds of the matcher, and over the source in front of
    the block they expand to the block. -/
def Matcher.Encodes (m : Matcher) (A : BlockArgs) (out : Bytes) : Prop :=
  ∃ qs tail, readSeqs m.offBytes A.min_match out.length out = some (qs, tail) ∧
    expandSeqs (A.src.take A.start_pos) qs tail = A.src.take A.end ∧
    ∀ q ∈ qs, q.Within m.wlog m.max_match A.min_match ∧ q.off < 256 ^ m.offBytes

/-- A stream that was written from such sequences. -/
theorem encodes_emitSeqs {qs : List Seq} {tail : Bytes} (hmin : A.min_match = 3 ∨ A.min_match = 4)
    (hwlog : m0.wlog ≤ 24)
    (hwithin : ∀ q ∈ qs, q.Within m0.wlog m0.max_match A.min_match)
    (hexpands : expandSeqs (A.src.take A.start_pos) qs tail = A.src.take A.end) :
    m0.Encodes A (emitSeqs m0.offBytes A.min_match qs tail) := by
  have hpos : 0 < A.min_match := by
    rcases hmin with h3 | h4
    · omega
    · omega
  have hoffsets : ∀ q ∈ qs, q.off < 256 ^ m0.offBytes := fun q hq =>
    offset_fits hwlog (hwithin q hq).window
  have hencodable : ∀ q ∈ qs, q.Encodable m0.offBytes A.min_match := by
    intro q hq
    have hlen := (hwithin q hq).min_match
    exact ⟨hoffsets q hq, by omega, hlen⟩
  exact ⟨qs, tail, readSeqs_emitSeqs (offBytes_eq m0) hencodable _ _ (length_lt_emitSeqs _ _ _ _),
    hexpands, fun q hq => ⟨hwithin q hq, hoffsets q hq⟩⟩

/-- The stream that the loop and the last literals make. -/
theorem finish_encodes {s : Parse} {qs : List Seq} {out : Bytes} (hA : A.Fits m0)
    (hwlog : m0.wlog ≤ 24) (h : s.Sound A m0 qs) (hout : A.finish s = some out) :
    m0.Encodes A out := by
  have hbytes : s.m.offBytes = m0.offBytes := by
    rw [Matcher.offBytes, Matcher.offBytes, h.wlog]
  have hstream : out = emitSeqs m0.offBytes A.min_match qs (A.lits s.lit_start A.end) := by
    rw [BlockArgs.finish] at hout
    split at hout
    · cases hout
    · cases hout
      rw [h.out, hbytes, emitSeqs]
  rw [hstream]
  refine encodes_emitSeqs hA.min_match hwlog h.within ?_
  rw [expandSeqs, h.expands]
  exact take_append_lits h.lit_end

end Loop

/-- A matcher whose tables say nothing true about any source. -/
def staleMatcher : Matcher where
  table _ := 0
  chain _ := 3
  roots16 := none
  table4 _ := 1
  hash4_chain _ := -7
  table3 _ := 2 ^ 30
  hash3_chain _ := 1
  chain_mask := 1023
  chain_depth := 24
  rep := ![0, 2, 0]
  wlog := 10
  use_hash4 := true
  use_hash3 := true
  single_probe := false
  max_match := 65534
  accel := 1
  no_rep := false

/-- A block that repeats itself, behind one byte. -/
def repeatBlock : BlockArgs :=
  ⟨[7, 1, 2, 3, 4, 1, 2, 3, 4, 1, 2, 3, 4, 9], 1, 13, 100, .balanced, 3⟩

theorem repeatBlock_fits : repeatBlock.Fits staleMatcher where
  inside := by decide
  min_match := Or.inl rfl
  max_match := by decide
  rep := by
    intro i
    revert i
    decide

end Zupt.VaptVupt
