import Zupt.VaptVupt.CStream
import Zupt.VaptVupt.ParserSound

/-! # What a parse inserts

    A parser changes the tables of its matcher by insertions alone, and it
    inserts the positions of its block in order, each once. -/

namespace Zupt.VaptVupt

/-! ## Insertions in order -/

/-- The matcher with other offsets. -/
def Matcher.withRep (m : Matcher) (rep : Fin 3 → Nat) : Matcher := { m with rep := rep }

/-- Positions inserted one after another. -/
def Matcher.insertAll (m : Matcher) (src : Bytes) («end» : Nat) (ps : List Nat) : Matcher :=
  ps.foldl (fun m p => m.insert src p «end») m

theorem Matcher.insert_withRep (m : Matcher) (rep : Fin 3 → Nat) (src : Bytes) (pos «end» : Nat) :
    (m.withRep rep).insert src pos «end» = (m.insert src pos «end»).withRep rep := by
  rw [Matcher.insert, Matcher.insert]
  split
  · rfl
  · rw [Matcher.insertHashed, Matcher.insertHashed, Matcher.withRep]
    cases m.roots16 with
    | none => rfl
    | some r => rfl

theorem Matcher.insertAll_withRep (m : Matcher) (rep : Fin 3 → Nat) (src : Bytes) («end» : Nat)
    (ps : List Nat) :
    (m.withRep rep).insertAll src «end» ps = (m.insertAll src «end» ps).withRep rep := by
  induction ps generalizing m with
  | nil => rfl
  | cons p ps ih =>
      rw [Matcher.insertAll, List.foldl_cons, Matcher.insert_withRep]
      exact ih (m.insert src p «end»)

theorem Matcher.insertAll_append (m : Matcher) (src : Bytes) («end» : Nat) (ps qs : List Nat) :
    m.insertAll src «end» (ps ++ qs) = (m.insertAll src «end» ps).insertAll src «end» qs :=
  List.foldl_append

/-- In order, from `lo` up to `hi`, and each with four bytes behind it. -/
def Ordered («end» lo hi : Nat) (ps : List Nat) : Prop :=
  ps.Pairwise (· < ·) ∧ ∀ p ∈ ps, lo ≤ p ∧ p < hi ∧ p + 4 ≤ «end»

/-- The second matcher is the first after insertions in order, but for the
    offsets. -/
def Inserted (src : Bytes) («end» lo hi : Nat) (m m' : Matcher) : Prop :=
  ∃ ps rep, m' = (m.insertAll src «end» ps).withRep rep ∧ Ordered «end» lo hi ps

section Inserted

variable {src : Bytes} {«end» lo mid hi : Nat} {m m' m'' : Matcher}

theorem Inserted.refl (src : Bytes) («end» lo hi : Nat) (m : Matcher) :
    Inserted src «end» lo hi m m :=
  ⟨[], m.rep, rfl, List.Pairwise.nil, fun p hp => by cases hp⟩

theorem Inserted.trans (h : Inserted src «end» lo mid m m') (h' : Inserted src «end» mid hi m' m'')
    (hlo : lo ≤ mid) (hhi : mid ≤ hi) : Inserted src «end» lo hi m m'' := by
  obtain ⟨ps, rep, rfl, hps, hpin⟩ := h
  obtain ⟨qs, rep', rfl, hqs, hqin⟩ := h'
  refine ⟨ps ++ qs, rep', ?_, ?_, ?_⟩
  · rw [Matcher.insertAll_withRep, Matcher.insertAll_append]
    rfl
  · rw [List.pairwise_append]
    refine ⟨hps, hqs, ?_⟩
    intro p hp q hq
    have hpm := hpin p hp
    have hqm := hqin q hq
    omega
  · intro p hp
    rcases List.mem_append.mp hp with hp | hp
    · have hpm := hpin p hp
      exact ⟨hpm.1, by omega, hpm.2.2⟩
    · have hqm := hqin p hp
      exact ⟨by omega, hqm.2⟩

theorem Inserted.updateRep (h : Inserted src «end» lo hi m m') (offset : Nat) :
    Inserted src «end» lo hi m (m'.updateRep offset) := by
  rw [Matcher.updateRep]
  split
  · exact h
  · obtain ⟨ps, rep, rfl, hps⟩ := h
    exact ⟨ps, _, rfl, hps⟩

/-- `matcher_insert` inserts the position or, too near to the end, nothing. -/
theorem inserted_insert (m : Matcher) (src : Bytes) («end» pos : Nat) :
    Inserted src «end» pos (pos + 1) m (m.insert src pos «end») := by
  by_cases hshort : «end» < pos + 4
  · rw [Matcher.insert, if_pos hshort]
    exact Inserted.refl src «end» pos (pos + 1) m
  · refine ⟨[pos], (m.insert src pos «end»).rep, rfl, List.pairwise_singleton _ _, ?_⟩
    intro p hp
    rw [List.mem_singleton.mp hp]
    omega

/-- With five bytes behind the position both insertions are the same. -/
theorem Matcher.insertFast_eq (m : Matcher) (src : Bytes) {pos «end» : Nat} (h : pos + 5 ≤ «end») :
    m.insertFast src pos = m.insert src pos «end» := by
  rw [Matcher.insertFast, Matcher.insert, if_neg (by omega), hashSafe, if_pos (by omega)]

theorem inserted_range (m : Matcher) (src : Bytes) («end» lo n : Nat) {hi : Nat} (hle : lo ≤ hi) :
    Inserted src «end» lo hi m (m.insertRange src «end» hi lo n) := by
  induction n generalizing m lo with
  | zero => exact Inserted.refl src «end» lo hi m
  | succ n ih =>
      rw [Matcher.insertRange]
      by_cases hmore : lo < hi ∧ lo + 5 ≤ «end»
      · rw [if_pos hmore, m.insertFast_eq src hmore.2]
        exact (inserted_insert m src «end» lo).trans (ih _ (lo + 1) hmore.1) (Nat.le_succ lo) hmore.1
      · rw [if_neg hmore]
        exact Inserted.refl src «end» lo hi m

theorem inserted_match (m : Matcher) (src : Bytes) («end» ins_first pos mlen : Nat)
    (hfirst : pos ≤ ins_first) (hnext : ins_first ≤ pos + 1) (hlen : 1 ≤ mlen) :
    Inserted src «end» ins_first (pos + mlen) m (m.insertMatch src «end» ins_first pos mlen) := by
  rw [Matcher.insertMatch]
  by_cases hlong : 16 ≤ mlen
  · rw [if_pos hlong]
    have hfront : Inserted src «end» ins_first (pos + 3) m
        (m.insertRange src «end» (pos + 3) ins_first 3) := inserted_range m src «end» _ 3 (by omega)
    have hback := inserted_range (m.insertRange src «end» (pos + 3) ins_first 3) src «end»
      (pos + mlen - 3) 3 (show pos + mlen - 3 ≤ pos + mlen by omega)
    have hgap : Inserted src «end» (pos + 3) (pos + mlen - 3)
        (m.insertRange src «end» (pos + 3) ins_first 3)
        (m.insertRange src «end» (pos + 3) ins_first 3) := Inserted.refl _ _ _ _ _
    exact (hfront.trans hgap (by omega) (by omega)).trans hback (by omega) (by omega)
  · rw [if_neg hlong]
    exact inserted_range m src «end» ins_first mlen (by omega)

end Inserted

/-! ## The greedy parser -/

section Greedy

variable {A : BlockArgs}

/-- Where the insertions behind a match start. -/
def Chosen.first (c : Chosen) : Nat := if c.pos_inserted then c.pos + 1 else c.pos

theorem Chosen.first_le (c : Chosen) : c.pos ≤ c.first ∧ c.first ≤ c.pos + 1 := by
  rw [Chosen.first]
  split
  · omega
  · omega

theorem choose_inserted (A : BlockArgs) (m : Matcher) (pos : Nat) :
    pos ≤ (A.choose m pos).pos ∧
      Inserted A.src A.end pos (A.choose m pos).first m (A.choose m pos).m := by
  have hins := inserted_insert m A.src A.end pos
  rw [BlockArgs.choose]
  split
  · dsimp only
    split
    · exact ⟨Nat.le_succ pos, hins⟩
    · exact ⟨Nat.le_refl pos, hins⟩
  · exact ⟨Nat.le_refl pos, Inserted.refl A.src A.end pos pos m⟩

/-- A result of a turn: what was inserted lies in front of where it ended. -/
def Onward (src : Bytes) («end» : Nat) (s : Parse) : Except Matcher Parse → Prop
  | .ok s' => s.pos ≤ s'.pos ∧ Inserted src «end» s.pos s'.pos s.m s'.m
  | .error m => ∃ hi, s.pos ≤ hi ∧ Inserted src «end» s.pos hi s.m m

/-- A match that is emitted inserts positions in front of its end. -/
theorem emitMatch_inserted {s : Parse} {c : Chosen} (hmin : 1 ≤ c.found.mlen) (hback : s.pos ≤ c.pos)
    (hchosen : Inserted A.src A.end s.pos c.first s.m c.m) :
    Onward A.src A.end s (A.emitMatch s c) := by
  obtain ⟨hfirst, hnext⟩ := c.first_le
  simp only [BlockArgs.emitMatch]
  split
  · exact ⟨c.first, by omega, hchosen⟩
  · have hmatch := inserted_match c.m A.src A.end c.first c.pos c.found.mlen hfirst hnext hmin
    constructor
    · show s.pos ≤ c.pos + c.found.mlen
      omega
    · exact (hchosen.trans hmatch (by omega) (by omega)).updateRep c.found.moff

/-- Literals that are passed over insert the first of them. -/
theorem skip_inserted {s : Parse} {c : Chosen} (hback : s.pos ≤ c.pos)
    (hchosen : Inserted A.src A.end s.pos c.first s.m c.m) :
    Onward A.src A.end s (A.skip s c) := by
  obtain ⟨m, hm⟩ : ∃ m, m = if c.pos_inserted then c.m else c.m.insert A.src c.pos A.end := ⟨_, rfl⟩
  have hstep : Inserted A.src A.end s.pos (c.pos + 1) s.m m := by
    rw [hm]
    cases hins : c.pos_inserted with
    | true =>
        rw [Chosen.first, if_pos hins] at hchosen
        exact hchosen
    | false =>
        rw [Chosen.first, hins] at hchosen
        exact hchosen.trans (inserted_insert c.m A.src A.end c.pos) hback (Nat.le_succ _)
  have hstride : 1 ≤ A.stride m s.failures := by
    simp only [BlockArgs.stride]
    split
    · decide
    · omega
  simp only [BlockArgs.skip, ← hm]
  by_cases haccel : m.accel = 0
  · rw [if_pos haccel]
    exact ⟨Nat.le_succ_of_le hback, hstep⟩
  · rw [if_neg haccel]
    split
    · exact ⟨c.pos + 1, by omega, hstep⟩
    · constructor
      · show s.pos ≤ c.pos + A.stride m s.failures
        omega
      · have hpassed : c.pos + 1 ≤ c.pos + A.stride m s.failures := by omega
        exact hstep.trans (Inserted.refl _ _ _ _ _) (by omega) hpassed

/-- A turn inserts positions in front of where it ends. -/
theorem turn_inserted (hmin : 1 ≤ A.min_match) (s : Parse) : Onward A.src A.end s (A.turn s) := by
  obtain ⟨hback, hchosen⟩ := choose_inserted A s.m s.pos
  rw [BlockArgs.turn]
  generalize A.choose s.m s.pos = c at hback hchosen
  by_cases hlen : A.min_match ≤ c.found.mlen
  · rw [if_pos hlen]
    exact emitMatch_inserted (by omega) hback hchosen
  · rw [if_neg hlen]
    exact skip_inserted hback hchosen

/-- A turn and what comes after it. -/
theorem Onward.trans {src : Bytes} {«end» : Nat} {s s' : Parse} {r : Except Matcher Parse}
    (h : Onward src «end» s (.ok s')) (h' : Onward src «end» s' r) : Onward src «end» s r := by
  obtain ⟨hpos, hins⟩ := h
  cases r with
  | ok s'' => exact ⟨hpos.trans h'.1, hins.trans h'.2 hpos h'.1⟩
  | error m =>
      obtain ⟨hi, hpos', hins'⟩ := h'
      exact ⟨hi, hpos.trans hpos', hins.trans hins' hpos hpos'⟩

/-- The loop inserts positions in front of where it ends. -/
theorem loop_inserted (hmin : 1 ≤ A.min_match) (fuel : Nat) (s : Parse) {r : Except Matcher Parse}
    (hr : A.loop fuel s = some r) : Onward A.src A.end s r := by
  induction fuel generalizing s with
  | zero => cases hr
  | succ fuel ih =>
      rw [BlockArgs.loop] at hr
      by_cases hmore : s.pos + A.min_match < A.end
      · rw [if_pos hmore] at hr
        have hturn := turn_inserted hmin s
        cases hs : A.turn s with
        | error m =>
            rw [hs] at hr hturn
            cases hr
            exact hturn
        | ok s' =>
            rw [hs] at hr hturn
            exact hturn.trans (ih s' hr)
      · rw [if_neg hmore] at hr
        cases hr
        exact ⟨Nat.le_refl _, Inserted.refl _ _ _ _ _⟩

/-- **THE GREEDY PARSER INSERTS IN ORDER**. -/
theorem compressBlock_inserted (hmin : 1 ≤ A.min_match) {m m' : Matcher} {tokens : Option Bytes}
    (h : compressBlock A m = some (m', tokens)) : ∃ hi, Inserted A.src A.end A.start_pos hi m m' := by
  rw [compressBlock] at h
  cases hr : A.loop (A.block_len + 1) (A.start m) with
  | none =>
      rw [hr] at h
      cases h
  | some r =>
      have hins := loop_inserted hmin _ _ hr
      rw [hr] at h
      cases r with
      | ok s =>
          cases h
          exact ⟨s.pos, hins.2⟩
      | error m'' =>
          cases h
          obtain ⟨hi, -, hins⟩ := hins
          exact ⟨hi, hins⟩

end Greedy

/-! ## The optimal parser -/

section Optimal

/-- Every candidate ends within the block. -/
def Within (room : Nat) (cands : List Cand) : Prop := ∀ c ∈ cands, c.len ≤ room

theorem Within.append {room : Nat} {cands : List Cand} (h : Within room cands) {c : Cand}
    (hc : c.len ≤ room) : Within room (cands ++ [c]) := by
  intro d hd
  rcases List.mem_append.mp hd with hd | hd
  · exact h d hd
  · rw [List.mem_singleton.mp hd]
    exact hc

theorem addCand_within {room : Nat} {cands : List Cand} (h : Within room cands) {c : Cand}
    (hc : c.len ≤ room) : Within room (addCand cands c) := by
  rw [addCand]
  cases cands.findIdx? (fun d => d.off = c.off) with
  | none =>
      dsimp only
      split
      · exact h.append hc
      · exact h
  | some k =>
      intro d hd
      obtain ⟨i, hi, rfl⟩ := List.mem_iff_getElem.mp hd
      rw [List.getElem_modify]
      rw [List.length_modify] at hi
      have hold := h _ (List.getElem_mem hi)
      split
      · split
        · exact hc
        · exact hold
      · exact hold

theorem repCands_within (src : Bytes) (pos max_len : Nat) (offs : List Nat) {cands : List Cand}
    (h : Within max_len cands) : Within max_len (repCands src pos max_len offs cands).1 := by
  induction offs generalizing cands with
  | nil => exact h
  | cons roff rest ih =>
      rw [repCands]
      by_cases hskip : roff = 0 ∨ pos < roff
      · rw [if_pos hskip]
        exact ih h
      · rw [if_neg hskip]
        have hlen := (extendMatch_spec src pos (pos - roff) max_len).1
        generalize extendMatch src pos (pos - roff) max_len = l at hlen
        have hmore : Within max_len
            (if minMatch ≤ l ∧ cands.length < maxCand then cands ++ [⟨roff, l⟩] else cands) := by
          split
          · exact h.append hlen
          · exact h
        dsimp only
        split
        · exact hmore
        · exact ih hmore

theorem chainCands_within (m : Matcher) (src : Bytes) (pos max_len : Nat) {room : Nat}
    (hroom : 4 + (max_len - 4) ≤ room) (depth : Nat) (ref : Int) {cands : List Cand}
    (h : Within room cands) : Within room (m.chainCands src pos max_len depth ref cands) := by
  induction depth generalizing ref cands with
  | zero => exact h
  | succ depth ih =>
      rw [Matcher.chainCands]
      by_cases hwin : (m.limit pos : Int) ≤ ref ∧ ref < (pos : Int) ∧ cands.length < maxCand
      · rw [if_pos hwin]
        by_cases hfour : load32 src pos = load32 src ref.toNat
        · rw [if_pos hfour]
          have hlen := (extendMatch_spec src (pos + 4) (ref.toNat + 4) (max_len - 4)).1
          generalize extendMatch src (pos + 4) (ref.toNat + 4) (max_len - 4) = l at hlen
          have hmore : Within room (addCand cands ⟨pos - ref.toNat, 4 + l⟩) :=
            addCand_within h (show 4 + l ≤ room by omega)
          dsimp only
          split
          · exact hmore
          · exact ih _ hmore
        · rw [if_neg hfour]
          exact ih _ h
      · rw [if_neg hwin]
        exact h

/-- What `opt_collect` finds ends within the block. -/
theorem optCollect_within (m : Matcher) (src : Bytes) (pos «end» : Nat) (reps : Fin 3 → Nat) :
    Within («end» - pos) (m.optCollect src pos «end» reps) := by
  rw [Matcher.optCollect]
  by_cases hshort : «end» < pos + 4
  · rw [if_pos hshort]
    intro c hc
    cases hc
  · rw [if_neg hshort]
    have hmax : m.maxLen pos «end» ≤ «end» - pos := Nat.min_le_left _ _
    have hnone : Within (m.maxLen pos «end») [] := by
      intro c hc
      cases hc
    have hreps := repCands_within src pos (m.maxLen pos «end») [reps 0, reps 1, reps 2] hnone
    have hwider : Within («end» - pos)
        (repCands src pos (m.maxLen pos «end») [reps 0, reps 1, reps 2] []).1 := by
      intro c hc
      exact (hreps c hc).trans hmax
    rcases hr : repCands src pos (m.maxLen pos «end») [reps 0, reps 1, reps 2] [] with ⟨cands, far⟩
    rw [hr] at hwider
    dsimp only
    rw [hr]
    cases far with
    | true => exact hwider
    | false =>
        exact chainCands_within m src pos (m.maxLen pos «end») (by omega) m.chain_depth _ hwider

theorem longest_within {room : Nat} {cands : List Cand} (h : Within room cands) :
    (longest cands).len ≤ room := by
  have hfold (best : Cand) (hbest : best.len ≤ room) :
      (cands.foldl (fun best c => if best.len < c.len then c else best) best).len ≤ room := by
    induction cands generalizing best with
    | nil => exact hbest
    | cons c rest ih =>
        rw [List.foldl_cons]
        apply ih
        · intro d hd
          exact h d (List.mem_cons_of_mem c hd)
        · split
          · exact h c List.mem_cons_self
          · exact hbest
  exact hfold ⟨0, 0⟩ (Nat.zero_le room)

variable {A : BlockArgs}

/-- A turn of the program inserts positions in front of where it goes on. -/
theorem advance_inserted (A : BlockArgs) (P : Prices) (s : Program) (i : Nat) :
    i ≤ (A.advance P s i).2 ∧ Inserted A.src A.end (A.start_pos + i)
      (A.start_pos + (A.advance P s i).2) s.m (A.advance P s i).1.m := by
  have hone := inserted_insert s.m A.src A.end (A.start_pos + i)
  rw [BlockArgs.advance]
  dsimp only
  split
  · exact ⟨Nat.le_succ i, hone⟩
  · split
    · exact ⟨Nat.le_succ i, hone⟩
    · have hlen := longest_within
        (optCollect_within s.m A.src (A.start_pos + i) A.end (s.cells i).reps)
      generalize s.m.optCollect A.src (A.start_pos + i) A.end (s.cells i).reps = cands at hlen
      by_cases hlong : longMatch ≤ (longest cands).len
      · rw [if_pos hlong]
        rw [BlockArgs.end] at hlen
        have huse : 512 ≤ min (longest cands).len (A.block_len - i) := by
          have hlong' : 512 ≤ (longest cands).len := hlong
          omega
        generalize min (longest cands).len (A.block_len - i) = use at huse
        constructor
        · show i ≤ i + use
          omega
        · have hmatch := inserted_match s.m A.src A.end (A.start_pos + i) (A.start_pos + i) use
            (Nat.le_refl _) (Nat.le_succ _) (by omega)
          rw [Matcher.insertMatch, if_pos (by omega), Nat.add_assoc A.start_pos i use] at hmatch
          rw [Nat.add_assoc A.start_pos i use]
          exact hmatch
      · rw [if_neg hlong]
        exact ⟨Nat.le_succ i, hone⟩

theorem forward_inserted (A : BlockArgs) (P : Prices) (turns : Nat) (s : Program) (i : Nat) :
    ∃ hi, A.start_pos + i ≤ hi ∧
      Inserted A.src A.end (A.start_pos + i) hi s.m (A.forward P turns s i).m := by
  induction turns generalizing s i with
  | zero => exact ⟨_, Nat.le_refl _, Inserted.refl _ _ _ _ _⟩
  | succ turns ih =>
      rw [BlockArgs.forward]
      by_cases hmore : i < A.block_len
      · rw [if_pos hmore]
        obtain ⟨hle, hins⟩ := advance_inserted A P s i
        rcases hr : A.advance P s i with ⟨s', i'⟩
        rw [hr] at hle hins
        obtain ⟨hi, hle', hins'⟩ := ih s' i'
        have hahead : A.start_pos + i ≤ A.start_pos + i' := Nat.add_le_add_left hle A.start_pos
        exact ⟨hi, hahead.trans hle', hins.trans hins' hahead hle'⟩
      · rw [if_neg hmore]
        exact ⟨_, Nat.le_refl _, Inserted.refl _ _ _ _ _⟩

/-- The emission touches the offsets only. -/
theorem emitSteps_inserted {m : Matcher} {lo hi : Nat} (steps : List Cand) (s : Parse)
    (h : Inserted A.src A.end lo hi m s.m) :
    match A.emitSteps steps s with
    | .ok s' => Inserted A.src A.end lo hi m s'.m
    | .error m' => Inserted A.src A.end lo hi m m' := by
  induction steps generalizing s with
  | nil => exact h
  | cons step rest ih =>
      rw [BlockArgs.emitSteps]
      by_cases hlit : step.off = 0
      · rw [if_pos hlit]
        exact ih _ h
      · rw [if_neg hlit]
        by_cases hroom : A.dst_cap < s.out.length + (1 + extNeeded (s.pos - s.lit_start) +
            (s.pos - s.lit_start) + 2 + (step.len / 255 + 2))
        · simp only [if_pos hroom]
          exact h
        · simp only [if_neg hroom]
          exact ih _ (h.updateRep step.off)

/-- **THE OPTIMAL PARSER INSERTS IN ORDER**. -/
theorem compressBlockOptimal_inserted (fresh : FreshTables) (A : BlockArgs) (m : Matcher) :
    ∃ hi, Inserted A.src A.end A.start_pos hi m (compressBlockOptimal fresh A m).1 := by
  rw [compressBlockOptimal]
  split
  · exact ⟨A.start_pos, Inserted.refl _ _ _ _ _⟩
  · obtain ⟨hi, -, hins⟩ :=
      forward_inserted A (blockPrices fresh A m) A.block_len (programStart m) 0
    dsimp only
    generalize A.forward (blockPrices fresh A m) A.block_len (programStart m) 0 = s at hins
    have hsteps := emitSteps_inserted (backtrack s.cells A.block_len A.block_len [])
      (A.start s.m) hins
    generalize A.emitSteps (backtrack s.cells A.block_len A.block_len []) (A.start s.m) = r at hsteps
    cases r with
    | ok s' => exact ⟨hi, hsteps⟩
    | error m' => exact ⟨hi, hsteps⟩

end Optimal

/-- **A BLOCK INSERTS IN ORDER**, whichever parser it goes through. -/
theorem emitBlock_inserted (C : EntropyCoders) (fresh : FreshTables) (a : EmitArgs) (m : Matcher)
    (hmin : 1 ≤ a.min_match) :
    ∃ hi, Inserted a.src (a.block_start + a.braw) a.block_start hi m (emitBlock C fresh a m).1 := by
  have hnone : ∃ hi, Inserted a.src (a.block_start + a.braw) a.block_start hi m m :=
    ⟨a.block_start, Inserted.refl _ _ _ _ _⟩
  rw [emitBlock, EmitArgs.parse]
  dsimp only
  split
  · exact compressBlockOptimal_inserted fresh _ m
  · cases hr : compressBlock ⟨a.src, a.block_start, a.braw, a.tcap, a.mode, a.min_match⟩ m with
    | none => exact hnone
    | some r => exact compressBlock_inserted hmin hr

end Zupt.VaptVupt
