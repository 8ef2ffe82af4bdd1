import Zupt.VaptVupt.OptimalParser
import Zupt.VaptVupt.ParserSound

/-! # The optimal parser is sound

    Every price is small, so that each position the program comes to is reached; every
    cell that is reached has a step whose match was compared with the source and whose
    origin is reached as well.  The walk back therefore ends at the start of the block,
    and what is emitted expands to the block. -/

namespace Zupt.VaptVupt

open Zupt.LittleEndian Zupt.Window

/-! ## Prices -/

/-- Prices as both ways to find them give. -/
structure Prices.Fair (P : Prices) : Prop where
  lit : ∀ s, P.lit s ≤ 14
  off : ∀ x, P.off x ≤ 12

theorem costBits_le (n count lo : Nat) {hi : Nat} (h : lo ≤ hi) : costBits n count lo hi ≤ hi := by
  rw [costBits]
  omega

theorem litPrice_le (hist : Nat → Nat) (n s : Nat) : litPrice hist n s ≤ 14 := by
  have hcost := costBits_le n (hist s) 2 (show 2 ≤ 14 by decide)
  rw [litPrice]
  split
  · exact Nat.le_refl _
  · omega

theorem ofPrice_le (hist : Nat → Nat) (nseq x : Nat) : ofPrice hist nseq x ≤ 12 := by
  rw [ofPrice]
  by_cases hrep : x < 3
  · rw [if_pos hrep]
    omega
  · rw [if_neg hrep]
    omega

theorem blockPrices_fair (fresh : FreshTables) (A : BlockArgs) (m : Matcher) :
    (blockPrices fresh A m).Fair := by
  rw [blockPrices]
  split_ifs
  · exact ⟨litPrice_le _ _, ofPrice_le _ _⟩
  · exact ⟨litPrice_le _ _, ofPrice_le _ _⟩

/-- The prices where the prepass gets no memory. -/
def rawPrices (A : BlockArgs) : Prices where
  lit := litPrice ((bytesAt A.src A.start_pos A.block_len).foldl (fun f b => bump f b.toNat)
    fun _ => 0) A.block_len
  off := ofPrice (fun _ => 0) 0

theorem rawPrices_fair (A : BlockArgs) : (rawPrices A).Fair := ⟨litPrice_le _ _, ofPrice_le _ _⟩

/-- A match costs no more than so much for each of its bytes. -/
theorem Prices.Fair.matchPrice_le {P : Prices} (hP : P.Fair) (reps : Fin 3 → Nat) {off len : Nat}
    (hoff : off < 2 ^ 24) (hlen : 1 ≤ len) : P.matchPrice reps off len ≤ 64 * len := by
  have hx := hP.off (offsetCode reps off)
  have hlog : encIlog2 off < 24 := by
    by_cases hzero : off = 0
    · rw [hzero]
      decide
    · exact (Nat.log2_lt hzero).mpr hoff
  have hmin : len - minMatch ≤ len := Nat.sub_le _ _
  have hdiv := Nat.div_mul_le_self (len - minMatch) 255
  rw [Prices.matchPrice]
  split <;> split <;> omega

/-! ## Candidates -/

theorem IsMatch.shorter {src : Bytes} {pos off len len' : Nat} (h : IsMatch src pos off len)
    (hlen : len' ≤ len) : IsMatch src pos off len' :=
  ⟨h.far, h.back, fun i hi => h.same i (by omega)⟩

/-- A candidate is a match of the window that is there. -/
structure Cand.Good (m : Matcher) (src : Bytes) (pos «end» : Nat) (c : Cand) : Prop where
  isMatch : IsMatch src pos c.off c.len
  window : c.off ≤ 2 ^ m.wlog - 1
  max_len : c.len ≤ m.maxLen pos «end»

section Candidates

variable {m : Matcher} {src : Bytes} {pos «end» : Nat} {cands : List Cand}

theorem repCands_good {max_len : Nat} (hmax : max_len ≤ m.maxLen pos «end») (offs : List Nat)
    (hoffs : ∀ o ∈ offs, o ≤ 2 ^ m.wlog - 1) (h : ∀ c ∈ cands, c.Good m src pos «end») :
    ∀ c ∈ (repCands src pos max_len offs cands).1, c.Good m src pos «end» := by
  induction offs generalizing cands with
  | nil => exact h
  | cons roff rest ih =>
      have hrest : ∀ o ∈ rest, o ≤ 2 ^ m.wlog - 1 := fun o ho => hoffs o (List.mem_cons_of_mem _ ho)
      rw [repCands]
      by_cases hnone : roff = 0 ∨ pos < roff
      · rw [if_pos hnone]
        exact ih hrest h
      · rw [if_neg hnone]
        dsimp only
        obtain ⟨hle, hsame⟩ := extendMatch_spec src pos (pos - roff) max_len
        have hgood : Cand.Good m src pos «end» ⟨roff, extendMatch src pos (pos - roff) max_len⟩ := by
          refine ⟨⟨by dsimp only; omega, by dsimp only; omega, fun i hi => ?_⟩,
            hoffs roff (List.mem_cons_self ..), hle.trans hmax⟩
          rw [hsame i hi, show pos + i - roff = pos - roff + i by omega]
        have hnext : ∀ c ∈ (if minMatch ≤ extendMatch src pos (pos - roff) max_len ∧
            cands.length < maxCand then
              cands ++ [⟨roff, extendMatch src pos (pos - roff) max_len⟩] else cands),
            c.Good m src pos «end» := by
          intro c hc
          split at hc
          · rcases List.mem_append.mp hc with hold | hnew
            · exact h c hold
            · rw [List.mem_singleton.mp hnew]
              exact hgood
          · exact h c hc
        split
        · exact hnext
        · exact ih hrest hnext

theorem addCand_good {c : Cand} (h : ∀ c ∈ cands, c.Good m src pos «end»)
    (hc : c.Good m src pos «end») : ∀ d ∈ addCand cands c, d.Good m src pos «end» := by
  intro d hd
  rw [addCand] at hd
  split at hd
  · obtain ⟨i, hi, rfl⟩ := List.mem_iff_getElem.mp hd
    rw [List.getElem_modify] at *
    split
    · split
      · exact hc
      · exact h _ (List.getElem_mem _)
    · exact h _ (List.getElem_mem _)
  · split at hd
    · rcases List.mem_append.mp hd with hold | hnew
      · exact h d hold
      · rw [List.mem_singleton.mp hnew]
        exact hc
    · exact h d hd

theorem chainCands_good (hend : pos + 4 ≤ src.length) (hmax : 4 ≤ m.maxLen pos «end»)
    (depth : Nat) (ref : Int) (h : ∀ c ∈ cands, c.Good m src pos «end») :
    ∀ c ∈ m.chainCands src pos (m.maxLen pos «end») depth ref cands, c.Good m src pos «end» := by
  induction depth generalizing ref cands with
  | zero => exact h
  | succ depth ih =>
      rw [Matcher.chainCands]
      split
      · rename_i hin
        obtain ⟨hlimit, href, -⟩ := hin
        dsimp only
        split
        · rename_i hsame
          have hnear : m.limit pos ≤ ref.toNat := by omega
          have hbefore : ref.toNat < pos := by omega
          obtain hzero | ⟨hmatch, hwindow, hlen⟩ :=
            Matcher.good_of_compared hnear hbefore hend hmax hsame
          · omega
          · have hgood : Cand.Good m src pos «end» ⟨pos - ref.toNat,
                4 + extendMatch src (pos + 4) (ref.toNat + 4) (m.maxLen pos «end» - 4)⟩ :=
              ⟨hmatch, hwindow, hlen⟩
            have hnext := addCand_good h hgood
            split
            · exact hnext
            · exact ih _ hnext
        · exact ih _ h
      · exact h

/-- **CANDIDATES ARE THERE**, whatever the tables hold. -/
theorem optCollect_good (hend : «end» ≤ src.length) (hmax : 4 ≤ m.max_match) {reps : Fin 3 → Nat}
    (hreps : ∀ i, reps i ≤ 2 ^ m.wlog - 1) :
    ∀ c ∈ m.optCollect src pos «end» reps, c.Good m src pos «end» := by
  intro c hc
  rw [Matcher.optCollect] at hc
  split at hc
  · cases hc
  · rename_i hroom
    have hnone : ∀ c ∈ ([] : List Cand), c.Good m src pos «end» := by
      intro c hc
      cases hc
    have hoffs : ∀ o ∈ [reps 0, reps 1, reps 2], o ≤ 2 ^ m.wlog - 1 := by
      intro o ho
      simp only [List.mem_cons, List.not_mem_nil, or_false] at ho
      rcases ho with rfl | rfl | rfl
      · exact hreps 0
      · exact hreps 1
      · exact hreps 2
    have hrep := repCands_good (Nat.le_refl (m.maxLen pos «end»)) _ hoffs hnone
    dsimp only at hc
    split at hc
    · rename_i cands heq
      rw [heq] at hrep
      exact hrep c hc
    · rename_i cands heq
      rw [heq] at hrep
      exact chainCands_good (by omega) (by rw [Matcher.maxLen]; omega) _ _ hrep c hc

theorem longest_mem (cands : List Cand) :
    longest cands = ⟨0, 0⟩ ∨ longest cands ∈ cands := by
  have hkeep : ∀ (l : List Cand) (best : Cand),
      l.foldl (fun best c => if best.len < c.len then c else best) best = best ∨
        l.foldl (fun best c => if best.len < c.len then c else best) best ∈ l := by
    intro l
    induction l with
    | nil => exact fun best => Or.inl rfl
    | cons c l ih =>
        intro best
        rw [List.foldl_cons]
        rcases ih (if best.len < c.len then c else best) with hsame | hmem
        · rw [hsame]
          split
          · exact Or.inr (List.mem_cons_self ..)
          · exact Or.inl rfl
        · exact Or.inr (List.mem_cons_of_mem _ hmem)
  exact hkeep cands ⟨0, 0⟩

theorem triedLens_bounds {min_match mlen turns L L' : Nat} (h : L' ∈ triedLens min_match mlen turns L) :
    min_match ≤ L' ∧ 0 < L' ∧ L' ≤ L := by
  induction turns generalizing L with
  | zero => cases h
  | succ turns ih =>
      rw [triedLens] at h
      split at h
      · cases h
      · split at h
        · rcases List.mem_cons.mp h with rfl | hrest
          · omega
          · have hbounds := ih hrest
            omega
        · rcases List.mem_cons.mp h with rfl | hrest
          · omega
          · have hbounds := ih hrest
            omega

end Candidates

/-! ## Cells -/

/-- The step that leads to position `j` of the block: a literal, or a match that the
    parser may emit. -/
def BlockStep (A : BlockArgs) (m0 : Matcher) (i : Nat) (c : Cand) : Prop :=
  (c.off = 0 ∧ c.len = 1) ∨
    (IsMatch A.src (A.start_pos + i) c.off c.len ∧ c.off ≤ 2 ^ m0.wlog - 1 ∧
      A.min_match ≤ c.len ∧ c.len ≤ m0.max_match)

/-- The last step of a cell that is reached comes from a cell that is reached. -/
structure Reached.Sound (A : BlockArgs) (m0 : Matcher) (cells : Nat → Reached) (j : Nat) : Prop where
  price : (cells j).price ≤ 64 * j
  reps : ∀ i, (cells j).reps i ≤ 2 ^ m0.wlog - 1
  pos : 0 < j → 1 ≤ (cells j).len
  le : (cells j).len ≤ j
  origin : 0 < j → (cells (j - (cells j).len)).price < priceInf
  step : 0 < j → BlockStep A m0 (j - (cells j).len) ⟨(cells j).off, (cells j).len⟩

/-- All cells that are reached. -/
def CellsSound (A : BlockArgs) (m0 : Matcher) (cells : Nat → Reached) : Prop :=
  ∀ j, (cells j).price < priceInf → Reached.Sound A m0 cells j

/-- Cells that were reached stay so. -/
def CellsGrow (cells cells' : Nat → Reached) : Prop :=
  ∀ j, (cells j).price < priceInf → (cells' j).price < priceInf

section Cells

variable {A : BlockArgs} {m0 : Matcher} {P : Prices} {cells : Nat → Reached} {i j : Nat} {r : Reached}

theorem relax_self (cells : Nat → Reached) (j : Nat) (r : Reached) :
    (relax cells j r j).price ≤ r.price := by
  rw [relax]
  by_cases hless : r.price < (cells j).price
  · rw [if_pos hless, put, if_pos rfl]
  · rw [if_neg hless]
    exact Nat.not_lt.mp hless

theorem relax_grows (cells : Nat → Reached) (j : Nat) (r : Reached) : CellsGrow cells (relax cells j r) := by
  intro k hk
  rw [relax]
  by_cases hless : r.price < (cells j).price
  · rw [if_pos hless, put]
    by_cases hj : k = j
    · rw [if_pos hj]
      rw [hj] at hk
      omega
    · rw [if_neg hj]
      exact hk
  · rw [if_neg hless]
    exact hk

/-- A cell behind the others is written. -/
theorem relax_of_ne (cells : Nat → Reached) (r : Reached) {k : Nat} (h : k ≠ j) :
    relax cells j r k = cells k := by
  rw [relax]
  split
  · exact if_neg h
  · rfl

/-- **AN EDGE** keeps the cells sound. -/
theorem relax_sound (h : CellsSound A m0 cells) (hi : (cells i).price < priceInf) (hij : i < j)
    (hprice : r.price ≤ 64 * j) (hreps : ∀ k, r.reps k ≤ 2 ^ m0.wlog - 1) (hlen : r.len = j - i)
    (hstep : BlockStep A m0 i ⟨r.off, r.len⟩) : CellsSound A m0 (relax cells j r) := by
  have hgrows := relax_grows cells j r
  intro k hk
  rw [relax] at hk hgrows ⊢
  by_cases hless : r.price < (cells j).price
  · rw [if_pos hless] at hk hgrows ⊢
    by_cases hj : k = j
    · subst hj
      have hself : put cells k r k = r := if_pos rfl
      have hback : k - r.len = i := by omega
      refine ⟨?_, ?_, ?_, ?_, ?_, ?_⟩ <;> rw [hself]
      · exact hprice
      · exact hreps
      · intro _
        omega
      · omega
      · intro _
        rw [hback]
        exact hgrows i hi
      · intro _
        rw [hback]
        exact hstep
    · have hself : put cells j r k = cells k := if_neg hj
      rw [hself] at hk
      have hold := h k hk
      refine ⟨?_, ?_, ?_, ?_, ?_, ?_⟩ <;> rw [hself]
      · exact hold.price
      · exact hold.reps
      · exact hold.pos
      · exact hold.le
      · intro hpos
        exact hgrows _ (hold.origin hpos)
      · exact hold.step
  · rw [if_neg hless] at hk ⊢
    exact h k hk

theorem repPush_bound {reps : Fin 3 → Nat} {off bound : Nat} (hreps : ∀ i, reps i ≤ bound)
    (hoff : off ≤ bound) : ∀ i, repPush reps off i ≤ bound := by
  intro i
  rw [repPush]
  split
  · exact hreps i
  · match i with
    | 0 => exact hoff
    | 1 => exact hreps 0
    | 2 => exact hreps 1

/-- An edge for a match, or for the first bytes of one. -/
theorem matchEdge (hP : P.Fair) (hwlog : m0.wlog ≤ 24)
    (h : CellsSound A m0 cells) (hi : (cells i).price < priceInf) {c : Cand}
    (hc : c.Good m0 A.src (A.start_pos + i) A.end) {L : Nat} (hpos : 0 < L) (hL : L ≤ c.len)
    (hmin : A.min_match ≤ L) {reps : Fin 3 → Nat} (hreps : ∀ k, reps k ≤ 2 ^ m0.wlog - 1)
    {price : Nat} (hprice : price ≤ 64 * i) :
    CellsSound A m0 (relax cells (i + L)
      ⟨price + P.matchPrice reps c.off L, L, c.off, repPush reps c.off⟩) := by
  have hwindow := hc.window
  have hpow : 2 ^ m0.wlog ≤ 2 ^ 24 := Nat.pow_le_pow_right (by decide) hwlog
  have hcost := hP.matchPrice_le reps (show c.off < 2 ^ 24 by omega) hpos
  have hlen := hc.max_len
  rw [Matcher.maxLen] at hlen
  refine relax_sound h hi (by omega) ?_ (repPush_bound hreps hwindow) ?_ (Or.inr ⟨?_, hwindow, hmin, ?_⟩)
  · dsimp only
    omega
  · dsimp only
    omega
  · exact hc.isMatch.shorter hL
  · dsimp only
    omega

/-- What the edges of one position leave: sound cells, of which no fewer are reached. -/
def EdgesSound (A : BlockArgs) (m0 : Matcher) (cells cells' : Nat → Reached) : Prop :=
  CellsSound A m0 cells' ∧ CellsGrow cells cells'

theorem relaxCand_edges (hP : P.Fair) (hwlog : m0.wlog ≤ 24) (h : CellsSound A m0 cells)
    (hi : (cells i).price < priceInf) {c : Cand} (hc : c.Good m0 A.src (A.start_pos + i) A.end)
    {here : Reached} (hprice : here.price ≤ 64 * i) (hreps : ∀ k, here.reps k ≤ 2 ^ m0.wlog - 1) :
    EdgesSound A m0 cells (relaxCand P A.min_match A.block_len i here cells c) := by
  have hall : ∀ lens : List Nat, (∀ L ∈ lens, A.min_match ≤ L ∧ 0 < L ∧ L ≤ c.len) →
      ∀ cells, CellsSound A m0 cells → (cells i).price < priceInf →
      EdgesSound A m0 cells (lens.foldl (fun cells L => relax cells (i + L)
        ⟨here.price + P.matchPrice here.reps c.off L, L, c.off, repPush here.reps c.off⟩) cells) := by
    intro lens hlens
    induction lens with
    | nil => exact fun cells h _ => ⟨h, fun _ hk => hk⟩
    | cons L lens ih =>
        intro cells h hi
        obtain ⟨hmin, hpos, hle⟩ := hlens L (List.mem_cons_self ..)
        have hedge := matchEdge hP hwlog h hi hc hpos hle hmin hreps hprice
        have hgrows := relax_grows cells (i + L)
          ⟨here.price + P.matchPrice here.reps c.off L, L, c.off, repPush here.reps c.off⟩
        obtain ⟨hsound, hrest⟩ :=
          ih (fun L' hL' => hlens L' (List.mem_cons_of_mem _ hL')) _ hedge (hgrows i hi)
        exact ⟨hsound, fun k hk => hrest k (hgrows k hk)⟩
  rw [relaxCand]
  split
  · exact ⟨h, fun _ hk => hk⟩
  · refine hall _ (fun L hL => ?_) cells h hi
    have hbounds := triedLens_bounds hL
    omega

theorem relaxCands_edges (hP : P.Fair) (hwlog : m0.wlog ≤ 24) {here : Reached}
    (hprice : here.price ≤ 64 * i) (hreps : ∀ k, here.reps k ≤ 2 ^ m0.wlog - 1) (cands : List Cand)
    (hcands : ∀ c ∈ cands, c.Good m0 A.src (A.start_pos + i) A.end) (h : CellsSound A m0 cells)
    (hi : (cells i).price < priceInf) :
    EdgesSound A m0 cells (cands.foldl (relaxCand P A.min_match A.block_len i here) cells) := by
  induction cands generalizing cells with
  | nil => exact ⟨h, fun _ hk => hk⟩
  | cons c cands ih =>
      obtain ⟨hsound, hgrows⟩ :=
        relaxCand_edges hP hwlog h hi (hcands c (List.mem_cons_self ..)) hprice hreps
      obtain ⟨hdone, hrest⟩ :=
        ih (fun d hd => hcands d (List.mem_cons_of_mem _ hd)) hsound (hgrows i hi)
      exact ⟨hdone, fun k hk => hrest k (hgrows k hk)⟩

end Cells

/-! ## The forward loop -/

/-- What is asked of the arguments and of the matcher.  Its tables and its offsets may be
    anything. -/
structure BlockArgs.Placed (A : BlockArgs) (m : Matcher) : Prop where
  inside : A.end ≤ A.src.length
  min_match : A.min_match = 3 ∨ A.min_match = 4
  max_match : 4 ≤ m.max_match
  wlog : m.wlog ≤ 24
  small : A.block_len ≤ maxBlockSize

/-- The program at position `i`, which it has reached. -/
structure Program.Sound (A : BlockArgs) (m0 : Matcher) (s : Program) (i : Nat) : Prop where
  same : m0.SameSettings s.m
  cells : CellsSound A m0 s.cells
  le : i ≤ A.block_len
  reached : (s.cells i).price < priceInf

section Forward

variable {A : BlockArgs} {m0 : Matcher} {P : Prices} {s : Program} {i : Nat}

/-- Each turn passes a byte at least, whatever the cells hold. -/
theorem advance_lt (P : Prices) (s : Program) (hi : i < A.block_len) : i < (A.advance P s i).2 := by
  rw [BlockArgs.advance]
  dsimp only
  split
  · exact Nat.lt_succ_self i
  · split
    · exact Nat.lt_succ_self i
    · split
      · rename_i hlong
        rw [longMatch] at hlong
        dsimp only
        omega
      · exact Nat.lt_succ_self i

/-- Fuel for the bytes that are left is enough. -/
theorem forward_enough (P : Prices) {turns turns' : Nat} (s : Program) (h : A.block_len - i ≤ turns)
    (h' : A.block_len - i ≤ turns') : A.forward P turns s i = A.forward P turns' s i := by
  induction turns generalizing turns' s i with
  | zero =>
      cases turns' with
      | zero => rfl
      | succ turns' => rw [BlockArgs.forward, BlockArgs.forward, if_neg (by omega)]
  | succ turns ih =>
      by_cases hi : i < A.block_len
      · have hless := advance_lt P s hi
        obtain ⟨turns', rfl⟩ : ∃ n, turns' = n + 1 := ⟨turns' - 1, by omega⟩
        rw [BlockArgs.forward, BlockArgs.forward, if_pos hi, if_pos hi]
        cases hstep : A.advance P s i with
        | mk s' i' =>
            rw [hstep] at hless
            exact ih s' (by omega) (by omega)
      · rw [BlockArgs.forward, if_neg hi]
        cases turns' with
        | zero => rfl
        | succ turns' => rw [BlockArgs.forward, if_neg hi]

/-- **A TURN** comes to a position that is reached. -/
theorem advance_sound (hA : A.Placed m0) (hP : P.Fair) (h : s.Sound A m0 i) (hi : i < A.block_len) :
    (A.advance P s i).1.Sound A m0 (A.advance P s i).2 := by
  obtain ⟨hsame, hcells, -, hreached⟩ := h
  have hsmall := hA.small
  have hend : A.end = A.start_pos + A.block_len := rfl
  have hinf : priceInf = 0x3FFFFFFF := rfl
  have hblock : maxBlockSize = 2 ^ 20 := rfl
  have hhere := hcells i hreached
  have hprice := hhere.price
  have hlit := hP.lit (charAt A.src (A.start_pos + i)).toNat
  -- the literal's edge comes first, and it alone reaches the next position
  have hliteral : CellsSound A m0 (relax s.cells (i + 1)
      ⟨(s.cells i).price + P.lit (charAt A.src (A.start_pos + i)).toNat, 1, 0, (s.cells i).reps⟩) := by
    refine relax_sound hcells hreached (Nat.lt_succ_self i) ?_ hhere.reps ?_ (Or.inl ⟨rfl, rfl⟩)
    · dsimp only
      omega
    · dsimp only
      omega
  have hgrows := relax_grows s.cells (i + 1)
    ⟨(s.cells i).price + P.lit (charAt A.src (A.start_pos + i)).toNat, 1, 0, (s.cells i).reps⟩
  have hnext := relax_self s.cells (i + 1)
    ⟨(s.cells i).price + P.lit (charAt A.src (A.start_pos + i)).toNat, 1, 0, (s.cells i).reps⟩
  dsimp only at hnext
  have hinsert := hsame.trans (s.m.insert_same A.src (A.start_pos + i) A.end)
  rw [BlockArgs.advance]
  dsimp only
  rw [if_neg (by omega)]
  generalize relax s.cells (i + 1)
    ⟨(s.cells i).price + P.lit (charAt A.src (A.start_pos + i)).toNat, 1, 0, (s.cells i).reps⟩ = cells
    at hliteral hgrows hnext ⊢
  have hstep : (cells (i + 1)).price < priceInf := by omega
  split
  · exact ⟨hinsert, hliteral, hi, hstep⟩
  · have hreps : ∀ k, (s.cells i).reps k ≤ 2 ^ s.m.wlog - 1 := by
      intro k
      rw [hsame.wlog]
      exact hhere.reps k
    have hmax : 4 ≤ s.m.max_match := by
      rw [hsame.max_match]
      exact hA.max_match
    have hcands : ∀ c ∈ s.m.optCollect A.src (A.start_pos + i) A.end (s.cells i).reps,
        c.Good s.m A.src (A.start_pos + i) A.end := optCollect_good hA.inside hmax hreps
    generalize s.m.optCollect A.src (A.start_pos + i) A.end (s.cells i).reps = cands at hcands ⊢
    have hgood : ∀ c ∈ cands, c.Good m0 A.src (A.start_pos + i) A.end := by
      intro c hc
      obtain ⟨hmatch, hwindow, hlen⟩ := hcands c hc
      rw [hsame.wlog] at hwindow
      rw [Matcher.maxLen, hsame.max_match] at hlen
      exact ⟨hmatch, hwindow, hlen⟩
    split
    · rename_i hlong
      have hmem := (longest_mem cands).resolve_left fun hnone => by
        rw [hnone] at hlong
        exact absurd hlong (by decide)
      generalize longest cands = best at hlong hmem ⊢
      have hbest := hgood best hmem
      have hfits := hbest.max_len
      rw [Matcher.maxLen] at hfits
      have huse : min best.len (A.block_len - i) = best.len := by omega
      rw [longMatch] at hlong
      rw [huse]
      have hmin : A.min_match ≤ best.len := by
        rcases hA.min_match with h3 | h4
        · omega
        · omega
      have hwindow := hbest.window
      have hpow : 2 ^ m0.wlog ≤ 2 ^ 24 := Nat.pow_le_pow_right (by decide) hA.wlog
      have hoff : best.off < 2 ^ 24 := by omega
      have hlen : 1 ≤ best.len := by omega
      have hcost := hP.matchPrice_le (s.cells i).reps hoff hlen
      have hedge := matchEdge hP hA.wlog hliteral (hgrows i hreached) hbest (by omega)
        (Nat.le_refl _) hmin hhere.reps hprice
      have hself := relax_self cells (i + best.len) ⟨(s.cells i).price +
        P.matchPrice (s.cells i).reps best.off best.len, best.len, best.off,
        repPush (s.cells i).reps best.off⟩
      dsimp only at hself
      refine ⟨?_, hedge, by dsimp only; omega, by dsimp only; omega⟩
      exact hsame.trans ((s.m.insertRange_same A.src A.end _ _ _).trans
        (Matcher.insertRange_same _ A.src A.end _ _ _))
    · obtain ⟨hdone, hmore⟩ := relaxCands_edges (A := A) hP hA.wlog hprice hhere.reps cands hgood
        hliteral (hgrows i hreached)
      exact ⟨hinsert, hdone, hi, hmore _ hstep⟩

/-- **THE LOOP** reaches the end of the block. -/
theorem forward_sound (hA : A.Placed m0) (hP : P.Fair) {turns : Nat} (h : s.Sound A m0 i)
    (hturns : A.block_len - i ≤ turns) : (A.forward P turns s i).Sound A m0 A.block_len := by
  induction turns generalizing s i with
  | zero =>
      obtain rfl : i = A.block_len := by
        have hle := h.le
        omega
      exact h
  | succ turns ih =>
      rw [BlockArgs.forward]
      by_cases hi : i < A.block_len
      · rw [if_pos hi]
        have hless := advance_lt P s hi
        have hnext := advance_sound hA hP h hi
        cases hstep : A.advance P s i with
        | mk s' i' =>
            rw [hstep] at hless hnext
            exact ih hnext (by dsimp only at hless; omega)
      · rw [if_neg hi]
        obtain rfl : i = A.block_len := by
          have hle := h.le
          omega
        exact h

theorem programStart_sound (A : BlockArgs) (m0 : Matcher) : (programStart m0).Sound A m0 0 where
  same := Matcher.SameSettings.refl m0
  cells := by
    intro j hj
    by_cases hzero : j = 0
    · subst hzero
      have hnone : ¬ 0 < 0 := Nat.lt_irrefl 0
      refine ⟨Nat.zero_le _, ?_, fun h => absurd h hnone, Nat.le_refl _, fun h => absurd h hnone,
        fun h => absurd h hnone⟩
      intro k
      match k with
      | 0 => exact Nat.zero_le _
      | 1 => exact Nat.zero_le _
      | 2 => exact Nat.zero_le _
    · have hcell : (programStart m0).cells j = ⟨priceInf, 0, 0, ![0, 0, 0]⟩ := if_neg hzero
      rw [hcell] at hj
      exact absurd hj (Nat.lt_irrefl _)
  le := Nat.zero_le _
  reached := show 0 < priceInf by decide

end Forward

/-! ## The walk back -/

/-- Steps that lead from position `i` to the end of the block. -/
def BlockPath (A : BlockArgs) (m0 : Matcher) : (i : Nat) → List Cand → Prop
  | i, [] => i = A.block_len
  | i, c :: rest => BlockStep A m0 i c ∧ BlockPath A m0 (i + c.len) rest

section Back

variable {A : BlockArgs} {m0 : Matcher} {cells : Nat → Reached}

/-- Fuel for the bytes in front is enough, whatever the cells hold. -/
theorem backtrack_enough (cells : Nat → Reached) {turns turns' cur : Nat} (steps : List Cand)
    (h : cur ≤ turns) (h' : cur ≤ turns') :
    backtrack cells turns cur steps = backtrack cells turns' cur steps := by
  induction turns generalizing turns' cur steps with
  | zero =>
      obtain rfl := Nat.le_zero.mp h
      cases turns' with
      | zero => rfl
      | succ turns' => rw [backtrack, backtrack, if_pos rfl]
  | succ turns ih =>
      rw [backtrack]
      by_cases hcur : cur = 0
      · rw [if_pos hcur]
        cases turns' with
        | zero => rfl
        | succ turns' => rw [backtrack, if_pos hcur]
      · obtain ⟨turns', rfl⟩ : ∃ n, turns' = n + 1 := ⟨turns' - 1, by omega⟩
        have hone : 1 ≤ if (cells cur).len = 0 then 1 else (cells cur).len := by
          split
          · exact Nat.le_refl _
          · omega
        rw [backtrack, if_neg hcur, if_neg hcur]
        exact ih _ (by omega) (by omega)

/-- **THE WALK BACK** ends at the start of the block. -/
theorem backtrack_path (hcells : CellsSound A m0 cells) {turns cur : Nat} {steps : List Cand}
    (hcur : cur ≤ turns) (hreached : (cells cur).price < priceInf) (h : BlockPath A m0 cur steps) :
    BlockPath A m0 0 (backtrack cells turns cur steps) := by
  induction turns generalizing cur steps with
  | zero =>
      obtain rfl := Nat.le_zero.mp hcur
      exact h
  | succ turns ih =>
      rw [backtrack]
      by_cases hzero : cur = 0
      · rw [if_pos hzero, ← hzero]
        exact h
      · have hpos : 0 < cur := Nat.pos_of_ne_zero hzero
        obtain ⟨-, -, hone, hle, horigin, hstep⟩ := hcells cur hreached
        have hsome := hone hpos
        rw [if_neg hzero, if_neg (by omega)]
        refine ih (by omega) (horigin hpos) ⟨hstep hpos, ?_⟩
        dsimp only
        rw [Nat.sub_add_cancel hle]
        exact h

end Back

/-! ## Emission -/

theorem writeVarint_length (v : Nat) : (writeVarint v).length = v / 255 + 1 := by
  rw [writeVarint, List.length_append, List.length_replicate, List.length_singleton]

theorem lenExt_length (v : Nat) : (lenExt v).length = if 15 ≤ v then (v - 15) / 255 + 1 else 0 := by
  rw [lenExt]
  split
  · exact writeVarint_length _
  · rfl

/-- What the parser reckons for the literals of a sequence is enough. -/
theorem lenExt_le (ll : Nat) : (lenExt ll).length ≤ extNeeded ll := by
  rw [lenExt_length, extNeeded]
  split
  · have hdiv : (ll - 15) / 255 ≤ ll / 255 := Nat.div_le_div_right (Nat.sub_le _ _)
    omega
  · exact Nat.le_refl _

/-- What it reckons for a match as well. -/
theorem emitSeq_le {lits : Bytes} {ml off offBytes min_match : Nat} (hbytes : offBytes = 2 ∨ offBytes = 3)
    (hmin : 1 ≤ min_match) : (emitSeq lits ml off offBytes min_match).length ≤
      1 + extNeeded lits.length + lits.length + (if 0 < ml then 2 + (ml / 255 + 2) else 0) := by
  have hlit := lenExt_le lits.length
  have hput := offsetPut_length hbytes off
  rw [emitSeq]
  simp only [List.length_cons, List.length_append]
  split
  · have hext : (lenExt (ml - min_match)).length ≤ ml / 255 + 1 := by
      rw [lenExt_length]
      split
      · have hdiv : (ml - min_match - 15) / 255 ≤ ml / 255 := Nat.div_le_div_right (by omega)
        omega
      · exact Nat.zero_le _
    rw [List.length_append, hput]
    rcases hbytes with h2 | h3
    · omega
    · omega
  · rw [List.length_nil]
    omega

/-- What the emission has made of the steps so far.  It is not asked which offsets the
    matcher remembers. -/
structure Parse.Emitted (A : BlockArgs) (m0 : Matcher) (s : Parse) (qs : List Seq) : Prop where
  wlog : s.m.wlog = m0.wlog
  max_match : s.m.max_match = m0.max_match
  out : s.out = qs.flatMap (Seq.emit m0.offBytes A.min_match)
  within : ∀ q ∈ qs, q.Within m0.wlog m0.max_match A.min_match
  expands : qs.foldl Seq.expand (A.src.take A.start_pos) = A.src.take s.lit_start
  reach : Reaches (A.src.take A.start_pos) qs
  lit_le : s.lit_start ≤ s.pos
  room : s.out.length ≤ A.dst_cap

section Emission

variable {A : BlockArgs} {m0 : Matcher} {s s' : Parse} {qs : List Seq}

theorem BlockPath.le {i : Nat} {steps : List Cand} (h : BlockPath A m0 i steps) : i ≤ A.block_len := by
  induction steps generalizing i with
  | nil => exact Nat.le_of_eq h
  | cons c rest ih =>
      have hrest := ih h.2
      omega

theorem lits_length {lit_start pos : Nat} (hle : lit_start ≤ pos) (hpos : pos ≤ A.src.length) :
    (A.lits lit_start pos).length = pos - lit_start := bytesAt_length (by omega)

/-- The next match of the path is emitted, if there is room. -/
theorem Parse.Emitted.next (hA : A.Placed m0) (h : s.Emitted A m0 qs) {c : Cand}
    (hmatch : IsMatch A.src s.pos c.off c.len) (hwindow : c.off ≤ 2 ^ m0.wlog - 1)
    (hmin : A.min_match ≤ c.len) (hmax : c.len ≤ m0.max_match) (hend : s.pos + c.len ≤ A.end)
    (hroom : s.out.length + (1 + extNeeded (s.pos - s.lit_start) + (s.pos - s.lit_start) + 2 +
      (c.len / 255 + 2)) ≤ A.dst_cap) :
    Parse.Emitted A m0
      { s with
        pos := s.pos + c.len
        lit_start := s.pos + c.len
        m := s.m.updateRep c.off
        out := s.out ++ emitSeq (A.lits s.lit_start s.pos) c.len c.off s.m.offBytes A.min_match }
      (qs ++ [⟨A.lits s.lit_start s.pos, c.off, c.len⟩]) := by
  have hinside := hA.inside
  have hlit := h.lit_le
  have hone : 1 ≤ A.min_match := by
    rcases hA.min_match with h3 | h4
    · omega
    · omega
  have hbytes : s.m.offBytes = m0.offBytes := by
    rw [Matcher.offBytes, Matcher.offBytes, h.wlog]
  constructor
  · show (s.m.updateRep c.off).wlog = m0.wlog
    rw [Matcher.updateRep_wlog, h.wlog]
  · show (s.m.updateRep c.off).max_match = m0.max_match
    rw [Matcher.updateRep_max_match, h.max_match]
  · show s.out ++ emitSeq _ _ _ _ _ = _
    rw [h.out, hbytes, List.flatMap_append, List.flatMap_singleton, Seq.emit]
  · intro q hq
    rcases List.mem_append.mp hq with hold | hnew
    · exact h.within q hold
    · rw [List.mem_singleton.mp hnew]
      exact ⟨hmatch.far, hwindow, hmin, hmax⟩
  · show _ = A.src.take (s.pos + c.len)
    rw [List.foldl_append, h.expands, List.foldl_cons, List.foldl_nil, Seq.expand,
      take_append_lits hlit]
    exact hmatch.extend (by omega)
  · rw [reaches_append, h.expands]
    refine ⟨h.reach, hmatch.far, ?_, trivial⟩
    have hback := hmatch.back
    rw [take_append_lits hlit, List.length_take_of_le (by omega)]
    exact hback
  · exact Nat.le_refl _
  · have hlen := lits_length (A := A) hlit (show s.pos ≤ A.src.length by omega)
    have hemit : (emitSeq (A.lits s.lit_start s.pos) c.len c.off s.m.offBytes A.min_match).length ≤
        1 + extNeeded (A.lits s.lit_start s.pos).length + (A.lits s.lit_start s.pos).length +
          (if 0 < c.len then 2 + (c.len / 255 + 2) else 0) := emitSeq_le (offBytes_eq s.m) hone
    rw [hlen, if_pos (by omega)] at hemit
    show (s.out ++ emitSeq _ _ _ _ _).length ≤ _
    rw [List.length_append]
    omega

/-- **THE EMISSION** of a path, step by step. -/
theorem emitSteps_sound (hA : A.Placed m0) {i : Nat} {steps : List Cand} (h : s.Emitted A m0 qs)
    (hpos : s.pos = A.start_pos + i) (hsteps : BlockPath A m0 i steps)
    (hok : A.emitSteps steps s = .ok s') : s'.pos = A.end ∧ ∃ qs', s'.Emitted A m0 qs' := by
  induction steps generalizing s qs i with
  | nil =>
      cases hok
      have hend : i = A.block_len := hsteps
      rw [hend] at hpos
      exact ⟨hpos, qs, h⟩
  | cons c rest ih =>
      obtain ⟨hstep, hrest⟩ := hsteps
      have hle := hrest.le
      have hend : A.end = A.start_pos + A.block_len := rfl
      rw [BlockArgs.emitSteps] at hok
      rcases hstep with ⟨hoff, hlen⟩ | ⟨hmatch, hwindow, hmin, hmax⟩
      · rw [if_pos hoff] at hok
        rw [hlen] at hrest
        have hlit := h.lit_le
        have hnext : Parse.Emitted A m0 { s with pos := s.pos + 1 } qs :=
          { h with lit_le := Nat.le_succ_of_le hlit }
        exact ih hnext (by dsimp only; omega) hrest hok
      · rw [if_neg (by have hfar := hmatch.far; omega)] at hok
        dsimp only at hok
        split at hok
        · cases hok
        · rename_i hroom
          rw [← hpos] at hmatch
          exact ih (h.next hA hmatch hwindow hmin hmax (by omega) (by omega))
            (by dsimp only; omega) hrest hok

/-- The last literals. -/
theorem Parse.Emitted.finish (hA : A.Placed m0) (h : s.Emitted A m0 qs) (hpos : s.pos = A.end)
    {out : Bytes} (hout : A.finish s = some out) : out.length ≤ A.dst_cap ∧ m0.Encodes A out := by
  have hlit := h.lit_le
  rw [hpos] at hlit
  have hone : 1 ≤ A.min_match := by
    rcases hA.min_match with h3 | h4
    · omega
    · omega
  have hbytes : s.m.offBytes = m0.offBytes := by
    rw [Matcher.offBytes, Matcher.offBytes, h.wlog]
  have hlen := lits_length (A := A) hlit hA.inside
  have hemit : (emitSeq (A.lits s.lit_start A.end) 0 0 s.m.offBytes A.min_match).length ≤
      1 + extNeeded (A.lits s.lit_start A.end).length + (A.lits s.lit_start A.end).length +
        (if 0 < 0 then 2 + (0 / 255 + 2) else 0) := emitSeq_le (offBytes_eq s.m) hone
  rw [hlen, if_neg (Nat.lt_irrefl 0)] at hemit
  rw [BlockArgs.finish] at hout
  split at hout
  · cases hout
  · cases hout
    constructor
    · rw [List.length_append]
      omega
    · rw [h.out, hbytes, ← emitSeqs]
      refine encodes_emitSeqs hA.min_match hA.wlog h.within ?_
      rw [expandSeqs, h.expands]
      exact take_append_lits hlit

end Emission

/-! ## The parser -/

/-- `compress_block_optimal` behind its checks and its prices. -/
def optimalWith (P : Prices) (A : BlockArgs) (m : Matcher) : Matcher × Option Bytes :=
  let s := A.forward P A.block_len (programStart m) 0
  match A.emitSteps (backtrack s.cells A.block_len A.block_len []) (A.start s.m) with
  | .error m => (m, none)
  | .ok s => (s.m, A.finish s)

/-- What is returned was emitted along a path through the whole block. -/
theorem optimalWith_emitted {A : BlockArgs} {m : Matcher} {P : Prices} (hA : A.Placed m) (hP : P.Fair)
    {out : Bytes} (hout : (optimalWith P A m).2 = some out) :
    ∃ s qs, s.Emitted A m qs ∧ s.pos = A.end ∧ A.finish s = some out := by
  have hend := forward_sound hA hP (programStart_sound A m) (Nat.le_refl A.block_len)
  have hdone : BlockPath A m A.block_len [] := rfl
  have hpath := backtrack_path hend.cells (Nat.le_refl A.block_len) hend.reached hdone
  rw [optimalWith] at hout
  generalize A.forward P A.block_len (programStart m) 0 = s at hend hpath hout
  have hstart : (A.start s.m).Emitted A m [] := by
    refine ⟨hend.same.wlog, hend.same.max_match, rfl, ?_, rfl, trivial, Nat.le_refl _, Nat.zero_le _⟩
    intro q hq
    cases hq
  cases hsteps : A.emitSteps (backtrack s.cells A.block_len A.block_len []) (A.start s.m) with
  | error m' =>
      rw [hsteps] at hout
      cases hout
  | ok s' =>
      rw [hsteps] at hout
      obtain ⟨hpos, qs, hemitted⟩ := emitSteps_sound hA hstart rfl hpath hsteps
      exact ⟨s', qs, hemitted, hpos, hout⟩

theorem optimalWith_sound {A : BlockArgs} {m : Matcher} {P : Prices} (hA : A.Placed m) (hP : P.Fair)
    {out : Bytes} (hout : (optimalWith P A m).2 = some out) :
    out.length ≤ A.dst_cap ∧ m.Encodes A out := by
  obtain ⟨s, qs, hemitted, hpos, hfinish⟩ := optimalWith_emitted hA hP hout
  exact hemitted.finish hA hpos hfinish

/-- The loops of the parser end, the program reaches the end of the block, and what is
    returned encodes the block within the output. -/
structure BlockArgs.OptimalSound (A : BlockArgs) (m : Matcher) (P : Prices) : Prop where
  forward_ends : ∀ turns ≥ A.block_len,
    A.forward P turns (programStart m) 0 = A.forward P A.block_len (programStart m) 0
  reaches : ((A.forward P A.block_len (programStart m) 0).cells A.block_len).price < priceInf
  walk_ends : ∀ turns ≥ A.block_len, ∀ cells,
    backtrack cells turns A.block_len [] = backtrack cells A.block_len A.block_len []
  stream : ∀ out, (optimalWith P A m).2 = some out → out.length ≤ A.dst_cap ∧ m.Encodes A out

theorem optimalSound {A : BlockArgs} {m : Matcher} {P : Prices} (hA : A.Placed m) (hP : P.Fair) :
    A.OptimalSound m P where
  forward_ends _ hturns := forward_enough P _ hturns (Nat.le_refl _)
  reaches := (forward_sound hA hP (programStart_sound A m) (Nat.le_refl A.block_len)).reached
  walk_ends _ hturns cells := backtrack_enough cells [] hturns (Nat.le_refl _)
  stream _ hout := optimalWith_sound hA hP hout

/-- The arguments of the prepass. -/
def BlockArgs.prepass (A : BlockArgs) : BlockArgs :=
  { A with dst_cap := A.block_len + A.block_len / 255 + 1024, mode := .ultraFast }

theorem prepass_fits (fresh : FreshTables) {A : BlockArgs} {m : Matcher} (hA : A.Placed m) :
    A.prepass.Fits (prepassMatcher fresh A m) where
  inside := hA.inside
  min_match := hA.min_match
  max_match := hA.max_match
  rep := by
    intro i
    match i with
    | 0 => exact Nat.zero_le _
    | 1 => exact Nat.zero_le _
    | 2 => exact Nat.zero_le _

/-- A block parser ends, on tables of any contents. -/
theorem compressBlock_isSome {A : BlockArgs} {m : Matcher} (hA : A.Fits m) :
    (compressBlock A m).isSome := by
  have hfuel : A.end - (A.start m).pos < A.block_len + 1 := by
    have hend : A.end = A.start_pos + A.block_len := rfl
    have hstart : (A.start m).pos = A.start_pos := rfl
    omega
  obtain ⟨r, hloop, -⟩ := loop_sound hA (A.block_len + 1) (A.start m) [] (start_sound hA) hfuel
  rw [compressBlock, hloop]
  cases r with
  | error m' => rfl
  | ok s => rfl

/-- **THE OPTIMAL PARSER IS SOUND**, whatever the tables hold and wherever its prices come
    from: from the prepass, which ends, or without memory for it from the bytes. -/
theorem compressBlockOptimal_sound (fresh : FreshTables) {A : BlockArgs} {m : Matcher}
    (hA : A.Placed m) :
    (compressBlock A.prepass (prepassMatcher fresh A m)).isSome ∧
      A.OptimalSound m (blockPrices fresh A m) ∧ A.OptimalSound m (rawPrices A) ∧
      ∀ out, (compressBlockOptimal fresh A m).2 = some out →
        out.length ≤ A.dst_cap ∧ m.Encodes A out := by
  refine ⟨compressBlock_isSome (prepass_fits fresh hA), optimalSound hA (blockPrices_fair fresh A m),
    optimalSound hA (rawPrices_fair A), ?_⟩
  · intro out hout
    rw [compressBlockOptimal] at hout
    split at hout
    · cases hout
    · exact optimalWith_sound hA (blockPrices_fair fresh A m) hout

theorem repeatBlock_placed : repeatBlock.Placed staleMatcher where
  inside := by decide
  min_match := Or.inl rfl
  max_match := by decide
  wlog := by decide
  small := by decide

/-- Memory that holds zeros. -/
def zeroMemory : FreshTables :=
  ⟨fun _ => 0, fun _ => 0, fun _ => 0, fun _ => 0, fun _ => 0, fun _ => 0⟩

/-- A block that repeats itself, under a matcher that knows nothing of it. -/
theorem compressBlockOptimal_sound_repeat :
    (compressBlock repeatBlock.prepass (prepassMatcher zeroMemory repeatBlock staleMatcher)).isSome ∧
      repeatBlock.OptimalSound staleMatcher (blockPrices zeroMemory repeatBlock staleMatcher) ∧
      repeatBlock.OptimalSound staleMatcher (rawPrices repeatBlock) ∧
      ∀ out, (compressBlockOptimal zeroMemory repeatBlock staleMatcher).2 = some out →
        out.length ≤ repeatBlock.dst_cap ∧ staleMatcher.Encodes repeatBlock out :=
  compressBlockOptimal_sound zeroMemory repeatBlock_placed

end Zupt.VaptVupt
