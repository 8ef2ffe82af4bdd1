import Zupt.ReadsAlike
import Zupt.VaptVupt.InsertTrace

/-! # Matchers that find alike

    Two matchers with the same settings whose tables agree in what a search can
    reach: whatever else their memory holds, and whether roots and links take 32
    bits or 16.  The parsers of a block make the same tokens of both. -/

namespace Zupt.VaptVupt

open Zupt.ReadsAlike

/-! ## Settings and views -/

/-- What a matcher holds besides its tables. -/
structure Settings where
  chain_depth : Nat
  rep : Fin 3 → Nat
  wlog : Nat
  use_hash4 : Bool
  use_hash3 : Bool
  single_probe : Bool
  max_match : Nat
  accel : Nat
  no_rep : Bool

/-- The settings, without the mask, which belongs to the tables. -/
def Matcher.settings (m : Matcher) : Settings where
  chain_depth := m.chain_depth
  rep := m.rep
  wlog := m.wlog
  use_hash4 := m.use_hash4
  use_hash3 := m.use_hash3
  single_probe := m.single_probe
  max_match := m.max_match
  accel := m.accel
  no_rep := m.no_rep

/-- The cell of a position. -/
def Matcher.addr (m : Matcher) (pos : Nat) : Nat := pos &&& m.chain_mask

/-- The first table as a search sees it. -/
def Matcher.first (m : Matcher) : View Nat :=
  match m.roots16 with
  | some r => ⟨fun h => link16 (r.table16 h), fun p => link16 (r.chain16 (m.addr p))⟩
  | none => ⟨m.table, fun p => m.chain (m.addr p)⟩

/-- The table for binary input. -/
def Matcher.fourth (m : Matcher) : View Nat := ⟨m.table4, fun p => m.hash4_chain (m.addr p)⟩

/-- The table for matches of three bytes. -/
def Matcher.thirdView (m : Matcher) : View Nat := ⟨m.table3, fun p => m.hash3_chain (m.addr p)⟩

section Insertion

variable (m : Matcher) (src : Bytes) (pos h : Nat)

@[simp] theorem insertHashed_settings : (m.insertHashed src pos h).settings = m.settings := by
  rw [Matcher.insertHashed]
  cases m.roots16 with
  | none => rfl
  | some r => rfl

@[simp] theorem insertHashed_mask : (m.insertHashed src pos h).chain_mask = m.chain_mask :=
  (m.insertHashed_same src pos h).chain_mask

/-- The 16 bits of a position that is not the last one are that position. -/
theorem link16_ofNat {pos : Nat} (hpos : pos < 2 ^ 16 - 1) : link16 (UInt16.ofNat pos) = pos := by
  have hval : (UInt16.ofNat pos).toNat = pos := by
    rw [UInt16.toNat_ofNat', Nat.mod_eq_of_lt (by omega)]
  have hne : UInt16.ofNat pos ≠ 0xFFFF := by
    intro heq
    rw [heq] at hval
    have hlast : (0xFFFF : UInt16).toNat = 2 ^ 16 - 1 := rfl
    omega
  rw [link16, if_neg hne, hval]

variable {m src pos h}

/-- An insertion into the first table, of 16 bits where the position fits them. -/
theorem first_insertHashed (hfits : m.roots16 = none ∨ pos < 2 ^ 16 - 1) :
    (m.insertHashed src pos h).first = m.first.insert m.addr h pos := by
  rw [Matcher.insertHashed]
  cases hr : m.roots16 with
  | none =>
      ext j
      · simp only [View.insert, Matcher.first, put, hr]
      · simp only [View.insert, Matcher.first, put, hr]
        rfl
  | some r =>
      have hpos := link16_ofNat (hfits.resolve_left (by rw [hr]; exact Option.some_ne_none r))
      ext j
      · simp only [View.insert, Matcher.first, put, hr, apply_ite link16, hpos]
      · simp only [View.insert, Matcher.first, put, hr]
        exact apply_ite link16 _ _ _

theorem fourth_insertHashed (hplain : m.roots16 = none) (huse : m.use_hash4 = true) :
    (m.insertHashed src pos h).fourth = m.fourth.insert m.addr (hash4Short src pos) pos := by
  ext j
  · simp only [Matcher.insertHashed, View.insert, Matcher.fourth, put, hplain, huse, if_true]
  · simp only [Matcher.insertHashed, View.insert, Matcher.fourth, put, hplain, huse, if_true]
    rfl

theorem third_insertHashed (hplain : m.roots16 = none) (huse : m.use_hash3 = true) :
    (m.insertHashed src pos h).thirdView = m.thirdView.insert m.addr (hash3Short src pos) pos := by
  ext j
  · simp only [Matcher.insertHashed, View.insert, Matcher.thirdView, put, hplain, huse, if_true]
  · simp only [Matcher.insertHashed, View.insert, Matcher.thirdView, put, hplain, huse, if_true]
    rfl

end Insertion

/-! ## Tables -/

/-- Positions of `D`, with all of `D` that share a cell with one of them. -/
structure Cells (addr : Nat → Nat) (D W : Nat → Prop) : Prop where
  inside : ∀ p, W p → D p
  closed : ∀ p q, W p → D q → addr q = addr p → W q

/-- Two tables that read alike from the keys in `K`, over the positions in `D`. -/
def TablesAlike (addr : Nat → Nat) (D K : Nat → Prop) (v v' : View Nat) : Prop :=
  ∃ W, Cells addr D W ∧ ReadsAlike.Alike K W v v'

section Tables

variable {addr addr' : Nat → Nat} {D K : Nat → Prop} {v v' : View Nat} {k : Nat}

theorem tablesAlike_cleared (h : ∀ k, K k → v.root k = -1) (h' : ∀ k, K k → v'.root k = -1) :
    TablesAlike addr D K v v' :=
  ⟨fun _ => False, ⟨fun _ hp => hp.elim, fun _ _ hp => hp.elim⟩, alike_cleared h h'⟩

theorem TablesAlike.insert (h : TablesAlike addr D K v v')
    (haddr : ∀ p q, D p → D q → (addr p = addr q ↔ addr' p = addr' q)) {x : Nat} (hx : D x)
    (hk : K k) : TablesAlike addr D K (v.insert addr k x) (v'.insert addr' k x) := by
  obtain ⟨W, hcells, halike⟩ := h
  refine ⟨fun p => D p ∧ (W p ∨ addr p = addr x), ⟨fun p hp => hp.1, ?_⟩,
    halike.insert hk ⟨hx, Or.inr rfl⟩ (fun p hp => ⟨hcells.inside p hp, Or.inl hp⟩) ?_⟩
  · rintro p q ⟨-, hold | hnew⟩ hq hsame
    · exact ⟨hq, Or.inl (hcells.closed p q hold hq hsame)⟩
    · exact ⟨hq, Or.inr (hsame.trans hnew)⟩
  · rintro p ⟨hp, hin⟩
    exact ⟨hin, haddr p x hp hx⟩

/-- A walk is a search that stops outside the window. -/
theorem walk_eq_search (limit pos : Nat) (next : Nat → Int) (look : Nat → Best → Best × Bool)
    (depth : Nat) (ref : Int) (best : Best) :
    walk limit pos next look depth ref best =
      search (fun ref _ => decide ¬ ((limit : Int) ≤ ref ∧ ref < (pos : Int))) look next depth ref
        best := by
  induction depth generalizing ref best with
  | zero => rfl
  | succ depth ih =>
      rw [walk, search]
      by_cases hin : (limit : Int) ≤ ref ∧ ref < (pos : Int)
      · rw [if_pos hin, if_neg (mt of_decide_eq_true (not_not_intro hin))]
        rcases look ref.toNat best with ⟨best, halt⟩
        cases halt with
        | true => rfl
        | false => exact ih _ best
      · rw [if_neg hin, if_pos (decide_eq_true hin)]

/-- **WALKS OF ALIKE TABLES** find the same. -/
theorem TablesAlike.walk (h : TablesAlike addr D K v v') (hk : K k) (limit pos : Nat)
    (look : Nat → Best → Best × Bool) (depth : Nat) (best : Best) :
    walk limit pos v'.link look depth (v'.root k) best =
      walk limit pos v.link look depth (v.root k) best := by
  obtain ⟨W, -, halike⟩ := h
  rw [walk_eq_search, walk_eq_search]
  refine halike.search ?_ look depth hk best
  intro ref best hstop
  have hin : (limit : Int) ≤ ref ∧ ref < (pos : Int) := not_not.mp (of_decide_eq_false hstop)
  omega

end Tables

/-! ## Matchers -/

/-- Two matchers that find alike.  Tables of 16 bits serve the lean search of
    the fastest mode alone, for positions that they can hold. -/
structure Matcher.Alike (mode : Mode) (D K : Nat → Prop) (m m' : Matcher) : Prop where
  settings : m'.settings = m.settings
  addr : ∀ p q, D p → D q → (m.addr p = m.addr q ↔ m'.addr p = m'.addr q)
  kind : (m.roots16 = none ∧ m'.roots16 = none) ∨
    (mode = .ultraFast ∧ m.single_probe = true ∧ m.use_hash4 = false ∧ m.use_hash3 = false ∧
      ∀ p, D p → p < 2 ^ 16 - 1)
  first : TablesAlike m.addr D K m.first m'.first
  fourth : m.use_hash4 = true → TablesAlike m.addr D (fun _ => True) m.fourth m'.fourth
  third : m.use_hash3 = true → TablesAlike m.addr D (fun _ => True) m.thirdView m'.thirdView

/-- The positions of a block and their hashes are covered. -/
def CoversBlock (D K : Nat → Prop) (src : Bytes) («end» : Nat) : Prop :=
  ∀ pos, pos + 4 ≤ «end» → D pos ∧ K (hashSafe src pos («end» - pos))

section Matchers

variable {mode : Mode} {D K : Nat → Prop} {m m' : Matcher} {src : Bytes} {«end» : Nat}

theorem insertHashed_roots16 (m : Matcher) (src : Bytes) (pos h : Nat) :
    (m.insertHashed src pos h).roots16 = none ↔ m.roots16 = none := by
  rw [Matcher.insertHashed]
  cases hr : m.roots16 with
  | none => simp
  | some r => simp

/-- **AN INSERTION** keeps matchers alike. -/
theorem Matcher.Alike.insertHashed (h : m.Alike mode D K m') {pos k : Nat} (hpos : D pos)
    (hk : K k) : (m.insertHashed src pos k).Alike mode D K (m'.insertHashed src pos k) := by
  have hset := h.settings
  have haddr : (m.insertHashed src pos k).addr = m.addr := by
    funext p
    rw [Matcher.addr, Matcher.addr, insertHashed_mask]
  have haddr' : (m'.insertHashed src pos k).addr = m'.addr := by
    funext p
    rw [Matcher.addr, Matcher.addr, insertHashed_mask]
  have hprobe : (m.insertHashed src pos k).single_probe = m.single_probe :=
    (m.insertHashed_same src pos k).single_probe
  have hfour : (m.insertHashed src pos k).use_hash4 = m.use_hash4 :=
    (m.insertHashed_same src pos k).use_hash4
  have hthree : (m.insertHashed src pos k).use_hash3 = m.use_hash3 :=
    (m.insertHashed_same src pos k).use_hash3
  constructor
  · rw [insertHashed_settings, insertHashed_settings, hset]
  · rw [haddr, haddr']
    exact h.addr
  · rw [insertHashed_roots16, insertHashed_roots16, hprobe, hfour, hthree]
    exact h.kind
  · have hfits : (m.roots16 = none ∨ pos < 2 ^ 16 - 1) ∧ (m'.roots16 = none ∨ pos < 2 ^ 16 - 1) := by
      rcases h.kind with ⟨hn, hn'⟩ | ⟨-, -, -, -, hsmall⟩
      · exact ⟨Or.inl hn, Or.inl hn'⟩
      · exact ⟨Or.inr (hsmall pos hpos), Or.inr (hsmall pos hpos)⟩
    rw [haddr, first_insertHashed hfits.1, first_insertHashed hfits.2]
    exact h.first.insert h.addr hpos hk
  · intro huse
    rw [hfour] at huse
    have huse' : m'.use_hash4 = true := (congrArg Settings.use_hash4 hset).trans huse
    rcases h.kind with ⟨hn, hn'⟩ | ⟨-, -, hoff, -, -⟩
    · rw [haddr, fourth_insertHashed hn huse, fourth_insertHashed hn' huse']
      exact (h.fourth huse).insert h.addr hpos trivial
    · rw [huse] at hoff
      cases hoff
  · intro huse
    rw [hthree] at huse
    have huse' : m'.use_hash3 = true := (congrArg Settings.use_hash3 hset).trans huse
    rcases h.kind with ⟨hn, hn'⟩ | ⟨-, -, -, hoff, -⟩
    · rw [haddr, third_insertHashed hn huse, third_insertHashed hn' huse']
      exact (h.third huse).insert h.addr hpos trivial
    · rw [huse] at hoff
      cases hoff

theorem Matcher.Alike.insert (h : m.Alike mode D K m') (hcov : CoversBlock D K src «end») (pos : Nat) :
    (m.insert src pos «end»).Alike mode D K (m'.insert src pos «end») := by
  rw [Matcher.insert, Matcher.insert]
  by_cases hshort : «end» < pos + 4
  · rw [if_pos hshort, if_pos hshort]
    exact h
  · rw [if_neg hshort, if_neg hshort]
    obtain ⟨hpos, hk⟩ := hcov pos (Nat.not_lt.mp hshort)
    exact h.insertHashed hpos hk

theorem Matcher.Alike.insertRange (h : m.Alike mode D K m') (hcov : CoversBlock D K src «end»)
    (hi lo n : Nat) :
    (m.insertRange src «end» hi lo n).Alike mode D K (m'.insertRange src «end» hi lo n) := by
  induction n generalizing m m' lo with
  | zero => exact h
  | succ n ih =>
      rw [Matcher.insertRange, Matcher.insertRange]
      by_cases hmore : lo < hi ∧ lo + 5 ≤ «end»
      · rw [if_pos hmore, if_pos hmore, m.insertFast_eq src hmore.2, m'.insertFast_eq src hmore.2]
        exact ih (h.insert hcov lo) (lo + 1)
      · rw [if_neg hmore, if_neg hmore]
        exact h

theorem Matcher.Alike.insertMatch (h : m.Alike mode D K m') (hcov : CoversBlock D K src «end»)
    (ins_first pos mlen : Nat) : (m.insertMatch src «end» ins_first pos mlen).Alike mode D K
      (m'.insertMatch src «end» ins_first pos mlen) := by
  rw [Matcher.insertMatch, Matcher.insertMatch]
  by_cases hlong : 16 ≤ mlen
  · rw [if_pos hlong, if_pos hlong]
    exact (h.insertRange hcov _ _ _).insertRange hcov _ _ _
  · rw [if_neg hlong, if_neg hlong]
    exact h.insertRange hcov _ _ _

/-- The offsets change, the tables stay. -/
theorem Matcher.Alike.withRep (h : m.Alike mode D K m') (rep : Fin 3 → Nat) :
    (m.withRep rep).Alike mode D K (m'.withRep rep) where
  settings := congrArg (fun s => { s with rep := rep }) h.settings
  addr := h.addr
  kind := h.kind
  first := h.first
  fourth := h.fourth
  third := h.third

theorem Matcher.Alike.rep (h : m.Alike mode D K m') : m'.rep = m.rep :=
  congrArg Settings.rep h.settings

theorem Matcher.Alike.updateRep (h : m.Alike mode D K m') (offset : Nat) :
    (m.updateRep offset).Alike mode D K (m'.updateRep offset) := by
  rw [Matcher.updateRep, Matcher.updateRep, h.rep]
  by_cases hsame : offset = m.rep 0
  · rw [if_pos hsame, if_pos hsame]
    exact h
  · rw [if_neg hsame, if_neg hsame]
    exact h.withRep _

end Matchers

/-! ## Searches -/

section Searches

variable {mode : Mode} {D K : Nat → Prop} {m m' : Matcher} {src : Bytes} {«end» pos : Nat}

theorem limit_settings (h : m'.settings = m.settings) (pos : Nat) : m'.limit pos = m.limit pos := by
  rw [Matcher.limit, Matcher.limit, show m'.wlog = m.wlog from congrArg Settings.wlog h]

theorem maxLen_settings (h : m'.settings = m.settings) (pos «end» : Nat) :
    m'.maxLen pos «end» = m.maxLen pos «end» := by
  rw [Matcher.maxLen, Matcher.maxLen, show m'.max_match = m.max_match from
    congrArg Settings.max_match h]

theorem look4_settings (h : m'.settings = m.settings) (src : Bytes) (pos «end» : Nat) :
    m'.look4 src pos «end» = m.look4 src pos «end» := by
  funext ref best
  rw [Matcher.look4, Matcher.look4, maxLen_settings h]

theorem look3_settings (h : m'.settings = m.settings) (src : Bytes) (pos «end» : Nat) :
    m'.look3 src pos «end» = m.look3 src pos «end» := by
  funext ref best
  rw [Matcher.look3, Matcher.look3, maxLen_settings h]

theorem lookLean_settings (h : m'.settings = m.settings) (src : Bytes) (pos «end» : Nat) :
    m'.lookLean src pos «end» = m.lookLean src pos «end» := by
  funext ref best
  rw [Matcher.lookLean, Matcher.lookLean, maxLen_settings h]

theorem first_plain (h : m.roots16 = none) :
    m.first = ⟨m.table, fun p => m.chain (p &&& m.chain_mask)⟩ := by
  rw [Matcher.first, h]
  rfl

/-- The lean search walks the first table, whatever its kind. -/
theorem singleProbe_eq (m : Matcher) (src : Bytes) (pos «end» : Nat) :
    m.singleProbeMatch src pos «end» =
      if «end» < pos + 4 then ⟨0, 0⟩
      else walk (m.limit pos) pos m.first.link (m.lookLean src pos «end») m.chain_depth
        (m.first.root (hashSafe src pos («end» - pos))) ⟨0, 0⟩ := by
  rw [Matcher.singleProbeMatch, Matcher.first]
  cases m.roots16 with
  | none => rfl
  | some r => rfl

theorem Matcher.Alike.singleProbe (h : m.Alike mode D K m') (hcov : CoversBlock D K src «end»)
    (pos : Nat) : m'.singleProbeMatch src pos «end» = m.singleProbeMatch src pos «end» := by
  have hset := h.settings
  have hdepth : m'.chain_depth = m.chain_depth := congrArg Settings.chain_depth hset
  rw [singleProbe_eq, singleProbe_eq]
  by_cases hshort : «end» < pos + 4
  · rw [if_pos hshort, if_pos hshort]
  · rw [if_neg hshort, if_neg hshort, limit_settings hset, lookLean_settings hset, hdepth]
    exact h.first.walk (hcov pos (Nat.not_lt.mp hshort)).2 _ _ _ _ _

theorem Matcher.Alike.search4 (h : m.Alike mode D K m') (hn : m.roots16 = none)
    (hn' : m'.roots16 = none) (hcov : CoversBlock D K src «end») (hlong : pos + 4 ≤ «end») :
    m'.search4 src pos «end» = m.search4 src pos «end» := by
  have hset := h.settings
  have hdepth : m'.chain_depth = m.chain_depth := congrArg Settings.chain_depth hset
  have huse : m'.use_hash4 = m.use_hash4 := congrArg Settings.use_hash4 hset
  have hfirst := h.first.walk (hcov pos hlong).2 (m.limit pos) pos (m.look4 src pos «end»)
    m.chain_depth ⟨0, 0⟩
  rw [first_plain hn, first_plain hn'] at hfirst
  rw [Matcher.search4, Matcher.search4]
  simp only [limit_settings hset, look4_settings hset, hdepth, huse, hfirst]
  cases hfour : m.use_hash4 with
  | false => simp only [Bool.false_eq_true, false_and, if_false]
  | true =>
      have hsecond (best : Best) := (h.fourth hfour).walk trivial (m.limit pos) pos
        (m.look4 src pos «end») 8 best (k := hash4Short src pos)
      rw [Matcher.fourth, Matcher.fourth] at hsecond
      simp only [Matcher.addr] at hsecond
      simp only [hsecond]

theorem Matcher.Alike.search3 (h : m.Alike mode D K m') (huse : m.use_hash3 = true) (src : Bytes)
    (pos «end» : Nat) (best : Best) :
    m'.search3 src pos «end» best = m.search3 src pos «end» best := by
  have hset := h.settings
  rw [Matcher.search3, Matcher.search3, limit_settings hset, look3_settings hset]
  exact (h.third huse).walk trivial _ _ _ _ _

/-- **THE FULL SEARCH**, of 32-bit tables. -/
theorem Matcher.Alike.chainMatch (h : m.Alike mode D K m') (hn : m.roots16 = none)
    (hn' : m'.roots16 = none) (hcov : CoversBlock D K src «end») (pos : Nat) :
    m'.chainMatch src pos «end» = m.chainMatch src pos «end» := by
  have huse : m'.use_hash3 = m.use_hash3 := congrArg Settings.use_hash3 h.settings
  have hfour : (if pos + 4 ≤ «end» then m'.search4 src pos «end» else ⟨0, 0⟩) =
      (if pos + 4 ≤ «end» then m.search4 src pos «end» else (⟨0, 0⟩ : Best)) := by
    by_cases hlong : pos + 4 ≤ «end»
    · rw [if_pos hlong, if_pos hlong, h.search4 hn hn' hcov hlong]
    · rw [if_neg hlong, if_neg hlong]
  rw [Matcher.chainMatch, Matcher.chainMatch]
  cases hthree : m.use_hash3 with
  | false => simp only [huse, hfour, hthree, Bool.false_eq_true, false_and, if_false]
  | true => simp only [huse, hfour, hthree, h.search3 hthree]

/-- The search that the matchers are set to. -/
theorem Matcher.Alike.search (h : m.Alike mode D K m') (hcov : CoversBlock D K src «end») (pos : Nat) :
    m'.search src pos «end» = m.search src pos «end» := by
  have hprobe : m'.single_probe = m.single_probe := congrArg Settings.single_probe h.settings
  rw [Matcher.search, Matcher.search, hprobe]
  cases hsp : m.single_probe with
  | true => exact h.singleProbe hcov pos
  | false =>
      rcases h.kind with ⟨hn, hn'⟩ | ⟨-, hlean, -⟩
      · exact h.chainMatch hn hn' hcov pos
      · rw [hsp] at hlean
        cases hlean

/-- An offset that was used before. -/
theorem Matcher.Alike.tryRep (h : m.Alike mode D K m') (src : Bytes) (pos «end» : Nat) :
    m'.tryRep src pos «end» = m.tryRep src pos «end» := by
  have hset := h.settings
  have hrep := h.rep
  have hno : m'.no_rep = m.no_rep := congrArg Settings.no_rep hset
  have huse : m'.use_hash3 = m.use_hash3 := congrArg Settings.use_hash3 hset
  have hagrees (n : Nat) : m'.repAgrees src pos n = m.repAgrees src pos n := by
    funext i
    rw [Matcher.repAgrees, Matcher.repAgrees, hrep]
  rw [Matcher.tryRep, Matcher.tryRep, Matcher.tryRepMatch, Matcher.tryRepMatch]
  simp only [hno, huse, hagrees, hrep, maxLen_settings hset]

end Searches

/-! ## The greedy parser -/

section Greedy

variable {A : BlockArgs} {D K : Nat → Prop} {m m' : Matcher}

theorem Matcher.Alike.find (h : m.Alike A.mode D K m') (hcov : CoversBlock D K A.src A.end) (pos : Nat) :
    A.find m' pos = A.find m pos := by
  have hrep : A.findRep m' pos = A.findRep m pos := by
    rw [BlockArgs.findRep, BlockArgs.findRep, h.tryRep, h.rep]
  rw [BlockArgs.find, BlockArgs.find, hrep, h.search hcov]

theorem Matcher.Alike.findNext (h : m.Alike A.mode D K m') (hcov : CoversBlock D K A.src A.end)
    (hmode : A.mode.entropy = true) (pos : Nat) : A.findNext m' pos = A.findNext m pos := by
  rcases h.kind with ⟨hn, hn'⟩ | ⟨hfast, -⟩
  · rw [BlockArgs.findNext, BlockArgs.findNext, h.tryRep, h.rep, h.chainMatch hn hn' hcov]
  · rw [hfast] at hmode
    cases hmode

/-- Two choices of the same match. -/
structure Chosen.Alike (A : BlockArgs) (D K : Nat → Prop) (c c' : Chosen) : Prop where
  pos : c'.pos = c.pos
  found : c'.found = c.found
  pos_inserted : c'.pos_inserted = c.pos_inserted
  m : c.m.Alike A.mode D K c'.m

theorem choose_alike (h : m.Alike A.mode D K m') (hcov : CoversBlock D K A.src A.end) (pos : Nat) :
    (A.choose m pos).Alike A D K (A.choose m' pos) := by
  rw [BlockArgs.choose, BlockArgs.choose, h.find hcov]
  by_cases hlook : A.mode.entropy = true ∧ A.min_match ≤ (A.find m pos).mlen ∧
      (A.find m pos).mlen < 8 ∧ pos + 1 + A.min_match < A.end
  · have hins := h.insert hcov pos
    have hnext := hins.findNext hcov hlook.1 pos
    rw [if_pos hlook, if_pos hlook]
    dsimp only
    rw [hnext]
    split
    · exact ⟨rfl, rfl, rfl, hins⟩
    · exact ⟨rfl, rfl, rfl, hins⟩
  · rw [if_neg hlook, if_neg hlook]
    exact ⟨rfl, rfl, rfl, h⟩

/-- Two results that differ in nothing but what no search can reach. -/
inductive ParsedAlike (R : Matcher → Matcher → Prop) : Except Matcher Parse → Except Matcher Parse → Prop
  | failed {m m' : Matcher} : R m m' → ParsedAlike R (.error m) (.error m')
  | went {s : Parse} {m' : Matcher} : R s.m m' → ParsedAlike R (.ok s) (.ok { s with m := m' })

theorem Matcher.Alike.offBytes (h : m.Alike A.mode D K m') : m'.offBytes = m.offBytes := by
  rw [Matcher.offBytes, Matcher.offBytes, show m'.wlog = m.wlog from congrArg Settings.wlog h.settings]

theorem emitMatch_alike {c c' : Chosen} (h : c.Alike A D K c') (hcov : CoversBlock D K A.src A.end)
    (s : Parse) (m' : Matcher) : ParsedAlike (Matcher.Alike A.mode D K) (A.emitMatch s c)
      (A.emitMatch { s with m := m' } c') := by
  obtain ⟨hpos, hfound, hins, hm⟩ := h
  simp only [BlockArgs.emitMatch, hpos, hfound, hins]
  split
  · exact .failed hm
  · have hnext := hm.insertMatch hcov (if c.pos_inserted then c.pos + 1 else c.pos) c.pos c.found.mlen
    rw [hnext.offBytes]
    exact .went (hnext.updateRep c.found.moff)

theorem skip_alike {c c' : Chosen} (h : c.Alike A D K c') (hcov : CoversBlock D K A.src A.end)
    (s : Parse) (m' : Matcher) : ParsedAlike (Matcher.Alike A.mode D K) (A.skip s c)
      (A.skip { s with m := m' } c') := by
  obtain ⟨hpos, hfound, hins, hm⟩ := h
  have hnext : (if c.pos_inserted then c.m else c.m.insert A.src c.pos A.end).Alike A.mode D K
      (if c.pos_inserted then c'.m else c'.m.insert A.src c.pos A.end) := by
    split
    · exact hm
    · exact hm.insert hcov c.pos
  simp only [BlockArgs.skip, hpos, hins]
  generalize (if c.pos_inserted then c.m else c.m.insert A.src c.pos A.end) = n at hnext ⊢
  generalize (if c.pos_inserted then c'.m else c'.m.insert A.src c.pos A.end) = n' at hnext ⊢
  have haccel : n'.accel = n.accel := congrArg Settings.accel hnext.settings
  have hstride : A.stride n' s.failures = A.stride n s.failures := by
    rw [BlockArgs.stride, BlockArgs.stride, haccel]
  rw [haccel, hstride]
  split
  · exact .went hnext
  · split
    · exact .failed hnext
    · exact .went hnext

theorem turn_alike {s : Parse} {m' : Matcher} (h : s.m.Alike A.mode D K m')
    (hcov : CoversBlock D K A.src A.end) :
    ParsedAlike (Matcher.Alike A.mode D K) (A.turn s) (A.turn { s with m := m' }) := by
  have hchosen := choose_alike h hcov s.pos
  simp only [BlockArgs.turn]
  rw [hchosen.found]
  split
  · exact emitMatch_alike hchosen hcov s m'
  · exact skip_alike hchosen hcov s m'

/-- The loop, with any fuel. -/
theorem loop_alike (hcov : CoversBlock D K A.src A.end) (fuel : Nat) {s : Parse} {m' : Matcher}
    (h : s.m.Alike A.mode D K m') :
    (A.loop fuel s = none ∧ A.loop fuel { s with m := m' } = none) ∨
      ∃ r r', A.loop fuel s = some r ∧ A.loop fuel { s with m := m' } = some r' ∧
        ParsedAlike (Matcher.Alike A.mode D K) r r' := by
  induction fuel generalizing s m' with
  | zero => exact Or.inl ⟨rfl, rfl⟩
  | succ fuel ih =>
      rw [BlockArgs.loop, BlockArgs.loop]
      dsimp only
      by_cases hmore : s.pos + A.min_match < A.end
      · rw [if_pos hmore, if_pos hmore]
        have hturn := turn_alike h hcov
        generalize A.turn s = r at hturn ⊢
        generalize A.turn { s with m := m' } = r' at hturn ⊢
        cases hturn with
        | failed hm => exact Or.inr ⟨_, _, rfl, rfl, .failed hm⟩
        | went hm => exact ih hm
      · rw [if_neg hmore, if_neg hmore]
        exact Or.inr ⟨_, _, rfl, rfl, .went h⟩

theorem finish_alike {s : Parse} {m' : Matcher} (h : s.m.Alike A.mode D K m') :
    A.finish { s with m := m' } = A.finish s := by
  rw [BlockArgs.finish, BlockArgs.finish]
  dsimp only
  rw [h.offBytes]

/-- **THE GREEDY PARSER** makes the same tokens of matchers that find alike, and
    leaves them alike. -/
theorem compressBlock_alike (h : m.Alike A.mode D K m') (hcov : CoversBlock D K A.src A.end) :
    (compressBlock A m = none ∧ compressBlock A m' = none) ∨
      ∃ n n' tokens, compressBlock A m = some (n, tokens) ∧ compressBlock A m' = some (n', tokens) ∧
        n.Alike A.mode D K n' := by
  have hloop := loop_alike hcov (A.block_len + 1) (show (A.start m).m.Alike A.mode D K m' from h)
  have hstart : A.start m' = { A.start m with m := m' } := rfl
  rw [compressBlock, compressBlock, hstart]
  rcases hloop with ⟨hnone, hnone'⟩ | ⟨r, r', hr, hr', hboth⟩
  · rw [hnone, hnone']
    exact Or.inl ⟨rfl, rfl⟩
  · rw [hr, hr']
    cases hboth with
    | failed hm => exact Or.inr ⟨_, _, none, rfl, rfl, hm⟩
    | @went s n' hm =>
        refine Or.inr ⟨_, _, A.finish s, rfl, ?_, hm⟩
        dsimp only
        rw [finish_alike hm]

end Greedy

end Zupt.VaptVupt
