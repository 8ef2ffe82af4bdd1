import Zupt.Lzh

/-! # The parse of Zupt-LZH

    Whatever the tables hold, a match was compared before it counts.  So the symbols
    of the parse cover the source from its first byte to its last, and their extra
    bits have room for what is above the bases. -/

namespace Zupt.Lzh

open Zupt.Window Zupt.VaptVupt

/-! ## Bases -/

theorem lastBase_spec {base : List Nat} {v n : Nat} (hfirst : base.getD 0 0 ≤ v) (hn : 0 < n) :
    lastBase base v n < n ∧ base.getD (lastBase base v n) 0 ≤ v ∧
      ∀ j, lastBase base v n < j → j < n → v < base.getD j 0 := by
  induction n with
  | zero => exact absurd hn (Nat.lt_irrefl 0)
  | succ n ih =>
      rw [lastBase]
      by_cases hlast : base.getD n 0 ≤ v
      · rw [if_pos hlast]
        exact ⟨Nat.lt_succ_self n, hlast, fun j hj hjn => by omega⟩
      · rw [if_neg hlast]
        have hpos : 0 < n := by
          refine Nat.pos_of_ne_zero fun hzero => hlast ?_
          rw [hzero]
          exact hfirst
        obtain ⟨hlt, hle, habove⟩ := ih hpos
        refine ⟨Nat.lt_succ_of_lt hlt, hle, fun j hj hjn => ?_⟩
        by_cases hjlast : j = n
        · rw [hjlast]
          omega
        · exact habove j hj (by omega)

/-- What is above a base fits its extra bits, if each base is at most so far from the
    next one. -/
theorem above_base {base extra : List Nat} {n v top : Nat} (hn : 0 < n) (hfirst : base.getD 0 0 ≤ v)
    (htop : v < top)
    (hsteps : ∀ i < n, (if i + 1 < n then base.getD (i + 1) 0 else top) ≤
      base.getD i 0 + 2 ^ extra.getD i 0) :
    lastBase base v n < n ∧ base.getD (lastBase base v n) 0 ≤ v ∧
      v - base.getD (lastBase base v n) 0 < 2 ^ extra.getD (lastBase base v n) 0 := by
  obtain ⟨hlt, hle, habove⟩ := lastBase_spec hfirst hn
  have hstep := hsteps (lastBase base v n) hlt
  refine ⟨hlt, hle, ?_⟩
  by_cases hnext : lastBase base v n + 1 < n
  · have hless := habove (lastBase base v n + 1) (Nat.lt_succ_self _) hnext
    rw [if_pos hnext] at hstep
    omega
  · rw [if_neg hnext] at hstep
    omega

theorem lenToCode_spec {len : Nat} (hlow : 3 ≤ len) (hhigh : len ≤ maxMatch) :
    lastBase lenBase len lenCodes < lenCodes ∧
      lenBase.getD (lastBase lenBase len lenCodes) 0 ≤ len ∧
      len - lenBase.getD (lastBase lenBase len lenCodes) 0 <
        2 ^ lenExtra.getD (lastBase lenBase len lenCodes) 0 :=
  above_base (by decide) hlow (show len < maxMatch + 1 from Nat.lt_succ_of_le hhigh) (by decide)

theorem distToCode_spec {d : Nat} (hlow : 1 ≤ d) (hhigh : d ≤ 2 ^ 20) :
    distToCode d < maxDist ∧ distBase.getD (distToCode d) 0 ≤ d ∧
      d - distBase.getD (distToCode d) 0 < 2 ^ distExtra.getD (distToCode d) 0 :=
  above_base (by decide) hlow (show d < 2 ^ 20 + 1 from Nat.lt_succ_of_le hhigh) (by decide)

/-! ## Matches -/

/-- A match that is there, and that the codes can express. -/
structure GoodMatch (src : Bytes) (ip : Nat) (m : Best) : Prop where
  isMatch : IsMatch src ip m.off m.len
  low : 3 ≤ m.len
  high : m.len ≤ maxMatch
  inside : ip + m.len ≤ src.length
  near : m.off ≤ 2 ^ 20

/-- A level's configuration, as far as it counts. -/
structure Config.Sane (cfg : Config) : Prop where
  window : cfg.win_size ≤ 2 ^ 20
  match_ : 3 ≤ cfg.min_match

theorem lzhConfig_sane (level : Nat) : (lzhConfig level).Sane := by
  rw [lzhConfig.eq_def]
  split
  all_goals exact ⟨by decide, by decide⟩

theorem bytesAt_same {src : Bytes} {a b n : Nat} (h : bytesAt src a n = bytesAt src b n) :
    ∀ i < n, charAt src (a + i) = charAt src (b + i) := by
  intro i hi
  have hget := congrArg (fun s : Bytes => s[i]?) h
  simp only [bytesAt, List.getElem?_take, if_pos hi, List.getElem?_drop] at hget
  rw [charAt, charAt, List.getD_eq_getElem?_getD, List.getD_eq_getElem?_getD, hget]

/-- The comparison finds bytes that agree. -/
theorem matchLen_spec {src : Bytes} {ref ip mx turns len : Nat} (hlen : len ≤ mx)
    (hsame : ∀ i < len, charAt src (ref + i) = charAt src (ip + i)) :
    matchLen src ref ip mx turns len ≤ mx ∧
      ∀ i < matchLen src ref ip mx turns len, charAt src (ref + i) = charAt src (ip + i) := by
  have hlast : len + agree src (ref + len) (ip + len) (mx - len) ≤ mx ∧
      ∀ i < len + agree src (ref + len) (ip + len) (mx - len),
        charAt src (ref + i) = charAt src (ip + i) := by
    obtain ⟨hle, hrest⟩ := agree_spec src (ref + len) (ip + len) (mx - len)
    refine ⟨by omega, fun i hi => ?_⟩
    by_cases hin : i < len
    · exact hsame i hin
    · have htail := hrest (i - len) (by omega)
      rw [show ref + len + (i - len) = ref + i by omega,
        show ip + len + (i - len) = ip + i by omega] at htail
      exact htail
  induction turns generalizing len with
  | zero => exact hlast
  | succ turns ih =>
      rw [matchLen]
      by_cases hstride : len + 8 ≤ mx ∧ bytesAt src (ref + len) 8 = bytesAt src (ip + len) 8
      · rw [if_pos hstride]
        have hmore : ∀ i < len + 8, charAt src (ref + i) = charAt src (ip + i) := by
          intro i hi
          by_cases hin : i < len
          · exact hsame i hin
          · have hword := bytesAt_same hstride.2 (i - len) (by omega)
            rw [show ref + len + (i - len) = ref + i by omega,
              show ip + len + (i - len) = ip + i by omega] at hword
            exact hword
        refine ih hstride.1 hmore ?_
        obtain ⟨hle, hrest⟩ := agree_spec src (ref + (len + 8)) (ip + (len + 8)) (mx - (len + 8))
        refine ⟨by omega, fun i hi => ?_⟩
        by_cases hin : i < len + 8
        · exact hmore i hin
        · have htail := hrest (i - (len + 8)) (by omega)
          rw [show ref + (len + 8) + (i - (len + 8)) = ref + i by omega,
            show ip + (len + 8) + (i - (len + 8)) = ip + i by omega] at htail
          exact htail
      · rw [if_neg hstride]
        exact hlast

section Find

variable {src : Bytes} {cfg : Config} {ip : Nat} {t : Tables}

/-- Nothing yet, or a match that is there; its length has no lower bound yet. -/
def Walked (src : Bytes) (ip : Nat) (m : Best) : Prop :=
  m.len = 0 ∨ (IsMatch src ip m.off m.len ∧ m.len ≤ maxMatch ∧ ip + m.len ≤ src.length ∧
    m.off ≤ 2 ^ 20)

theorem compared_walked (hcfg : cfg.Sane) (hip : ip ≤ src.length) {r : Nat} (hbehind : r < ip)
    (hnear : ip - r ≤ cfg.win_size) :
    Walked src ip ⟨matchLen src r ip (min (src.length - ip) maxMatch)
      (min (src.length - ip) maxMatch) 0, ip - r⟩ := by
  have hcompared : matchLen src r ip (min (src.length - ip) maxMatch)
        (min (src.length - ip) maxMatch) 0 ≤ min (src.length - ip) maxMatch ∧
      ∀ i < matchLen src r ip (min (src.length - ip) maxMatch) (min (src.length - ip) maxMatch) 0,
        charAt src (r + i) = charAt src (ip + i) :=
    matchLen_spec (Nat.zero_le _) fun i hi => absurd hi (Nat.not_lt_zero i)
  have hwindow := hcfg.window
  generalize matchLen src r ip _ _ 0 = len at hcompared ⊢
  obtain ⟨hle, hsame⟩ := hcompared
  refine Or.inr ⟨⟨by show 1 ≤ ip - r; omega, by show ip - r ≤ ip; omega, ?_⟩, ?_, ?_, ?_⟩
  · intro i hi
    rw [show ip + i - (ip - r) = r + i by omega]
    exact (hsame i hi).symm
  · show len ≤ maxMatch
    omega
  · show ip + len ≤ src.length
    omega
  · show ip - r ≤ 2 ^ 20
    omega

theorem findLoop_walked (hcfg : cfg.Sane) (hip : ip ≤ src.length) {left cnt : Nat} {ref : Int}
    {best : Nat} {m : Best} (h : Walked src ip m) :
    Walked src ip (findLoop src t cfg ip left cnt ref best m) := by
  induction left generalizing cnt ref best m with
  | zero => exact h
  | succ left ih =>
      rw [findLoop]
      split
      · rename_i hin
        have hfound := compared_walked hcfg hip (show ref.toNat < ip by omega)
          (show ip - ref.toNat ≤ cfg.win_size by omega)
        dsimp only
        split
        · split
          · split
            · exact hfound
            · exact ih hfound
          · exact ih h
        · exact ih h
      · exact h

/-- **A SEARCH** reports nothing or a match that is there. -/
theorem findMatch_good (hcfg : cfg.Sane) (hlen : (findMatch src ip t cfg).len ≠ 0) :
    GoodMatch src ip (findMatch src ip t cfg) := by
  have hmin := hcfg.match_
  rw [findMatch] at hlen ⊢
  by_cases hshort : src.length < ip + 4
  · rw [if_pos hshort] at hlen
    exact absurd rfl hlen
  · rw [if_neg hshort] at hlen ⊢
    have hwalk : Walked src ip (findLoop src t cfg ip cfg.max_chain 0 (t.ht (lzhHash src ip))
        (cfg.min_match - 1) ⟨0, 0⟩) := findLoop_walked hcfg (by omega) (Or.inl rfl)
    dsimp only at hlen ⊢
    split at hlen
    · rename_i hlong
      rw [if_pos hlong]
      obtain ⟨hmatch, hhigh, hinside, hnear⟩ := hwalk.resolve_left hlen
      exact ⟨hmatch, by omega, hhigh, hinside, hnear⟩
    · exact absurd rfl hlen

end Find

/-! ## The parse -/

/-- Symbols that cover the source from one position to another. -/
inductive Covers (src : Bytes) : Nat → List LzSym → Nat → Prop
  | nil (ip : Nat) : Covers src ip [] ip
  | lit {ip last : Nat} {syms : List LzSym} (hip : ip < src.length)
      (h : Covers src (ip + 1) syms last) : Covers src ip (literal (charAt src ip) :: syms) last
  | copy {ip last : Nat} {syms : List LzSym} {m : Best} (hm : GoodMatch src ip m)
      (h : Covers src (ip + m.len) syms last) : Covers src ip (matchSym m :: syms) last

section Parse

variable {src : Bytes} {cfg : Config}

theorem Covers.append {a b c : Nat} {xs ys : List LzSym} (h : Covers src a xs b)
    (hrest : Covers src b ys c) : Covers src a (xs ++ ys) c := by
  induction h with
  | nil => exact hrest
  | lit hip _ ih => exact .lit hip (ih hrest)
  | copy hm _ ih => exact .copy hm (ih hrest)

/-- No more symbols than bytes. -/
theorem Covers.length_le {a b : Nat} {syms : List LzSym} (h : Covers src a syms b) :
    a + syms.length ≤ b := by
  induction h with
  | nil => exact Nat.le_refl _
  | lit _ _ ih =>
      rw [List.length_cons]
      omega
  | copy hm _ ih =>
      have hlow := hm.low
      rw [List.length_cons]
      omega

/-- What the parse keeps. -/
structure Parse.Inv (src : Bytes) (p : Parse) : Prop where
  inside : p.ip ≤ src.length
  covers : Covers src 0 p.syms p.ip

theorem Parse.Inv.literal {p : Parse} (h : p.Inv src) (hip : p.ip < src.length) (t : Tables) :
    Parse.Inv src ⟨p.ip + 1, p.syms ++ [literal (charAt src p.ip)], t⟩ :=
  ⟨hip, h.covers.append (.lit hip (.nil _))⟩

/-- **LAZY STEPS** keep the invariant and end at a match. -/
theorem lazySteps_keeps (hcfg : cfg.Sane) (depths : List Nat) {p : Parse} {m : Best} (h : p.Inv src)
    (hm : GoodMatch src p.ip m) :
    (lazySteps src cfg depths p m).1.Inv src ∧
      GoodMatch src (lazySteps src cfg depths p m).1.ip (lazySteps src cfg depths p m).2 ∧
      p.ip ≤ (lazySteps src cfg depths p m).1.ip := by
  induction depths generalizing p m with
  | nil => exact ⟨h, hm, Nat.le_refl _⟩
  | cons depth depths ih =>
      rw [lazySteps]
      split
      · rename_i hnext
        dsimp only
        split
        · rename_i hbetter
          have hgood : GoodMatch src (p.ip + 1)
              (findMatch src (p.ip + 1) (insertHash src cfg p.tables p.ip) cfg) :=
            findMatch_good hcfg (by omega)
          obtain ⟨hinv, hlast, hmove⟩ := ih (h.literal (by omega) (insertHash src cfg p.tables p.ip)) hgood
          exact ⟨hinv, hlast, by dsimp only at hmove; omega⟩
        · exact ⟨⟨h.inside, h.covers⟩, hm, Nat.le_refl _⟩
      · exact ⟨h, hm, Nat.le_refl _⟩

/-- **ONE TURN** keeps the invariant and moves on. -/
theorem parseTurn_keeps (hcfg : cfg.Sane) {p : Parse} (h : p.Inv src) (hip : p.ip < src.length) :
    (parseTurn src cfg p).Inv src ∧ p.ip < (parseTurn src cfg p).ip := by
  rw [parseTurn]
  dsimp only
  by_cases hnone : (findMatch src p.ip p.tables cfg).len = 0
  · rw [if_pos hnone]
    exact ⟨h.literal hip _, Nat.lt_succ_self _⟩
  · rw [if_neg hnone]
    have hsteps := lazySteps_keeps hcfg [1, 2, 3] h (findMatch_good hcfg hnone)
    generalize lazySteps src cfg [1, 2, 3] p (findMatch src p.ip p.tables cfg) = q at hsteps ⊢
    obtain ⟨hinv, hgood, hmove⟩ := hsteps
    have hlow := hgood.low
    refine ⟨⟨hgood.inside, hinv.covers.append (.copy hgood (.nil _))⟩, ?_⟩
    show p.ip < q.1.ip + q.2.len
    omega

theorem parseLoop_keeps (hcfg : cfg.Sane) (turns : Nat) {p : Parse} (h : p.Inv src)
    (hturns : src.length ≤ p.ip + turns) :
    (parseLoop src cfg turns p).Inv src ∧ (parseLoop src cfg turns p).ip = src.length := by
  induction turns generalizing p with
  | zero =>
      have hinside := h.inside
      exact ⟨h, by show p.ip = src.length; omega⟩
  | succ turns ih =>
      rw [parseLoop]
      by_cases hmore : p.ip < src.length
      · obtain ⟨hinv, hmove⟩ := parseTurn_keeps hcfg h hmore
        rw [if_pos hmore]
        exact ih hinv (by omega)
      · have hinside := h.inside
        rw [if_neg hmore]
        exact ⟨h, by omega⟩

/-- **THE PARSE** covers the source. -/
theorem lzSyms_covers (hcfg : cfg.Sane) (src : Bytes) :
    ∃ syms, lzSyms src cfg = syms ++ [eob] ∧ Covers src 0 syms src.length := by
  obtain ⟨hinv, hend⟩ := parseLoop_keeps hcfg src.length
    (p := ⟨0, [], .fresh⟩) ⟨Nat.zero_le _, .nil 0⟩ (Nat.le_add_left _ _)
  refine ⟨_, rfl, ?_⟩
  have hcovers := hinv.covers
  rw [hend] at hcovers
  exact hcovers

end Parse

end Zupt.Lzh
