import Zupt.VaptVupt.Parser

/-! # Matches are compared before they count

    Whatever roots, links and offsets a matcher holds, a search reports nothing or
    a match that is there.  From that the sequences `compress_block` emits expand
    to the block. -/

namespace Zupt.VaptVupt

open Zupt.LittleEndian Zupt.Window

/-! ## What is there -/

/-- The `len` bytes at `pos` repeat those `off` before. -/
structure IsMatch (src : Bytes) (pos off len : Nat) : Prop where
  far : 1 ≤ off
  back : off ≤ pos
  same : ∀ i < len, charAt src (pos + i) = charAt src (pos + i - off)

/-- A match that is there says what the source says. -/
theorem IsMatch.extend {src : Bytes} {pos off len : Nat} (h : IsMatch src pos off len)
    (hend : pos + len ≤ src.length) : extend (src.take pos) off len = src.take (pos + len) := by
  obtain ⟨hfar, hback, hsame⟩ := h
  induction len with
  | zero => rfl
  | succ n ih =>
      have hprev := ih (by omega) fun i hi => hsame i (by omega)
      have hlen : (src.take (pos + n)).length = pos + n := by
        rw [List.length_take]
        omega
      have hread : ((src.take (pos + n)).drop (pos + n - off)).take 1 =
          [charAt src (pos + n - off)] := by
        have hlt : pos + n - off < (src.take (pos + n)).length := by omega
        rw [List.drop_eq_getElem_cons hlt, List.take_succ_cons, List.take_zero,
          List.getElem_take, charAt, List.getD_eq_getElem]
      have hlt : pos + n < src.length := by omega
      have hnext : src.take (pos + n + 1) = src.take (pos + n) ++ [charAt src (pos + n)] := by
        rw [List.take_succ_eq_append_getElem hlt, charAt, List.getD_eq_getElem]
      rw [extend_succ, hprev, hlen, hread, ← Nat.add_assoc, hnext, hsame n (by omega)]

theorem bytesAt_length {src : Bytes} {pos n : Nat} (h : pos + n ≤ src.length) :
    (bytesAt src pos n).length = n := by
  rw [bytesAt, List.length_take, List.length_drop]
  omega

theorem charAt_bytesAt {src : Bytes} {pos n i : Nat} (hi : i < n) :
    charAt (bytesAt src pos n) i = charAt src (pos + i) := by
  rw [charAt, charAt, bytesAt, List.getD_eq_getElem?_getD, List.getD_eq_getElem?_getD,
    List.getElem?_take_of_lt hi, List.getElem?_drop]

/-- Equal words are equal bytes. -/
theorem charAt_of_leGet_eq {src : Bytes} {a b n : Nat} (ha : a + n ≤ src.length)
    (hb : b + n ≤ src.length) (h : leGet (bytesAt src a n) = leGet (bytesAt src b n)) :
    ∀ i < n, charAt src (a + i) = charAt src (b + i) := by
  intro i hi
  have hbytes : bytesAt src a n = bytesAt src b n := by
    rw [← lePut_leGet (bytesAt src a n), h, bytesAt_length ha]
    conv_rhs => rw [← lePut_leGet (bytesAt src b n), bytesAt_length hb]
  rw [← charAt_bytesAt hi, ← charAt_bytesAt hi, hbytes]

/-! ## Extension -/

theorem agree_spec (src : Bytes) (a b n : Nat) :
    agree src a b n ≤ n ∧ ∀ i < agree src a b n, charAt src (a + i) = charAt src (b + i) := by
  induction n generalizing a b with
  | zero => simp [agree]
  | succ n ih =>
      rw [agree]
      by_cases h : charAt src a = charAt src b
      · rw [if_pos h]
        obtain ⟨hle, hsame⟩ := ih (a + 1) (b + 1)
        refine ⟨by omega, ?_⟩
        intro i hi
        cases i with
        | zero => exact h
        | succ i =>
            have hnext := hsame i (by omega)
            rwa [Nat.add_assoc, Nat.add_comm 1 i, Nat.add_assoc, Nat.add_comm 1 i] at hnext
      · rw [if_neg h]
        refine ⟨Nat.zero_le _, ?_⟩
        intro i hi
        omega

/-- One run of equal bytes behind another. -/
theorem same_append {src : Bytes} {a b n k : Nat}
    (hfirst : ∀ i < n, charAt src (a + i) = charAt src (b + i))
    (hsecond : ∀ i < k, charAt src (a + n + i) = charAt src (b + n + i)) :
    ∀ i < n + k, charAt src (a + i) = charAt src (b + i) := by
  intro i hi
  by_cases hn : i < n
  · exact hfirst i hn
  · have hrest := hsecond (i - n) (by omega)
    rwa [Nat.add_assoc, Nat.add_assoc, Nat.add_sub_cancel' (Nat.not_lt.mp hn)] at hrest

/-- What a search may add to `len` equal bytes. -/
def Extends (src : Bytes) (a b max_len n : Nat) : Prop :=
  n ≤ max_len ∧ ∀ i < n, charAt src (a + i) = charAt src (b + i)

/-- The bytes that agree behind `len` equal ones. -/
theorem extends_agree {src : Bytes} {a b max_len len k : Nat}
    (h : ∀ i < len, charAt src (a + i) = charAt src (b + i)) (hk : len + k ≤ max_len) :
    Extends src a b max_len (len + agree src (a + len) (b + len) k) := by
  obtain ⟨hle, hsame⟩ := agree_spec src (a + len) (b + len) k
  exact ⟨by omega, same_append h hsame⟩

theorem extendStrides_spec {src : Bytes} {a b max_len : Nat} (turns len : Nat)
    (hle : len ≤ max_len) (h : ∀ i < len, charAt src (a + i) = charAt src (b + i)) :
    Extends src a b max_len (extendStrides src a b max_len turns len) := by
  induction turns generalizing len with
  | zero => exact extends_agree h (by omega)
  | succ turns ih =>
      rw [extendStrides]
      by_cases hroom : len + 8 ≤ max_len
      · rw [if_pos hroom]
        dsimp only
        by_cases hsame : agree src (a + len) (b + len) 8 < 8
        · rw [if_pos hsame]
          exact extends_agree h hroom
        · rw [if_neg hsame]
          obtain ⟨hle8, hall⟩ := agree_spec src (a + len) (b + len) 8
          have height : agree src (a + len) (b + len) 8 = 8 := by omega
          rw [height] at hall
          exact ih (len + 8) hroom (same_append h hall)
      · rw [if_neg hroom]
        exact extends_agree h (by omega)

/-- `extend_match` counts bytes that agree. -/
theorem extendMatch_spec (src : Bytes) (a b max_len : Nat) :
    Extends src a b max_len (extendMatch src a b max_len) := by
  have hnone : ∀ i < 0, charAt src (a + i) = charAt src (b + i) := by
    intro i hi
    omega
  rw [extendMatch]
  by_cases hroom : 8 ≤ max_len
  · rw [if_pos hroom]
    dsimp only
    obtain ⟨hle8, hall⟩ := agree_spec src a b 8
    by_cases hsame : agree src a b 8 < 8
    · rw [if_pos hsame]
      exact ⟨by omega, hall⟩
    · rw [if_neg hsame]
      have height : agree src a b 8 = 8 := by omega
      rw [height] at hall
      exact extendStrides_spec max_len 8 hroom hall
  · rw [if_neg hroom]
    exact extendStrides_spec max_len 0 (Nat.zero_le _) hnone

/-- Bytes that were compared and their extension are a match. -/
theorem isMatch_of_compared {src : Bytes} {pos ref n max_len : Nat} (href : ref < pos)
    (hend : pos + n ≤ src.length)
    (h : leGet (bytesAt src pos n) = leGet (bytesAt src ref n)) :
    IsMatch src pos (pos - ref) (n + extendMatch src (pos + n) (ref + n) max_len) := by
  have hfirst := charAt_of_leGet_eq hend (by omega) h
  have hall := same_append hfirst (extendMatch_spec src (pos + n) (ref + n) max_len).2
  refine ⟨by omega, by omega, ?_⟩
  intro i hi
  have hback : pos + i - (pos - ref) = ref + i := by omega
  rw [hback]
  exact hall i hi

/-! ## Searches -/

/-- What a walk keeps of its best match, if each look keeps it. -/
theorem walk_keeps {P : Best → Prop} {limit pos : Nat} {next : Nat → Int}
    {look : Nat → Best → Best × Bool}
    (hlook : ∀ ref best, limit ≤ ref → ref < pos → P best → P (look ref best).1)
    (depth : Nat) (ref : Int) (best : Best) (h : P best) :
    P (walk limit pos next look depth ref best) := by
  induction depth generalizing ref best with
  | zero => exact h
  | succ depth ih =>
      rw [walk]
      by_cases hin : (limit : Int) ≤ ref ∧ ref < (pos : Int)
      · rw [if_pos hin]
        have hnext := hlook ref.toNat best (by omega) (by omega) h
        cases hstep : look ref.toNat best with
        | mk found stop =>
            rw [hstep] at hnext
            cases stop with
            | true => exact hnext
            | false => exact ih _ found hnext
      · rw [if_neg hin]
        exact h

/-- What a search may report: nothing, or a match of the window that is there. -/
def Matcher.Good (m : Matcher) (src : Bytes) (pos «end» : Nat) (len off : Nat) : Prop :=
  len = 0 ∨ (IsMatch src pos off len ∧ off ≤ 2 ^ m.wlog - 1 ∧ len ≤ m.maxLen pos «end»)

theorem Matcher.good_zero (m : Matcher) (src : Bytes) (pos «end» off : Nat) :
    m.Good src pos «end» 0 off := Or.inl rfl

/-- A candidate of the window that was compared is good. -/
theorem Matcher.good_of_compared {m : Matcher} {src : Bytes} {pos «end» ref n : Nat}
    (hlimit : m.limit pos ≤ ref) (href : ref < pos) (hend : pos + n ≤ src.length)
    (hmax : n ≤ m.maxLen pos «end»)
    (h : leGet (bytesAt src pos n) = leGet (bytesAt src ref n)) :
    m.Good src pos «end»
      (n + extendMatch src (pos + n) (ref + n) (m.maxLen pos «end» - n)) (pos - ref) := by
  have hext := (extendMatch_spec src (pos + n) (ref + n) (m.maxLen pos «end» - n)).1
  rw [Matcher.limit] at hlimit
  exact Or.inr ⟨isMatch_of_compared href hend h, by omega, by omega⟩

section Searches

variable {m : Matcher} {src : Bytes} {pos «end» : Nat}

theorem Matcher.look4_good (hend : pos + 4 ≤ src.length) (hmax : 4 ≤ m.maxLen pos «end»)
    (ref : Nat) (best : Best) (hlimit : m.limit pos ≤ ref) (href : ref < pos)
    (h : m.Good src pos «end» best.len best.off) :
    m.Good src pos «end» (m.look4 src pos «end» ref best).1.len
      (m.look4 src pos «end» ref best).1.off := by
  rw [Matcher.look4]
  by_cases hsame : load32 src pos = load32 src ref
  · rw [if_pos hsame]
    dsimp only
    split
    · split
      · exact h
      · exact Matcher.good_of_compared hlimit href hend hmax hsame
    · exact h
  · rw [if_neg hsame]
    exact h

theorem Matcher.lookLean_good (hend : pos + 4 ≤ src.length) (hmax : 4 ≤ m.maxLen pos «end»)
    (ref : Nat) (best : Best) (hlimit : m.limit pos ≤ ref) (href : ref < pos)
    (h : m.Good src pos «end» best.len best.off) :
    m.Good src pos «end» (m.lookLean src pos «end» ref best).1.len
      (m.lookLean src pos «end» ref best).1.off := by
  rw [Matcher.lookLean]
  by_cases hsame : load32 src pos = load32 src ref
  · rw [if_pos hsame]
    dsimp only
    split
    · exact Matcher.good_of_compared hlimit href hend hmax hsame
    · exact h
  · rw [if_neg hsame]
    exact h

theorem Matcher.look3_good (hend : pos + 3 ≤ src.length) (hmax : 3 ≤ m.maxLen pos «end»)
    (ref : Nat) (best : Best) (hlimit : m.limit pos ≤ ref) (href : ref < pos)
    (h : m.Good src pos «end» best.len best.off) :
    m.Good src pos «end» (m.look3 src pos «end» ref best).1.len
      (m.look3 src pos «end» ref best).1.off := by
  rw [Matcher.look3]
  by_cases hsame : load24 src pos = load24 src ref
  · rw [if_pos hsame]
    dsimp only
    split
    · exact h
    · split
      · exact Matcher.good_of_compared hlimit href hend hmax hsame
      · exact h
  · rw [if_neg hsame]
    exact h

theorem Matcher.search4_good (hend : pos + 4 ≤ src.length) (hmax : 4 ≤ m.maxLen pos «end») :
    m.Good src pos «end» (m.search4 src pos «end»).len (m.search4 src pos «end»).off := by
  have hwalk (next : Nat → Int) (depth : Nat) (ref : Int) (best : Best)
      (h : m.Good src pos «end» best.len best.off) :
      m.Good src pos «end» (walk (m.limit pos) pos next (m.look4 src pos «end») depth ref best).len
        (walk (m.limit pos) pos next (m.look4 src pos «end») depth ref best).off :=
    walk_keeps (P := fun best => m.Good src pos «end» best.len best.off)
      (m.look4_good hend hmax) depth ref best h
  rw [Matcher.search4]
  split
  · exact hwalk _ _ _ _ (hwalk _ _ _ _ (m.good_zero src pos «end» 0))
  · exact hwalk _ _ _ _ (m.good_zero src pos «end» 0)

theorem Matcher.search3_good (hend : pos + 3 ≤ src.length) (hmax : 3 ≤ m.maxLen pos «end»)
    {best : Best} (h : m.Good src pos «end» best.len best.off) :
    m.Good src pos «end» (m.search3 src pos «end» best).len (m.search3 src pos «end» best).off :=
  walk_keeps (P := fun best => m.Good src pos «end» best.len best.off)
    (m.look3_good hend hmax) 4 _ best h

theorem Matcher.chainMatch_good (hend : «end» ≤ src.length) (hmax : 4 ≤ m.max_match) :
    m.Good src pos «end» (m.chainMatch src pos «end»).len (m.chainMatch src pos «end»).off := by
  rw [Matcher.chainMatch]
  by_cases hshort : «end» < pos + (if m.use_hash3 then 3 else 4)
  · rw [if_pos hshort]
    exact m.good_zero src pos «end» 0
  · rw [if_neg hshort]
    have hfour : m.Good src pos «end»
        (if pos + 4 ≤ «end» then m.search4 src pos «end» else ⟨0, 0⟩).len
        (if pos + 4 ≤ «end» then m.search4 src pos «end» else ⟨0, 0⟩).off := by
      by_cases hroom : pos + 4 ≤ «end»
      · rw [if_pos hroom]
        exact m.search4_good (by omega) (by rw [Matcher.maxLen]; omega)
      · rw [if_neg hroom]
        exact m.good_zero src pos «end» 0
    dsimp only
    by_cases hthree : m.use_hash3 ∧
        (if pos + 4 ≤ «end» then m.search4 src pos «end» else ⟨0, 0⟩).len < 4 ∧ pos + 3 ≤ «end»
    · rw [if_pos hthree]
      exact m.search3_good (by omega) (by rw [Matcher.maxLen]; omega) hfour
    · rw [if_neg hthree]
      exact hfour

theorem Matcher.singleProbeMatch_good (hend : «end» ≤ src.length) (hmax : 4 ≤ m.max_match) :
    m.Good src pos «end» (m.singleProbeMatch src pos «end»).len
      (m.singleProbeMatch src pos «end»).off := by
  rw [Matcher.singleProbeMatch]
  by_cases hshort : «end» < pos + 4
  · rw [if_pos hshort]
    exact m.good_zero src pos «end» 0
  · rw [if_neg hshort]
    have hwalk (next : Nat → Int) (depth : Nat) (ref : Int) :
        m.Good src pos «end»
          (walk (m.limit pos) pos next (m.lookLean src pos «end») depth ref ⟨0, 0⟩).len
          (walk (m.limit pos) pos next (m.lookLean src pos «end») depth ref ⟨0, 0⟩).off :=
      walk_keeps (P := fun best => m.Good src pos «end» best.len best.off)
        (m.lookLean_good (by omega) (by rw [Matcher.maxLen]; omega)) depth ref ⟨0, 0⟩
        (m.good_zero src pos «end» 0)
    dsimp only
    cases m.roots16 with
    | some r => exact hwalk _ _ _
    | none => exact hwalk _ _ _

/-- **SEARCHES REPORT WHAT IS THERE**, whatever the tables hold. -/
theorem Matcher.search_good (hend : «end» ≤ src.length) (hmax : 4 ≤ m.max_match) :
    m.Good src pos «end» (m.search src pos «end»).len (m.search src pos «end»).off := by
  rw [Matcher.search]
  split
  · exact m.singleProbeMatch_good hend hmax
  · exact m.chainMatch_good hend hmax

/-! ## Offsets that were used before -/

/-- No offset leaves the window. -/
def Matcher.RepBound (m : Matcher) : Prop := ∀ i, m.rep i ≤ 2 ^ m.wlog - 1

theorem Matcher.repAgrees_iff {n : Nat} {i : Fin 3} :
    m.repAgrees src pos n i = true ↔ m.rep i ≠ 0 ∧ m.rep i ≤ pos ∧
      leGet (bytesAt src pos n) = leGet (bytesAt src (pos - m.rep i) n) := by
  rw [Matcher.repAgrees, decide_eq_true_iff]

/-- An offset that reaches equal bytes, and their extension. -/
theorem Matcher.good_of_repAgrees {n : Nat} {i : Fin 3} (hrep : m.RepBound)
    (hend : pos + n ≤ src.length) (hmax : n ≤ m.maxLen pos «end»)
    (h : m.repAgrees src pos n i = true) :
    m.Good src pos «end»
      (n + extendMatch src (pos + n) (pos - m.rep i + n) (m.maxLen pos «end» - n)) (m.rep i) := by
  obtain ⟨hne, hle, hsame⟩ := Matcher.repAgrees_iff.mp h
  have hoff : pos - (pos - m.rep i) = m.rep i := by omega
  have hmatch : IsMatch src pos (pos - (pos - m.rep i))
      (n + extendMatch src (pos + n) (pos - m.rep i + n) (m.maxLen pos «end» - n)) :=
    isMatch_of_compared (by omega) hend hsame
  rw [hoff] at hmatch
  have hext := (extendMatch_spec src (pos + n) (pos - m.rep i + n) (m.maxLen pos «end» - n)).1
  exact Or.inr ⟨hmatch, hrep i, by omega⟩

theorem Matcher.tryRepMatch_good (hrep : m.RepBound) (hend : «end» ≤ src.length)
    (hroom : pos + 4 ≤ «end») (hmax : 4 ≤ m.max_match) {i : Fin 3} {len : Nat}
    (h : m.tryRepMatch src pos «end» = some (i, len)) : m.Good src pos «end» len (m.rep i) := by
  have hmaxLen : 4 ≤ m.maxLen pos «end» := by
    rw [Matcher.maxLen]
    omega
  rw [Matcher.tryRepMatch] at h
  cases hfour : [0, 1, 2].find? (m.repAgrees src pos 4) with
  | some j =>
      rw [hfour] at h
      cases h
      exact m.good_of_repAgrees hrep (by omega) hmaxLen (List.find?_some hfour)
  | none =>
      rw [hfour] at h
      dsimp only at h
      split at h
      · cases hthree : [0, 1, 2].find? (m.repAgrees src pos 3) with
        | some j =>
            rw [hthree] at h
            cases h
            obtain ⟨hne, hle, hsame⟩ := Matcher.repAgrees_iff.mp (List.find?_some hthree)
            have hbytes := charAt_of_leGet_eq (by omega) (by omega) hsame
            refine Or.inr ⟨⟨by omega, hle, ?_⟩, hrep i, by omega⟩
            intro k hk
            have hback : pos + k - m.rep i = pos - m.rep i + k := by omega
            rw [hback]
            exact hbytes k hk
        | none =>
            rw [hthree] at h
            cases h
      · cases h

end Searches

end Zupt.VaptVupt
