import Zupt.VaptVupt.Normalize
import Mathlib.Data.Nat.Count

/-! # The windows of a symbol

    A symbol of frequency `f` has `f` states.  The table gives each of them the bits it
    reads and where they are added: a window of the states in front of it.  `build_dec`
    and `build_dec_direct` make the same table; the windows of a symbol cut all states
    into pieces, unless it is the only symbol, and `enc_sym` finds the piece in one step. -/

namespace Zupt

/-! ## Pieces of an interval -/

section Pieces

variable {start : Nat → Nat} {n : Nat}

theorem starts_mono (hstep : ∀ k < n, start k < start (k + 1)) {j k : Nat} (hjk : j ≤ k) (hk : k ≤ n) :
    start j ≤ start k := by
  induction k with
  | zero => rw [Nat.le_zero.mp hjk]
  | succ k ih =>
      by_cases hlast : j = k + 1
      · rw [hlast]
      · have hprev := ih (by omega) (by omega)
        have hnext := hstep k (by omega)
        omega

/-- **PIECES** with ascending starts do not overlap. -/
theorem piece_unique (hstep : ∀ k < n, start k < start (k + 1)) {y j k : Nat} (hj : j < n) (hk : k < n)
    (hyj : start j ≤ y ∧ y < start (j + 1)) (hyk : start k ≤ y ∧ y < start (k + 1)) : j = k := by
  rcases Nat.lt_trichotomy j k with hlt | heq | hgt
  · have hle := starts_mono hstep (show j + 1 ≤ k from hlt) hk.le
    omega
  · exact heq
  · have hle := starts_mono hstep (show k + 1 ≤ j from hgt) hj.le
    omega

end Pieces

/-- The place of the `k`-th number with a property. -/
theorem exists_count_eq {p : Nat → Prop} [DecidablePred p] {n k : Nat} (hk : k < Nat.count p n) :
    ∃ x, x < n ∧ p x ∧ Nat.count p x = k := by
  induction n with
  | zero =>
      rw [Nat.count_zero] at hk
      exact absurd hk (Nat.not_lt_zero k)
  | succ n ih =>
      by_cases hbelow : k < Nat.count p n
      · obtain ⟨x, hx, hpx, hcount⟩ := ih hbelow
        exact ⟨x, Nat.lt_succ_of_lt hx, hpx, hcount⟩
      · rw [Nat.count_succ] at hk
        by_cases hpn : p n
        · rw [if_pos hpn] at hk
          exact ⟨n, Nat.lt_succ_self n, hpn, by omega⟩
        · rw [if_neg hpn] at hk
          exact absurd hk hbelow

end Zupt

namespace Zupt.VaptVupt

open Zupt.Memory

/-! ## `build_dec` with its guards -/

/-- `lowcnt_tab[s]`, an `int16_t`. -/
def lowTab (f : Nat) : Int :=
  if f = 0 ∨ f = ansL then 0 else Int.bmod ((2 ^ (Nat.log2 f + 1) : Nat) - f) (2 ^ 16)

/-- What `build_dec` puts into a slot.  A difference of `Nat` is none below zero, which is the
    guard `if (nb_max < 0) nb_max = 0`. -/
def entryGuarded (s : UInt8) (f k : Nat) : DecEntry :=
  if f = 0 ∨ f = ansL then ⟨s, 0, 0⟩
  else
    let nb_max := ansLog - Nat.log2 f
    let low_count := lowTab f
    if k < low_count then ⟨s, nb_max, k <<< nb_max % 65536⟩
    else
      let sh := if 0 < nb_max then nb_max - 1 else 0
      ⟨s, sh, ((low_count % 2 ^ 32).toNat <<< nb_max + ((k - low_count) % 2 ^ 32).toNat <<< sh) % 65536⟩

/-- The loop of `build_dec` over the first `n` slots. -/
def fillGuarded (norm : Norm) (sp : Mem UInt8) (dec : Mem DecEntry) : (n : Nat) → Mem DecEntry × (UInt8 → Nat)
  | 0 => (dec, fun _ => 0)
  | n + 1 =>
      let st := fillGuarded norm sp dec n
      let s := sp n
      (Function.update st.1 n (entryGuarded s (norm s.toNat) (st.2 s)), Function.update st.2 s (st.2 s + 1))

/-- `build_dec`. -/
def buildDecGuarded (norm : Norm) (sp : Mem UInt8) (dec : Mem DecEntry) : Mem DecEntry :=
  (fillGuarded norm sp dec ansL).1

/-! ## The encoder's context -/

/-- `enc_occ_t`. -/
structure EncOcc where
  bl : Nat
  nb : Nat
  slot : Nat
  deriving DecidableEq, Repr

/-- `enc_ctx_t`. -/
structure EncCtx where
  o : Mem EncOcc
  cum : Nat → Nat

/-- `c->cum`. -/
def cumFreq (norm : Norm) : Nat → Nat
  | 0 => 0
  | i + 1 => (cumFreq norm i + norm i) % 65536

/-- The first `n` turns of the loop over the slots: the occurrences, and how many of each
    symbol there were. -/
def fillEnc (cum : Nat → Nat) (sp : Mem UInt8) (dec : Mem DecEntry) (o : Mem EncOcc) :
    (n : Nat) → Mem EncOcc × (UInt8 → Nat)
  | 0 => (o, fun _ => 0)
  | n + 1 =>
      let st := fillEnc cum sp dec o n
      let s := sp n
      (Function.update st.1 (cum s.toNat + st.2 s) ⟨(dec n).baseline, (dec n).nbits, n % 65536⟩,
        Function.update st.2 s (st.2 s + 1))

/-- The `while` loop of the sort: `left` occurrences from `st` on are in front of the place of
    `tmp`. -/
def insertBack (tmp : EncOcc) (st : Nat) : (left : Nat) → Mem EncOcc → Mem EncOcc
  | 0, o => Function.update o st tmp
  | left + 1, o =>
      if tmp.bl < (o (st + left)).bl then
        insertBack tmp st left (Function.update o (st + left + 1) (o (st + left)))
      else Function.update o (st + left + 1) tmp

/-- The first `n` turns of the sort of one symbol. -/
def sortRun (st : Nat) (o : Mem EncOcc) : (n : Nat) → Mem EncOcc
  | 0 => o
  | n + 1 =>
      let o' := sortRun st o n
      insertBack (o' (st + n + 1)) st (n + 1) o'

/-- The sort of the first `n` symbols. -/
def sortRuns (norm : Norm) (cum : Nat → Nat) (o : Mem EncOcc) : (n : Nat) → Mem EncOcc
  | 0 => o
  | n + 1 => sortRun (cum n) (sortRuns norm cum o n) (norm n - 1)

/-- `build_enc`, in storage that was allocated. -/
def buildEnc (norm : Norm) (sp : Mem UInt8) (dec : Mem DecEntry) (o : Mem EncOcc) : EncCtx :=
  ⟨sortRuns norm (cumFreq norm) (fillEnc (cumFreq norm) sp dec o ansL).1 256, cumFreq norm⟩

/-- The occurrence that `enc_sym` takes for a state, and its bits. -/
def pickOcc (cnt state : Nat) : Nat × Nat :=
  let flg := Nat.log2 cnt
  let nb_max := ansLog - flg
  let low_count := 2 ^ (flg + 1) - cnt
  let threshold := low_count <<< nb_max
  if state < threshold then (state >>> nb_max, nb_max)
  else (low_count + (state - threshold) >>> (nb_max - 1), nb_max - 1)

/-- `enc_sym`: the slot, and the bits with their number; `none` is -1. -/
def encSym (c : EncCtx) (state sym : Nat) : Option (Nat × Nat × Nat) :=
  let base := c.cum sym
  let cnt := c.cum (sym + 1) - base
  if cnt = 0 then none
  else if cnt = ansL then some (0, 0, 0)
  else
    let p := pickOcc cnt state
    let e := c.o (base + p.1)
    some (e.slot, (state + 2 ^ 32 - e.bl) % 2 ^ 32, p.2)

/-! ## The windows -/

/-- Where the window of the `k`-th of `f` occurrences starts. -/
def windowStart (f k : Nat) : Nat :=
  if k < lowCount f then k * 2 ^ nbMax f
  else lowCount f * 2 ^ nbMax f + (k - lowCount f) * 2 ^ (nbMax f - 1)

/-- The bits of the `k`-th of `f` occurrences. -/
def windowBits (f k : Nat) : Nat := if k < lowCount f then nbMax f else nbMax f - 1

/-- The numbers of a symbol that is neither absent nor alone. -/
theorem window_numbers {f : Nat} (hpos : 0 < f) (hlt : f < ansL) :
    ∃ flg, Nat.log2 f = flg ∧ 2 ^ flg ≤ f ∧ f < 2 ^ (flg + 1) ∧ flg ≤ 11 ∧ nbMax f = 12 - flg ∧
      lowCount f = 2 ^ (flg + 1) - f := by
  have hne : ¬(f = 0 ∨ f = ansL) := by omega
  have hlow : 2 ^ Nat.log2 f ≤ f := Nat.log2_self_le (by omega)
  have hhigh : f < 2 ^ (Nat.log2 f + 1) := Nat.lt_log2_self
  have hlog : Nat.log2 f < 12 := (Nat.log2_lt (by omega)).mpr hlt
  exact ⟨_, rfl, hlow, hhigh, by omega, by rw [nbMax, if_neg hne, ansLog], by rw [lowCount, if_neg hne]⟩

/-- A window is as long as its bits say, and the next one starts behind it. -/
theorem windowStart_succ {f : Nat} (hpos : 0 < f) (hlt : f < ansL) (k : Nat) :
    windowStart f (k + 1) = windowStart f k + 2 ^ windowBits f k := by
  obtain ⟨flg, -, hlow, hhigh, hflg, hnb, hcount⟩ := window_numbers hpos hlt
  rw [windowStart, windowStart, windowBits]
  by_cases hk : k + 1 < lowCount f
  · rw [if_pos hk, if_pos (show k < lowCount f by omega), if_pos (show k < lowCount f by omega), Nat.succ_mul]
  · rw [if_neg hk]
    by_cases hlast : k < lowCount f
    · have hsame : k + 1 = lowCount f := by omega
      rw [if_pos hlast, if_pos hlast, ← hsame, Nat.sub_self, Nat.zero_mul, Nat.add_zero, Nat.succ_mul]
    · rw [if_neg hlast, if_neg hlast, show k + 1 - lowCount f = (k - lowCount f) + 1 by omega, Nat.succ_mul,
        Nat.add_assoc]

theorem windowStart_zero {f : Nat} (hpos : 0 < f) (hlt : f < ansL) : windowStart f 0 = 0 := by
  obtain ⟨flg, -, hlow, hhigh, hflg, hnb, hcount⟩ := window_numbers hpos hlt
  rw [windowStart, if_pos (by omega), Nat.zero_mul]

/-- **THE WINDOWS END** where the states end. -/
theorem windowStart_end {f : Nat} (hpos : 0 < f) (hlt : f < ansL) : windowStart f f = ansL := by
  obtain ⟨flg, -, hlow, hhigh, hflg, hnb, hcount⟩ := window_numbers hpos hlt
  have hpow : 2 ^ (flg + 1) = 2 * 2 ^ flg := Nat.pow_succ'
  have hhalf : (2 : Nat) ^ (12 - flg) = 2 * 2 ^ (11 - flg) := by
    rw [show 12 - flg = 11 - flg + 1 by omega, Nat.pow_succ']
  have hall : 2 ^ (flg + 1) * 2 ^ (11 - flg) = 4096 := by
    rw [← Nat.pow_add, show flg + 1 + (11 - flg) = 12 by omega]
  have hle : lowCount f ≤ f := by omega
  have hsum : lowCount f + f = 2 ^ (flg + 1) := by omega
  rw [windowStart, if_neg (by omega), hnb, show 12 - flg - 1 = 11 - flg by omega, hhalf]
  calc lowCount f * (2 * 2 ^ (11 - flg)) + (f - lowCount f) * 2 ^ (11 - flg)
      = (2 * lowCount f + (f - lowCount f)) * 2 ^ (11 - flg) := by ring
    _ = (lowCount f + f) * 2 ^ (11 - flg) := by rw [show 2 * lowCount f + (f - lowCount f) = lowCount f + f by omega]
    _ = ansL := by rw [hsum, hall, ansL]

theorem windowStart_step {f : Nat} (hpos : 0 < f) (hlt : f < ansL) (k : Nat) :
    windowStart f k < windowStart f (k + 1) := by
  rw [windowStart_succ hpos hlt]
  exact Nat.lt_add_of_pos_right (Nat.two_pow_pos _)

theorem windowStart_le {f k : Nat} (hpos : 0 < f) (hlt : f < ansL) (hk : k ≤ f) : windowStart f k ≤ ansL := by
  rw [← windowStart_end hpos hlt]
  exact starts_mono (n := f) (fun j _ => windowStart_step hpos hlt j) hk (Nat.le_refl f)

/-- The entry of an occurrence is its window. -/
theorem entryAt_window {f k : Nat} (s : UInt8) (hpos : 0 < f) (hlt : f < ansL) (hk : k < f) :
    entryAt s f k = ⟨s, windowBits f k, windowStart f k⟩ := by
  obtain ⟨flg, -, hlow, hhigh, hflg, hnb, hcount⟩ := window_numbers hpos hlt
  have hle := windowStart_le hpos hlt hk.le
  have hmod : windowStart f k % 65536 = windowStart f k := Nat.mod_eq_of_lt (by rw [ansL] at hle; omega)
  rw [entryAt, if_neg (by omega), windowBits]
  by_cases hfirst : k < lowCount f
  · rw [if_pos hfirst, if_pos hfirst, Nat.shiftLeft_eq]
    rw [windowStart, if_pos hfirst] at hmod ⊢
    rw [hmod]
  · rw [if_neg hfirst, if_neg hfirst]
    rw [windowStart, if_neg hfirst] at hmod ⊢
    dsimp only
    rw [Nat.shiftLeft_eq, Nat.shiftLeft_eq, hmod]

/-- **THE STEP OF THE ENCODER** finds the window of a state. -/
theorem pickOcc_window {f y : Nat} (hpos : 0 < f) (hlt : f < ansL) (hy : y < ansL) :
    ∃ k, k < f ∧ pickOcc f y = (k, windowBits f k) ∧ windowStart f k ≤ y ∧ y < windowStart f (k + 1) := by
  obtain ⟨flg, hlog, hlow, hhigh, hflg, hnb, hcount⟩ := window_numbers hpos hlt
  have hpick : pickOcc f y =
      if y < lowCount f * 2 ^ nbMax f then (y / 2 ^ nbMax f, nbMax f)
      else (lowCount f + (y - lowCount f * 2 ^ nbMax f) / 2 ^ (nbMax f - 1), nbMax f - 1) := by
    rw [pickOcc, hlog, Nat.shiftLeft_eq, Nat.shiftRight_eq_div_pow, Nat.shiftRight_eq_div_pow, hcount, hnb, ansLog]
  -- a window that starts below the last state is one of the `f`
  have hinside {k : Nat} (hstart : windowStart f k ≤ y) : k < f := by
    by_contra hge
    have hle := starts_mono (n := k) (fun j _ => windowStart_step hpos hlt j) (Nat.le_of_not_lt hge) (Nat.le_refl k)
    rw [windowStart_end hpos hlt] at hle
    omega
  rw [hpick]
  by_cases hfirst : y < lowCount f * 2 ^ nbMax f
  · have hk : y / 2 ^ nbMax f < lowCount f := (Nat.div_lt_iff_lt_mul (Nat.two_pow_pos _)).mpr hfirst
    have hstart : windowStart f (y / 2 ^ nbMax f) = y / 2 ^ nbMax f * 2 ^ nbMax f := if_pos hk
    have hle : windowStart f (y / 2 ^ nbMax f) ≤ y := hstart ▸ Nat.div_mul_le_self y _
    have hbits : windowBits f (y / 2 ^ nbMax f) = nbMax f := if_pos hk
    refine ⟨_, hinside hle, by rw [if_pos hfirst, hbits], hle, ?_⟩
    rw [windowStart_succ hpos hlt, hbits, hstart]
    exact Nat.lt_div_mul_add (Nat.two_pow_pos _)
  · have hbelow : lowCount f * 2 ^ nbMax f ≤ y := Nat.le_of_not_lt hfirst
    generalize hq : (y - lowCount f * 2 ^ nbMax f) / 2 ^ (nbMax f - 1) = q
    have hqle : q * 2 ^ (nbMax f - 1) ≤ y - lowCount f * 2 ^ nbMax f := hq ▸ Nat.div_mul_le_self _ _
    have hqlt : y - lowCount f * 2 ^ nbMax f < q * 2 ^ (nbMax f - 1) + 2 ^ (nbMax f - 1) :=
      hq ▸ Nat.lt_div_mul_add (Nat.two_pow_pos _)
    have hk : ¬lowCount f + q < lowCount f := by omega
    have hstart : windowStart f (lowCount f + q) = lowCount f * 2 ^ nbMax f + q * 2 ^ (nbMax f - 1) := by
      rw [windowStart, if_neg hk, Nat.add_sub_cancel_left]
    have hbits : windowBits f (lowCount f + q) = nbMax f - 1 := if_neg hk
    have hle : windowStart f (lowCount f + q) ≤ y := by omega
    refine ⟨_, hinside hle, by rw [if_neg hfirst, hbits], hle, ?_⟩
    rw [windowStart_succ hpos hlt, hbits, hstart]
    omega

/-! ## The occurrences of a symbol -/

/-- A slot is where one step of the spread is. -/
theorem slot_injective {j k : Nat} (hj : j < ansL) (hk : k < ansL) (h : slot j = slot k) : j = k := by
  rw [slot, slot, spreadStep, ansL] at *
  omega

/-- A run writes its symbol, and nothing else. -/
theorem spreadRun_symbol (s : UInt8) (left k : Nat) (sp : Mem UInt8) (hfits : k + left ≤ ansL) :
    (∀ j, k ≤ j → j < k + left → (spreadRun s left sp (slot k)).1 (slot j) = s) ∧
      ∀ j, j < k → (spreadRun s left sp (slot k)).1 (slot j) = sp (slot j) := by
  induction left generalizing k sp with
  | zero => exact ⟨fun j hge hlt => absurd hlt (by omega), fun j _ => rfl⟩
  | succ left ih =>
      rw [spreadRun, slot_succ]
      obtain ⟨hwrites, hkeeps⟩ := ih (k + 1) (Function.update sp (slot k) s) (by omega)
      constructor
      · intro j hge hlt
        by_cases hfirst : j = k
        · rw [hfirst, hkeeps k (Nat.lt_succ_self k), Function.update_self]
        · exact hwrites j (by omega) (by omega)
      · intro j hlt
        have hne : slot j ≠ slot k := fun h => absurd (slot_injective (by omega) (by omega) h) (by omega)
        rw [hkeeps j (by omega), Function.update_of_ne hne]

theorem normSum_mono (norm : Norm) {m n : Nat} (h : m ≤ n) : normSum norm m ≤ normSum norm n := by
  induction h with
  | refl => exact Nat.le_refl _
  | step _ ih => exact ih.trans (Nat.le_add_right _ _)

/-- **THE SPREAD** gives a symbol the steps that are its share. -/
theorem spreadRuns_symbol {norm : Norm} (sp : Mem UInt8) {n s : Nat} (hs : s < n)
    (hfits : normSum norm n ≤ ansL) :
    ∀ j, normSum norm s ≤ j → j < normSum norm (s + 1) → (spreadRuns norm sp n).1 (slot j) = UInt8.ofNat s := by
  induction n with
  | zero => exact absurd hs (Nat.not_lt_zero s)
  | succ n ih =>
      rw [normSum] at hfits
      obtain ⟨hwrites, hkeeps⟩ := spreadRun_symbol (UInt8.ofNat n) (norm n) (normSum norm n)
        (spreadRuns norm sp n).1 hfits
      intro j hge hlt
      rw [spreadRuns, spreadRuns_slot]
      by_cases hlast : s = n
      · subst hlast
        exact hwrites j hge hlt
      · have hbefore := normSum_mono norm (show s + 1 ≤ n by omega)
        rw [hkeeps j (by omega)]
        exact ih (by omega) (by omega) j hge hlt

/-- The step of a slot has an owner. -/
theorem exists_share (norm : Norm) {j n : Nat} (hj : j < normSum norm n) :
    ∃ s, s < n ∧ normSum norm s ≤ j ∧ j < normSum norm (s + 1) := by
  induction n with
  | zero => exact absurd hj (Nat.not_lt_zero j)
  | succ n ih =>
      by_cases hbelow : j < normSum norm n
      · obtain ⟨s, hs, hshare⟩ := ih hbelow
        exact ⟨s, Nat.lt_succ_of_lt hs, hshare⟩
      · exact ⟨n, Nat.lt_succ_self n, Nat.le_of_not_lt hbelow, hj⟩

/-- **AS MANY SLOTS AS ITS FREQUENCY**: how often a symbol occurs in the spread. -/
theorem count_spread {norm : Norm} (h : normSum norm 256 = ansL) (sp : Mem UInt8) {s : Nat} (hs : s < 256) :
    Nat.count (fun x => spreadSymbols norm sp x = UInt8.ofNat s) ansL = norm s := by
  have hfits : normSum norm 256 ≤ ansL := h.le
  have hend : normSum norm (s + 1) ≤ ansL := h ▸ normSum_mono norm (show s + 1 ≤ 256 from hs)
  have himage : (Finset.range ansL).filter (fun x => spreadSymbols norm sp x = UInt8.ofNat s) =
      (Finset.Ico (normSum norm s) (normSum norm (s + 1))).image slot := by
    ext x
    rw [Finset.mem_filter, Finset.mem_range, Finset.mem_image]
    constructor
    · rintro ⟨hx, hsym⟩
      obtain ⟨j, hj, rfl⟩ := exists_slot hx
      obtain ⟨t, ht, hge, hlt⟩ := exists_share norm (h ▸ hj)
      rw [spreadSymbols, spreadRuns_symbol sp ht hfits j hge hlt] at hsym
      have hsame : t = s := by
        have hnat := congrArg UInt8.toNat hsym
        rw [UInt8.toNat_ofNat', UInt8.toNat_ofNat'] at hnat
        omega
      subst hsame
      exact ⟨j, Finset.mem_Ico.mpr ⟨hge, hlt⟩, rfl⟩
    · rintro ⟨j, hj, rfl⟩
      obtain ⟨hge, hlt⟩ := Finset.mem_Ico.mp hj
      exact ⟨Nat.mod_lt _ (by decide), spreadRuns_symbol sp hs hfits j hge hlt⟩
  have hinj : Set.InjOn slot (Finset.Ico (normSum norm s) (normSum norm (s + 1))) := by
    intro j hj k hk hsame
    rw [Finset.coe_Ico, Set.mem_Ico] at hj hk
    exact slot_injective (by omega) (by omega) hsame
  rw [Nat.count_eq_card_filter_range, himage, Finset.card_image_of_injOn hinj, Nat.card_Ico, normSum,
    Nat.add_sub_cancel_left]

/-! ## The two builders -/

/-- A builder counts the occurrences. -/
theorem fillSpread_count (norm : Norm) (sp : Mem UInt8) (dec : Mem DecEntry) (n : Nat) (s : UInt8) :
    (fillSpread norm sp dec n).2 s = Nat.count (fun x => sp x = s) n := by
  induction n with
  | zero => rw [Nat.count_zero, fillSpread]
  | succ n ih =>
      rw [fillSpread, Nat.count_succ]
      dsimp only
      by_cases hs : sp n = s
      · subst hs
        rw [Function.update_self, if_pos rfl, ih]
      · rw [Function.update_of_ne (Ne.symm hs), if_neg hs, ih, Nat.add_zero]

/-- The entry of a slot is that of its occurrence. -/
theorem fillSpread_rank (norm : Norm) (sp : Mem UInt8) (dec : Mem DecEntry) {n x : Nat} (hx : x < n) :
    (fillSpread norm sp dec n).1 x =
      entryAt (sp x) (norm (sp x).toNat) (Nat.count (fun z => sp z = sp x) x) := by
  induction n with
  | zero => exact absurd hx (Nat.not_lt_zero x)
  | succ n ih =>
      rw [fillSpread]
      dsimp only
      by_cases hlast : x = n
      · subst hlast
        rw [Function.update_self, fillSpread_count]
      · rw [Function.update_of_ne hlast]
        exact ih (by omega)

/-- The guards do nothing for a frequency of a table. -/
theorem entryGuarded_eq (s : UInt8) {f k : Nat} (hf : f ≤ ansL) (hk32 : k < 2 ^ 32) :
    entryGuarded s f k = entryAt s f k := by
  rw [entryGuarded, entryAt]
  by_cases hspecial : f = 0 ∨ f = ansL
  · rw [if_pos hspecial, if_pos (show nbMax f = 0 from if_pos hspecial)]
  · obtain ⟨flg, hlog, hlow, hhigh, hflg, hnb, hcount⟩ := window_numbers (f := f) (by omega) (by omega)
    have hpow : 2 ^ (flg + 1) ≤ 2 ^ 12 := Nat.pow_le_pow_right (by decide) (by omega)
    have htab : lowTab f = (lowCount f : Nat) := by
      rw [lowTab, if_neg hspecial, hlog, hcount, Nat.cast_sub (by omega)]
      exact Int.bmod_eq_of_le (by omega) (by omega)
    have hbits : ansLog - Nat.log2 f = nbMax f := by rw [nbMax, if_neg hspecial]
    rw [if_neg hspecial, if_neg (show ¬nbMax f = 0 by omega)]
    dsimp only
    rw [htab, hbits]
    by_cases hk : k < lowCount f
    · rw [if_pos hk, if_pos (Int.ofNat_lt.mpr hk)]
    · have hlowFits : ((lowCount f : Int) % 2 ^ 32).toNat = lowCount f := by omega
      rw [if_neg hk, if_neg (fun h => hk (Int.ofNat_lt.mp h)), if_pos (show 0 < nbMax f by omega), hlowFits]
      have hrest : (((k : Int) - lowCount f) % 2 ^ 32).toNat = k - lowCount f := by omega
      rw [hrest]

theorem fillGuarded_eq {norm : Norm} (hnorm : ∀ s < 256, norm s ≤ ansL) (sp : Mem UInt8) (dec : Mem DecEntry)
    {n : Nat} (hn : n ≤ ansL) : fillGuarded norm sp dec n = fillSpread norm sp dec n := by
  induction n with
  | zero => rfl
  | succ n ih =>
      have hcount : (fillSpread norm sp dec n).2 (sp n) ≤ n := by
        rw [fillSpread_count]
        exact Nat.count_le _
      rw [fillGuarded, fillSpread, ih (by omega),
        entryGuarded_eq (sp n) (hnorm _ (sp n).toNat_lt) (by rw [ansL] at hn; omega)]

theorem freq_le {norm : Norm} (h : normSum norm 256 = ansL) : ∀ s < 256, norm s ≤ ansL :=
  fun _ hs => h ▸ le_normSum norm hs

/-- **ONE TABLE**: `build_dec_direct` makes the table that `build_dec` makes of the spread. -/
theorem buildDecDirect_guarded {norm : Norm} (h : normSum norm 256 = ansL) (sp : Mem UInt8)
    (dec dec' : Mem DecEntry) :
    AgreeBelow ansL (buildDecDirect norm dec) (buildDecGuarded norm (spreadSymbols norm sp) dec') := by
  rw [buildDecDirect_eq, buildDecGuarded, fillGuarded_eq (freq_le h) _ _ (Nat.le_refl ansL)]
  exact buildDec_agree h _ _ _ _

/-! ## The states of a symbol -/

/-- The `k`-th state of a symbol, in a table made with a spread. -/
structure IsOcc (norm : Norm) (sp : Mem UInt8) (s k x : Nat) : Prop where
  lt : x < ansL
  symbol : sp x = UInt8.ofNat s
  rank : Nat.count (fun z => sp z = UInt8.ofNat s) x = k

theorem IsOcc.unique {norm : Norm} {sp : Mem UInt8} {s k x y : Nat} (hx : IsOcc norm sp s k x)
    (hy : IsOcc norm sp s k y) : x = y :=
  Nat.count_injective hx.symbol hy.symbol (hx.rank.trans hy.rank.symm)

theorem exists_isOcc {norm : Norm} (h : normSum norm 256 = ansL) (sp : Mem UInt8) {s k : Nat} (hs : s < 256)
    (hk : k < norm s) : ∃ x, IsOcc norm (spreadSymbols norm sp) s k x := by
  rw [← count_spread h sp hs] at hk
  obtain ⟨x, hx, hsym, hrank⟩ := exists_count_eq hk
  exact ⟨x, hx, hsym, hrank⟩

/-- A state of a symbol is one of as many as its frequency. -/
theorem isOcc_of_symbol {norm : Norm} (h : normSum norm 256 = ansL) (sp : Mem UInt8) {s x : Nat} (hs : s < 256)
    (hx : x < ansL) (hsym : spreadSymbols norm sp x = UInt8.ofNat s) :
    ∃ k, k < norm s ∧ IsOcc norm (spreadSymbols norm sp) s k x := by
  refine ⟨_, ?_, hx, hsym, rfl⟩
  rw [← count_spread h sp hs]
  exact Nat.count_strict_mono hsym hx

theorem buildDec_occ {norm : Norm} {sp : Mem UInt8} (dec : Mem DecEntry) {s k x : Nat} (hs : s < 256)
    (hx : IsOcc norm sp s k x) : buildDec norm sp dec x = entryAt (UInt8.ofNat s) (norm s) k := by
  have hcast : (UInt8.ofNat s).toNat = s := by
    rw [UInt8.toNat_ofNat']
    omega
  rw [buildDec, fillSpread_rank norm sp dec hx.lt, hx.symbol, hcast, hx.rank]

/-! ## The context -/

theorem cumFreq_eq {norm : Norm} (h : normSum norm 256 = ansL) {i : Nat} (hi : i ≤ 256) :
    cumFreq norm i = normSum norm i := by
  induction i with
  | zero => rfl
  | succ i ih =>
      have hle := normSum_mono norm hi
      rw [normSum, h, ansL] at hle
      rw [cumFreq, normSum, ih (by omega)]
      omega

/-- The shares of two symbols do not overlap. -/
theorem share_unique {norm : Norm} {s t j k : Nat} (hj : j < norm s) (hk : k < norm t)
    (h : normSum norm s + j = normSum norm t + k) : s = t := by
  rcases Nat.lt_trichotomy s t with hlt | heq | hgt
  · have hle := normSum_mono norm (show s + 1 ≤ t from hlt)
    rw [normSum] at hle
    omega
  · exact heq
  · have hle := normSum_mono norm (show t + 1 ≤ s from hgt)
    rw [normSum] at hle
    omega

theorem fillEnc_count (cum : Nat → Nat) (sp : Mem UInt8) (dec : Mem DecEntry) (o : Mem EncOcc) (n : Nat)
    (s : UInt8) : (fillEnc cum sp dec o n).2 s = Nat.count (fun x => sp x = s) n := by
  induction n with
  | zero => rw [Nat.count_zero, fillEnc]
  | succ n ih =>
      rw [fillEnc, Nat.count_succ]
      dsimp only
      by_cases hs : sp n = s
      · subst hs
        rw [Function.update_self, if_pos rfl, ih]
      · rw [Function.update_of_ne (Ne.symm hs), if_neg hs, ih, Nat.add_zero]

/-- **AN OCCURRENCE** stands at its rank in the share of its symbol. -/
theorem fillEnc_occ {norm : Norm} (h : normSum norm 256 = ansL) (sp : Mem UInt8) (dec : Mem DecEntry)
    (o : Mem EncOcc) {s k x : Nat} (hs : s < 256) (hk : k < norm s)
    (hx : IsOcc norm (spreadSymbols norm sp) s k x) {n : Nat} (hxn : x < n) (hn : n ≤ ansL) :
    (fillEnc (cumFreq norm) (spreadSymbols norm sp) dec o n).1 (normSum norm s + k) =
      ⟨(dec x).baseline, (dec x).nbits, x⟩ := by
  induction n with
  | zero => exact absurd hxn (Nat.not_lt_zero x)
  | succ n ih =>
      obtain ⟨t, ht, hsym⟩ : ∃ t, t < 256 ∧ spreadSymbols norm sp n = UInt8.ofNat t :=
        ⟨_, (spreadSymbols norm sp n).toNat_lt, (UInt8.ofNat_toNat).symm⟩
      have hcast : (UInt8.ofNat t).toNat = t := by
        rw [UInt8.toNat_ofNat']
        omega
      obtain ⟨k', hk', hocc⟩ := isOcc_of_symbol h sp ht (show n < ansL by omega) hsym
      rw [fillEnc]
      dsimp only
      rw [fillEnc_count, hsym, hcast, cumFreq_eq h ht.le, hocc.rank]
      by_cases hlast : x = n
      · subst hlast
        have hst : s = t := by
          have hnat := congrArg UInt8.toNat (hx.symbol.symm.trans hsym)
          rw [UInt8.toNat_ofNat', UInt8.toNat_ofNat'] at hnat
          omega
        subst hst
        have hkk : k' = k := hocc.rank.symm.trans hx.rank
        subst hkk
        have hmod : x % 65536 = x := Nat.mod_eq_of_lt (by rw [ansL] at hn; omega)
        rw [Function.update_self, hmod]
      · have hne : normSum norm s + k ≠ normSum norm t + k' := by
          intro hsame
          obtain rfl := share_unique hk hk' hsame
          have hkk : k = k' := by omega
          subst hkk
          exact hlast (hx.unique hocc)
        rw [Function.update_of_ne hne]
        exact ih (by omega) (by omega)

/-! ## The sort -/

/-- Occurrences in order are left where they are. -/
theorem sortRun_sorted {st : Nat} {o : Mem EncOcc} {n : Nat}
    (h : ∀ k < n, (o (st + k)).bl ≤ (o (st + k + 1)).bl) : sortRun st o n = o := by
  induction n with
  | zero => rfl
  | succ n ih =>
      rw [sortRun, ih fun k hk => h k (Nat.lt_succ_of_lt hk), insertBack, if_neg (Nat.not_lt.mpr (h n (Nat.lt_succ_self n))), Function.update_eq_self]

theorem sortRuns_sorted {norm : Norm} {cum : Nat → Nat} {o : Mem EncOcc} {n : Nat}
    (h : ∀ s < n, ∀ k, k + 1 < norm s → (o (cum s + k)).bl ≤ (o (cum s + k + 1)).bl) :
    sortRuns norm cum o n = o := by
  induction n with
  | zero => rfl
  | succ n ih =>
      rw [sortRuns, ih fun s hs => h s (Nat.lt_succ_of_lt hs)]
      exact sortRun_sorted fun k hk => h n (Nat.lt_succ_self n) k (by omega)

/-- **THE CONTEXT** holds the states of a symbol in their order. -/
theorem buildEnc_occ {norm : Norm} (h : normSum norm 256 = ansL) (sp : Mem UInt8) (dec : Mem DecEntry)
    (o : Mem EncOcc) {s k x : Nat} (hs : s < 256) (hk : k < norm s)
    (hx : IsOcc norm (spreadSymbols norm sp) s k x) :
    (buildEnc norm (spreadSymbols norm sp) (buildDec norm (spreadSymbols norm sp) dec) o).o (normSum norm s + k) =
      ⟨(entryAt (UInt8.ofNat s) (norm s) k).baseline, (entryAt (UInt8.ofNat s) (norm s) k).nbits, x⟩ := by
  have hfill {s k x : Nat} (hs : s < 256) (hk : k < norm s) (hx : IsOcc norm (spreadSymbols norm sp) s k x) :
      (fillEnc (cumFreq norm) (spreadSymbols norm sp) (buildDec norm (spreadSymbols norm sp) dec) o ansL).1
        (normSum norm s + k) =
      ⟨(entryAt (UInt8.ofNat s) (norm s) k).baseline, (entryAt (UInt8.ofNat s) (norm s) k).nbits, x⟩ := by
    rw [fillEnc_occ h sp _ o hs hk hx hx.lt (Nat.le_refl ansL), buildDec_occ dec hs hx]
  have hsorted : ∀ t < 256, ∀ j, j + 1 < norm t →
      ((fillEnc (cumFreq norm) (spreadSymbols norm sp) (buildDec norm (spreadSymbols norm sp) dec) o ansL).1
        (cumFreq norm t + j)).bl ≤
      ((fillEnc (cumFreq norm) (spreadSymbols norm sp) (buildDec norm (spreadSymbols norm sp) dec) o ansL).1
        (cumFreq norm t + j + 1)).bl := by
    intro t ht j hj
    obtain ⟨x₁, h₁⟩ := exists_isOcc h sp ht (show j < norm t by omega)
    obtain ⟨x₂, h₂⟩ := exists_isOcc h sp ht hj
    rw [cumFreq_eq h ht.le, hfill ht (by omega) h₁, Nat.add_assoc, hfill ht hj h₂]
    by_cases hall : norm t = ansL
    · have hzero : nbMax (norm t) = 0 := if_pos (Or.inr hall)
      rw [entryAt, entryAt, if_pos hzero, if_pos hzero]
    · have hlt : norm t < ansL := Nat.lt_of_le_of_ne (freq_le h t ht) hall
      have hpos : 0 < norm t := by omega
      rw [entryAt_window _ hpos hlt (by omega), entryAt_window _ hpos hlt hj]
      exact (windowStart_step hpos hlt j).le
  rw [buildEnc, sortRuns_sorted hsorted]
  exact hfill hs hk hx

/-! ## A step and the step that undoes it -/

/-- Reading its bits the decoder comes from state `x` to state `y`, past symbol `s`. -/
def Undoes (table : Mem DecEntry) (s y x : Nat) : Prop :=
  x < ansL ∧ (table x).symbol = UInt8.ofNat s ∧
    ∃ bits, bits < 2 ^ (table x).nbits ∧ (table x).baseline + bits = y

/-- The window of a state of a symbol that is neither absent nor alone. -/
theorem buildDec_window {norm : Norm} {sp : Mem UInt8} (dec : Mem DecEntry) {s k x : Nat} (hs : s < 256)
    (hlt : norm s < ansL) (hk : k < norm s) (hx : IsOcc norm sp s k x) :
    buildDec norm sp dec x = ⟨UInt8.ofNat s, windowBits (norm s) k, windowStart (norm s) k⟩ := by
  rw [buildDec_occ dec hs hx, entryAt_window _ (by omega) hlt hk]

/-- **ONE STATE** undoes a step. -/
theorem undoes_unique {norm : Norm} (h : normSum norm 256 = ansL) (sp : Mem UInt8) (dec : Mem DecEntry)
    {s k x y : Nat} (hs : s < 256) (hlt : norm s < ansL) (hk : k < norm s)
    (hx : IsOcc norm (spreadSymbols norm sp) s k x)
    (hy : windowStart (norm s) k ≤ y ∧ y < windowStart (norm s) (k + 1)) {x' : Nat} :
    Undoes (buildDec norm (spreadSymbols norm sp) dec) s y x' ↔ x' = x := by
  have hpos : 0 < norm s := by omega
  constructor
  · rintro ⟨hx', hsym, bits, hbits, hsum⟩
    rw [buildDec, fillSpread_symbol norm _ _ hx'] at hsym
    obtain ⟨k', hk', hocc⟩ := isOcc_of_symbol h sp hs hx' hsym
    rw [buildDec_window dec hs hlt hk' hocc] at hbits hsum
    dsimp only at hbits hsum
    have hnext := windowStart_succ hpos hlt k'
    have hstep : ∀ j < norm s, windowStart (norm s) j < windowStart (norm s) (j + 1) :=
      fun j _ => windowStart_step hpos hlt j
    have hsame : k' = k := piece_unique hstep hk' hk ⟨by omega, by omega⟩ hy
    subst hsame
    exact hocc.unique hx
  · rintro rfl
    have hnext := windowStart_succ hpos hlt k
    refine ⟨hx.lt, ?_, y - windowStart (norm s) k, ?_, ?_⟩
    · rw [buildDec_window dec hs hlt hk hx]
    · rw [buildDec_window dec hs hlt hk hx]
      dsimp only
      omega
    · rw [buildDec_window dec hs hlt hk hx]
      dsimp only
      omega

/-- **A STEP OF THE ENCODER** goes to the state whose window holds the state it comes from. -/
theorem encSym_step {norm : Norm} (h : normSum norm 256 = ansL) (sp : Mem UInt8) (dec : Mem DecEntry)
    (o : Mem EncOcc) {s k x y : Nat} (hs : s < 256) (hpos : 0 < norm s) (hlt : norm s < ansL) (hyL : y < ansL)
    (hk : k < norm s) (hx : IsOcc norm (spreadSymbols norm sp) s k x)
    (hpick : pickOcc (norm s) y = (k, windowBits (norm s) k)) (hy : windowStart (norm s) k ≤ y) :
    encSym (buildEnc norm (spreadSymbols norm sp) (buildDec norm (spreadSymbols norm sp) dec) o) y s =
      some (x, y - windowStart (norm s) k, windowBits (norm s) k) := by
  have hcnt : cumFreq norm (s + 1) - cumFreq norm s = norm s := by
    rw [cumFreq_eq h hs, cumFreq_eq h hs.le, normSum, Nat.add_sub_cancel_left]
  have hcum (norm : Norm) (sp : Mem UInt8) (dec : Mem DecEntry) (o : Mem EncOcc) :
      (buildEnc norm sp dec o).cum = cumFreq norm := rfl
  have hbits : (y + 2 ^ 32 - windowStart (norm s) k) % 2 ^ 32 = y - windowStart (norm s) k := by
    rw [ansL] at hyL
    omega
  rw [encSym, hcum, hcnt]
  dsimp only
  rw [if_neg (show ¬norm s = 0 by omega), if_neg (show ¬norm s = ansL by omega), hpick]
  dsimp only
  rw [cumFreq_eq h hs.le, buildEnc_occ h sp dec o hs hk hx, entryAt_window _ hpos hlt hk]
  dsimp only
  rw [hbits]

/-- **A SYMBOL THAT IS ALONE** has all the states, without bits and without a base. -/
theorem buildDec_alone {norm : Norm} (h : normSum norm 256 = ansL) (sp : Mem UInt8) (dec : Mem DecEntry)
    {s x : Nat} (hs : s < 256) (hall : norm s = ansL) (hx : x < ansL) :
    buildDec norm (spreadSymbols norm sp) dec x = ⟨UInt8.ofNat s, 0, 0⟩ := by
  have hzero : nbMax (norm s) = 0 := if_pos (Or.inr hall)
  -- the share of the symbol is all of the slots
  have hsym : spreadSymbols norm sp x = UInt8.ofNat s := by
    obtain ⟨j, hj, rfl⟩ := exists_slot hx
    have hend := normSum_mono norm (show s + 1 ≤ 256 from hs)
    rw [normSum, h, hall] at hend
    exact spreadRuns_symbol sp hs h.le j (by omega) (by rw [normSum, hall]; omega)
  obtain ⟨k, hk, hocc⟩ := isOcc_of_symbol h sp hs hx hsym
  rw [buildDec_occ dec hs hocc, entryAt, if_pos hzero]

/-- **TABLES TILE**: the two builders make one table.  The windows of a symbol that is not
    alone cut the states into pieces, so that one state, the one `enc_sym` goes to, undoes a
    step.  The states of a symbol that is alone have no bits and no base, and `enc_sym` goes
    to state 0. -/
theorem ans_tables_tile {norm : Norm} (h : normSum norm 256 = ansL) (sp : Mem UInt8) (dec dec' : Mem DecEntry)
    (o : Mem EncOcc) :
    let spread := spreadSymbols norm sp
    let table := buildDecGuarded norm spread dec
    AgreeBelow ansL (buildDecDirect norm dec') table ∧
    ∀ s < 256,
      (0 < norm s → norm s < ansL →
        (∀ x < ansL, (table x).symbol = UInt8.ofNat s → (table x).baseline + 2 ^ (table x).nbits ≤ ansL) ∧
        ∀ y < ansL, ∃ x, (∀ x', Undoes table s y x' ↔ x' = x) ∧
          encSym (buildEnc norm spread table o) y s = some (x, y - (table x).baseline, (table x).nbits)) ∧
      (norm s = ansL → (∀ x < ansL, table x = ⟨UInt8.ofNat s, 0, 0⟩) ∧
        ∀ y, encSym (buildEnc norm spread table o) y s = some (0, 0, 0)) := by
  intro spread table
  have htable : table = buildDec norm spread dec := by
    show (fillGuarded norm spread dec ansL).1 = _
    rw [fillGuarded_eq (freq_le h) spread dec (Nat.le_refl ansL), buildDec]
  refine ⟨buildDecDirect_guarded h sp dec' dec, ?_⟩
  intro s hs
  rw [htable]
  refine ⟨?_, ?_⟩
  · intro hpos hlt
    constructor
    · intro x hx hsym
      rw [buildDec, fillSpread_symbol norm _ _ hx] at hsym
      obtain ⟨k, hk, hocc⟩ := isOcc_of_symbol h sp hs hx hsym
      rw [buildDec_window dec hs hlt hk hocc]
      show windowStart (norm s) k + 2 ^ windowBits (norm s) k ≤ ansL
      rw [← windowStart_succ hpos hlt]
      exact windowStart_le hpos hlt hk
    · intro y hy
      obtain ⟨k, hk, hpick, hwindow⟩ := pickOcc_window hpos hlt hy
      obtain ⟨x, hx⟩ := exists_isOcc h sp hs hk
      refine ⟨x, fun x' => undoes_unique h sp dec hs hlt hk hx hwindow, ?_⟩
      rw [encSym_step h sp dec o hs hpos hlt hy hk hx hpick hwindow.1, buildDec_window dec hs hlt hk hx]
  · intro hall
    constructor
    · intro x hx
      exact buildDec_alone h sp dec hs hall hx
    · intro y
      have hcnt : cumFreq norm (s + 1) - cumFreq norm s = ansL := by
        rw [cumFreq_eq h hs, cumFreq_eq h hs.le, normSum, Nat.add_sub_cancel_left, hall]
      show (if cumFreq norm (s + 1) - cumFreq norm s = 0 then none
        else if cumFreq norm (s + 1) - cumFreq norm s = ansL then some (0, 0, 0) else _) = _
      rw [if_neg (by rw [hcnt]; decide), if_pos hcnt]

/-- Two symbols that share a table. -/
def evenNorm : Norm := fun s => if s < 2 then 2048 else 0

/-- Some table. -/
def blankTable : Mem DecEntry := fun _ => ⟨0, 0, 0⟩

/-- State 7 of a symbol that has every other state. -/
theorem ans_tables_tile_even :
    normSum evenNorm 256 = ansL ∧
      ∃ x, ∀ x', Undoes (buildDecGuarded evenNorm (spreadSymbols evenNorm fun _ => 0) blankTable) 1 7 x' ↔ x' = x := by
  have hsum : normSum evenNorm 256 = ansL := by decide +kernel
  obtain ⟨-, hall⟩ := ans_tables_tile hsum (fun _ => 0) blankTable blankTable fun _ => ⟨0, 0, 0⟩
  obtain ⟨-, hsteps⟩ := (hall 1 (by decide)).1 (by decide) (by decide)
  obtain ⟨x, hx, -⟩ := hsteps 7 (by decide)
  exact ⟨hsum, x, hx⟩

/-- One symbol only. -/
def loneNorm : Norm := fun s => if s = 0 then 4096 else 0

/-- The windows of a symbol that is alone cut nothing into pieces: no state undoes a step
    from state 1. -/
theorem lone_symbol_not_tiled :
    normSum loneNorm 256 = ansL ∧ 0 < loneNorm 0 ∧ ¬∃ x, Undoes (buildDecDirect loneNorm blankTable) 0 1 x := by
  have hsum : normSum loneNorm 256 = ansL := by decide +kernel
  refine ⟨hsum, by decide, ?_⟩
  rintro ⟨x, hx, hsym, bits, hbits, hvalue⟩
  rw [buildDecDirect_eq, buildDec_alone (s := 0) hsum _ _ (by decide) rfl hx] at hbits hvalue
  dsimp only at hbits hvalue
  omega

end Zupt.VaptVupt
