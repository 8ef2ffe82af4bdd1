import Mathlib.Logic.Function.Basic
import Mathlib.Data.List.Basic

/-! # Open addressing

    A table that places an entry in the first free slot of the probe sequence
    of its key, and looks a key up along the same sequence until a slot is
    free.  Both give up after a number of probes.  Nothing is ever removed.

    `Settled` is the invariant: in front of an entry, its probe sequence is
    occupied.  From it follows that a lookup sees an entry exactly if it was
    placed, and the first one of several. -/

namespace Zupt.Probing

variable {K E : Type}

/-- The slots of a table. -/
abbrev Slots (E : Type) := Nat → Option E

/-- The lookup along a probe sequence, from probe `i` on. -/
def find (slots : Slots E) (seq : Nat → Nat) (p : E → Prop) [DecidablePred p] :
    (remaining i : Nat) → Option E
  | 0, _ => none
  | remaining + 1, i =>
      match slots (seq i) with
      | none => none
      | some e => if p e then some e else find slots seq p remaining (i + 1)

/-- The slot an entry goes to: the first free one from probe `i` on. -/
def free (slots : Slots E) (seq : Nat → Nat) : (remaining i : Nat) → Option Nat
  | 0, _ => none
  | remaining + 1, i =>
      match slots (seq i) with
      | none => some (seq i)
      | some _ => free slots seq remaining (i + 1)

/-- From probe `i` to probe `m` every slot is occupied. -/
def Occupied (slots : Slots E) (seq : Nat → Nat) (i m : Nat) : Prop :=
  ∀ j, i ≤ j → j < m → slots (seq j) ≠ none

section Walk

variable {slots : Slots E} {seq : Nat → Nat} {p : E → Prop} [DecidablePred p] {x : E}

theorem Occupied.tail {i m : Nat} (h : Occupied slots seq i m) : Occupied slots seq (i + 1) m :=
  fun j hij hjm => h j (by omega) hjm

theorem Occupied.cons {i m : Nat} {y : E} (hy : slots (seq i) = some y)
    (h : Occupied slots seq (i + 1) m) : Occupied slots seq i m := by
  intro j hij hjm
  by_cases hj : j = i
  · subst hj
    rw [hy]
    exact Option.some_ne_none y
  · exact h j (by omega) hjm

/-- A lookup that finds something went over occupied slots without a match. -/
theorem find_eq_some {n i : Nat} (h : find slots seq p n i = some x) :
    ∃ m, i ≤ m ∧ m < i + n ∧ slots (seq m) = some x ∧ p x ∧ Occupied slots seq i m ∧
      ∀ j y, i ≤ j → j < m → slots (seq j) = some y → ¬ p y := by
  induction n generalizing i with
  | zero => exact nomatch h
  | succ n ih =>
      rw [find] at h
      cases hslot : slots (seq i) with
      | none =>
          rw [hslot] at h
          exact nomatch h
      | some y =>
          rw [hslot] at h
          dsimp only at h
          by_cases hp : p y
          · rw [if_pos hp] at h
            obtain rfl := Option.some.inj h
            exact ⟨i, (Nat.le_refl _), by omega, hslot, hp, fun j hij hjm => by omega,
              fun j y hij hjm => by omega⟩
          · rw [if_neg hp] at h
            obtain ⟨m, him, hmn, hm, hpx, hocc, hno⟩ := ih h
            refine ⟨m, by omega, by omega, hm, hpx, .cons hslot hocc, ?_⟩
            intro j z hij hjm hz
            by_cases hj : j = i
            · subst hj
              rw [hslot] at hz
              exact Option.some.inj hz ▸ hp
            · exact hno j z (by omega) hjm hz

/-- The first match behind occupied slots is found. -/
theorem find_of_first {n i m : Nat} (him : i ≤ m) (hmn : m < i + n)
    (hm : slots (seq m) = some x) (hp : p x) (hocc : Occupied slots seq i m)
    (hno : ∀ j y, i ≤ j → j < m → slots (seq j) = some y → ¬ p y) :
    find slots seq p n i = some x := by
  induction n generalizing i with
  | zero => omega
  | succ n ih =>
      rw [find]
      by_cases heq : i = m
      · subst heq
        rw [hm]
        exact if_pos hp
      · obtain ⟨y, hy⟩ := Option.ne_none_iff_exists'.mp (hocc i (Nat.le_refl _) (by omega))
        rw [hy]
        dsimp only
        rw [if_neg (hno i y (Nat.le_refl _) (by omega) hy)]
        exact ih (by omega) (by omega) hocc.tail fun j z hij hjm => hno j z (by omega) hjm

/-- A match behind occupied slots is not missed. -/
theorem find_ne_none {n i m : Nat} (him : i ≤ m) (hmn : m < i + n) (hm : slots (seq m) = some x)
    (hp : p x) (hocc : Occupied slots seq i m) : find slots seq p n i ≠ none := by
  induction n generalizing i with
  | zero => omega
  | succ n ih =>
      rw [find]
      by_cases heq : i = m
      · subst heq
        rw [hm]
        dsimp only
        rw [if_pos hp]
        exact Option.some_ne_none x
      · obtain ⟨y, hy⟩ := Option.ne_none_iff_exists'.mp (hocc i (Nat.le_refl _) (by omega))
        rw [hy]
        dsimp only
        by_cases hpy : p y
        · rw [if_pos hpy]
          exact Option.some_ne_none y
        · rw [if_neg hpy]
          exact ih (by omega) (by omega) hocc.tail

theorem free_eq_some {n i s : Nat} (h : free slots seq n i = some s) :
    ∃ m, i ≤ m ∧ m < i + n ∧ s = seq m ∧ slots s = none ∧ Occupied slots seq i m := by
  induction n generalizing i with
  | zero => exact nomatch h
  | succ n ih =>
      rw [free] at h
      cases hslot : slots (seq i) with
      | none =>
          rw [hslot] at h
          obtain rfl := Option.some.inj h
          exact ⟨i, (Nat.le_refl _), by omega, rfl, hslot, fun j hij hjm => by omega⟩
      | some y =>
          rw [hslot] at h
          obtain ⟨m, him, hmn, hs, hnone, hocc⟩ := ih h
          exact ⟨m, by omega, by omega, hs, hnone, .cons hslot hocc⟩

/-- Filling a free slot leaves the occupied ones as they are. -/
theorem update_of_some {s t : Nat} {e y : E} (hfree : slots s = none)
    (hy : slots t = some y) : Function.update slots s (some e) t = some y := by
  have hne : t ≠ s := by
    rintro rfl
    rw [hfree] at hy
    exact nomatch hy
  rw [Function.update_of_ne hne, hy]

theorem Occupied.update {s i m : Nat} {e : E} (hfree : slots s = none)
    (h : Occupied slots seq i m) : Occupied (Function.update slots s (some e)) seq i m := by
  intro j hij hjm
  obtain ⟨y, hy⟩ := Option.ne_none_iff_exists'.mp (h j hij hjm)
  rw [update_of_some hfree hy]
  exact Option.some_ne_none y

end Walk

/-! ## Settled tables -/

/-- How the slots of a key are probed: a sequence of slots for every key, the
    key of an entry, and the number of probes. -/
structure Scheme (K E : Type) where
  slot : K → Nat → Nat
  key : E → K
  limit : Nat

namespace Scheme

variable (S : Scheme K E) {slots : Slots E} {p : E → Prop} [DecidablePred p]

/-- In front of every entry, the probe sequence of its key is occupied. -/
def Settled (slots : Slots E) : Prop :=
  ∀ s x, slots s = some x → ∃ m, m < S.limit ∧ S.slot (S.key x) m = s ∧
    Occupied slots (S.slot (S.key x)) 0 m

theorem settled_empty : S.Settled fun _ => (none : Option E) :=
  fun _ _ h => nomatch h

variable {S}

/-- Placing an entry keeps a table settled. -/
theorem Settled.place {e : E} {s : Nat} (h : S.Settled slots)
    (hs : free slots (S.slot (S.key e)) S.limit 0 = some s) :
    S.Settled (Function.update slots s (some e)) := by
  obtain ⟨m, -, hm, hseq, hfree, hocc⟩ := free_eq_some hs
  intro t x hx
  by_cases hts : t = s
  · subst hts
    rw [Function.update_self] at hx
    obtain rfl := Option.some.inj hx
    exact ⟨m, by omega, hseq.symm, hocc.update hfree⟩
  · rw [Function.update_of_ne hts] at hx
    obtain ⟨m', hm', hseq', hocc'⟩ := h t x hx
    exact ⟨m', hm', hseq', hocc'.update hfree⟩

/-- **NOTHING IS LOST**: what a lookup does not find is not in the table. -/
theorem Settled.find_eq_none (h : S.Settled slots) {k : K} (hkey : ∀ x, p x → S.key x = k)
    (hnone : find slots (S.slot k) p S.limit 0 = none) {s : Nat} {x : E} (hx : slots s = some x) :
    ¬ p x := by
  intro hp
  obtain ⟨m, hm, hseq, hocc⟩ := h s x hx
  rw [hkey x hp] at hseq hocc
  exact find_ne_none (Nat.zero_le m) (by omega) (hseq ▸ hx) hp hocc hnone

/-- **LOOKUP AFTER PLACING**: an older match wins, and otherwise the new entry
    is found if it matches. -/
theorem Settled.find_place (h : S.Settled slots) {k : K} (hkey : ∀ x, p x → S.key x = k) {e : E}
    {s : Nat} (hs : free slots (S.slot (S.key e)) S.limit 0 = some s) :
    find (Function.update slots s (some e)) (S.slot k) p S.limit 0
      = (find slots (S.slot k) p S.limit 0).or (if p e then some e else none) := by
  obtain ⟨m, -, hm, hseq, hfree, hocc⟩ := free_eq_some hs
  cases hfind : find slots (S.slot k) p S.limit 0 with
  | some x =>
      obtain ⟨n, hn, hlt, hx, hp, hbefore, hno⟩ := find_eq_some hfind
      rw [Option.some_or]
      refine find_of_first hn hlt (update_of_some hfree hx) hp (hbefore.update hfree) ?_
      intro j y hij hjn hy
      obtain ⟨z, hz⟩ := Option.ne_none_iff_exists'.mp (hbefore j hij hjn)
      rw [update_of_some hfree hz] at hy
      exact Option.some.inj hy ▸ hno j z hij hjn hz
  | none =>
      have hmissing {t : Nat} {x : E} (hx : slots t = some x) : ¬ p x :=
        h.find_eq_none hkey hfind hx
      rw [Option.none_or]
      by_cases hp : p e
      · rw [if_pos hp]
        rw [hkey e hp] at hseq hocc
        refine find_of_first (Nat.zero_le m) (by omega) ?_ hp (hocc.update hfree) ?_
        · rw [← hseq, Function.update_self]
        · intro j y hij hjm hy
          obtain ⟨z, hz⟩ := Option.ne_none_iff_exists'.mp (hocc j hij hjm)
          rw [update_of_some hfree hz] at hy
          exact Option.some.inj hy ▸ hmissing hz
      · rw [if_neg hp]
        by_contra hsome
        obtain ⟨x, hx⟩ := Option.ne_none_iff_exists'.mp hsome
        obtain ⟨n, -, -, hslot, hpx, -, -⟩ := find_eq_some hx
        by_cases hns : S.slot k n = s
        · rw [hns, Function.update_self] at hslot
          exact hp (Option.some.inj hslot ▸ hpx)
        · rw [Function.update_of_ne hns] at hslot
          exact hmissing hslot hpx

end Scheme

end Zupt.Probing
