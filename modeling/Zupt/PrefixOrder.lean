import Mathlib

/-! # Separator extensions in the lexicographic order

    A word `q` extends `p` when `q = p ++ sep :: r`: read words as paths and
    `sep` as the path separator, and `p` is a proper ancestor of `q`.  In the
    lexicographic order the extensions of `p` sit directly after `p` except
    for the words `p ++ c :: r` with `c < sep`.  So a sorted list that is
    searched for extensions between NEIGHBOURS only finds some pair exactly
    when some ancestor has no such word in the list (`adjacent_clash_iff`).

    Nothing here depends on what the words are. -/

namespace Zupt.PrefixOrder

variable {α : Type}

/-- `q` is `p`, a separator, and something more. -/
def Extends (sep : α) (p q : List α) : Prop := ∃ r, q = p ++ sep :: r

/-- Two words clash when they are equal or the second extends the first. -/
def Clash (sep : α) (p q : List α) : Prop := p = q ∨ Extends sep p q

/-- `a` and `b` stand next to each other in `L`, in this order. -/
def Adjacent (L : List (List α)) (a b : List α) : Prop :=
  ∃ l₁ l₂, L = l₁ ++ a :: b :: l₂

theorem Adjacent.cons {L : List (List α)} {a b : List α} (x : List α)
    (h : Adjacent L a b) : Adjacent (x :: L) a b := by
  obtain ⟨l₁, l₂, rfl⟩ := h
  exact ⟨x :: l₁, l₂, rfl⟩

theorem Adjacent.mem_left {L : List (List α)} {a b : List α}
    (h : Adjacent L a b) : a ∈ L := by
  obtain ⟨l₁, l₂, rfl⟩ := h
  simp

theorem Adjacent.mem_right {L : List (List α)} {a b : List α}
    (h : Adjacent L a b) : b ∈ L := by
  obtain ⟨l₁, l₂, rfl⟩ := h
  simp

/-- Two neighbours that are equal are a repetition. -/
theorem Adjacent.not_nodup {L : List (List α)} {a : List α}
    (h : Adjacent L a a) : ¬ L.Nodup := by
  obtain ⟨l₁, l₂, rfl⟩ := h
  intro hnd
  have hmid := (List.nodup_append.mp hnd).2.1
  exact (List.nodup_cons.mp hmid).1 (by simp)

variable [LinearOrder α]

/-- `k` is `p` followed by a letter below the separator. -/
def Blocks (sep : α) (p k : List α) : Prop := ∃ c r, c < sep ∧ k = p ++ c :: r

/-! ## Where the words after `p` lie -/

/-- A word is below each of its proper continuations. -/
theorem lt_append_cons (p : List α) (c : α) (r : List α) : p < p ++ c :: r := by
  induction p with
  | nil => exact List.nil_lt_cons c r
  | cons x p ih => exact List.cons_lt_cons_iff.mpr (Or.inr ⟨rfl, ih⟩)

/-- Continuations of one word compare as their rests do. -/
theorem append_lt_append_iff (p : List α) {s t : List α} :
    p ++ s < p ++ t ↔ s < t := by
  induction p with
  | nil => exact Iff.rfl
  | cons x p ih =>
      rw [List.cons_append, List.cons_append, List.cons_lt_cons_iff]
      constructor
      · rintro (h | ⟨-, h⟩)
        · exact absurd h (lt_irrefl x)
        · exact ih.mp h
      · intro h
        exact Or.inr ⟨rfl, ih.mpr h⟩

/-- What lies strictly above `p` and at most at an extension of `p`
    continues `p`. -/
theorem exists_append_of_between {p k : List α} {sep : α} {r : List α}
    (h1 : p < k) (h2 : k ≤ p ++ sep :: r) : ∃ c s, k = p ++ c :: s := by
  induction p generalizing k with
  | nil =>
      cases k with
      | nil => exact absurd h1 (lt_irrefl _)
      | cons c s => exact ⟨c, s, rfl⟩
  | cons x p ih =>
      cases k with
      | nil => exact absurd h1 (List.not_lt_nil _)
      | cons y k =>
          rw [List.cons_append] at h2
          rcases List.cons_lt_cons_iff.mp h1 with hxy | ⟨hxy, hpk⟩
          · -- a larger head would put `k` above the extension
            have hgt : x :: (p ++ sep :: r) < y :: k :=
              List.cons_lt_cons_iff.mpr (Or.inl hxy)
            exact absurd (lt_of_lt_of_le hgt h2) (lt_irrefl _)
          · subst hxy
            have hk : k ≤ p ++ sep :: r := by
              refine not_lt.mp (fun hlt => ?_)
              have hgt : x :: (p ++ sep :: r) < x :: k :=
                List.cons_lt_cons_iff.mpr (Or.inr ⟨rfl, hlt⟩)
              exact absurd (lt_of_lt_of_le hgt h2) (lt_irrefl _)
            obtain ⟨c, s, rfl⟩ := ih hpk hk
            exact ⟨c, s, rfl⟩

/-- **SANDWICH**: between `p` and an extension of `p` there are only
    blockers of `p` and extensions of `p`. -/
theorem blocks_or_extends_of_between {p k : List α} {sep : α} {r : List α}
    (h1 : p < k) (h2 : k ≤ p ++ sep :: r) : Blocks sep p k ∨ Extends sep p k := by
  obtain ⟨c, s, rfl⟩ := exists_append_of_between h1 h2
  rcases lt_trichotomy c sep with hc | hc | hc
  · exact Or.inl ⟨c, s, hc, rfl⟩
  · subst hc
    exact Or.inr ⟨s, rfl⟩
  · have hgt : p ++ sep :: r < p ++ c :: s :=
      (append_lt_append_iff p).mpr (List.cons_lt_cons_iff.mpr (Or.inl hc))
    exact absurd (lt_of_lt_of_le hgt h2) (lt_irrefl _)

/-- A blocker of `p` is below every extension of `p`. -/
theorem Blocks.lt_extends {sep : α} {p k q : List α}
    (hk : Blocks sep p k) (hq : Extends sep p q) : k < q := by
  obtain ⟨c, s, hc, rfl⟩ := hk
  obtain ⟨r, rfl⟩ := hq
  exact (append_lt_append_iff p).mpr (List.cons_lt_cons_iff.mpr (Or.inl hc))

theorem Blocks.lt {sep : α} {p k : List α} (hk : Blocks sep p k) : p < k := by
  obtain ⟨c, s, -, rfl⟩ := hk
  exact lt_append_cons p c s

theorem Extends.lt {sep : α} {p q : List α} (h : Extends sep p q) : p < q := by
  obtain ⟨r, rfl⟩ := h
  exact lt_append_cons p sep r

/-! ## Neighbours in a sorted list -/

/-- In a sorted list nothing lies strictly between two neighbours. -/
theorem Adjacent.not_between {L : List (List α)} (hL : L.Pairwise (· ≤ ·))
    {a b k : List α} (hab : Adjacent L a b) (hk : k ∈ L) :
    ¬ (a < k ∧ k < b) := by
  rintro ⟨hak, hkb⟩
  obtain ⟨l₁, l₂, rfl⟩ := hab
  obtain ⟨-, hmid, hcross⟩ := List.pairwise_append.mp hL
  rcases List.mem_append.mp hk with hk | hk
  · exact absurd (lt_of_le_of_lt (hcross k hk a (by simp)) hak) (lt_irrefl _)
  · rcases List.mem_cons.mp hk with rfl | hk
    · exact absurd hak (lt_irrefl _)
    · rcases List.mem_cons.mp hk with rfl | hk
      · exact absurd hkb (lt_irrefl _)
      · have hbk := (List.pairwise_cons.mp (List.pairwise_cons.mp hmid).2).1 k hk
        exact absurd (lt_of_le_of_lt hbk hkb) (lt_irrefl _)

/-- In a sorted list a member `p` with a larger member `q` has a neighbour
    above it, and that neighbour is at most `q`. -/
theorem exists_adjacent_above {L : List (List α)} (hL : L.Pairwise (· ≤ ·))
    {p q : List α} (hp : p ∈ L) (hq : q ∈ L) (hpq : p < q) :
    ∃ k, Adjacent L p k ∧ p < k ∧ k ≤ q := by
  induction L with
  | nil => exact absurd hp (by simp)
  | cons x L ih =>
      obtain ⟨hx, hL'⟩ := List.pairwise_cons.mp hL
      have hqL : q ∈ L := by
        rcases List.mem_cons.mp hq with rfl | hq
        · rcases List.mem_cons.mp hp with rfl | hp
          · exact absurd hpq (lt_irrefl _)
          · exact absurd (lt_of_lt_of_le hpq (hx p hp)) (lt_irrefl _)
        · exact hq
      by_cases hpL : p ∈ L
      · obtain ⟨k, hadj, h1, h2⟩ := ih hL' hpL hqL
        exact ⟨k, hadj.cons x, h1, h2⟩
      · -- `p` is the head and does not occur again
        have hpx : p = x := by
          rcases List.mem_cons.mp hp with h | h
          · exact h
          · exact absurd h hpL
        subst hpx
        cases L with
        | nil => exact absurd hqL (by simp)
        | cons k L =>
            refine ⟨k, ⟨[], L, rfl⟩, ?_, ?_⟩
            · refine lt_of_le_of_ne (hx k (by simp)) (fun h => hpL ?_)
              rw [h]
              simp
            · rcases List.mem_cons.mp hqL with rfl | hqL
              · exact le_refl _
              · exact (List.pairwise_cons.mp hL').1 q hqL

/-- A sorted list with a repeated member has it twice in a row. -/
theorem exists_adjacent_eq {L : List (List α)} (hL : L.Pairwise (· ≤ ·))
    (hdup : ¬ L.Nodup) : ∃ a, Adjacent L a a := by
  induction L with
  | nil => exact absurd List.nodup_nil hdup
  | cons x L ih =>
      obtain ⟨hx, hL'⟩ := List.pairwise_cons.mp hL
      by_cases hnd : L.Nodup
      · have hxL : x ∈ L := by
          by_contra h
          exact hdup (List.nodup_cons.mpr ⟨h, hnd⟩)
        cases L with
        | nil => exact absurd hxL (by simp)
        | cons y L =>
            have hyx : y = x := by
              refine le_antisymm ?_ (hx y (by simp))
              rcases List.mem_cons.mp hxL with rfl | h
              · exact le_refl _
              · exact (List.pairwise_cons.mp hL').1 x h
            exact ⟨x, [], L, by rw [hyx]; rfl⟩
      · obtain ⟨a, ha⟩ := ih hL' hnd
        exact ⟨a, ha.cons x⟩

/-- Some member of `L` has an extension in `L` and no blocker in `L`. -/
def Unblocked (sep : α) (L : List (List α)) : Prop :=
  ∃ p ∈ L, (∃ q ∈ L, Extends sep p q) ∧ ∀ k ∈ L, ¬ Blocks sep p k

/-- **NEIGHBOUR SEARCH**: a sorted list has clashing neighbours exactly when
    a word is repeated or some ancestor in the list is not blocked. -/
theorem adjacent_clash_iff {sep : α} {L : List (List α)}
    (hL : L.Pairwise (· ≤ ·)) :
    (∃ a b, Adjacent L a b ∧ Clash sep a b) ↔ ¬ L.Nodup ∨ Unblocked sep L := by
  constructor
  · rintro ⟨a, b, hadj, rfl | hext⟩
    · exact Or.inl hadj.not_nodup
    · refine Or.inr ⟨a, hadj.mem_left, ⟨b, hadj.mem_right, hext⟩, ?_⟩
      intro k hk hblk
      exact hadj.not_between hL hk ⟨hblk.lt, hblk.lt_extends hext⟩
  · rintro (hdup | ⟨p, hp, ⟨q, hq, hext⟩, hfree⟩)
    · obtain ⟨a, ha⟩ := exists_adjacent_eq hL hdup
      exact ⟨a, a, ha, Or.inl rfl⟩
    · obtain ⟨k, hadj, hpk, hkq⟩ := exists_adjacent_above hL hp hq hext.lt
      obtain ⟨r, rfl⟩ := hext
      rcases blocks_or_extends_of_between hpk hkq with hblk | hext'
      · exact absurd hblk (hfree k hadj.mem_right)
      · exact ⟨p, k, hadj, Or.inr hext'⟩

/-- Membership decides `Unblocked`: it does not see the order of the list. -/
theorem unblocked_congr {sep : α} {L L' : List (List α)}
    (h : ∀ w, w ∈ L ↔ w ∈ L') : Unblocked sep L ↔ Unblocked sep L' := by
  unfold Unblocked
  simp only [h]

end Zupt.PrefixOrder
