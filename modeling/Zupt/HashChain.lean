import Mathlib

/-! # Hash chains over a sliding buffer

    An index of positions by key: the root of a key is the position inserted
    last, and the cell of a position the one inserted before it with the same
    key.  The cells are used round and round, so that a position holds its cell
    for `size` positions; roots and cells hold positions of the buffer, which
    starts at `base`, and -1 for none.

    A log says what was inserted.  As long as positions come in order and the
    buffer moves by multiples of `size`, whatever a search within the last
    `size` positions reads was inserted with its key. -/

namespace Zupt.HashChain

variable {κ : Type}

/-- Roots and cells. -/
structure Chains (κ : Type) where
  root : κ → Int
  cell : Nat → Int

/-- A position becomes the root of its key, and its cell the root before it. -/
def Chains.insert [DecidableEq κ] (size : Nat) (c : Chains κ) (k : κ) (pos : Nat) : Chains κ where
  root j := if j = k then pos else c.root j
  cell i := if i = pos % size then c.root k else c.cell i

theorem Chains.insert_root [DecidableEq κ] (size : Nat) (c : Chains κ) (k : κ) (pos : Nat) (j : κ) :
    (c.insert size k pos).root j = if j = k then (pos : Int) else c.root j := rfl

theorem Chains.insert_cell [DecidableEq κ] (size : Nat) (c : Chains κ) (k : κ) (pos i : Nat) :
    (c.insert size k pos).cell i = if i = pos % size then c.root k else c.cell i := rfl

/-- An entry after the first `drop` positions of the buffer are gone. -/
def rebase (drop : Nat) (v : Int) : Int := if (drop : Int) ≤ v then v - drop else -1

/-- All entries after that. -/
def Chains.rebase (drop : Nat) (c : Chains κ) : Chains κ where
  root k := HashChain.rebase drop (c.root k)
  cell i := HashChain.rebase drop (c.cell i)

/-- What was inserted: positions of the stream and their keys. -/
abbrev Log (κ : Type) := List (Nat × κ)

/-- The entry is none, or a position of the buffer that was inserted with the
    key. -/
def Denotes (log : Log κ) (base : Nat) (k : κ) (v : Int) : Prop :=
  v = -1 ∨ ∃ p, (p, k) ∈ log ∧ base ≤ p ∧ v = ((p - base : Nat) : Int)

theorem Denotes.mono {log log' : Log κ} {base : Nat} {k : κ} {v : Int} (h : Denotes log base k v)
    (hsub : log ⊆ log') : Denotes log' base k v := by
  rcases h with hnone | ⟨p, hp, hbase, hv⟩
  · exact Or.inl hnone
  · exact Or.inr ⟨p, hsub hp, hbase, hv⟩

/-- An entry that is based anew denotes the same position of the stream, or
    none. -/
theorem Denotes.rebase {log : Log κ} {base : Nat} {k : κ} {v : Int} (h : Denotes log base k v)
    (drop : Nat) : Denotes log (base + drop) k (HashChain.rebase drop v) := by
  rw [HashChain.rebase]
  by_cases hdrop : (drop : Int) ≤ v
  · rw [if_pos hdrop]
    rcases h with hnone | ⟨p, hp, hbase, hv⟩
    · omega
    · exact Or.inr ⟨p, hp, by omega, by omega⟩
  · rw [if_neg hdrop]
    exact Or.inl rfl

/-- The roots, and the cells that are not yet used again, denote what was
    inserted; all of it lies before `front`, and no root is older than what was
    inserted with its key. -/
structure Sound (size base front : Nat) (log : Log κ) (c : Chains κ) : Prop where
  before : ∀ e ∈ log, e.1 < front
  root : ∀ k, Denotes log base k (c.root k)
  latest : ∀ p k, (p, k) ∈ log → base ≤ p → ((p - base : Nat) : Int) ≤ c.root k
  cell : ∀ p k, (p, k) ∈ log → base ≤ p → front < p + size →
    Denotes log base k (c.cell ((p - base) % size))

section Operations

variable {size base front : Nat} {log : Log κ} {c : Chains κ}

theorem sound_empty (hroot : ∀ k, c.root k = -1) : Sound size base front [] c where
  before := by
    intro e he
    cases he
  root k := Or.inl (hroot k)
  latest := by
    intro p k hp
    cases hp
  cell := by
    intro p k hp
    cases hp

/-- Roots of none are sound where all that was inserted is gone. -/
theorem sound_gone (hroot : ∀ k, c.root k = -1) (hgone : ∀ e ∈ log, e.1 < base)
    (hfront : base ≤ front) : Sound size base front log c where
  before e he := Nat.lt_of_lt_of_le (hgone e he) hfront
  root k := Or.inl (hroot k)
  latest := by
    intro p k hp hbase
    exact absurd (hgone (p, k) hp) (Nat.not_lt.mpr hbase)
  cell := by
    intro p k hp hbase
    exact absurd (hgone (p, k) hp) (Nat.not_lt.mpr hbase)

/-- Where every root lies before `drop`, so does all that was inserted. -/
theorem Sound.all_before (h : Sound size base front log c) {drop : Nat}
    (hroot : ∀ k, c.root k < (drop : Int)) : ∀ e ∈ log, e.1 < base + drop := by
  intro e he
  by_cases hbase : base ≤ e.1
  · have hlatest := h.latest e.1 e.2 he hbase
    have hbound := hroot e.2
    omega
  · omega

/-- Positions pass. -/
theorem Sound.advance (h : Sound size base front log c) {front' : Nat} (hle : front ≤ front') :
    Sound size base front' log c where
  before e he := Nat.lt_of_lt_of_le (h.before e he) hle
  root := h.root
  latest := h.latest
  cell p k hp hbase hlive := h.cell p k hp hbase (by omega)

/-- Two positions less than `size` apart have cells of their own. -/
theorem mod_ne {a b size : Nat} (hlt : a < b) (hnear : b < a + size) : a % size ≠ b % size := by
  intro heq
  have hdiv : size ∣ b - a := (Nat.modEq_iff_dvd' (Nat.le_of_lt hlt)).mp heq
  have hle := Nat.le_of_dvd (by omega) hdiv
  omega

/-- The next position is inserted. -/
theorem Sound.insert [DecidableEq κ] (h : Sound size base front log c) {x : Nat} (hx : front ≤ x)
    (hbase : base ≤ x) (k : κ) :
    Sound size base (x + 1) (log ++ [(x, k)]) (c.insert size k (x - base)) where
  before := by
    intro e he
    rcases List.mem_append.mp he with he | he
    · have hlt := h.before e he
      omega
    · rw [List.mem_singleton.mp he]
      exact Nat.lt_succ_self x
  root := by
    intro j
    rw [Chains.insert_root]
    by_cases hj : j = k
    · rw [if_pos hj, hj]
      exact Or.inr ⟨x, by simp, hbase, rfl⟩
    · rw [if_neg hj]
      exact (h.root j).mono (List.subset_append_left _ _)
  latest := by
    intro p j hp hpbase
    rw [Chains.insert_root]
    rcases List.mem_append.mp hp with hold | hnew
    · by_cases hj : j = k
      · have hlt := h.before (p, j) hold
        dsimp only at hlt
        rw [if_pos hj]
        omega
      · rw [if_neg hj]
        exact h.latest p j hold hpbase
    · have hboth := List.mem_singleton.mp hnew
      cases hboth
      rw [if_pos rfl]
  cell := by
    intro p j hp hpbase hlive
    rw [Chains.insert_cell]
    rcases List.mem_append.mp hp with hold | hnew
    · have hlt := h.before (p, j) hold
      have hother : (p - base) % size ≠ (x - base) % size := by
        apply mod_ne
        · dsimp only at hlt
          omega
        · omega
      rw [if_neg hother]
      exact (h.cell p j hold hpbase (by omega)).mono (List.subset_append_left _ _)
    · have hboth := List.mem_singleton.mp hnew
      cases hboth
      rw [if_pos rfl]
      exact (h.root k).mono (List.subset_append_left _ _)

/-- The buffer moves by a multiple of `size`. -/
theorem Sound.rebase (h : Sound size base front log c) {drop : Nat} (hdvd : size ∣ drop) :
    Sound size (base + drop) front log (c.rebase drop) where
  before := h.before
  root k := (h.root k).rebase drop
  latest := by
    intro p k hp hbase
    have hlatest := h.latest p k hp (by omega)
    show ((p - (base + drop) : Nat) : Int) ≤ HashChain.rebase drop (c.root k)
    rw [HashChain.rebase, if_pos (by omega)]
    omega
  cell := by
    intro p k hp hbase hlive
    obtain ⟨n, hn⟩ := hdvd
    have hcell : (p - (base + drop)) % size = (p - base) % size := by
      have hsum : p - base = p - (base + drop) + size * n := by omega
      rw [hsum, Nat.add_mul_mod_self_left]
    rw [Chains.rebase, hcell]
    exact (h.cell p k hp (by omega) hlive).rebase drop

end Operations

/-! ## Searches -/

/-- What a search for a key at `pos` reads: the root and, as long as the entry
    is a position of the window, its cell. -/
inductive Reads (size limit pos : Nat) (c : Chains κ) (k : κ) : Int → Prop
  | root : Reads size limit pos c k (c.root k)
  | link {v : Int} : Reads size limit pos c k v → (limit : Int) ≤ v → v < (pos : Int) →
      Reads size limit pos c k (c.cell (v.toNat % size))

/-- **WHAT A SEARCH READS WAS INSERTED** with the key it searches for. -/
theorem Sound.reads {size base front : Nat} {log : Log κ} {c : Chains κ}
    (h : Sound size base front log c) {pos : Nat} (hpos : front ≤ base + pos) {k : κ} {v : Int}
    (hv : Reads size (pos - (size - 1)) pos c k v) : Denotes log base k v := by
  induction hv with
  | root => exact h.root k
  | link _ hlimit hbefore ih =>
      rcases ih with hnone | ⟨p, hp, hbase, hv⟩
      · omega
      · have hindex : (((p - base : Nat) : Int)).toNat = p - base := Int.toNat_natCast _
        rw [hv, hindex]
        have hlt := h.before (p, k) hp
        dsimp only at hlt
        exact h.cell p k hp hbase (by omega)

/-! ## Moving -/

/-- The buffer moved by `drop`, and every entry that a search at `pos` reads
    moved with it: the roots, and the cells of the positions it comes to. -/
structure Moved (size limit pos drop : Nat) (c c' : Chains κ) : Prop where
  root : ∀ k, c'.root k = HashChain.rebase drop (c.root k)
  cell : ∀ k v, Reads size limit pos c k v → (limit : Int) ≤ v → v < (pos : Int) →
    c'.cell ((v.toNat - drop) % size) = HashChain.rebase drop (c.cell (v.toNat % size))

section Moved

variable {size limit pos drop : Nat} {c c' : Chains κ}

/-- **BY A MULTIPLE OF THE SIZE EVERYTHING MOVES**. -/
theorem moved_of_dvd (hdvd : size ∣ drop) (hlimit : drop ≤ limit) :
    Moved size limit pos drop c (c.rebase drop) where
  root _ := rfl
  cell := by
    intro k v _ hv _
    obtain ⟨n, hn⟩ := hdvd
    have hcell : (v.toNat - drop) % size = v.toNat % size := by
      have hsum : v.toNat = v.toNat - drop + size * n := by omega
      conv => rhs; rw [hsum, Nat.add_mul_mod_self_left]
    rw [hcell]
    rfl

/-- Where no root is a position of the window, a search reads nothing else. -/
theorem Reads.lt_limit (hold : ∀ k, c.root k < (limit : Int)) {k : κ} {v : Int}
    (hv : Reads size limit pos c k v) : v < (limit : Int) := by
  induction hv with
  | root => exact hold k
  | link _ hlimit _ ih => omega

/-- Then the roots are all there is to move. -/
theorem moved_of_roots (hroot : ∀ k, c'.root k = HashChain.rebase drop (c.root k))
    (hold : ∀ k, c.root k < (limit : Int)) : Moved size limit pos drop c c' where
  root := hroot
  cell := by
    intro k v hv hlimit _
    have hlt := hv.lt_limit hold
    omega

end Moved

end Zupt.HashChain
