import Mathlib.Data.Int.Order.Basic
import Mathlib.Tactic.Common

/-! # Indexes that read alike

    A search of an index starts at the root of a key and goes from one position
    to the next along their links.  What it meets was put there since the roots
    were cleared; what the memory of the links held before, and in which cells an
    index keeps them, makes no difference to it. -/

namespace Zupt.ReadsAlike

variable {κ : Type}

/-- An index as a search sees it: the root of a key and the link of a position,
    which are negative for none. -/
@[ext] structure View (κ : Type) where
  root : κ → Int
  link : Nat → Int

/-- A position becomes the root of its key; the link of every position that
    shares its cell is then the root that was there. -/
def View.insert [DecidableEq κ] (addr : Nat → Nat) (v : View κ) (k : κ) (x : Nat) : View κ where
  root j := if j = k then x else v.root j
  link p := if addr p = addr x then v.root k else v.link p

/-- Every root and every link under a map. -/
def View.map (f : Int → Int) (v : View κ) : View κ where
  root k := f (v.root k)
  link p := f (v.link p)

/-- The roots of the keys in `K` are the same in both, and so are the links of
    the positions in `W`, which are all that these roots and links lead to. -/
structure Alike (K : κ → Prop) (W : Nat → Prop) (v v' : View κ) : Prop where
  root : ∀ k, K k → v'.root k = v.root k
  link : ∀ p, W p → v'.link p = v.link p
  rooted : ∀ k, K k → 0 ≤ v.root k → W (v.root k).toNat
  linked : ∀ p, W p → 0 ≤ v.link p → W (v.link p).toNat

variable {K : κ → Prop} {W W' : Nat → Prop} {v v' : View κ}

/-- Cleared roots lead nowhere. -/
theorem alike_cleared (h : ∀ k, K k → v.root k = -1) (h' : ∀ k, K k → v'.root k = -1) :
    Alike K (fun _ => False) v v' where
  root k hk := (h' k hk).trans (h k hk).symm
  link p hp := hp.elim
  rooted k hk hpos := by
    rw [h k hk] at hpos
    exact absurd hpos (by decide)
  linked p hp := hp.elim

/-- Fewer keys. -/
theorem Alike.keys (h : Alike K W v v') {L : κ → Prop} (hsub : ∀ k, L k → K k) : Alike L W v v' where
  root k hk := h.root k (hsub k hk)
  link := h.link
  rooted k hk := h.rooted k (hsub k hk)
  linked := h.linked

/-- **AN INSERTION** into both keeps them alike, if the two agree about who shares
    a cell with the new position. -/
theorem Alike.insert [DecidableEq κ] (h : Alike K W v v') {addr addr' : Nat → Nat} {k : κ} {x : Nat}
    (hk : K k) (hx : W' x) (hsub : ∀ p, W p → W' p)
    (hcell : ∀ p, W' p → (W p ∨ addr p = addr x) ∧ (addr p = addr x ↔ addr' p = addr' x)) :
    Alike K W' (v.insert addr k x) (v'.insert addr' k x) where
  root j hj := by
    simp only [View.insert]
    split
    · rfl
    · exact h.root j hj
  link p hp := by
    obtain ⟨hold, hsame⟩ := hcell p hp
    simp only [View.insert]
    by_cases hat : addr p = addr x
    · rw [if_pos hat, if_pos (hsame.mp hat)]
      exact h.root k hk
    · rw [if_neg hat, if_neg (mt hsame.mpr hat)]
      exact h.link p (hold.resolve_right hat)
  rooted j hj := by
    simp only [View.insert]
    split
    · intro _
      exact hx
    · intro hpos
      exact hsub _ (h.rooted j hj hpos)
  linked p hp := by
    obtain ⟨hold, -⟩ := hcell p hp
    simp only [View.insert]
    by_cases hat : addr p = addr x
    · rw [if_pos hat]
      intro hpos
      exact hsub _ (h.rooted k hk hpos)
    · rw [if_neg hat]
      intro hpos
      exact hsub _ (h.linked p (hold.resolve_right hat) hpos)

/-- A map that leads from positions in `W` to such positions alone. -/
theorem Alike.map (h : Alike K W v v') {f : Int → Int}
    (hf : ∀ x, 0 ≤ f x → 0 ≤ x ∧ (W x.toNat → W (f x).toNat)) :
    Alike K W (v.map f) (v'.map f) where
  root k hk := congrArg f (h.root k hk)
  link p hp := congrArg f (h.link p hp)
  rooted k hk hpos := by
    obtain ⟨hold, hlead⟩ := hf _ hpos
    exact hlead (h.rooted k hk hold)
  linked p hp hpos := by
    obtain ⟨hold, hlead⟩ := hf _ hpos
    exact hlead (h.linked p hp hold)

/-! ## Searches -/

/-- A search: `look` turns what was found so far into what is found after a
    position, or ends the search with it; a link for which `stop` holds ends it
    as well. -/
def search {β : Type} (stop : Int → β → Bool) (look : Nat → β → β × Bool) (link : Nat → Int) :
    (depth : Nat) → (ref : Int) → β → β
  | 0, _, found => found
  | depth + 1, ref, found =>
      if stop ref found then found
      else
        match look ref.toNat found with
        | (found, true) => found
        | (found, false) => search stop look link depth (link ref.toNat) found

/-- **SEARCHES OF ALIKE INDEXES** find the same, if they stop where there is no
    position. -/
theorem Alike.search {β : Type} (h : Alike K W v v') {stop : Int → β → Bool}
    (hstop : ∀ ref found, stop ref found = false → 0 ≤ ref) (look : Nat → β → β × Bool)
    (depth : Nat) {k : κ} (hk : K k) (found : β) :
    search stop look v'.link depth (v'.root k) found = search stop look v.link depth (v.root k) found := by
  rw [h.root k hk]
  have hroot := h.rooted k hk
  generalize v.root k = ref at hroot
  induction depth generalizing ref found with
  | zero => rfl
  | succ depth ih =>
      simp only [ReadsAlike.search]
      cases hs : stop ref found with
      | true => rfl
      | false =>
          have hpos := hstop ref found hs
          rcases look ref.toNat found with ⟨found, halt⟩
          cases halt with
          | true => rfl
          | false =>
              dsimp only
              rw [h.link _ (hroot hpos)]
              exact ih found _ (h.linked _ (hroot hpos))

end Zupt.ReadsAlike
