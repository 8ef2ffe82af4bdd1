import Zupt.LzhCode

/-! # Complete codes of Zupt-LZH

    Two symbols or more make a complete code: the tree fills the space of codes, the clamping
    only ever takes more of it, and the redistribution takes back what is too much, without a
    count going below zero.  Every loop of the model has turns enough. -/

namespace Zupt.Lzh

open Zupt.Canonical Zupt.VaptVupt

/-! ## The loops end -/

/-- More turns than the place of the entry change nothing. -/
theorem hUp_enough {turns i : Nat} (hi : i ≤ turns) (h : List HNode) (k : Nat) :
    hUp (turns + k) h i = hUp turns h i := by
  induction turns generalizing i h with
  | zero =>
      obtain rfl : i = 0 := Nat.le_zero.mp hi
      cases k with
      | zero => rfl
      | succ k => rw [Nat.zero_add, hUp, hUp, if_neg (Nat.lt_irrefl 0)]
  | succ turns ih =>
      rw [Nat.succ_add, hUp, hUp]
      by_cases hpos : 0 < i
      · have hparent : (i - 1) / 2 ≤ turns := by omega
        rw [if_pos hpos, if_pos hpos]
        dsimp only
        rw [ih hparent]
      · rw [if_neg hpos, if_neg hpos]

/-- The smaller child is further down. -/
theorem smallest_ge (h : List HNode) (i : Nat) : smallest h i = i ∨ (i < smallest h i ∧ i < h.length) := by
  rw [smallest]
  by_cases hright : 2 * i + 2 < h.length ∧ (nodeAt h (2 * i + 2)).f < (nodeAt h (if 2 * i + 1 < h.length ∧
      (nodeAt h (2 * i + 1)).f < (nodeAt h i).f then 2 * i + 1 else i)).f
  · rw [if_pos hright]
    exact Or.inr ⟨by omega, by omega⟩
  · rw [if_neg hright]
    by_cases hleft : 2 * i + 1 < h.length ∧ (nodeAt h (2 * i + 1)).f < (nodeAt h i).f
    · rw [if_pos hleft]
      exact Or.inr ⟨by omega, by omega⟩
    · rw [if_neg hleft]
      exact Or.inl rfl

/-- More turns than there are places behind the entry change nothing. -/
theorem hDown_enough {turns i : Nat} {h : List HNode} (hi : h.length ≤ turns + i) (k : Nat) :
    hDown (turns + k) h i = hDown turns h i := by
  induction turns generalizing i h with
  | zero =>
      have hlast : smallest h i = i := (smallest_ge h i).resolve_right fun hlt => by omega
      cases k with
      | zero => rfl
      | succ k => rw [Nat.zero_add, hDown, hDown, if_pos hlast]
  | succ turns ih =>
      rw [Nat.succ_add, hDown, hDown]
      by_cases hlast : smallest h i = i
      · rw [if_pos hlast, if_pos hlast]
      · have hdown := (smallest_ge h i).resolve_left hlast
        rw [if_neg hlast, if_neg hlast, ih (by rw [exchange_length]; omega)]

/-- A turn of the loop takes one entry from the heap. -/
theorem join_length {t : Forest} (htwo : 1 < t.hp.length) : t.join.hp.length + 1 = t.hp.length := by
  have hne : t.hp ≠ [] := fun hnil => by rw [hnil] at htwo; exact absurd htwo (by decide)
  have hfirst := (pop_perm hne).length_eq
  rw [List.length_cons] at hfirst
  have hne' : (pop t.hp).2 ≠ [] := fun hnil => by rw [hnil, List.length_nil] at hfirst; omega
  have hsecond := (pop_perm hne').length_eq
  rw [List.length_cons] at hsecond
  have hnew := (push_perm (pop (pop t.hp).2).2
    ⟨((pop t.hp).1.f + (pop (pop t.hp).2).1.f) % 2 ^ 32, -((t.ni : Int) + 1)⟩).length_eq
  rw [List.length_cons] at hnew
  rw [Forest.join]
  dsimp only
  omega

/-- More turns than there are entries change nothing. -/
theorem joinAll_enough {turns : Nat} {t : Forest} (hturns : t.hp.length ≤ turns + 1) (k : Nat) :
    joinAll (turns + k) t = joinAll turns t := by
  induction turns generalizing t with
  | zero =>
      cases k with
      | zero => rfl
      | succ k => rw [Nat.zero_add, joinAll, joinAll, if_neg (by omega)]
  | succ turns ih =>
      rw [Nat.succ_add, joinAll, joinAll]
      by_cases htwo : 1 < t.hp.length
      · have hlen := join_length htwo
        rw [if_pos htwo, if_pos htwo, ih (by omega)]
      · rw [if_neg htwo, if_neg htwo]

/-- **EVERY LOOP ENDS**: with more turns, or more levels, the heap, the loop over it and the
    recursion come to the same. -/
structure BuildEnds (freq : Nat → Nat) (ns : Nat) : Prop where
  up : ∀ h i k, hUp (i + k) h i = hUp i h i
  down : ∀ h k, hDown (h.length + k) h 0 = hDown h.length h 0
  join : ∀ k, joinAll ((leafHeap freq ns).length + k) ⟨leafHeap freq ns, fun _ => 0, fun _ => 0, 0⟩ =
    lastForest freq ns
  tree : ∀ k, treeDepths (lastForest freq ns).l (lastForest freq ns).r ns (ns + 1 + k)
      (nodeAt (lastForest freq ns).hp 0).s 0 (fun _ => 0) =
    treeDepths (lastForest freq ns).l (lastForest freq ns).r ns (ns + 1)
      (nodeAt (lastForest freq ns).hp 0).s 0 fun _ => 0

/-! ## The tree fills the space -/

/-- **A TREE** below a node takes all of the space below it at least. -/
theorem Tree.filled (t : Tree) {d : Nat} (hpos : 0 < d) (hd : d ≤ maxCodelen) :
    2 ^ (maxCodelen - d) ≤ ((t.depths d).map (share maxCodelen)).sum := by
  induction t generalizing d with
  | leaf i =>
      rw [Tree.depths, Nat.min_eq_left hd, List.map_singleton, List.sum_singleton, share,
        if_neg (Nat.ne_of_gt hpos)]
  | node l r hl hr =>
      by_cases hlast : d = maxCodelen
      · -- all the leaves are clamped to the depth of the node, and there is one
        have hall : ∀ v ∈ (Tree.node l r).depths d, v = maxCodelen := by
          intro v hv
          have hv' := Tree.depths_mem hv
          omega
        have hleaves := (Tree.node l r).height_lt
        rw [(map_deepest hall).1, Tree.depths_length, hlast, Nat.sub_self, Nat.pow_zero]
        omega
      · have hleft := hl (show 0 < d + 1 by omega) (show d + 1 ≤ maxCodelen by omega)
        have hright := hr (show 0 < d + 1 by omega) (show d + 1 ≤ maxCodelen by omega)
        have hpow : 2 ^ (maxCodelen - d) = 2 * 2 ^ (maxCodelen - (d + 1)) := by
          rw [← Nat.pow_succ']
          congr 1
          omega
        rw [Tree.depths, List.map_append, List.sum_append, hpow]
        omega

section Complete

variable {freq : Nat → Nat} {ns : Nat}

/-- The depths of the heap take all of the space at least. -/
theorem heapDepths_filled (hmany : 1 < (active freq ns).length) :
    2 ^ maxCodelen ≤ kraft (heapDepths freq ns) maxCodelen ns := by
  obtain ⟨l, r, hperm, hdepths⟩ := heapDepths_spec hmany
  have hnodup := hperm.nodup_iff.mpr (active_nodup freq ns)
  have hin : ∀ s ∈ (Tree.node l r).leaves, s < ns :=
    fun s hs => (mem_active.mp (hperm.mem_iff.mp hs)).1
  have hsum : kraft (heapDepths freq ns) maxCodelen ns =
      (((Tree.node l r).depths 0).map (share maxCodelen)).sum := by
    rw [hdepths]
    exact kraft_give hnodup hin ((Tree.node l r).depths_length 0) fun _ _ => rfl
  have hleft := l.filled Nat.one_pos (show 1 ≤ maxCodelen by decide)
  have hright := r.filled Nat.one_pos (show 1 ≤ maxCodelen by decide)
  have hhalves : (2 : Nat) ^ maxCodelen = 2 ^ (maxCodelen - 1) + 2 ^ (maxCodelen - 1) := by decide
  rw [hsum, Tree.depths, List.map_append, List.sum_append, Nat.zero_add]
  omega

/-- **THE LENGTHS** of several symbols fill the space exactly. -/
theorem redistribute_complete (hns : ns ≤ 2 ^ maxCodelen) (hmany : 1 < (active freq ns).length) :
    kraft (redistribute true freq (heapDepths freq ns) ns) maxCodelen ns = 2 ^ maxCodelen := by
  by_cases hover : 2 ^ maxCodelen < Lzh.countsKraft fun b => lengthCount (heapDepths freq ns) ns b
  · exact (redistribute_over hns hmany hover).2.2
  · have hcounts := countsKraft_lengthCount (heapDepths_clamped hmany).1
    have hfilled := heapDepths_filled hmany
    rw [redistribute, if_neg hover]
    omega

end Complete

/-! ## The counts of the redistribution -/

/-- `while (bits >= 1 && lcount[bits] == 0) bits--`, on counts that may be negative. -/
def deepestNonzero (lcount : Nat → Int) : (bits : Nat) → Option Nat
  | 0 => none
  | bits + 1 => if lcount (bits + 1) = 0 then deepestNonzero lcount bits else some (bits + 1)

/-- All the counts that the loop over the surplus has between two of its statements. -/
def splitStates : (surplus : Nat) → (lcount : Nat → Int) → List (Nat → Int)
  | 0, lcount => [lcount]
  | surplus + 1, lcount =>
      match deepestNonzero lcount (maxCodelen - 1) with
      | none => [lcount]
      | some bits =>
          let lcount₁ := Function.update lcount bits (lcount bits - 1)
          let lcount₂ := Function.update lcount₁ (bits + 1) (lcount₁ (bits + 1) + 2)
          let lcount₃ := Function.update lcount₂ maxCodelen (lcount₂ maxCodelen - 1)
          lcount :: lcount₁ :: lcount₂ :: splitStates surplus lcount₃

/-- Counts as numbers that may be negative. -/
def signed (lcount : Nat → Nat) (b : Nat) : Int := lcount b

theorem deepestNonzero_signed (lcount : Nat → Nat) (d : Nat) :
    deepestNonzero (signed lcount) d = deepest lcount d := by
  induction d with
  | zero => rfl
  | succ d ih =>
      rw [deepestNonzero, deepest, ih, signed]
      by_cases hzero : lcount (d + 1) = 0
      · rw [if_pos (by omega), if_neg (by omega)]
      · rw [if_neg (by omega), if_pos (by omega)]

theorem signed_update (lcount : Nat → Nat) (b x : Nat) :
    signed (Function.update lcount b x) = Function.update (signed lcount) b (x : Int) := by
  funext c
  by_cases hc : c = b
  · subst hc
    rw [signed, Function.update_self, Function.update_self]
  · rw [signed, Function.update_of_ne hc, Function.update_of_ne hc, signed]

/-- **NO COUNT IS NEGATIVE**: with a surplus that the deepest level can make up for, the loop
    takes nothing from a count that is 0. -/
theorem splitStates_spec {lc : Nat → Nat} {surplus : Nat}
    (htotal : weigh (fun _ => 1) lc maxCodelen ≤ 2 ^ maxCodelen)
    (hkraft : Lzh.countsKraft lc = 2 ^ maxCodelen + surplus)
    (hdeep : 0 < surplus → surplus < lc maxCodelen) :
    (∀ lcount ∈ splitStates surplus (signed lc), ∀ b, 0 ≤ lcount b) ∧
      (splitStates surplus (signed lc)).getLast? = some (signed (splitLoop surplus lc)) := by
  have hsigned (lc : Nat → Nat) : ∀ b, 0 ≤ signed lc b := fun b => Int.natCast_nonneg (lc b)
  induction surplus generalizing lc with
  | zero =>
      constructor
      · intro lcount hmem
        rw [List.mem_singleton.mp hmem]
        exact hsigned lc
      · rfl
  | succ surplus ih =>
      obtain ⟨b, hfind, hcount, hnext, hleft⟩ := splitCode_spec htotal hkraft (hdeep (Nat.succ_pos _))
      obtain ⟨hstates, hlast⟩ := ih (hcount.trans_le htotal) hnext fun _ => hleft
      obtain ⟨hb, hlow, hpos, -⟩ := deepest_some hfind
      have hdeep' := hdeep (Nat.succ_pos _)
      -- each statement is one on numbers that are not negative
      have h₁ : Function.update (signed lc) b (signed lc b - 1) =
          signed (Function.update lc b (lc b - 1)) := by
        rw [signed_update, signed, Nat.cast_sub hpos]
        rfl
      generalize hlc₁ : Function.update lc b (lc b - 1) = lc₁ at h₁
      have h₂ : Function.update (signed lc₁) (b + 1) (signed lc₁ (b + 1) + 2) =
          signed (Function.update lc₁ (b + 1) (lc₁ (b + 1) + 2)) := by
        rw [signed_update, signed, Nat.cast_add]
        rfl
      generalize hlc₂ : Function.update lc₁ (b + 1) (lc₁ (b + 1) + 2) = lc₂ at h₂
      have hthere : 0 < lc₂ maxCodelen := by
        have hb15 : b ≠ maxCodelen := by
          rw [maxCodelen] at hlow ⊢
          omega
        rw [← hlc₂]
        by_cases hnextb : maxCodelen = b + 1
        · rw [hnextb, Function.update_self]
          omega
        · rw [Function.update_of_ne hnextb, ← hlc₁, Function.update_of_ne (Ne.symm hb15)]
          omega
      have h₃ : Function.update (signed lc₂) maxCodelen (signed lc₂ maxCodelen - 1) =
          signed (splitCode lc b) := by
        rw [splitCode, hlc₁, hlc₂, signed_update, signed, Nat.cast_sub hthere]
        rfl
      have hunfold : splitStates (surplus + 1) (signed lc) =
          signed lc :: signed lc₁ :: signed lc₂ :: splitStates surplus (signed (splitCode lc b)) := by
        rw [splitStates, deepestNonzero_signed, hfind]
        dsimp only
        rw [h₁, h₂, h₃]
      rw [hunfold]
      constructor
      · intro lcount hmem
        rcases List.mem_cons.mp hmem with rfl | hmem
        · exact hsigned lc
        rcases List.mem_cons.mp hmem with rfl | hmem
        · exact hsigned lc₁
        rcases List.mem_cons.mp hmem with rfl | hmem
        · exact hsigned lc₂
        · exact hstates lcount hmem
      · rw [splitLoop, hfind, List.getLast?_cons, List.getLast?_cons, List.getLast?_cons, hlast]
        rfl

/-! ## The code -/

theorem buildEnds {freq : Nat → Nat} {ns : Nat} (hmany : 1 < (active freq ns).length) : BuildEnds freq ns := by
  obtain ⟨-, root, hroot, hleaves⟩ := lastForest_root hmany
  have hheight := height_lt_of_leaves hleaves
  refine ⟨fun h i k => hUp_enough (Nat.le_refl i) h k, fun h k => hDown_enough (Nat.le_refl _) k, ?_, ?_⟩
  · intro k
    exact joinAll_enough (Nat.le_succ (leafHeap freq ns).length) k
  · intro k
    rw [treeDepths_grown hroot 0 _ hheight, treeDepths_grown hroot 0 _ (Nat.lt_add_right k hheight)]

/-- All the allocations succeed. -/
def allocated : BuildAlloc := ⟨true, true, true, true, true⟩

theorem active_many {freq : Nat → Nat} {ns i j : Nat} (hi : i < ns ∧ 0 < freq i) (hj : j < ns ∧ 0 < freq j)
    (hne : i ≠ j) : 1 < (active freq ns).length := by
  by_contra hfew
  have hmem := mem_active.mpr hi
  have hmem' := mem_active.mpr hj
  obtain ⟨s, hs⟩ := List.length_eq_one_iff.mp
    (show (active freq ns).length = 1 by have hpos := List.length_pos_of_mem hmem; omega)
  rw [hs, List.mem_singleton] at hmem hmem'
  exact hne (hmem.trans hmem'.symm)

theorem kraft_codesOf (dp : Nat → Nat) (ns : Nat) :
    kraft (codesOf dp ns).len maxCodelen ns = kraft dp maxCodelen ns := by
  rw [kraft_eq_share, kraft_eq_share]
  refine Finset.sum_congr rfl fun i hi => ?_
  have hlen : (codesOf dp ns).len i = dp i := if_pos (Finset.mem_range.mp hi)
  rw [hlen]

/-- **COMPLETE CODES**: `huff_build` gives every symbol of two or more that occur a length from
    1 to 15 and the others none, fills the space of codes exactly, makes no count negative on
    the way, and its codes are free of prefixes and those of `huff_lut`. -/
theorem huffBuild_complete {freq : Nat → Nat} {ns i j : Nat} (hns : ns ≤ 2 ^ maxCodelen)
    (hi : i < ns ∧ 0 < freq i) (hj : j < ns ∧ 0 < freq j) (hne : i ≠ j) :
    let codes := huffBuild allocated freq ns
    let lcount := fun b => lengthCount (heapDepths freq ns) ns b
    (∀ s < ns, (0 < freq s → 1 ≤ codes.len s ∧ codes.len s ≤ 15) ∧ (freq s = 0 → codes.len s = 0)) ∧
    kraft codes.len 15 ns = 2 ^ 15 ∧
    (∀ counts ∈ splitStates (Lzh.countsKraft lcount - 2 ^ 15) (signed lcount), ∀ b, 0 ≤ counts b) ∧
    (∀ s < ns, ∀ t < ns, 0 < codes.len s → 0 < codes.len t →
      ∀ x, x % 2 ^ codes.len s = codes.code s → x % 2 ^ codes.len t = codes.code t → s = t) ∧
    (∀ s < ns, 0 < codes.len s → codes.code s < 2 ^ codes.len s ∧
      ∀ x < 2 ^ 15, x % 2 ^ codes.len s = codes.code s → huffLut codes.len ns x = some (s, codes.len s)) ∧
    BuildEnds freq ns := by
  intro codes lcount
  have hmany := active_many hi hj hne
  have hgood : GoodCode freq ns codes := huffBuild_good hns (Or.inr ⟨rfl, rfl, Or.inl rfl⟩)
  have hfull : kraft codes.len maxCodelen ns = 2 ^ maxCodelen := by
    show kraft (huffBuild allocated freq ns).len maxCodelen ns = _
    rw [huffBuild_many hmany]
    exact (kraft_codesOf _ ns).trans (redistribute_complete hns hmany)
  have hlut := huffLut_spec hgood.short hgood.kraft
  refine ⟨?_, hfull, ?_, ?_, ?_, buildEnds hmany⟩
  · intro s hs
    constructor
    · intro hpos
      exact ⟨(hgood.coded s hs).mpr hpos, hgood.short s hs⟩
    · intro hzero
      have hnone := mt (hgood.coded s hs).mp (by omega)
      omega
  · have hkraft : 2 ^ maxCodelen ≤ Lzh.countsKraft lcount := by
      rw [countsKraft_lengthCount (heapDepths_clamped hmany).1]
      exact heapDepths_filled hmany
    refine (splitStates_spec (heapDepths_total hns hmany) (Nat.add_sub_cancel' hkraft).symm ?_).1
    intro hover
    exact heapDepths_surplus hmany (Nat.lt_of_sub_pos hover)
  · intro s hs t ht hpos hpos' x hx hx'
    rw [hgood.code s hs hpos] at hx
    rw [hgood.code t ht hpos'] at hx'
    exact turned_unique hgood.short hgood.kraft hs ht hpos hpos' hx hx'
  · intro s hs hpos
    rw [hgood.code s hs hpos]
    exact ⟨turned_lt s, fun x hx hstarts => hlut.code s hs hpos x hx hstarts⟩

/-- Frequencies whose tree is deeper than 15. -/
def skewed (i : Nat) : Nat := 2 ^ i

theorem huffBuild_complete_skewed : kraft (huffBuild allocated skewed 18).len 15 18 = 2 ^ 15 := by
  have hall := huffBuild_complete (show 18 ≤ 2 ^ maxCodelen by decide)
    (show 0 < 18 ∧ 0 < skewed 0 by decide) (show 1 < 18 ∧ 0 < skewed 1 by decide) (by decide)
  exact hall.2.1

end Zupt.Lzh
