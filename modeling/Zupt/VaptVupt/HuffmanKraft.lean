import Zupt.VaptVupt.HuffmanRoundTrip

/-! # The Huffman coder

    The code lengths fill the space of codes where the tree needed no limit, and
    leave some of it free where the limit took more than it had to.  With the
    round trips, and with the rounds that refill once on any input, this is what
    the coder promises. -/

namespace Zupt.VaptVupt

open Zupt.LittleEndian Zupt.Canonical Zupt.Memory Finset

/-! ## Complete codes -/

/-- The leaves of the tree, the rarest first. -/
def treeLeaves (freq : Nat → Nat) : List SymFreq :=
  (occurring freq).insertionSort fun x y => x.freq ≤ y.freq

/-- The lengths before the limit. -/
def treeLengths (freq : Nat → Nat) : CodeLengths :=
  give ((treeLeaves freq).map SymFreq.sym)
    ((List.range (treeLeaves freq).length).map (treeDepths (treeLeaves freq))) fun _ => 0

/-- Nothing has to be limited. -/
def WithinLimit (freq : Nat → Nat) : Prop :=
  (occurring freq).length ≤ 2 ∨ ∀ i < 256, treeLengths freq i ≤ huffMaxCodeLen

theorem treeLeaves_perm (freq : Nat → Nat) : (treeLeaves freq).Perm (occurring freq) :=
  List.perm_insertionSort _ _

theorem buildCodeLengths_many {a : TreeAlloc} {freq : Nat → Nat} (ha : a.all = true)
    (hmany : ¬ (occurring freq).length ≤ 2) :
    buildCodeLengths a freq = limitLengths (treeLengths freq) := by
  rw [buildCodeLengths, if_neg hmany, if_pos ha]
  rfl

/-- **A CODE WITHIN THE LIMIT** of two symbols or more is complete. -/
theorem buildCodeLengths_complete {a : TreeAlloc} {freq : Nat → Nat} {lengths : CodeLengths}
    (ha : a.all = true) (htwo : 2 ≤ (occurring freq).length) (hwithin : WithinLimit freq)
    (h : buildCodeLengths a freq = some lengths) :
    kraft lengths huffMaxCodeLen 256 = 2 ^ huffMaxCodeLen := by
  by_cases hfew : (occurring freq).length ≤ 2
  · rw [buildCodeLengths, if_pos hfew] at h
    obtain rfl := Option.some.inj h
    have hlen : ((occurring freq).map SymFreq.sym).length = 2 := by
      rw [List.length_map]
      omega
    have hin : ∀ s ∈ (occurring freq).map SymFreq.sym, s < 256 := fun s hs => (mem_occurring.mp hs).1
    exact kraft_give (occurring_nodup freq) hin hlen.symm fun _ _ => rfl
  · have hlimit := hwithin.resolve_left hfew
    rw [buildCodeLengths_many ha hfew, limitLengths, if_pos (atMost_iff.mpr hlimit)] at h
    rw [← Option.some.inj h]
    have hperm := treeLeaves_perm freq
    obtain ⟨-, -, hkraft⟩ := tree_complete hperm (by rw [hperm.length_eq]; omega)
    exact kraft_coarse (k := 240) hlimit hkraft

/-- A symbol alone has a code of one bit. -/
theorem buildCodeLengths_single {a : TreeAlloc} {freq : Nat → Nat} {lengths : CodeLengths} {s : Nat}
    (hone : (occurring freq).map SymFreq.sym = [s]) (h : buildCodeLengths a freq = some lengths) :
    lengths = Function.update (fun _ => 0) s 1 := by
  have hlen : (occurring freq).length = 1 := by
    rw [← List.length_map SymFreq.sym, hone]
    rfl
  rw [buildCodeLengths, if_pos (by omega), hone] at h
  exact (Option.some.inj h).symm

/-! ## A limit that takes too much -/

/-- Counts of which the two rarest are a leaf's depth over the limit. -/
def steepCounts : List Nat :=
  [1, 1, 2, 2, 2, 5, 9, 14, 23, 37, 60, 97, 157, 254, 411, 665, 1076, 1741]

def steep (i : Nat) : Nat := steepCounts.getD i 0

def steepDepths : List Nat := [16, 16, 15, 15, 15, 13, 12, 11, 10, 9, 8, 7, 6, 5, 4, 3, 2, 1]

/-- The counts at the limit before the loop. -/
def steepCapped (d : Nat) : Nat := [0, 1, 1, 1, 1, 1, 1, 1, 1, 1, 1, 1, 1, 1, 0, 5].getD d 0

theorem occurring_steep : occurring steep = (List.range 18).map fun i => ⟨i, steep i⟩ := by
  decide

theorem treeLeaves_steep : treeLeaves steep = (List.range 18).map fun i => ⟨i, steep i⟩ := by
  rw [treeLeaves, occurring_steep]
  decide

theorem treeDepths_steep :
    (List.range 18).map (treeDepths ((List.range 18).map fun i => ⟨i, steep i⟩)) = steepDepths := by
  decide

theorem treeLengths_steep : treeLengths steep = fun i => steepDepths.getD i 0 := by
  have hgive : treeLengths steep = give (List.range 18) steepDepths fun _ => 0 := by
    rw [treeLengths, treeLeaves_steep, ← treeDepths_steep]
    rfl
  rw [hgive]
  funext i
  by_cases hi : i < 18
  · have hall : ∀ i < 18, give (List.range 18) steepDepths (fun _ => 0) i = steepDepths.getD i 0 := by
      decide
    exact hall i hi
  · have hout : i ∉ List.range 18 := mt List.mem_range.mp hi
    rw [give_of_notMem hout, List.getD_eq_default _ _ (show steepDepths.length ≤ i by
      show 18 ≤ i
      omega)]

theorem cappedCounts_steep : cappedCounts (fun i => steepDepths.getD i 0) = steepCapped := by
  funext d
  by_cases hd : d < 16
  · have hall : ∀ d < 16, cappedCounts (fun i => steepDepths.getD i 0) d = steepCapped d := by
      decide +kernel
    exact hall d hd
  · rw [cappedCounts, if_neg (by rw [huffMaxCodeLen]; omega), if_neg (by rw [huffMaxCodeLen]; omega)]
    exact (List.getD_eq_default _ _ (show 16 ≤ d by omega)).symm

/-- One turn takes two units where one would do. -/
theorem limitLoop_steep : limitLoop (256 * 15) steepCapped = moveDown steepCapped 13 := by
  have hover : ¬ countsKraft steepCapped ≤ 2 ^ huffMaxCodeLen := by decide
  have hdeep : deepest steepCapped (huffMaxCodeLen - 1) = some 13 := by decide
  have hdone : countsKraft (moveDown steepCapped 13) ≤ 2 ^ huffMaxCodeLen := by decide
  show limitLoop (3838 + 1 + 1) steepCapped = _
  rw [limitLoop, if_neg hover, hdeep]
  show limitLoop (3838 + 1) (moveDown steepCapped 13) = _
  rw [limitLoop, if_pos hdone]

/-- `vvh_decode4_impl` with a look before each symbol. -/
def vvhDecode4CheckedBody (workspace : HuffTable) (lengths : CodeLengths) (src : Bytes)
    (hdr_sz num_literals : Nat) : Except VvError (Bytes × Nat) :=
  if src.length < hdr_sz + 9 then .error .corrupt
  else
    let s1 := u24At src hdr_sz
    let s2 := u24At src (hdr_sz + 3)
    let s3 := u24At src (hdr_sz + 6)
    let streams := src.drop (hdr_sz + 9)
    if streams.length < s1 + s2 + s3 then .error .corrupt
    else
      let s0 := streams.length - s1 - s2 - s3
      if 4 ≤ num_literals ∧ (s0 = 0 ∨ s1 = 0 ∨ s2 = 0 ∨ s3 = 0) then .error .corrupt
      else
        let lane (start len : Nat) : HuffBr :=
          huffRefill (huffBrInit ((streams.drop start).take len))
        match huffLanesChecked (buildDecTable lengths workspace) num_literals
            ⟨lane 0 s0, lane s0 s1, lane (s0 + s1) s2, lane (s0 + s1 + s2) s3⟩ with
        | none => .error .corrupt
        | some out => .ok (out, hdr_sz + 9 + s0 + s1 + s2 + s3)

/-- A header holds no length over 15. -/
theorem readHeader_short {src : Bytes} {hdr_sz : Nat} {lengths : CodeLengths}
    (h : readHeader src = some (hdr_sz, lengths)) (i : Nat) : lengths i ≤ huffMaxCodeLen := by
  rw [readHeader] at h
  split at h
  · cases h
  dsimp only at h
  split at h
  · cases h
  obtain ⟨-, rfl⟩ := Prod.mk.inj (Option.some.inj h)
  have hbyte := (charAt src (1 + i / 2)).toNat_lt
  dsimp only
  rw [huffMaxCodeLen]
  split
  · exact Nat.zero_le _
  split
  · omega
  · omega

theorem vvhDecode4Body_eq_checked {lengths : CodeLengths}
    (hshort : ∀ i, lengths i ≤ huffMaxCodeLen) (workspace : HuffTable) (src : Bytes)
    (hdr_sz n : Nat) :
    vvhDecode4Body workspace lengths src hdr_sz n =
      vvhDecode4CheckedBody workspace lengths src hdr_sz n := by
  have hlane : ∀ s : Bytes, (huffRefill (huffBrInit s)).Like (huffRefill (huffBrInit s)) :=
    fun s => HuffBr.Like.refl_of_sees (huffRefill_spec (sees_init s)).1
  have htable := buildDecTable_short hshort workspace
  rw [vvhDecode4Body, vvhDecode4CheckedBody]
  dsimp only
  generalize hl : HuffLanes.mk _ _ _ _ = l
  have hrel : l.Rel HuffBr.Like l := by
    subst hl
    exact ⟨hlane _, hlane _, hlane _, hlane _⟩
  have hlanes := huffLanesLoop_eq_checked htable n hrel
  generalize huffLanesLoop _ n l = out at hlanes ⊢
  subst hlanes
  rfl

/-- **ONE REFILL FOR THREE SYMBOLS** is as good as a look before each. -/
theorem vvhDecode4_eq_checked (workspace : HuffTable) (src : Bytes) (dst_cap n : Nat) :
    vvhDecode4 workspace src dst_cap n =
      vvhDecodeWith vvhDecode4CheckedBody workspace src dst_cap n := by
  rw [vvhDecode4, vvhDecodeWith, vvhDecodeWith]
  cases hread : readHeader src with
  | none => rfl
  | some p =>
      dsimp only
      rw [vvhDecode4Body_eq_checked (readHeader_short hread)]

end Zupt.VaptVupt
