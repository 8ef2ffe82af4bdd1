import Zupt.VaptVupt.HuffmanEncode

/-! # The code lengths of the Huffman encoders

    Whichever two fronts a merge picks, the leaves of the tree share out the whole
    of the code space.  The limit works on counts and brings Kraft's sum down to
    the space at most, so the lengths of `build_code_lengths` always make up a
    prefix code, of exactly the symbols that occur. -/

namespace Zupt.VaptVupt

open Zupt.Canonical Finset

/-! ## The merge -/

section Merge

variable {n next : Nat} {q : Queues}

/-- What is left in the queues, in places. -/
structure Queues.Valid (q : Queues) (n next : Nat) : Prop where
  leaves : q.lq ≤ n
  first : n ≤ q.iq
  inner : q.iq ≤ next

/-- The nodes that were picked. -/
def Queues.Picked (q : Queues) (n j : Nat) : Prop := j < q.lq ∨ (n ≤ j ∧ j < q.iq)

/-- How many nodes are left. -/
def Queues.left (q : Queues) (n next : Nat) : Nat := (n - q.lq) + (next - q.iq)

/-- The weight of the nodes that are left. -/
def Queues.weight (q : Queues) (n next : Nat) (w : Nat → Nat) : Nat :=
  ∑ i ∈ Ico q.lq n, w i + ∑ i ∈ Ico q.iq next, w i

/-- **A PICK** takes a node that was left, and makes `next` its parent. -/
theorem Queues.pick_spec (hq : q.Valid n next) (hleft : 0 < q.left n next) :
    ∃ i, i < next ∧ (q.pick n next).2.par = Function.update q.par i next ∧
      (q.pick n next).2.Valid n next ∧ (q.pick n next).2.left n next + 1 = q.left n next ∧
      (∀ j, (q.pick n next).2.Picked n j ↔ q.Picked n j ∨ j = i) ∧ ¬ q.Picked n i ∧
      ∀ w, (q.pick n next).2.weight n next w + w i = q.weight n next w := by
  obtain ⟨hleaves, hfirst, hinner⟩ := hq
  rw [Queues.left] at hleft
  rw [Queues.pick]
  by_cases huse : q.lq < n ∧ (next ≤ q.iq ∨ q.nf q.lq ≤ q.nf q.iq)
  · have hlt := huse.1
    rw [if_pos huse]
    refine ⟨q.lq, by omega, rfl, ⟨hlt, hfirst, hinner⟩, ?_, ?_, ?_, ?_⟩
    · show n - (q.lq + 1) + (next - q.iq) + 1 = n - q.lq + (next - q.iq)
      omega
    · intro j
      show j < q.lq + 1 ∨ (n ≤ j ∧ j < q.iq) ↔ (j < q.lq ∨ (n ≤ j ∧ j < q.iq)) ∨ j = q.lq
      omega
    · show ¬ (q.lq < q.lq ∨ (n ≤ q.lq ∧ q.lq < q.iq))
      omega
    · intro w
      show ∑ i ∈ Ico (q.lq + 1) n, w i + ∑ i ∈ Ico q.iq next, w i + w q.lq =
        ∑ i ∈ Ico q.lq n, w i + ∑ i ∈ Ico q.iq next, w i
      rw [sum_eq_sum_Ico_succ_bot hlt]
      omega
  · have hlt : q.iq < next := by omega
    rw [if_neg huse]
    refine ⟨q.iq, hlt, rfl, ⟨hleaves, Nat.le_succ_of_le hfirst, hlt⟩, ?_, ?_, ?_, ?_⟩
    · show n - q.lq + (next - (q.iq + 1)) + 1 = n - q.lq + (next - q.iq)
      omega
    · intro j
      show j < q.lq ∨ (n ≤ j ∧ j < q.iq + 1) ↔ (j < q.lq ∨ (n ≤ j ∧ j < q.iq)) ∨ j = q.iq
      omega
    · show ¬ (q.iq < q.lq ∨ (n ≤ q.iq ∧ q.iq < q.iq))
      omega
    · intro w
      show ∑ i ∈ Ico q.lq n, w i + ∑ i ∈ Ico (q.iq + 1) next, w i + w q.iq =
        ∑ i ∈ Ico q.lq n, w i + ∑ i ∈ Ico q.iq next, w i
      rw [sum_eq_sum_Ico_succ_bot hlt]
      omega

/-- **A TURN OF THE MERGE** puts the node `next` in the place of two others. -/
theorem Queues.merge_spec (hq : q.Valid n next) (hleft : 2 ≤ q.left n next) :
    ∃ a b, a < next ∧ b < next ∧
      (q.merge n next).par = Function.update (Function.update q.par a next) b next ∧
      (q.merge n next).Valid n (next + 1) ∧ (q.merge n next).iq ≤ next ∧
      (q.merge n next).left n (next + 1) + 1 = q.left n next ∧
      (∀ j, (q.merge n next).Picked n j ↔ q.Picked n j ∨ j = a ∨ j = b) ∧
      ¬ q.Picked n a ∧ ¬ q.Picked n b ∧ a ≠ b ∧
      ∀ w, (q.merge n next).weight n (next + 1) w + w a + w b = q.weight n next w + w next := by
  obtain ⟨a, ha, hpar, hvalid, hcount, hpicked, hnot, hweight⟩ := q.pick_spec hq (by omega)
  obtain ⟨b, hb, hpar', hvalid', hcount', hpicked', hnot', hweight'⟩ :=
    (q.pick n next).2.pick_spec hvalid (by omega)
  have hb' := not_or.mp (mt (hpicked b).mpr hnot')
  refine ⟨a, b, ha, hb, ?_, ⟨hvalid'.leaves, hvalid'.first, Nat.le_succ_of_le hvalid'.inner⟩,
    hvalid'.inner, ?_, ?_, hnot, hb'.1, fun h => hb'.2 h.symm, ?_⟩
  · show ((q.pick n next).2.pick n next).2.par = _
    rw [hpar', hpar]
  · have hinner := hvalid'.inner
    rw [Queues.left] at hcount'
    show n - ((q.pick n next).2.pick n next).2.lq +
      (next + 1 - ((q.pick n next).2.pick n next).2.iq) + 1 = q.left n next
    omega
  · intro j
    show ((q.pick n next).2.pick n next).2.Picked n j ↔ _
    rw [hpicked', hpicked, or_assoc]
  · intro w
    have hsum : (q.merge n next).weight n (next + 1) w =
        ((q.pick n next).2.pick n next).2.weight n next w + w next := by
      show ∑ i ∈ Ico ((q.pick n next).2.pick n next).2.lq n, w i +
        ∑ i ∈ Ico ((q.pick n next).2.pick n next).2.iq (next + 1), w i = _
      rw [sum_Ico_succ_top hvalid'.inner, Queues.weight, Nat.add_assoc]
    have h1 := hweight w
    have h2 := hweight' w
    omega

/-- **THE WHOLE MERGE**: every node but the root gets a parent behind it, once,
    and the weight of what was left is that of the root, where each node weighs
    half of its parent. -/
theorem mergeLoop_spec (turns : Nat) (hq : q.Valid n next) (hn : n ≤ next)
    (hleft : q.left n next = turns + 1) (hlast : turns = 0 → q.iq < next) :
    (∀ j, q.Picked n j → (mergeLoop n turns next q).par j = q.par j) ∧
    (∀ j, ¬ q.Picked n j → j + 1 < next + turns →
      j < (mergeLoop n turns next q).par j ∧ n ≤ (mergeLoop n turns next q).par j ∧
        (mergeLoop n turns next q).par j < next + turns) ∧
    ∀ w : Nat → Nat, (∀ j, ¬ q.Picked n j → j + 1 < next + turns →
        w ((mergeLoop n turns next q).par j) = 2 * w j) →
      q.weight n next w = w (next + turns - 1) := by
  induction turns generalizing next q with
  | zero =>
      have hiq := hlast rfl
      obtain ⟨hleaves, hfirst, hinner⟩ := hq
      rw [Queues.left] at hleft
      refine ⟨fun j _ => rfl, ?_, ?_⟩
      · intro j hj hlt
        rw [Queues.Picked] at hj
        omega
      · intro w _
        have hempty : Ico q.lq n = ∅ := Ico_eq_empty (by omega)
        have hone : next = q.iq + 1 := by omega
        rw [Queues.weight, hempty, sum_empty, Nat.zero_add, Nat.add_zero, hone,
          Nat.Ico_succ_singleton, sum_singleton, Nat.add_sub_cancel]
  | succ turns ih =>
      obtain ⟨a, b, ha, hb, hpar, hvalid, hiq, hcount, hpicked, hna, hnb, hab, hweight⟩ :=
        q.merge_spec hq (by omega)
      have hturns : next + 1 + turns = next + (turns + 1) := by omega
      obtain ⟨hkept, hbehind, hsum⟩ := ih hvalid (by omega) (by omega) fun _ => by omega
      rw [hturns] at hbehind hsum
      rw [mergeLoop]
      -- the two nodes of this turn keep their parent to the end
      have hpa : (mergeLoop n turns (next + 1) (q.merge n next)).par a = next := by
        rw [hkept a ((hpicked a).mpr (Or.inr (Or.inl rfl))), hpar, Function.update_of_ne hab,
          Function.update_self]
      have hpb : (mergeLoop n turns (next + 1) (q.merge n next)).par b = next := by
        rw [hkept b ((hpicked b).mpr (Or.inr (Or.inr rfl))), hpar, Function.update_self]
      refine ⟨?_, ?_, ?_⟩
      · intro j hj
        have hja : j ≠ a := fun h => hna (h ▸ hj)
        have hjb : j ≠ b := fun h => hnb (h ▸ hj)
        rw [hkept j ((hpicked j).mpr (Or.inl hj)), hpar, Function.update_of_ne hjb,
          Function.update_of_ne hja]
      · intro j hj hlt
        by_cases hja : j = a
        · rw [hja, hpa]
          omega
        by_cases hjb : j = b
        · rw [hjb, hpb]
          omega
        refine hbehind j ?_ hlt
        rw [hpicked]
        exact not_or.mpr ⟨hj, not_or.mpr ⟨hja, hjb⟩⟩
      · intro w hw
        have hwa : w next = 2 * w a := by
          have h := hw a hna (by omega)
          rwa [hpa] at h
        have hwb : w next = 2 * w b := by
          have h := hw b hnb (by omega)
          rwa [hpb] at h
        have hrest := hsum w fun j hj hlt => hw j (fun h => hj ((hpicked j).mpr (Or.inl h))) hlt
        have hthis := hweight w
        omega

end Merge

/-! ## The depths -/

/-- Going down from the root, each depth is one more than the parent's. -/
theorem depthLoop_spec {par : Nat → Nat} {m : Nat} (dep : Nat → Nat) (h : ∀ i < m, i < par i) :
    (∀ i, m ≤ i → depthLoop par m dep i = dep i) ∧
    ∀ i < m, depthLoop par m dep i = (depthLoop par m dep (par i) + 1) % 256 := by
  induction m generalizing dep with
  | zero => exact ⟨fun _ _ => rfl, fun i hi => absurd hi (Nat.not_lt_zero i)⟩
  | succ m ih =>
      obtain ⟨habove, hbelow⟩ := ih (Function.update dep m ((dep (par m) + 1) % 256))
        fun i hi => h i (Nat.lt_succ_of_lt hi)
      rw [depthLoop]
      constructor
      · intro i hi
        rw [habove i (by omega), Function.update_of_ne (by omega)]
      · intro i hi
        by_cases hlast : i = m
        · have hpar := h m (Nat.lt_succ_self m)
          rw [hlast, habove m (Nat.le_refl m), habove (par m) (by omega), Function.update_self,
            Function.update_of_ne (by omega)]
        · exact hbelow i (by omega)

/-- The leaves of the tree, of which there are at least two. -/
theorem treeDepths_spec {leaves : List SymFreq} (htwo : 2 ≤ leaves.length)
    (hmany : leaves.length ≤ 256) :
    (∀ i < leaves.length, 1 ≤ treeDepths leaves i ∧ treeDepths leaves i ≤ 255) ∧
    ∑ i ∈ range leaves.length, 2 ^ (255 - treeDepths leaves i) = 2 ^ 255 := by
  rw [treeDepths]
  generalize leaves.map SymFreq.freq = freqs
  generalize leaves.length = n at htwo hmany ⊢
  generalize hstart : ({ nf := fun i => freqs.getD i 0, par := fun _ => 0, lq := 0, iq := n } :
    Queues) = q
  have hlq : q.lq = 0 := by rw [← hstart]
  have hiq : q.iq = n := by rw [← hstart]
  have hnone : ∀ j, ¬ q.Picked n j := by
    intro j hj
    rw [Queues.Picked, hlq, hiq] at hj
    omega
  obtain ⟨-, hbehind, hsum⟩ := mergeLoop_spec (q := q) (n - 1)
    ⟨by omega, hiq.ge, hiq.le⟩ (Nat.le_refl n) (by rw [Queues.left, hlq, hiq]; omega)
    (fun h => by omega)
  generalize hpar : (mergeLoop n (n - 1) n q).par = par at hbehind hsum ⊢
  have hroot : n + (n - 1) = 2 * n - 2 + 1 := by omega
  rw [hroot] at hbehind hsum
  have hup : ∀ i < 2 * n - 2, i < par i ∧ n ≤ par i ∧ par i < 2 * n - 2 + 1 :=
    fun i hi => hbehind i (hnone i) (by omega)
  obtain ⟨htop, hstep⟩ := depthLoop_spec (fun _ => 0) fun i (hi : i < 2 * n - 2) => (hup i hi).1
  generalize depthLoop par (2 * n - 2) (fun _ => 0) = dep at htop hstep ⊢
  -- an inner node is at most as deep as there are nodes above it, so no depth wraps
  have hinner : ∀ k i, 2 * n - 2 ≤ i + k → n ≤ i → i ≤ 2 * n - 2 → dep i + i ≤ 2 * n - 2 := by
    intro k
    induction k with
    | zero =>
        intro i hi _ hle
        rw [htop i hi, Nat.zero_add]
        exact hle
    | succ k ih =>
        intro i hi hni hle
        by_cases hlast : i = 2 * n - 2
        · rw [htop i hlast.ge, Nat.zero_add]
          exact hle
        · obtain ⟨hlt, hnp, hbound⟩ := hup i (by omega)
          have hparent := ih (par i) (by omega) hnp (by omega)
          have hdep := hstep i (by omega)
          have hmod := Nat.mod_le (dep (par i) + 1) 256
          omega
  have hdepth : ∀ i < 2 * n - 2, dep i = dep (par i) + 1 ∧ dep i ≤ 255 := by
    intro i hi
    obtain ⟨hlt, hnp, hbound⟩ := hup i hi
    have hparent := hinner (2 * n) (par i) (by omega) hnp (by omega)
    have hdep := hstep i hi
    rw [Nat.mod_eq_of_lt (by omega)] at hdep
    omega
  constructor
  · intro i hi
    have hd := hdepth i (by omega)
    omega
  · have hweights := hsum (fun i => 2 ^ (255 - dep i)) fun j _ hj => by
      obtain ⟨hone, hle⟩ := hdepth j (by omega)
      have hexp : 255 - dep (par j) = 255 - dep j + 1 := by omega
      rw [hexp, Nat.pow_succ, Nat.mul_comm]
    rw [Queues.weight, hlq, hiq, Ico_self, sum_empty, Nat.add_zero, Nat.add_sub_cancel,
      htop _ (Nat.le_refl _), ← range_eq_Ico] at hweights
    exact hweights

/-! ## The limit -/

/-- Moving a symbol down. -/
theorem weigh_moveDown (w : Nat → Nat) {bl : Nat → Nat} {d k : Nat} (hk : 1 ≤ k) (hd : k < d)
    (hpos : 0 < bl k) : weigh w (moveDown bl k) d + w k = weigh w bl d + w (k + 1) := by
  have hfirst := weigh_update w bl hk hd.le (bl k - 1)
  have hsecond := weigh_update w (Function.update bl k (bl k - 1)) (Nat.le_add_left 1 k) hd
    (Function.update bl k (bl k - 1) (k + 1) + 1)
  rw [Nat.add_mul, Nat.one_mul] at hsecond
  have hone : bl k * w k = (bl k - 1) * w k + w k := by
    rw [← Nat.succ_mul, Nat.succ_eq_add_one, Nat.sub_add_cancel hpos]
  rw [moveDown]
  omega

/-- How far the symbols are from the longest codes, together. -/
def slack (bl : Nat → Nat) : Nat := weigh (fun d => huffMaxCodeLen - d) bl huffMaxCodeLen

/-- **A TURN OF THE LIMIT** finds a symbol to move, and brings it nearer. -/
theorem limit_turn {bl : Nat → Nat} (htotal : weigh (fun _ => 1) bl huffMaxCodeLen ≤ 256)
    (hover : ¬ countsKraft bl ≤ 2 ^ huffMaxCodeLen) :
    ∃ d, deepest bl (huffMaxCodeLen - 1) = some d ∧
      weigh (fun _ => 1) (moveDown bl d) huffMaxCodeLen = weigh (fun _ => 1) bl huffMaxCodeLen ∧
      slack (moveDown bl d) + 1 = slack bl := by
  cases hdeep : deepest bl (huffMaxCodeLen - 1) with
  | none =>
      -- all symbols are at the limit, and there are not that many
      have hnone := deepest_none hdeep
      have hzero : weigh (fun d => 2 ^ (huffMaxCodeLen - d)) bl 14 = 0 := weigh_zero hnone
      have hcount : weigh (fun _ => 1) bl 14 = 0 := weigh_zero hnone
      have hkraft : countsKraft bl = weigh (fun d => 2 ^ (huffMaxCodeLen - d)) bl 14 + bl 15 * 2 ^ 0 :=
        rfl
      have hall : weigh (fun _ => 1) bl huffMaxCodeLen = weigh (fun _ => 1) bl 14 + bl 15 * 1 := rfl
      rw [hkraft] at hover
      rw [show (2 : Nat) ^ huffMaxCodeLen = 32768 from rfl] at hover
      omega
  | some d =>
      obtain ⟨hd, hle, hpos, -⟩ := deepest_some hdeep
      have hlt : d < huffMaxCodeLen := Nat.lt_of_le_of_lt hle (by decide)
      have hcount := weigh_moveDown (fun _ => 1) hd hlt hpos
      have hslack := weigh_moveDown (fun d => huffMaxCodeLen - d) hd hlt hpos
      refine ⟨d, rfl, Nat.add_right_cancel hcount, ?_⟩
      rw [slack, slack]
      omega

/-- **THE LIMIT** keeps the symbols and ends at Kraft's inequality. -/
theorem limitLoop_spec {bl : Nat → Nat} {turns : Nat}
    (htotal : weigh (fun _ => 1) bl huffMaxCodeLen ≤ 256) (hturns : slack bl < turns) :
    weigh (fun _ => 1) (limitLoop turns bl) huffMaxCodeLen = weigh (fun _ => 1) bl huffMaxCodeLen ∧
      countsKraft (limitLoop turns bl) ≤ 2 ^ huffMaxCodeLen := by
  induction turns generalizing bl with
  | zero => exact absurd hturns (Nat.not_lt_zero _)
  | succ turns ih =>
      rw [limitLoop]
      by_cases hfits : countsKraft bl ≤ 2 ^ huffMaxCodeLen
      · rw [if_pos hfits]
        exact ⟨rfl, hfits⟩
      · obtain ⟨d, hdeep, hcount, hslack⟩ := limit_turn htotal hfits
        rw [if_neg hfits, hdeep]
        dsimp only
        obtain ⟨hkept, hkraft⟩ := ih (hcount.le.trans htotal) (by omega)
        exact ⟨hkept.trans hcount, hkraft⟩

theorem blCount_eq_rank (lengths : CodeLengths) {l : Nat} (hl : 1 ≤ l) (n : Nat) :
    blCount lengths l n = rank lengths l n := by
  induction n with
  | zero => rfl
  | succ n ih =>
      rw [blCount, rank, ih]
      by_cases hsame : lengths n = l
      · rw [if_pos hsame, if_pos ⟨by omega, hsame⟩]
      · rw [if_neg hsame, if_neg fun h => hsame h.2]

/-- The symbols that have a code, in their order. -/
def coded (lengths : CodeLengths) : List Nat := (List.range 256).filter fun i => 0 < lengths i

/-- Below 32 every length is counted. -/
theorem weigh_cappedCounts {lengths : CodeLengths} (h : ∀ i < 256, lengths i ≤ 31) :
    weigh (fun _ => 1) (cappedCounts lengths) huffMaxCodeLen = (coded lengths).length := by
  have hcount : weigh (fun _ => 1) (cappedCounts lengths) huffMaxCodeLen =
      weigh (fun _ => 1) (fun l => rank lengths l 256) 31 := by
    have hlow : weigh (fun _ => 1) (cappedCounts lengths) 14 =
        weigh (fun _ => 1) (fun l => rank lengths l 256) 14 := by
      refine weigh_congr fun k hk hd => ?_
      rw [cappedCounts, if_neg (by rw [huffMaxCodeLen]; omega), if_pos (show k < huffMaxCodeLen from Nat.lt_succ_of_le hd),
        blCount_eq_rank lengths hk]
    have hcap : cappedCounts lengths 15 =
        ((List.range 17).map fun k => rank lengths (15 + k) 256).sum := by
      rw [cappedCounts, if_pos (by rfl)]
      refine congrArg List.sum (List.map_congr_left fun k _ => ?_)
      exact blCount_eq_rank lengths (Nat.le_add_right_of_le (by decide)) 256
    have hsplit : weigh (fun _ => 1) (cappedCounts lengths) huffMaxCodeLen =
        weigh (fun _ => 1) (cappedCounts lengths) 14 + cappedCounts lengths 15 * 1 := rfl
    have hall := weigh_add (fun _ => 1) (fun l => rank lengths l 256) 14 17
    simp only [Nat.mul_one] at hall hsplit
    rw [hsplit, hlow, hcap, hall]
  rw [hcount, weigh_rank, coded, length_filter_range]
  refine sum_congr rfl fun i hi => ?_
  have hlt := h i (mem_range.mp hi)
  by_cases hpos : 0 < lengths i
  · rw [if_pos (by omega), if_pos (decide_eq_true hpos)]
  · rw [if_neg (by omega), if_neg (by simpa using hpos)]

theorem coded_length_le (lengths : CodeLengths) : (coded lengths).length ≤ 256 := by
  refine (List.length_filter_le _ _).trans ?_
  rw [List.length_range]

theorem coded_nodup (lengths : CodeLengths) : (coded lengths).Nodup :=
  List.nodup_range.filter _

theorem mem_coded {lengths : CodeLengths} {i : Nat} : i ∈ coded lengths ↔ i < 256 ∧ 0 < lengths i := by
  rw [coded, List.mem_filter, List.mem_range, decide_eq_true_iff]

/-- The lengths make up a prefix code of the symbols that occur. -/
structure GoodLengths (occurs : Nat → Prop) (lengths : CodeLengths) : Prop where
  short : ∀ i, lengths i ≤ huffMaxCodeLen
  inside : ∀ i, 256 ≤ i → lengths i = 0
  coded : ∀ i < 256, 0 < lengths i ↔ occurs i
  kraft : kraft lengths huffMaxCodeLen 256 ≤ 2 ^ huffMaxCodeLen

theorem byLength_perm (lengths : CodeLengths) : (byLength lengths).Perm (coded lengths) :=
  List.perm_insertionSort _ _

section Spread

variable {lengths : CodeLengths} {bl : Nat → Nat}

theorem uncoded_zero (hinside : ∀ i, 256 ≤ i → lengths i = 0) :
    ∀ i ∉ byLength lengths, lengths i = 0 := by
  intro i hi
  by_cases hin : i < 256
  · have hzero := mt mem_coded.mpr (mt (byLength_perm lengths).mem_iff.mpr hi)
    omega
  · exact hinside i (by omega)

/-- Lengths that are handed out by counts take of the space what the counts say. -/
theorem spread_kraft (hinside : ∀ i, 256 ≤ i → lengths i = 0)
    (hcount : weigh (fun _ => 1) bl huffMaxCodeLen = (coded lengths).length) :
    kraft (give (byLength lengths) (spread bl huffMaxCodeLen) lengths) huffMaxCodeLen 256 =
      countsKraft bl := by
  have hperm := byLength_perm lengths
  exact kraft_give_spread (hperm.nodup_iff.mpr (coded_nodup lengths))
    (fun s hs => (mem_coded.mp (hperm.mem_iff.mp hs)).1) (hcount.trans hperm.length_eq.symm)
    (uncoded_zero hinside)

/-- Counts of the right number that meet Kraft's inequality make a code. -/
theorem spread_good (hinside : ∀ i, 256 ≤ i → lengths i = 0)
    (hcount : weigh (fun _ => 1) bl huffMaxCodeLen = (coded lengths).length)
    (hfits : countsKraft bl ≤ 2 ^ huffMaxCodeLen) :
    GoodLengths (fun i => 0 < lengths i)
      (give (byLength lengths) (spread bl huffMaxCodeLen) lengths) := by
  have hperm := byLength_perm lengths
  have hnone := uncoded_zero hinside
  have hgiven : ∀ i ∈ byLength lengths,
      1 ≤ give (byLength lengths) (spread bl huffMaxCodeLen) lengths i ∧
        give (byLength lengths) (spread bl huffMaxCodeLen) lengths i ≤ huffMaxCodeLen :=
    fun i hi => give_spread_mem (hcount.trans hperm.length_eq.symm) hi
  refine ⟨?_, ?_, ?_, (spread_kraft hinside hcount).trans_le hfits⟩
  · intro i
    by_cases hi : i ∈ byLength lengths
    · exact (hgiven i hi).2
    · rw [give_of_notMem hi, hnone i hi]
      exact Nat.zero_le _
  · intro i hi
    have hout : i ∉ byLength lengths := by
      intro hmem
      have hin := (mem_coded.mp (hperm.mem_iff.mp hmem)).1
      omega
    rw [give_of_notMem hout]
    exact hinside i hi
  · intro i hi
    by_cases hmem : i ∈ byLength lengths
    · exact iff_of_true (hgiven i hmem).1 (mem_coded.mp (hperm.mem_iff.mp hmem)).2
    · rw [give_of_notMem hmem]

end Spread

theorem atMost_iff {d : Nat} {lengths : CodeLengths} :
    atMost d lengths = true ↔ ∀ i < 256, lengths i ≤ d := by
  rw [atMost, List.all_eq_true]
  constructor
  · intro h i hi
    exact of_decide_eq_true (h i (List.mem_range.mpr hi))
  · intro h i hi
    exact decide_eq_true (h i (List.mem_range.mp hi))

/-- **THE LIMIT** makes a code of at most 15 bits of any complete code, and leaves
    a code of at most 15 bits as it is. -/
theorem limitLengths_good {lengths result : CodeLengths} (hinside : ∀ i, 256 ≤ i → lengths i = 0)
    {k : Nat} (hkraft : kraft lengths (huffMaxCodeLen + k) 256 = 2 ^ (huffMaxCodeLen + k))
    (h : limitLengths lengths = some result) :
    GoodLengths (fun i => 0 < lengths i) result := by
  rw [limitLengths] at h
  by_cases hshort : atMost huffMaxCodeLen lengths = true
  · rw [if_pos hshort] at h
    obtain rfl := Option.some.inj h
    refine ⟨?_, hinside, fun i _ => Iff.rfl, (kraft_coarse (atMost_iff.mp hshort) hkraft).le⟩
    intro i
    by_cases hi : i < 256
    · exact atMost_iff.mp hshort i hi
    · rw [hinside i (by omega)]
      exact Nat.zero_le _
  rw [if_neg hshort] at h
  by_cases hcells : atMost 31 lengths = true
  · rw [if_pos hcells] at h
    have htotal := weigh_cappedCounts (atMost_iff.mp hcells)
    have hmany := coded_length_le lengths
    have hslack : slack (cappedCounts lengths) ≤
        14 * weigh (fun _ => 1) (cappedCounts lengths) huffMaxCodeLen := by
      refine weigh_le _ fun k hk hd => ?_
      show 15 - k ≤ 14
      omega
    obtain ⟨hcount, hfits⟩ := limitLoop_spec (htotal.le.trans hmany)
      (show slack (cappedCounts lengths) < 256 * 15 by omega)
    rw [← Option.some.inj h]
    exact spread_good hinside (hcount.trans htotal) hfits
  · rw [if_neg hcells] at h
    cases h

/-! ## `build_code_lengths` -/

section Build

variable {freq : Nat → Nat}

theorem occurring_sym (freq : Nat → Nat) :
    (occurring freq).map SymFreq.sym = (List.range 256).filter fun i => 0 < freq i := by
  rw [occurring, List.map_map]
  exact List.map_id _

theorem occurring_nodup (freq : Nat → Nat) : ((occurring freq).map SymFreq.sym).Nodup := by
  rw [occurring_sym]
  exact List.nodup_range.filter _

theorem mem_occurring {i : Nat} :
    i ∈ (occurring freq).map SymFreq.sym ↔ i < 256 ∧ 0 < freq i := by
  rw [occurring_sym, List.mem_filter, List.mem_range, decide_eq_true_iff]

theorem occurring_length_le (freq : Nat → Nat) : (occurring freq).length ≤ 256 := by
  rw [← List.length_map SymFreq.sym, occurring_sym]
  refine (List.length_filter_le _ _).trans ?_
  rw [List.length_range]

/-- Lengths of at least one bit for the symbols that occur, and for no other. -/
theorem give_coded {syms vals : List Nat} (hmem : ∀ i, i ∈ syms ↔ i < 256 ∧ 0 < freq i)
    (hlen : syms.length ≤ vals.length) (hvals : ∀ v ∈ vals, 1 ≤ v) :
    (∀ i, 256 ≤ i → give syms vals (fun _ => 0) i = 0) ∧
    ∀ i < 256, 0 < give syms vals (fun _ => 0) i ↔ 0 < freq i := by
  constructor
  · intro i hi
    exact give_of_notMem (fun h => by have hin := ((hmem i).mp h).1; omega) vals _
  · intro i hi
    by_cases hs : i ∈ syms
    · exact iff_of_true (hvals _ (give_mem hs hlen _)) ((hmem i).mp hs).2
    · rw [give_of_notMem hs]
      exact iff_of_false (Nat.lt_irrefl 0) fun hpos => hs ((hmem i).mpr ⟨hi, hpos⟩)

/-- One or two symbols have codes of one bit. -/
theorem few_good (hfew : (occurring freq).length ≤ 2) :
    GoodLengths (fun i => 0 < freq i)
      (give ((occurring freq).map SymFreq.sym) [1, 1] fun _ => 0) := by
  have hmem : ∀ i, i ∈ (occurring freq).map SymFreq.sym ↔ i < 256 ∧ 0 < freq i := fun _ => mem_occurring
  have hnodup := occurring_nodup freq
  have hlen : ((occurring freq).map SymFreq.sym).length ≤ 2 := by
    rw [List.length_map]
    exact hfew
  generalize (occurring freq).map SymFreq.sym = syms at hmem hnodup hlen
  obtain ⟨hinside, hcoded⟩ := give_coded hmem (show syms.length ≤ [1, 1].length from hlen) (by decide)
  refine ⟨?_, hinside, hcoded, ?_⟩
  · intro i
    by_cases hs : i ∈ syms
    · have hone : give syms [1, 1] (fun _ => 0) i ∈ [1, 1] :=
        give_mem hs (show syms.length ≤ [1, 1].length from hlen) _
      have heq : give syms [1, 1] (fun _ => 0) i = 1 := by simpa using hone
      rw [heq]
      decide
    · rw [give_of_notMem hs]
      exact Nat.zero_le _
  · -- the symbols share at most two halves of the space
    have hin : ∀ s ∈ syms, s < 256 := fun s hs => ((hmem s).mp hs).1
    match syms, hlen, hnodup, hin with
    | [], _, hnodup, hin =>
        have hsum : kraft (give [] [] fun _ => 0) huffMaxCodeLen 256 = 0 :=
          kraft_give hnodup hin rfl fun _ _ => rfl
        exact hsum.le.trans (Nat.zero_le _)
    | [s], _, hnodup, hin =>
        have hsum : kraft (give [s] [1] fun _ => 0) huffMaxCodeLen 256 = 2 ^ 14 :=
          kraft_give hnodup hin rfl fun _ _ => rfl
        exact hsum.le.trans (by decide)
    | [s, t], _, hnodup, hin =>
        have hsum : kraft (give [s, t] [1, 1] fun _ => 0) huffMaxCodeLen 256 = 2 ^ 14 + 2 ^ 14 :=
          kraft_give hnodup hin rfl fun _ _ => rfl
        exact hsum.le.trans (by decide)

theorem sum_map_range (g : Nat → Nat) (n : Nat) :
    ((List.range n).map g).sum = ∑ i ∈ range n, g i := by
  induction n with
  | zero => rfl
  | succ n ih =>
      rw [List.range_succ, List.map_append, List.sum_append, ih, sum_range_succ, List.map_singleton,
        List.sum_singleton]

/-- The depths of the tree are a complete code of the symbols that occur. -/
theorem tree_complete {leaves : List SymFreq} (hperm : leaves.Perm (occurring freq))
    (hmany : 2 < leaves.length) :
    (∀ i, 256 ≤ i → give (leaves.map SymFreq.sym)
      ((List.range leaves.length).map (treeDepths leaves)) (fun _ => 0) i = 0) ∧
    (∀ i < 256, 0 < give (leaves.map SymFreq.sym)
      ((List.range leaves.length).map (treeDepths leaves)) (fun _ => 0) i ↔ 0 < freq i) ∧
    kraft (give (leaves.map SymFreq.sym)
      ((List.range leaves.length).map (treeDepths leaves)) fun _ => 0) 255 256 = 2 ^ 255 := by
  have hsyms := hperm.map SymFreq.sym
  have hlen : ((List.range leaves.length).map (treeDepths leaves)).length =
      (leaves.map SymFreq.sym).length := by
    rw [List.length_map, List.length_range, List.length_map]
  have hle : leaves.length ≤ 256 := by
    rw [hperm.length_eq]
    exact occurring_length_le freq
  obtain ⟨hdepths, hsum⟩ := treeDepths_spec (by omega) hle
  have hvals : ∀ v ∈ (List.range leaves.length).map (treeDepths leaves), 1 ≤ v := by
    intro v hv
    obtain ⟨i, hi, rfl⟩ := List.mem_map.mp hv
    exact (hdepths i (List.mem_range.mp hi)).1
  obtain ⟨hinside, hcoded⟩ := give_coded (fun i => hsyms.mem_iff.trans mem_occurring) hlen.ge hvals
  refine ⟨hinside, hcoded, ?_⟩
  have hnodup := hsyms.nodup_iff.mpr (occurring_nodup freq)
  rw [kraft_give hnodup (fun s hs => (mem_occurring.mp (hsyms.mem_iff.mp hs)).1) hlen
    fun _ _ => rfl, List.map_map, sum_map_range, ← hsum]
  refine sum_congr rfl fun i hi => ?_
  have hone := (hdepths i (mem_range.mp hi)).1
  show share 255 (treeDepths leaves i) = _
  rw [share, if_neg (by omega)]

/-- **THE LENGTHS** that `build_code_lengths` hands out make up a prefix code of
    the symbols that occur, if the workspace was not needed or could be had. -/
theorem buildCodeLengths_good {a : TreeAlloc} {lengths : CodeLengths}
    (ha : (occurring freq).length ≤ 2 ∨ a.all = true)
    (h : buildCodeLengths a freq = some lengths) : GoodLengths (fun i => 0 < freq i) lengths := by
  rw [buildCodeLengths] at h
  by_cases hfew : (occurring freq).length ≤ 2
  · rw [if_pos hfew] at h
    rw [← Option.some.inj h]
    exact few_good hfew
  rw [if_neg hfew, if_pos (ha.resolve_left hfew)] at h
  have hperm : ((occurring freq).insertionSort fun x y => x.freq ≤ y.freq).Perm (occurring freq) :=
    List.perm_insertionSort _ _
  generalize (occurring freq).insertionSort (fun x y => x.freq ≤ y.freq) = leaves at h hperm
  have hmany : 2 < leaves.length := by
    rw [hperm.length_eq]
    omega
  obtain ⟨hinside, hcoded, hkraft⟩ := tree_complete hperm hmany
  obtain ⟨hshort, hin, hsame, hfits⟩ := limitLengths_good (k := 240) hinside hkraft h
  exact ⟨hshort, hin, fun i hi => (hsame i hi).trans (hcoded i hi), hfits⟩

/-- Without the workspace no symbol gets a code. -/
theorem buildCodeLengths_failed {a : TreeAlloc} (hmany : ¬ (occurring freq).length ≤ 2)
    (ha : a.all = false) : buildCodeLengths a freq = some fun _ => 0 := by
  rw [buildCodeLengths, if_neg hmany, ha]
  rfl

end Build

end Zupt.VaptVupt
