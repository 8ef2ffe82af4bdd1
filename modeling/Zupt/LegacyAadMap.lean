import Zupt.Frame

/-! # The map of a legacy disk archive

    A frame of an old disk archive is authenticated under its place among all
    frames.  A reference only knows where the frame starts, so the reader first
    scans the frames and keeps, in the order of the file, where each data frame
    starts and which one it is; a binary search then answers for a reference. -/

namespace Zupt.LegacyAadMap

open Zupt.Stream Zupt.Frame

/-! ## Where a predicate turns -/

/-- Halve `[left, right)` until only the first index where `below` fails is left. -/
def lowerBound {n : Nat} (below : Fin n → Bool) (left right : Nat) (hright : right ≤ n) : Nat :=
  if hlt : left < right then
    if below ⟨left + (right - left) / 2, by omega⟩ then
      lowerBound below (left + (right - left) / 2 + 1) right hright
    else lowerBound below left (left + (right - left) / 2) (by omega)
  else left
termination_by right - left

/-- **THE TURN**: all indices in front of the result are below, none behind it is. -/
theorem lowerBound_spec {n : Nat} {below : Fin n → Bool}
    (hmono : ∀ i j, i ≤ j → below j = true → below i = true) {left right : Nat} (hright : right ≤ n)
    (hle : left ≤ right) :
    left ≤ lowerBound below left right hright ∧ lowerBound below left right hright ≤ right ∧
      (∀ i : Fin n, left ≤ i.val → i.val < lowerBound below left right hright → below i = true) ∧
      ∀ i : Fin n, lowerBound below left right hright ≤ i.val → i.val < right → below i = false := by
  fun_induction lowerBound below left right hright with
  | case1 left right hright hlt hbelow ih =>
      obtain ⟨hl, hr, hfront, hback⟩ := ih (by omega)
      refine ⟨by omega, hr, ?_, hback⟩
      intro i hi hlow
      by_cases hmid : left + (right - left) / 2 + 1 ≤ i.val
      · exact hfront i hmid hlow
      · exact hmono i _ (Fin.le_def.mpr (show i.val ≤ left + (right - left) / 2 by omega)) hbelow
  | case2 left right hright hlt hbelow ih =>
      obtain ⟨hl, hr, hfront, hback⟩ := ih (by omega)
      refine ⟨hl, by omega, hfront, ?_⟩
      intro i hi hlow
      by_cases hmid : i.val < left + (right - left) / 2
      · exact hback i hi hmid
      · cases hi' : below i with
        | false => rfl
        | true =>
            have hle : (⟨left + (right - left) / 2, by omega⟩ : Fin n) ≤ i :=
              Fin.le_def.mpr (show left + (right - left) / 2 ≤ i.val by omega)
            exact absurd (hmono _ i hle hi') hbelow
  | case3 left right hright hlt =>
      exact ⟨Nat.le_refl _, hle, fun i hi hlow => by omega, fun i hi hlow => by omega⟩

/-! ## The map -/

/-- `zupt_legacy_disk_aad_entry_t`. -/
structure AadEntry where
  offset : UInt64
  aadSeq : UInt64
  deriving DecidableEq

/-- `zupt_legacy_disk_aad_map_t`; the entries fit into what is allocated. -/
@[ext]
structure AadMap where
  entries : List AadEntry
  capacity : Nat
  room : entries.length ≤ capacity
  deriving DecidableEq

namespace AadMap

/-- `map->count`. -/
def count (m : AadMap) : Nat := m.entries.length

/-- A map of zero bytes: `{0}`, and what `zupt_legacy_disk_aad_map_free` leaves. -/
def zeroed : AadMap := ⟨[], 0, Nat.le_refl _⟩

/-- The write behind the last entry. -/
def push (m : AadMap) (e : AadEntry) (h : m.count < m.capacity) : AadMap where
  entries := m.entries ++ [e]
  capacity := m.capacity
  room := by
    rw [List.length_append]
    exact h

/-- `map->capacity ? map->capacity * 2u : 64u`. -/
def newCapacity (capacity : Nat) : Nat := if capacity ≠ 0 then capacity * 2 % 2 ^ 64 else 64

/-- Room for one more entry.  Where all cells are taken there are twice as many, or
    64, but never more than there are frames; `reallocs` says which requests are
    granted. -/
def reserve (reallocs : Nat → Bool) (blockCount : UInt32) (m : AadMap)
    (h : m.count < blockCount.toNat) :
    Result {m' : AadMap // m'.entries = m.entries ∧ m'.count < m'.capacity} :=
  if hfull : m.count = m.capacity then
    if hgrow : newCapacity m.capacity < m.capacity ∨ (2 ^ 64 - 1) / 16 < newCapacity m.capacity then
      .error .overflow
    else
      have hmore : m.count < min (newCapacity m.capacity) blockCount.toNat := by
        by_cases hsome : m.capacity ≠ 0
        · rw [newCapacity, if_pos hsome] at hgrow ⊢
          omega
        · rw [newCapacity, if_neg hsome]
          omega
      if reallocs (min (newCapacity m.capacity) blockCount.toNat) then
        .ok ⟨⟨m.entries, min (newCapacity m.capacity) blockCount.toNat, Nat.le_of_lt hmore⟩, rfl, hmore⟩
      else .error .nomem
  else .ok ⟨m, rfl, Nat.lt_of_le_of_ne m.room hfull⟩

/-- `zupt_legacy_disk_aad_map_lookup`. -/
def lookup (m : AadMap) (offset : UInt64) : Option UInt64 :=
  let left := lowerBound (fun i => decide ((m.entries.get i).offset < offset)) 0 m.entries.length
    (Nat.le_refl _)
  if h : left < m.entries.length then
    if m.entries[left].offset ≠ offset then none else some m.entries[left].aadSeq
  else none

/-- The entries stand in the order of the file. -/
def Sorted (m : AadMap) : Prop := m.entries.Pairwise fun a b => a.offset < b.offset

theorem Sorted.get_lt {m : AadMap} (hs : m.Sorted) {i j : Fin m.entries.length} (h : i < j) :
    (m.entries.get i).offset < (m.entries.get j).offset :=
  List.pairwise_iff_get.mp hs i j h

/-- **LOOKUP** finds what is in a sorted map, and nothing else. -/
theorem lookup_eq_some_iff {m : AadMap} (hs : m.Sorted) (offset aadSeq : UInt64) :
    m.lookup offset = some aadSeq ↔ ⟨offset, aadSeq⟩ ∈ m.entries := by
  have hmono : ∀ i j : Fin m.entries.length, i ≤ j →
      decide ((m.entries.get j).offset < offset) = true →
        decide ((m.entries.get i).offset < offset) = true := by
    intro i j hij hj
    rcases Fin.lt_or_eq_of_le hij with hlt | rfl
    · exact decide_eq_true (UInt64.lt_trans (hs.get_lt hlt) (of_decide_eq_true hj))
    · exact hj
  obtain ⟨-, -, hfront, hback⟩ :=
    lowerBound_spec hmono (Nat.le_refl m.entries.length) (Nat.zero_le _)
  rw [lookup]
  generalize lowerBound (fun i => decide ((m.entries.get i).offset < offset)) 0 m.entries.length
    (Nat.le_refl _) = left at hfront hback ⊢
  constructor
  · intro h
    split at h
    · rename_i hlt
      split at h
      · cases h
      · rename_i hsame
        rw [← not_not.mp hsame, ← Option.some.inj h]
        exact List.getElem_mem hlt
    · cases h
  · intro hmem
    obtain ⟨i, hi⟩ := List.mem_iff_get.mp hmem
    have hoff : (m.entries.get i).offset = offset := by rw [hi]
    -- the entry is neither in front of the turn nor behind the first one there
    have hle : left ≤ i.val := by
      by_contra hlt
      have hbelow := of_decide_eq_true (hfront i (Nat.zero_le _) (by omega))
      rw [hoff] at hbelow
      exact UInt64.lt_irrefl _ hbelow
    have hlt : left < m.entries.length := Nat.lt_of_le_of_lt hle i.isLt
    have hhere : i = ⟨left, hlt⟩ := by
      by_contra hne
      have hbefore : (⟨left, hlt⟩ : Fin m.entries.length) < i :=
        Fin.lt_def.mpr (Nat.lt_of_le_of_ne hle fun heq => hne (Fin.ext heq.symm))
      have habove := of_decide_eq_false (hback ⟨left, hlt⟩ (Nat.le_refl _) hlt)
      have hless := hs.get_lt hbefore
      rw [hoff] at hless
      exact habove hless
    subst hhere
    have hget : m.entries[left] = ⟨offset, aadSeq⟩ := hi
    rw [dif_pos hlt, hget, if_neg (not_not.mpr rfl)]

end AadMap

/-! ## The scan -/

/-- The loop of the builder with `left` frames to go. -/
def scan (reallocs : Nat → Bool) (blockCount : UInt32) :
    (left sequence : Nat) → sequence + left = blockCount.toNat →
      (m : AadMap) → m.count ≤ sequence → ReadM AadMap
  | 0, _, _, m, _ => pure m
  | left + 1, sequence, hend, m, hcount => do
      let offset ← ftello
      ReadM.require (offset < 2 ^ 63) .io
      let block ← readBlock
      if block.blockType = blockData then
        let more ← inMemory (m.reserve reallocs blockCount (by omega))
        scan reallocs blockCount left (sequence + 1) (by omega)
          (more.val.push ⟨UInt64.ofNat offset, UInt64.ofNat sequence⟩ more.property.2) (by
            rw [AadMap.count, AadMap.push, List.length_append, more.property.1]
            exact Nat.succ_le_succ hcount)
      else if block.blockType = blockDedupRef then
        scan reallocs blockCount left (sequence + 1) (by omega) m (Nat.le_succ_of_le hcount)
      else ReadM.fail .corrupt

/-- `zupt_legacy_disk_aad_map_build` on a stream that stands at `pos` and a map that
    holds `before`: the result, the map, and where the stream stands. -/
def legacyDiskAadMapBuild (reallocs : Nat → Bool) (firstBlockOffset : UInt64) (blockCount : UInt32)
    (before : AadMap) (f : Bytes) (pos : Nat) : Result Unit × AadMap × Nat :=
  -- the arguments are refused before the map is cleared
  if 2 ^ 63 - 1 < firstBlockOffset.toNat then (.error .invalid, before, pos)
  else if 2 ^ 63 ≤ pos then (.error .io, .zeroed, pos)
  else
    match (scan reallocs blockCount blockCount.toNat 0 (Nat.zero_add _) .zeroed
        (Nat.le_refl _)).run f firstBlockOffset.toNat with
    | (.ok m, _) => (.ok (), m, pos)
    | (.error e, _) => (.error e, .zeroed, pos)

/-! ## What the frames are -/

/-- Where the stream stands behind `k` frames. -/
def skipFrames (f : Bytes) (first : Nat) : (k : Nat) → Option Nat
  | 0 => some first
  | k + 1 =>
      match skipFrames f first k with
      | none => none
      | some pos =>
          match readBlock.run f pos with
          | (.ok _, pos') => some pos'
          | (.error _, _) => none

/-- The `k`-th frame from `first` on: where it starts, and what it is. -/
def nthFrame (f : Bytes) (first k : Nat) : Option (Nat × Block) :=
  match skipFrames f first k with
  | none => none
  | some pos =>
      match readBlock.run f pos with
      | (.ok b, _) => some (pos, b)
      | (.error _, _) => none

theorem nthFrame_of {f : Bytes} {first k pos pos' : Nat} {b : Block}
    (hskip : skipFrames f first k = some pos) (hread : readBlock.run f pos = (.ok b, pos')) :
    nthFrame f first k = some (pos, b) ∧ skipFrames f first (k + 1) = some pos' := by
  constructor
  · simp only [nthFrame, hskip, hread]
  · simp only [skipFrames, hskip, hread]

/-- What the scan knows of the first `sequence` frames when it stands at `pos`. -/
structure Scanned (f : Bytes) (first sequence pos : Nat) (m : AadMap) : Prop where
  here : skipFrames f first sequence = some pos
  sorted : m.Sorted
  behind : ∀ e ∈ m.entries, e.offset.toNat < pos
  exact : ∀ offset aadSeq : UInt64, ⟨offset, aadSeq⟩ ∈ m.entries ↔
    aadSeq.toNat < sequence ∧
      ∃ b, nthFrame f first aadSeq.toNat = some (offset.toNat, b) ∧ b.blockType = blockData

theorem scanned_start (f : Bytes) (first : Nat) : Scanned f first 0 first .zeroed where
  here := rfl
  sorted := List.Pairwise.nil
  behind := fun _ h => nomatch h
  exact := fun _ _ => ⟨fun h => (nomatch h), fun h => absurd h.1 (Nat.not_lt_zero _)⟩

variable {f : Bytes} {first sequence pos pos' : Nat} {m : AadMap} {b : Block}

/-- A frame that is no data leaves the map as it is. -/
theorem Scanned.skip (h : Scanned f first sequence pos m)
    (hread : readBlock.run f pos = (.ok b, pos')) (htype : b.blockType ≠ blockData) :
    Scanned f first (sequence + 1) pos' m := by
  obtain ⟨hnth, hnext⟩ := nthFrame_of h.here hread
  refine ⟨hnext, h.sorted, ?_, ?_⟩
  · intro e he
    exact Nat.lt_trans (h.behind e he) (readBlock_advances hread).1
  · intro offset aadSeq
    rw [h.exact]
    constructor
    · rintro ⟨hlt, hframe⟩
      exact ⟨Nat.lt_succ_of_lt hlt, hframe⟩
    · rintro ⟨hlt, b', hframe, hdata⟩
      rcases Nat.lt_succ_iff_lt_or_eq.mp hlt with hold | hlast
      · exact ⟨hold, b', hframe, hdata⟩
      · rw [hlast, hnth] at hframe
        obtain ⟨-, rfl⟩ := Prod.mk.inj (Option.some.inj hframe)
        exact absurd hdata htype

/-- A data frame is entered behind the others. -/
theorem Scanned.enter (h : Scanned f first sequence pos m)
    (hread : readBlock.run f pos = (.ok b, pos')) (htype : b.blockType = blockData)
    (hpos : pos < 2 ^ 63) (hseq : sequence < 2 ^ 32) {m' : AadMap}
    (hm : m'.entries = m.entries ++ [⟨UInt64.ofNat pos, UInt64.ofNat sequence⟩]) :
    Scanned f first (sequence + 1) pos' m' := by
  obtain ⟨hnth, hnext⟩ := nthFrame_of h.here hread
  have hoff : (UInt64.ofNat pos).toNat = pos := UInt64.toNat_ofNat_of_lt' (by show _ < 2 ^ 64; omega)
  have haad : (UInt64.ofNat sequence).toNat = sequence :=
    UInt64.toNat_ofNat_of_lt' (by show _ < 2 ^ 64; omega)
  refine ⟨hnext, ?_, ?_, ?_⟩
  · rw [AadMap.Sorted, hm, List.pairwise_append]
    refine ⟨h.sorted, List.pairwise_singleton _ _, ?_⟩
    intro x hx y hy
    rw [List.mem_singleton.mp hy, UInt64.lt_iff_toNat_lt, hoff]
    exact h.behind x hx
  · intro e he
    have hadv := (readBlock_advances hread).1
    rw [hm] at he
    rcases List.mem_append.mp he with hold | hnew
    · exact Nat.lt_trans (h.behind e hold) hadv
    · rw [List.mem_singleton.mp hnew, hoff]
      exact hadv
  · intro offset aadSeq
    rw [hm, List.mem_append, h.exact, List.mem_singleton, AadEntry.mk.injEq]
    constructor
    · rintro (⟨hlt, hframe⟩ | ⟨rfl, rfl⟩)
      · exact ⟨Nat.lt_succ_of_lt hlt, hframe⟩
      · rw [hoff, haad]
        exact ⟨Nat.lt_succ_self _, b, hnth, htype⟩
    · rintro ⟨hlt, b', hframe, hdata⟩
      rcases Nat.lt_succ_iff_lt_or_eq.mp hlt with hold | hlast
      · exact Or.inl ⟨hold, b', hframe, hdata⟩
      · rw [hlast, hnth] at hframe
        obtain ⟨hstart, -⟩ := Prod.mk.inj (Option.some.inj hframe)
        refine Or.inr ⟨UInt64.toNat_inj.mp ?_, UInt64.toNat_inj.mp ?_⟩
        · rw [hoff, hstart]
        · rw [haad, hlast]

/-- **THE SCAN** knows all frames it has passed. -/
theorem scan_scanned {reallocs : Nat → Bool} {blockCount : UInt32} {left : Nat}
    {hend : sequence + left = blockCount.toNat} {hcount : m.count ≤ sequence}
    (h : Scanned f first sequence pos m) {m' : AadMap}
    (hrun : (scan reallocs blockCount left sequence hend m hcount).run f pos = (.ok m', pos')) :
    Scanned f first blockCount.toNat pos' m' := by
  induction left generalizing sequence pos m with
  | zero =>
      obtain ⟨hm, rfl⟩ := Prod.mk.inj hrun
      obtain rfl := Except.ok.inj hm
      rw [← hend]
      exact h
  | succ left ih =>
      have hroom := blockCount.toNat_lt
      rw [scan] at hrun
      obtain ⟨offset, p₁, htell, hrun⟩ := ReadM.bind_ok hrun
      obtain ⟨hoffset, rfl⟩ := Prod.mk.inj htell
      obtain rfl := Except.ok.inj hoffset
      obtain ⟨_, p₂, hreq, hrun⟩ := ReadM.bind_ok hrun
      have hpos := ReadM.of_require hreq
      obtain rfl : pos = p₂ := by
        rw [ReadM.require_of hpos] at hreq
        exact (Prod.mk.inj hreq).2
      obtain ⟨block, p₃, hread, hrun⟩ := ReadM.bind_ok hrun
      by_cases hdata : block.blockType = blockData
      · rw [if_pos hdata] at hrun
        obtain ⟨more, p₄, hmore, hrun⟩ := ReadM.bind_ok hrun
        obtain ⟨-, rfl⟩ := Prod.mk.inj hmore
        exact ih (h.enter hread hdata hpos (by omega)
          (congrArg (· ++ _) more.property.1)) hrun
      · rw [if_neg hdata] at hrun
        by_cases hdedup : block.blockType = blockDedupRef
        · rw [if_pos hdedup] at hrun
          exact ih (h.skip hread hdata) hrun
        · rw [if_neg hdedup] at hrun
          exact nomatch congrArg Prod.fst hrun

/-- **THE MAP IS EXACT**: a reference is answered with `k` where the `k`-th frame starts
    there and is data, and with nothing anywhere else; the stream is put back, and
    what fails leaves the map a reader starts with. -/
theorem legacyDiskAadMap_exact (reallocs : Nat → Bool) (first : UInt64) (blockCount : UInt32)
    (before : AadMap) (f : Bytes) (pos : Nat) {result : Result Unit} {m : AadMap} {pos' : Nat}
    (hbuild : legacyDiskAadMapBuild reallocs first blockCount before f pos = (result, m, pos')) :
    (result = .ok () → ∀ offset k : UInt64, m.lookup offset = some k ↔
      k.toNat < blockCount.toNat ∧
        ∃ b, nthFrame f first.toNat k.toNat = some (offset.toNat, b) ∧ b.blockType = blockData) ∧
    pos' = pos ∧
    (result ≠ .ok () → (first.toNat < 2 ^ 63 ∨ before = .zeroed) → m = .zeroed) := by
  rw [legacyDiskAadMapBuild] at hbuild
  by_cases hfirst : 2 ^ 63 - 1 < first.toNat
  · rw [if_pos hfirst] at hbuild
    obtain ⟨rfl, hrest⟩ := Prod.mk.inj hbuild
    obtain ⟨rfl, rfl⟩ := Prod.mk.inj hrest
    refine ⟨fun h => (nomatch h), rfl, ?_⟩
    rintro - (hlt | hzero)
    · omega
    · exact hzero
  rw [if_neg hfirst] at hbuild
  by_cases hpos : 2 ^ 63 ≤ pos
  · rw [if_pos hpos] at hbuild
    obtain ⟨rfl, hrest⟩ := Prod.mk.inj hbuild
    obtain ⟨rfl, rfl⟩ := Prod.mk.inj hrest
    exact ⟨fun h => (nomatch h), rfl, fun _ _ => rfl⟩
  rw [if_neg hpos] at hbuild
  cases hscan : (scan reallocs blockCount blockCount.toNat 0 (Nat.zero_add _) .zeroed
      (Nat.le_refl _)).run f first.toNat with
  | mk r mid =>
      rw [hscan] at hbuild
      cases r with
      | error e =>
          obtain ⟨rfl, hrest⟩ := Prod.mk.inj hbuild
          obtain ⟨rfl, rfl⟩ := Prod.mk.inj hrest
          exact ⟨fun h => (nomatch h), rfl, fun _ _ => rfl⟩
      | ok made =>
          obtain ⟨rfl, hrest⟩ := Prod.mk.inj hbuild
          obtain ⟨rfl, rfl⟩ := Prod.mk.inj hrest
          have hall := scan_scanned (scanned_start f first.toNat) hscan
          refine ⟨fun _ offset k => ?_, rfl, fun hne => absurd rfl hne⟩
          rw [AadMap.lookup_eq_some_iff hall.sorted]
          exact hall.exact offset k

/-- Three empty frames: data, a reference, and data. -/
def threeFrames : Bytes :=
  encodeFrame blockData codecStore 0 0 0 [] ++ (encodeFrame blockDedupRef codecStore 0 0 0 []
    ++ encodeFrame blockData codecStore 0 0 0 [])

/-- The third frame is answered with 2, the reference with nothing. -/
theorem legacyDiskAadMap_exact_run :
    (legacyDiskAadMapBuild (fun _ => true) 0 3 .zeroed threeFrames 5).2.1.lookup 34 = some 2 ∧
      (legacyDiskAadMapBuild (fun _ => true) 0 3 .zeroed threeFrames 5).2.1.lookup 17 = none := by
  have hok : (legacyDiskAadMapBuild (fun _ => true) 0 3 .zeroed threeFrames 5).1 = .ok () := by
    decide
  have hall := (legacyDiskAadMap_exact (fun _ => true) 0 3 .zeroed threeFrames 5 rfl).1 hok
  constructor
  · have hthird : (nthFrame threeFrames 0 2).any fun e => e.1 = 34 ∧ e.2.blockType = blockData := by
      decide
    refine (hall 34 2).mpr ⟨by decide, ?_⟩
    show ∃ b, nthFrame threeFrames 0 2 = some (34, b) ∧ b.blockType = blockData
    cases hframe : nthFrame threeFrames 0 2 with
    | none =>
        rw [hframe] at hthird
        cases hthird
    | some e =>
        rw [hframe] at hthird
        obtain ⟨hstart, hdata⟩ := of_decide_eq_true hthird
        exact ⟨e.2, by rw [← hstart], hdata⟩
  · refine Option.eq_none_iff_forall_ne_some.mpr fun k hk => ?_
    obtain ⟨hlt, b, hframe, hdata⟩ := (hall 17 k).mp hk
    have hnone : ∀ j < 3, (nthFrame threeFrames 0 j).all fun e =>
        e.1 ≠ 17 ∨ e.2.blockType ≠ blockData := by
      decide
    have hthis := hnone k.toNat hlt
    rw [show nthFrame threeFrames 0 k.toNat = _ from hframe] at hthis
    rcases of_decide_eq_true hthis with hne | hne
    · exact hne rfl
    · exact hne hdata

end Zupt.LegacyAadMap
