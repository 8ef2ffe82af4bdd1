import Zupt.Blocks
import Zupt.Memory
import Zupt.Transform

/-! # XXH64 of the codec

    `vv_xxh64.c`: the checksum of a frame in one call, and the same hash fed
    piece by piece.  A streaming state stands for the bytes it was fed
    (`HashingFrom`): its lanes are those after all whole 32-byte stripes, and its
    buffer holds what is left.  So the pieces do not matter. -/

namespace Zupt.VaptVupt

open Zupt.Blocks Zupt.LittleEndian Zupt.Memory Zupt.Transform

/-- The lanes both forms of the hash start from. -/
def startLanes (seed : UInt64) : Lanes := ⟨seed + P1 + P2, seed + P2, seed, seed - P1⟩

/-- The lanes mixed into one accumulator. -/
def mixLanes (v : Lanes) : UInt64 :=
  merge (merge (merge (merge (rotl64 v.v1 1 + rotl64 v.v2 7 + rotl64 v.v3 12 + rotl64 v.v4 18)
    v.v1) v.v2) v.v3) v.v4

/-- `while (remaining >= 4)`. -/
def halfWords : (turns : Nat) → UInt64 → Bytes → UInt64 × Bytes
  | 0, h, p => (h, p)
  | turns + 1, h, p =>
      halfWords turns (rotl64 (h ^^^ (UInt64.ofNat (le32Get p).toNat * P1)) 23 * P2 + P3)
        (p.drop 4)

/-- The three loops over the bytes behind the last stripe, and the avalanche. -/
def finishHash (h : UInt64) (p : Bytes) : UInt64 :=
  let w := words (p.length / 8) h p
  let hw := halfWords (w.2.length / 4) w.1 w.2
  aval (tailBytes hw.1 hw.2)

/-- `vv_xxh64`. -/
def xxh64 (data : Bytes) (seed : UInt64) : UInt64 :=
  if data.length = 0 then aval (seed + P5)
  else if 32 ≤ data.length then
    let after := stripes (data.length / 32) (startLanes seed) data
    finishHash (mixLanes after.1 + UInt64.ofNat data.length) after.2
  else finishHash (seed + P5 + UInt64.ofNat data.length) data

/-- `vv_xxh64_state_t`. -/
structure Xxh64State where
  v : Lanes
  total_len : UInt64
  buf : Mem UInt8
  buf_len : Nat
  seed : UInt64

/-- `vv_xxh64_init`, which leaves the buffer as it is. -/
def xxh64Init (s : Xxh64State) (seed : UInt64) : Xxh64State :=
  { s with v := startLanes seed, total_len := 0, buf_len := 0, seed := seed }

/-- The part of `vv_xxh64_update` behind the partial buffer: the whole stripes
    of the input, and the bytes behind them into the buffer. -/
def updateStripes (s : Xxh64State) (p : Bytes) : Xxh64State :=
  let after := stripes (p.length / 32) s.v p
  if 0 < after.2.length then
    { s with v := after.1, buf := write s.buf s.buf_len after.2,
             buf_len := s.buf_len + after.2.length }
  else { s with v := after.1 }

/-- `vv_xxh64_update`. -/
def xxh64Update (s : Xxh64State) (data : Bytes) : Xxh64State :=
  if data.length = 0 then s
  else
    let s := { s with total_len := s.total_len + UInt64.ofNat data.length }
    if 0 < s.buf_len then
      let fill := min (32 - s.buf_len) data.length
      let s := { s with buf := write s.buf s.buf_len (data.take fill),
                        buf_len := s.buf_len + fill }
      if s.buf_len < 32 then s
      else
        updateStripes { s with v := (stripes 1 s.v (read s.buf 0 32)).1, buf_len := 0 }
          (data.drop fill)
    else updateStripes s data

/-- `vv_xxh64_finalize`. -/
def xxh64Finalize (s : Xxh64State) : UInt64 :=
  let h := if 32 ≤ s.total_len then mixLanes s.v else s.seed + P5
  finishHash (h + s.total_len) (read s.buf 0 s.buf_len)

/-! ## Stripes -/

/-- The lanes after one stripe. -/
def stripe (v : Lanes) (p : Bytes) : Lanes :=
  ⟨xround v.v1 (le64Get p), xround v.v2 (le64Get (p.drop 8)), xround v.v3 (le64Get (p.drop 16)),
    xround v.v4 (le64Get (p.drop 24))⟩

theorem stripes_rest (turns : Nat) (v : Lanes) (p : Bytes) :
    (stripes turns v p).2 = p.drop (32 * turns) := by
  induction turns generalizing v p with
  | zero => rfl
  | succ turns ih =>
      have hsum : 32 + 32 * turns = 32 * (turns + 1) := by omega
      rw [stripes, ih, List.drop_drop, hsum]

theorem le64Get_append {p q : Bytes} (h : 8 ≤ p.length) : le64Get (p ++ q) = le64Get p := by
  rw [le64Get, le64Get, List.take_append_of_le_length h]

/-- A stripe reads no further than it goes. -/
theorem stripe_take (v : Lanes) (p : Bytes) : stripe v (p.take 32) = stripe v p := by
  have hword : ∀ k, k + 8 ≤ 32 → le64Get ((p.take 32).drop k) = le64Get (p.drop k) := by
    intro k hk
    rw [le64Get, le64Get, List.drop_take, List.take_take, Nat.min_eq_left (by omega)]
  have hfirst := hword 0 (by omega)
  rw [List.drop_zero, List.drop_zero] at hfirst
  rw [stripe, stripe, hfirst, hword 8 (by omega), hword 16 (by omega), hword 24 (by omega)]

theorem stripes_eq_blocks (turns : Nat) (v : Lanes) (p : Bytes) :
    (stripes turns v p).1 = blocks 32 stripe turns v p := by
  induction turns generalizing v p with
  | zero => rfl
  | succ turns ih =>
      rw [stripes, ih, blocks, stripe_take]
      rfl

/-- The lanes after the whole stripes of `data`. -/
def lanesOf (v : Lanes) (data : Bytes) : Lanes := (stripes (data.length / 32) v data).1

/-! ## What a state stands for -/

/-- A state that was started from `seed` and fed `data`: the whole stripes of it went
    through the lanes, and the rest of it is in the buffer. -/
structure HashingFrom (seed : UInt64) (s : Xxh64State) (data : Bytes) : Prop where
  total : s.total_len = UInt64.ofNat data.length
  seeded : s.seed = seed
  fed : absorb 32 stripe (startLanes seed, []) data = (s.v, read s.buf 0 s.buf_len)
  short : s.buf_len < 32

section From

variable {seed : UInt64} {s : Xxh64State} {data : Bytes}

theorem hashingFrom_init (s : Xxh64State) (seed : UInt64) : HashingFrom seed (xxh64Init s seed) [] where
  total := rfl
  seeded := rfl
  fed := rfl
  short := Nat.succ_pos 31

/-- The whole stripes of a piece, fed to a state with an empty buffer. -/
theorem updateStripes_fed (hempty : s.buf_len = 0) (p : Bytes) :
    absorb 32 stripe (s.v, []) p =
        ((updateStripes s p).v, read (updateStripes s p).buf 0 (updateStripes s p).buf_len) ∧
      (updateStripes s p).buf_len < 32 := by
  have hbulk := absorb_bulk (f := stripe) (Nat.succ_pos 31) s.v p
  rw [← stripes_eq_blocks, ← stripes_rest (p.length / 32) s.v p] at hbulk
  have hrest : (stripes (p.length / 32) s.v p).2.length < 32 := by
    rw [stripes_rest, List.length_drop]
    omega
  rw [hbulk, updateStripes]
  by_cases hpos : 0 < (stripes (p.length / 32) s.v p).2.length
  · rw [if_pos hpos]
    dsimp only
    rw [hempty, Nat.zero_add, read_write]
    exact ⟨rfl, hrest⟩
  · rw [if_neg hpos]
    dsimp only
    rw [hempty, read_zero, List.eq_nil_of_length_eq_zero (Nat.eq_zero_of_not_pos hpos)]
    exact ⟨rfl, Nat.succ_pos 31⟩

/-- **ONE UPDATE** feeds a state the new bytes. -/
theorem update_fed (hshort : s.buf_len < 32) (new : Bytes) :
    absorb 32 stripe (s.v, read s.buf 0 s.buf_len) new =
        ((xxh64Update s new).v, read (xxh64Update s new).buf 0 (xxh64Update s new).buf_len) ∧
      (xxh64Update s new).buf_len < 32 := by
  rw [xxh64Update]
  by_cases hnew : new.length = 0
  · rw [if_pos hnew, List.eq_nil_of_length_eq_zero hnew]
    exact ⟨rfl, hshort⟩
  rw [if_neg hnew]
  dsimp only
  by_cases hbuf : 0 < s.buf_len
  swap
  · -- nothing is pending: the stripes start with the piece
    have hempty : s.buf_len = 0 := by omega
    rw [if_neg hbuf, hempty, read_zero]
    exact updateStripes_fed (s := { s with total_len := s.total_len + _, buf_len := 0 }) rfl new
  rw [if_pos hbuf]
  generalize hfill : min (32 - s.buf_len) new.length = fill
  have htake : (new.take fill).length = fill := by
    rw [List.length_take]
    omega
  -- the buffer after the pending bytes were topped up
  have hread : read (write s.buf s.buf_len (new.take fill)) 0 (s.buf_len + fill)
      = read s.buf 0 s.buf_len ++ new.take fill := by
    have := read_write_append s.buf 0 s.buf_len (new.take fill)
    rwa [Nat.zero_add, htake] at this
  by_cases hfull : s.buf_len + fill < 32
  · rw [if_pos hfull]
    have hall : new.take fill = new := List.take_of_length_le (by omega)
    rw [hall] at hread
    dsimp only
    rw [hall, hread]
    exact ⟨absorb_short (by rw [read_length]; omega), hfull⟩
  · rw [if_neg hfull]
    have h32 : s.buf_len + fill = 32 := by omega
    rw [h32] at hread
    have hreach : 32 ≤ (read s.buf 0 s.buf_len).length + new.length := by
      rw [read_length]
      omega
    have htop := absorb_top (f := stripe) (s := s.v) (by rw [read_length]; exact hshort) hreach
    rw [read_length, show 32 - s.buf_len = fill by omega, ← hread] at htop
    have hstripe : (stripes 1 s.v (read (write s.buf s.buf_len (new.take fill)) 0 32)).1 =
        stripe s.v (read (write s.buf s.buf_len (new.take fill)) 0 32) := rfl
    rw [htop, hstripe]
    exact updateStripes_fed (s := ⟨_, _, _, 0, _⟩) rfl _

theorem updateStripes_kept (s : Xxh64State) (p : Bytes) :
    (updateStripes s p).total_len = s.total_len ∧ (updateStripes s p).seed = s.seed := by
  rw [updateStripes]
  split <;> exact ⟨rfl, rfl⟩

/-- An update counts the new bytes and keeps the seed. -/
theorem update_counts (s : Xxh64State) (new : Bytes) :
    (xxh64Update s new).total_len = s.total_len + UInt64.ofNat new.length ∧
      (xxh64Update s new).seed = s.seed := by
  rw [xxh64Update]
  by_cases hnew : new.length = 0
  · rw [if_pos hnew, hnew]
    exact ⟨(UInt64.add_zero _).symm, rfl⟩
  rw [if_neg hnew]
  dsimp only
  split
  · split
    · exact ⟨rfl, rfl⟩
    · exact updateStripes_kept _ _
  · exact updateStripes_kept _ _

theorem hashingFrom_update (h : HashingFrom seed s data) (new : Bytes) :
    HashingFrom seed (xxh64Update s new) (data ++ new) where
  total := by
    rw [(update_counts s new).1, h.total, List.length_append, UInt64.ofNat_add]
  seeded := (update_counts s new).2.trans h.seeded
  fed := by rw [absorb_append, h.fed, (update_fed h.short new).1]
  short := (update_fed h.short new).2

theorem finishHash_nil (h : UInt64) : finishHash h [] = aval h := by
  simp only [finishHash, List.length_nil, Nat.zero_div, words, halfWords, tailBytes]

/-- **THE PIECES DO NOT MATTER**: the hash of a state is the hash of the bytes
    it was fed. -/
theorem finalize_hashingFrom (h : HashingFrom seed s data) (hsize : data.length < 2 ^ 64) :
    xxh64Finalize s = xxh64 data seed := by
  have hfed := h.fed
  rw [absorb_bulk (Nat.succ_pos 31), ← stripes_eq_blocks] at hfed
  obtain ⟨hv, hbuf⟩ := Prod.mk.inj hfed
  have hle : 32 ≤ s.total_len ↔ 32 ≤ data.length := by
    rw [h.total, UInt64.le_iff_toNat_le, UInt64.toNat_ofNat_of_lt' hsize]
    rfl
  rw [xxh64Finalize, xxh64, ← hbuf, h.total, h.seeded, ← hv]
  by_cases h32 : 32 ≤ data.length
  · have hlen : data.length ≠ 0 := by omega
    rw [if_neg hlen, if_pos h32, if_pos (h.total ▸ hle.mpr h32)]
    dsimp only
    rw [stripes_rest]
  · -- no stripe was whole: the rest is all there is
    have hnone : data.length / 32 = 0 := by omega
    rw [if_neg (fun hlong => h32 (hle.mp (h.total ▸ hlong)))]
    by_cases hzero : data.length = 0
    · rw [if_pos hzero, List.eq_nil_of_length_eq_zero hzero, List.drop_nil, List.length_nil,
        finishHash_nil]
      exact congrArg aval (UInt64.add_zero _)
    · rw [if_neg hzero, if_neg h32, hnone, Nat.mul_zero, List.drop_zero]

/-- **STREAMING IS ONE CALL**: for every seed and every partition of a string that has a
    size, empty pieces included, and whatever the state held before `vv_xxh64_init`,
    the updates piece by piece leave the hash of the whole string. -/
theorem xxh64_streaming (junk : Xxh64State) (seed : UInt64) (pieces : List Bytes)
    (hsize : pieces.flatten.length < 2 ^ 64) :
    xxh64Finalize (pieces.foldl xxh64Update (xxh64Init junk seed)) = xxh64 pieces.flatten seed := by
  have hrun : ∀ (pieces : List Bytes) (s : Xxh64State) (data : Bytes), HashingFrom seed s data →
      HashingFrom seed (pieces.foldl xxh64Update s) (data ++ pieces.flatten) := by
    intro pieces
    induction pieces with
    | nil =>
        intro s data h
        rw [List.flatten_nil, List.append_nil]
        exact h
    | cons p pieces ih =>
        intro s data h
        rw [List.foldl_cons, List.flatten_cons, ← List.append_assoc]
        exact ih _ _ (hashingFrom_update h p)
  exact finalize_hashingFrom (hrun pieces _ [] (hashingFrom_init junk seed)) hsize

/-- Three bytes in two pieces, with an empty one between them. -/
theorem xxh64_streaming_abc :
    xxh64Finalize (([[97], [], [98, 99]] : List Bytes).foldl xxh64Update
      (xxh64Init ⟨⟨0, 0, 0, 0⟩, 0, fun _ => 0, 0, 0⟩ 7)) = xxh64 [97, 98, 99] 7 :=
  xxh64_streaming ⟨⟨0, 0, 0, 0⟩, 0, fun _ => 0, 0, 0⟩ 7 [[97], [], [98, 99]] (by decide)

end From

/-! ## From seed 0 -/

/-- A state that was fed `data`: the whole stripes of it went through the
    lanes, and the rest of it is in the buffer. -/
structure Hashing (s : Xxh64State) (data : Bytes) : Prop where
  total : s.total_len = UInt64.ofNat data.length
  seeded : s.seed = 0
  split : ∃ whole k, whole.length = 32 * k ∧ data = whole ++ read s.buf 0 s.buf_len ∧
    s.v = lanesOf (startLanes 0) whole
  short : s.buf_len < 32

theorem hashing_iff {s : Xxh64State} {data : Bytes} : Hashing s data ↔ HashingFrom 0 s data := by
  constructor
  · intro h
    obtain ⟨whole, k, hwhole, hdata, hv⟩ := h.split
    have hshort := h.short
    have hk : whole.length / 32 = k := by omega
    refine ⟨h.total, h.seeded, ?_, h.short⟩
    rw [hdata, absorb_append, absorb_blocks (Nat.succ_pos 31) k hwhole,
      absorb_short (by rw [List.length_nil, read_length]; omega), List.nil_append, hv, lanesOf, hk,
      stripes_eq_blocks]
  · intro h
    have hfed := h.fed
    rw [absorb_bulk (Nat.succ_pos 31)] at hfed
    obtain ⟨hv, hbuf⟩ := Prod.mk.inj hfed
    have htake : (data.take (32 * (data.length / 32))).length = 32 * (data.length / 32) := by
      rw [List.length_take]
      omega
    have hk : (data.take (32 * (data.length / 32))).length / 32 = data.length / 32 := by omega
    have hblocks := blocks_append (f := stripe) (s := startLanes 0)
      (q := data.drop (32 * (data.length / 32))) _ (Nat.le_of_eq htake.symm)
    rw [List.take_append_drop] at hblocks
    refine ⟨h.total, h.seeded, ⟨_, _, htake, ?_, ?_⟩, h.short⟩
    · rw [← hbuf, List.take_append_drop]
    · rw [lanesOf, hk, stripes_eq_blocks, ← hblocks, hv]

theorem hashing_init (s : Xxh64State) : Hashing (xxh64Init s 0) [] :=
  hashing_iff.mpr (hashingFrom_init s 0)

/-- **ONE UPDATE**: a state that stands for some bytes stands for them and the
    new ones afterwards. -/
theorem hashing_update {s : Xxh64State} {data : Bytes} (h : Hashing s data) (new : Bytes) :
    Hashing (xxh64Update s new) (data ++ new) :=
  hashing_iff.mpr (hashingFrom_update (hashing_iff.mp h) new)

theorem finalize_hashing {s : Xxh64State} {data : Bytes} (h : Hashing s data)
    (hsize : data.length < 2 ^ 64) : xxh64Finalize s = xxh64 data 0 :=
  finalize_hashingFrom (hashing_iff.mp h) hsize

end Zupt.VaptVupt
