import Zupt.Blocks
import Zupt.Memory
import Zupt.Mlkem.Sample

/-! # Keccak

    The permutation and the sponge of `zupt_keccak.c`.  What a context absorbs is a
    message in blocks of the rate (`Absorbing`), and what it yields is one byte after
    another, the permutation between them wherever the rate is used up.  So neither the
    pieces of the input nor those of the output can be told apart. -/

namespace Zupt.Keccak

open Zupt.Blocks Zupt.LittleEndian Zupt.Memory

/-! ## The permutation -/

/-- `KECCAK_RC`. -/
def keccakRc : List UInt64 :=
  [0x0000000000000001, 0x0000000000008082, 0x800000000000808A, 0x8000000080008000,
    0x000000000000808B, 0x0000000080000001, 0x8000000080008081, 0x8000000000008009,
    0x000000000000008A, 0x0000000000000088, 0x0000000080008009, 0x000000008000000A,
    0x000000008000808B, 0x800000000000008B, 0x8000000000008089, 0x8000000000008003,
    0x8000000000008002, 0x8000000000000080, 0x000000000000800A, 0x800000008000000A,
    0x8000000080008081, 0x8000000000008080, 0x0000000080000001, 0x8000000080008008]

/-- `KECCAK_ROT`. -/
def keccakRot : List Nat :=
  [0, 1, 62, 28, 27, 36, 44, 6, 55, 20, 3, 10, 43, 25, 39, 41, 45, 15, 21, 8, 18, 2, 61, 56, 14]

/-- `KECCAK_PI`. -/
def keccakPi : List Nat :=
  [0, 10, 20, 5, 15, 16, 1, 11, 21, 6, 7, 17, 2, 12, 22, 23, 8, 18, 3, 13, 14, 24, 9, 19, 4]

/-- `ROL64`. -/
def rol64 (x : UInt64) (n : Nat) : UInt64 :=
  if n ≠ 0 then (x <<< UInt64.ofNat n) ||| (x >>> UInt64.ofNat (64 - n)) else x

/-- `uint64_t st[25]`. -/
abbrev Lanes := List UInt64

/-- θ. -/
def theta (st : Lanes) : Lanes :=
  let bc := (List.range 5).map fun i => st.getD i 0 ^^^ st.getD (i + 5) 0 ^^^ st.getD (i + 10) 0 ^^^
    st.getD (i + 15) 0 ^^^ st.getD (i + 20) 0
  let t := (List.range 5).map fun i => bc.getD ((i + 4) % 5) 0 ^^^ rol64 (bc.getD ((i + 1) % 5) 0) 1
  (List.range 25).map fun k => st.getD k 0 ^^^ t.getD (k % 5) 0

/-- ρ and π. -/
def rhoPi (st : Lanes) : Lanes :=
  (List.range 25).foldl
    (fun tmp i => tmp.set (keccakPi.getD i 0) (rol64 (st.getD i 0) (keccakRot.getD i 0)))
    (List.replicate 25 0)

/-- χ. -/
def chi (tmp : Lanes) : Lanes :=
  (List.range 25).map fun k =>
    let j := k / 5 * 5
    let i := k % 5
    tmp.getD (j + i) 0 ^^^ ((~~~tmp.getD (j + (i + 1) % 5) 0) &&& tmp.getD (j + (i + 2) % 5) 0)

/-- A round of `keccakf`. -/
def keccakRound (st : Lanes) (rc : UInt64) : Lanes :=
  let st := chi (rhoPi (theta st))
  st.set 0 (st.getD 0 0 ^^^ rc)

/-- `keccakf`. -/
def keccakf (st : Lanes) : Lanes := keccakRc.foldl keccakRound st

/-! ## The sponge -/

/-- `zupt_keccak_ctx`. -/
structure KeccakCtx where
  st : Lanes
  buf : Mem UInt8
  rate : Nat
  pt : Nat
  dsuf : UInt8

/-- `keccak_init`. -/
def keccakInit (rate : Nat) (dsuf : UInt8) : KeccakCtx :=
  ⟨List.replicate 25 0, fun _ => 0, rate, 0, dsuf⟩

/-- A block of the rate, added to the lanes, and the permutation. -/
def absorbBlock (rate : Nat) (st : Lanes) (blk : Bytes) : Lanes :=
  keccakf ((List.range (rate / 8)).foldl
    (fun st k => st.set k (st.getD k 0 ^^^ le64Get (blk.drop (k * 8)))) st)

/-- A turn of `keccak_absorb`: a chunk goes into the buffer, and a full buffer into the
    lanes. -/
def absorbChunk (c : KeccakCtx) (chunk : Bytes) : KeccakCtx :=
  let buf := write c.buf c.pt chunk
  let pt := c.pt + chunk.length
  if pt = c.rate then
    { c with st := absorbBlock c.rate c.st (read buf 0 c.rate), buf := buf, pt := 0 }
  else { c with buf := buf, pt := pt }

/-- The loop of `keccak_absorb` over `data[i..len)`. -/
def absorbLoop : (turns : Nat) → KeccakCtx → Bytes → KeccakCtx
  | 0, c, _ => c
  | turns + 1, c, data =>
      if 0 < data.length then
        let avail := c.rate - c.pt
        let chunk := if data.length < avail then data.length else avail
        absorbLoop turns (absorbChunk c (data.take chunk)) (data.drop chunk)
      else c

/-- `keccak_absorb`. -/
def keccakAbsorb (c : KeccakCtx) (data : Bytes) : KeccakCtx := absorbLoop data.length c data

/-- `keccak_finalize`. -/
def keccakFinalize (c : KeccakCtx) : KeccakCtx :=
  let buf := Function.update c.buf c.pt c.dsuf
  let buf := write buf (c.pt + 1) (List.replicate (c.rate - c.pt - 1) 0)
  let buf := Function.update buf (c.rate - 1) (buf (c.rate - 1) ||| 0x80)
  { c with buf := buf, st := absorbBlock c.rate c.st (read buf 0 c.rate), pt := 0 }

/-- Byte `i` of the lanes. -/
def laneByte (st : Lanes) (i : Nat) : UInt8 :=
  (st.getD (i / 8) 0 >>> UInt64.ofNat (8 * (i % 8))).toUInt8

/-- The permutation, where the rate is used up. -/
def squeezeReady (c : KeccakCtx) : KeccakCtx :=
  if c.pt = c.rate then { c with st := keccakf c.st, pt := 0 } else c

/-- The loop of `keccak_squeeze` for `out[i..len)`. -/
def squeezeLoop : (turns : Nat) → KeccakCtx → (len : Nat) → Bytes × KeccakCtx
  | 0, c, _ => ([], c)
  | turns + 1, c, len =>
      if 0 < len then
        let c := squeezeReady c
        let avail := c.rate - c.pt
        let chunk := if len < avail then len else avail
        let out := (List.range chunk).map fun j => laneByte c.st (c.pt + j)
        let rest := squeezeLoop turns { c with pt := c.pt + chunk } (len - chunk)
        (out ++ rest.1, rest.2)
      else ([], c)

/-- `keccak_squeeze`: the bytes, and the context behind them. -/
def keccakSqueeze (c : KeccakCtx) (len : Nat) : Bytes × KeccakCtx := squeezeLoop len c len

/-- A number of calls of `keccak_squeeze`, and all bytes of them. -/
def squeezeAll : (lens : List Nat) → KeccakCtx → Bytes × KeccakCtx
  | [], c => ([], c)
  | len :: lens, c =>
      let first := keccakSqueeze c len
      let rest := squeezeAll lens first.2
      (first.1 ++ rest.1, rest.2)

/-- A message of one piece, and the output of one call. -/
def keccakOnce (rate : Nat) (dsuf : UInt8) (data : Bytes) (len : Nat) : Bytes :=
  (keccakSqueeze (keccakFinalize (keccakAbsorb (keccakInit rate dsuf) data)) len).1

/-- `zupt_sha3_256`. -/
def sha3_256 (data : Bytes) : Bytes := keccakOnce 136 0x06 data 32

/-- `zupt_sha3_512`. -/
def sha3_512 (data : Bytes) : Bytes := keccakOnce 72 0x06 data 64

/-- `zupt_shake128`. -/
def shake128 (data : Bytes) (olen : Nat) : Bytes := keccakOnce 168 0x1F data olen

/-- `zupt_shake256`. -/
def shake256 (data : Bytes) (olen : Nat) : Bytes := keccakOnce 136 0x1F data olen

/-! ## The sponge under ML-KEM -/

/-- The functions of `zupt_keccak` as the streams that `zupt_mlkem.c` reads. -/
def zuptKeccak : Mlkem.Keccak where
  sha3_256 data k := (sha3_256 data).getD k 0
  sha3_512 data k := (sha3_512 data).getD k 0
  shake128 data k := (shake128 data (k + 1)).getD k 0
  shake256 data k := (shake256 data (k + 1)).getD k 0

/-- The loop of `poly_uniform` over its context. -/
def uniformSqueeze : (turns : Nat) → KeccakCtx → Mlkem.Poly × Nat → Option Mlkem.Poly
  | 0, _, s => if s.2 < 256 then none else some s.1
  | turns + 1, c, s =>
      if s.2 < 256 then
        let buf := keccakSqueeze c 3
        let b0 := (buf.1.getD 0 0).toNat
        let b1 := (buf.1.getD 1 0).toNat
        let b2 := (buf.1.getD 2 0).toNat
        let d1 := b0 ||| (b1 &&& 0x0F) <<< 8
        let d2 := b1 >>> 4 ||| b2 <<< 4
        uniformSqueeze turns buf.2 (Mlkem.accept d2 (Mlkem.accept d1 s))
      else some s.1

/-- `poly_uniform`, with the context it keeps. -/
def polyUniformSqueeze (turns : Nat) (seed : Bytes) (i j : Nat) : Option Mlkem.Poly :=
  let extseed := seed.take 32 ++ [UInt8.ofNat i, UInt8.ofNat j]
  uniformSqueeze turns (keccakFinalize (keccakAbsorb (keccakInit 168 0x1F) extseed))
    (fun _ => 0, 0)

/-! ## Absorbing -/

/-- A context that has absorbed `data`: the whole blocks of it went through the
    permutation, and the rest of it is in the buffer. -/
structure Absorbing (rate : Nat) (dsuf : UInt8) (c : KeccakCtx) (data : Bytes) : Prop where
  rate_eq : c.rate = rate
  dsuf_eq : c.dsuf = dsuf
  short : c.pt < rate
  fed : absorb rate (absorbBlock rate) (List.replicate 25 0, []) data = (c.st, read c.buf 0 c.pt)

section Absorb

variable {rate : Nat} {dsuf : UInt8} {c : KeccakCtx} {data : Bytes}

theorem absorbing_init (hrate : 0 < rate) (dsuf : UInt8) :
    Absorbing rate dsuf (keccakInit rate dsuf) [] := ⟨rfl, rfl, hrate, rfl⟩

/-- A turn, with a chunk that has room. -/
theorem Absorbing.chunk (h : Absorbing rate dsuf c data) {chunk : Bytes} (hpos : 0 < chunk.length)
    (hroom : c.pt + chunk.length ≤ rate) :
    Absorbing rate dsuf (absorbChunk c chunk) (data ++ chunk) := by
  have hread : read (write c.buf c.pt chunk) 0 (c.pt + chunk.length) = read c.buf 0 c.pt ++ chunk := by
    have hboth := read_write_append c.buf 0 c.pt chunk
    rw [Nat.zero_add] at hboth
    exact hboth
  rw [absorbChunk, h.rate_eq]
  by_cases hfull : c.pt + chunk.length = rate
  · rw [if_pos hfull]
    rw [hfull] at hread
    refine ⟨rfl, h.dsuf_eq, ?_, ?_⟩
    · show 0 < rate
      omega
    · rw [absorb_append, h.fed, absorb_fill hpos (by rw [read_length]; exact hfull), ← hread]
      rfl
  · rw [if_neg hfull]
    have hless : c.pt + chunk.length < rate := by omega
    refine ⟨rfl, h.dsuf_eq, hless, ?_⟩
    rw [absorb_append, h.fed, absorb_short (by rw [read_length]; exact hless), ← hread]

/-- **THE LOOP** feeds a context the new bytes; every turn takes one at least. -/
theorem Absorbing.loop (h : Absorbing rate dsuf c data) {turns : Nat} {new : Bytes}
    (hturns : new.length ≤ turns) : Absorbing rate dsuf (absorbLoop turns c new) (data ++ new) := by
  induction turns generalizing c data new with
  | zero =>
      obtain rfl := List.length_eq_zero_iff.mp (Nat.le_zero.mp hturns)
      rw [List.append_nil]
      exact h
  | succ turns ih =>
      rw [absorbLoop]
      by_cases hpos : 0 < new.length
      · rw [if_pos hpos, h.rate_eq]
        dsimp only
        have hshort := h.short
        generalize hchunk : (if new.length < rate - c.pt then new.length else rate - c.pt) = chunk
        have htake : (new.take chunk).length = chunk := by
          rw [List.length_take]
          split at hchunk <;> omega
        have hnext : Absorbing rate dsuf (absorbChunk c (new.take chunk)) (data ++ new.take chunk) :=
          h.chunk (by split at hchunk <;> omega) (by split at hchunk <;> omega)
        have hrest : (new.drop chunk).length ≤ turns := by
          rw [List.length_drop]
          split at hchunk <;> omega
        have hdone := ih hnext hrest
        rw [List.append_assoc, List.take_append_drop] at hdone
        exact hdone
      · obtain rfl := List.eq_nil_of_length_eq_zero (Nat.eq_zero_of_not_pos hpos)
        rw [if_neg hpos, List.append_nil]
        exact h

theorem Absorbing.absorb (h : Absorbing rate dsuf c data) (new : Bytes) :
    Absorbing rate dsuf (keccakAbsorb c new) (data ++ new) := h.loop (Nat.le_refl _)

/-- Any number of pieces. -/
theorem Absorbing.absorbs (h : Absorbing rate dsuf c data) (pieces : List Bytes) :
    Absorbing rate dsuf (pieces.foldl keccakAbsorb c) (data ++ pieces.flatten) := by
  induction pieces generalizing c data with
  | nil =>
      rw [List.flatten_nil, List.append_nil]
      exact h
  | cons p pieces ih =>
      rw [List.foldl_cons, List.flatten_cons, ← List.append_assoc]
      exact ih (h.absorb p)

/-- The last block: what waits, the suffix, zeros, and the last bit. -/
def padBlock (rate : Nat) (dsuf : UInt8) (rest : Bytes) : Bytes :=
  let blk := rest ++ dsuf :: List.replicate (rate - rest.length - 1) 0
  blk.set (rate - 1) (blk.getD (rate - 1) 0 ||| 0x80)

/-- The lanes after a padded message. -/
def sponge (rate : Nat) (dsuf : UInt8) (data : Bytes) : Lanes :=
  let x := Blocks.absorb rate (absorbBlock rate) (List.replicate 25 0, []) data
  absorbBlock rate x.1 (padBlock rate dsuf x.2)

/-- **THE END** of the input leaves the lanes of the padded message. -/
theorem Absorbing.finalize (h : Absorbing rate dsuf c data) :
    (keccakFinalize c).st = sponge rate dsuf data ∧ (keccakFinalize c).pt = 0 ∧
      (keccakFinalize c).rate = rate := by
  have hshort := h.short
  refine ⟨?_, rfl, h.rate_eq⟩
  rw [sponge, h.fed, keccakFinalize, h.rate_eq, h.dsuf_eq]
  dsimp only
  congr 1
  have hblk : read (write (Function.update c.buf c.pt dsuf) (c.pt + 1)
      (List.replicate (rate - c.pt - 1) 0)) 0 rate =
        read c.buf 0 c.pt ++ dsuf :: List.replicate (rate - c.pt - 1) 0 := by
    have hboth := read_write_append c.buf 0 c.pt (dsuf :: List.replicate (rate - c.pt - 1) 0)
    rw [Nat.zero_add, List.length_cons, List.length_replicate,
      show c.pt + (rate - c.pt - 1 + 1) = rate by omega] at hboth
    exact hboth
  generalize write (Function.update c.buf c.pt dsuf) (c.pt + 1)
    (List.replicate (rate - c.pt - 1) 0) = buf at hblk ⊢
  have hlast : rate - 1 < rate := by omega
  have hset : ∀ x, read (Function.update buf (0 + (rate - 1)) x) 0 rate =
      (read buf 0 rate).set (rate - 1) x := read_update buf hlast
  have hget : (read buf 0 rate).getD (rate - 1) 0 = buf (0 + (rate - 1)) := getD_read buf hlast 0
  rw [Nat.zero_add, hblk] at hget
  simp only [Nat.zero_add, hblk] at hset
  rw [hset, padBlock, read_length, hget]

end Absorb

/-! ## Squeezing -/

/-- Byte `k` of the output that starts at the lanes `S`. -/
def outByte (rate : Nat) (S : Lanes) (k : Nat) : UInt8 :=
  laneByte (keccakf^[k / rate] S) (k % rate)

/-- A context that has yielded `n` bytes from the lanes `S` on. -/
structure Squeezing (rate : Nat) (S : Lanes) (n : Nat) (c : KeccakCtx) : Prop where
  rate_eq : c.rate = rate
  room : c.pt ≤ rate
  lanes : ∃ m, c.st = keccakf^[m] S ∧ m * rate + c.pt = n

section Squeeze

variable {rate n : Nat} {S : Lanes} {c : KeccakCtx}

/-- Two pieces of a stream are one. -/
theorem squeeze_add (out : Nat → UInt8) (n a b : Nat) :
    Mlkem.squeeze out n (a + b) = Mlkem.squeeze out n a ++ Mlkem.squeeze out (n + a) b := by
  rw [Mlkem.squeeze, List.range_add, List.map_append, List.map_map, Mlkem.squeeze, Mlkem.squeeze]
  congr 2
  funext i
  exact congrArg out (Nat.add_assoc n a i).symm

/-- The permutation changes the lanes and the position, not the place in the stream. -/
theorem Squeezing.ready (h : Squeezing rate S n c) (hrate : 0 < rate) :
    Squeezing rate S n (squeezeReady c) ∧ (squeezeReady c).pt < rate := by
  obtain ⟨m, hst, hn⟩ := h.lanes
  rw [squeezeReady, h.rate_eq]
  by_cases hfull : c.pt = rate
  · rw [if_pos hfull]
    refine ⟨⟨rfl, Nat.zero_le _, m + 1, ?_, ?_⟩, hrate⟩
    · rw [Function.iterate_succ_apply', ← hst]
    · show (m + 1) * rate + 0 = n
      rw [Nat.succ_mul]
      omega
  · have hroom := h.room
    rw [if_neg hfull]
    exact ⟨h, by omega⟩

/-- A chunk within the rate is the next piece of the stream. -/
theorem Squeezing.chunk (h : Squeezing rate S n c) {len : Nat} (hroom : c.pt + len ≤ rate) :
    (List.range len).map (fun j => laneByte c.st (c.pt + j)) =
        Mlkem.squeeze (outByte rate S) n len ∧
      Squeezing rate S (n + len) { c with pt := c.pt + len } := by
  obtain ⟨m, hst, hn⟩ := h.lanes
  constructor
  · refine List.map_congr_left fun j hj => ?_
    have hlt := List.mem_range.mp hj
    have hk : n + j = c.pt + j + rate * m := by
      rw [Nat.mul_comm]
      omega
    rw [outByte, hst, hk, Nat.add_mul_div_left _ _ (by omega), Nat.add_mul_mod_self_left,
      Nat.div_eq_of_lt (by omega), Nat.mod_eq_of_lt (by omega), Nat.zero_add]
  · exact ⟨h.rate_eq, hroom, m, hst, by show m * rate + (c.pt + len) = n + len; omega⟩

/-- **THE LOOP** yields the next bytes of the stream; every turn yields one at least. -/
theorem Squeezing.loop (h : Squeezing rate S n c) (hrate : 0 < rate) {turns len : Nat}
    (hturns : len ≤ turns) :
    (squeezeLoop turns c len).1 = Mlkem.squeeze (outByte rate S) n len ∧
      Squeezing rate S (n + len) (squeezeLoop turns c len).2 := by
  induction turns generalizing c n len with
  | zero =>
      obtain rfl := Nat.le_zero.mp hturns
      exact ⟨rfl, h⟩
  | succ turns ih =>
      rw [squeezeLoop]
      by_cases hpos : 0 < len
      · obtain ⟨hready, hshort⟩ := h.ready hrate
        rw [if_pos hpos]
        dsimp only
        rw [hready.rate_eq]
        generalize hchunk : (if len < rate - (squeezeReady c).pt then len
          else rate - (squeezeReady c).pt) = chunk
        have hroom : (squeezeReady c).pt + chunk ≤ rate := by split at hchunk <;> omega
        have hle : 0 < chunk ∧ chunk ≤ len := by split at hchunk <;> omega
        obtain ⟨hout, hnext⟩ := hready.chunk hroom
        have hless : len - chunk ≤ turns := by omega
        have hsum : chunk + (len - chunk) = len := by omega
        obtain ⟨hrest, hdone⟩ := ih hnext hless
        rw [hready.rate_eq] at hrest hdone
        rw [Nat.add_assoc, hsum] at hdone
        refine ⟨?_, hdone⟩
        rw [hout, hrest, ← squeeze_add, hsum]
      · obtain rfl := Nat.eq_zero_of_not_pos hpos
        rw [if_neg hpos]
        exact ⟨rfl, h⟩

theorem Squeezing.squeeze (h : Squeezing rate S n c) (hrate : 0 < rate) (len : Nat) :
    (keccakSqueeze c len).1 = Mlkem.squeeze (outByte rate S) n len ∧
      Squeezing rate S (n + len) (keccakSqueeze c len).2 := h.loop hrate (Nat.le_refl _)

/-- Any number of calls. -/
theorem Squeezing.all (h : Squeezing rate S n c) (hrate : 0 < rate) (lens : List Nat) :
    (squeezeAll lens c).1 = Mlkem.squeeze (outByte rate S) n lens.sum := by
  induction lens generalizing c n with
  | nil => rfl
  | cons len lens ih =>
      obtain ⟨hfirst, hnext⟩ := h.squeeze hrate len
      rw [squeezeAll, List.sum_cons, squeeze_add, ← hfirst, ← ih hnext]

/-- The output begins where the input ends. -/
theorem Absorbing.squeezing {dsuf : UInt8} {data : Bytes} (h : Absorbing rate dsuf c data) :
    Squeezing rate (sponge rate dsuf data) 0 (keccakFinalize c) := by
  obtain ⟨hst, hpt, hrate⟩ := h.finalize
  refine ⟨hrate, ?_, 0, hst, ?_⟩
  · rw [hpt]
    exact Nat.zero_le _
  · rw [hpt, Nat.zero_mul]

theorem keccakOnce_eq (hrate : 0 < rate) (dsuf : UInt8) (data : Bytes) (len : Nat) :
    keccakOnce rate dsuf data len = Mlkem.squeeze (outByte rate (sponge rate dsuf data)) 0 len :=
  (((absorbing_init hrate dsuf).absorb data).squeezing.squeeze hrate len).1

end Squeeze

/-! ## Split independence -/

theorem zuptKeccak_shake128 (data : Bytes) :
    zuptKeccak.shake128 data = outByte 168 (sponge 168 0x1F data) := by
  funext k
  show (keccakOnce 168 0x1F data (k + 1)).getD k 0 = _
  rw [keccakOnce_eq (by decide), Mlkem.squeeze, List.getD_eq_getElem _ _ (by simp),
    List.getElem_map, List.getElem_range, Nat.zero_add]

/-- Three bytes a turn are the bytes of the stream. -/
theorem uniformSqueeze_eq {S : Lanes} {turns pos : Nat} {c : KeccakCtx} {s : Mlkem.Poly × Nat}
    (h : Squeezing 168 S pos c) :
    uniformSqueeze turns c s = Mlkem.uniformLoop (outByte 168 S) turns pos s := by
  induction turns generalizing pos c s with
  | zero => rfl
  | succ turns ih =>
      obtain ⟨hbuf, hnext⟩ := h.squeeze (by decide) 3
      rw [uniformSqueeze, Mlkem.uniformLoop]
      by_cases hmore : s.2 < 256
      · rw [if_pos hmore, if_pos hmore]
        dsimp only
        rw [ih hnext, hbuf]
        rfl
      · rw [if_neg hmore, if_neg hmore]

/-- **NEITHER SPLIT IS SEEN**: whatever the pieces of the message and the lengths of the
    calls that squeeze, the bytes are those of one call each.  So the context of
    `poly_uniform`, squeezed three bytes at a time, samples from the one stream. -/
theorem sponge_split_independent {rate : Nat} (hrate : 0 < rate) (dsuf : UInt8)
    (pieces : List Bytes) (lens : List Nat) :
    (squeezeAll lens (keccakFinalize (pieces.foldl keccakAbsorb (keccakInit rate dsuf)))).1 =
        (keccakSqueeze (keccakFinalize (keccakAbsorb (keccakInit rate dsuf) pieces.flatten))
          lens.sum).1 ∧
      ∀ (turns : Nat) (seed : Bytes) (i j : Nat),
        polyUniformSqueeze turns seed i j = Mlkem.polyUniform zuptKeccak turns seed i j := by
  have hinit := absorbing_init hrate dsuf
  constructor
  · rw [(hinit.absorbs pieces).squeezing.all hrate,
      ((hinit.absorb pieces.flatten).squeezing.squeeze hrate _).1]
  · intro turns seed i j
    have hseed := (absorbing_init (show 0 < 168 by decide) 0x1F).absorb
      (seed.take 32 ++ [UInt8.ofNat i, UInt8.ofNat j])
    rw [Mlkem.polyUniform, zuptKeccak_shake128]
    exact uniformSqueeze_eq hseed.squeezing

/-- At the rate of `zupt_sha3_256`, with an output across the rate. -/
theorem sponge_split_independent_sha3 :
    (0 < 136) ∧ (squeezeAll [100, 60, 3] (keccakFinalize
      ([[0x61], [0x62, 0x63]].foldl keccakAbsorb (keccakInit 136 0x06)))).1 =
        keccakOnce 136 0x06 [0x61, 0x62, 0x63] 163 :=
  ⟨by decide, (sponge_split_independent (by decide) 0x06 [[0x61], [0x62, 0x63]] [100, 60, 3]).1⟩

end Zupt.Keccak
