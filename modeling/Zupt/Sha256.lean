import Zupt.Blocks
import Zupt.LittleEndian
import Zupt.Memory

/-! # SHA-256

    `zupt_sha256.c`: the compression of a block, the context that is fed piece by piece,
    and the padding at the end.  A context stands for the bytes it was fed
    (`Hashes`), so the pieces do not matter, and what is compressed in the end is the
    padded message of FIPS 180-4.

    The instructions of `zupt_sha256_shani.c` belong to the processor: what they make of
    a block is a parameter. -/

namespace Zupt.Sha256

open Zupt.Blocks Zupt.LittleEndian Zupt.Memory

/-! ## A block -/

/-- `K`. -/
def roundConstants : List UInt32 :=
  [0x428a2f98, 0x71374491, 0xb5c0fbcf, 0xe9b5dba5, 0x3956c25b, 0x59f111f1, 0x923f82a4, 0xab1c5ed5,
    0xd807aa98, 0x12835b01, 0x243185be, 0x550c7dc3, 0x72be5d74, 0x80deb1fe, 0x9bdc06a7, 0xc19bf174,
    0xe49b69c1, 0xefbe4786, 0x0fc19dc6, 0x240ca1cc, 0x2de92c6f, 0x4a7484aa, 0x5cb0a9dc, 0x76f988da,
    0x983e5152, 0xa831c66d, 0xb00327c8, 0xbf597fc7, 0xc6e00bf3, 0xd5a79147, 0x06ca6351, 0x14292967,
    0x27b70a85, 0x2e1b2138, 0x4d2c6dfc, 0x53380d13, 0x650a7354, 0x766a0abb, 0x81c2c92e, 0x92722c85,
    0xa2bfe8a1, 0xa81a664b, 0xc24b8b70, 0xc76c51a3, 0xd192e819, 0xd6990624, 0xf40e3585, 0x106aa070,
    0x19a4c116, 0x1e376c08, 0x2748774c, 0x34b0bcb5, 0x391c0cb3, 0x4ed8aa4a, 0x5b9cca4f, 0x682e6ff3,
    0x748f82ee, 0x78a5636f, 0x84c87814, 0x8cc70208, 0x90befffa, 0xa4506ceb, 0xbef9a3f7, 0xc67178f2]

/-- `RR`. -/
def rr (x n : UInt32) : UInt32 := (x >>> n) ||| (x <<< (32 - n))

/-- `CH`. -/
def ch (x y z : UInt32) : UInt32 := (x &&& y) ^^^ ((~~~x) &&& z)

/-- `MAJ`. -/
def maj (x y z : UInt32) : UInt32 := (x &&& y) ^^^ (x &&& z) ^^^ (y &&& z)

/-- `EP0`. -/
def ep0 (x : UInt32) : UInt32 := rr x 2 ^^^ rr x 13 ^^^ rr x 22

/-- `EP1`. -/
def ep1 (x : UInt32) : UInt32 := rr x 6 ^^^ rr x 11 ^^^ rr x 25

/-- `SG0`. -/
def sg0 (x : UInt32) : UInt32 := rr x 7 ^^^ rr x 18 ^^^ (x >>> 3)

/-- `SG1`. -/
def sg1 (x : UInt32) : UInt32 := rr x 17 ^^^ rr x 19 ^^^ (x >>> 10)

/-- `be32`. -/
def be32 (p : Bytes) : UInt32 :=
  ((p.getD 0 0).toUInt32 <<< 24) ||| ((p.getD 1 0).toUInt32 <<< 16) |||
    ((p.getD 2 0).toUInt32 <<< 8) ||| (p.getD 3 0).toUInt32

/-- `be32_put`. -/
def be32Put (v : UInt32) : Bytes :=
  [(v >>> 24).toUInt8, (v >>> 16).toUInt8, (v >>> 8).toUInt8, v.toUInt8]

/-- The eight words of a state, and of the rounds over a block. -/
structure Words where
  a : UInt32
  b : UInt32
  c : UInt32
  d : UInt32
  e : UInt32
  f : UInt32
  g : UInt32
  h : UInt32
  deriving DecidableEq, Repr

/-- The words `w[i..64)` behind those in front of them. -/
def schedule : (turns : Nat) → (w : List UInt32) → List UInt32
  | 0, w => w
  | turns + 1, w =>
      let i := w.length
      schedule turns (w ++ [sg1 (w.getD (i - 2) 0) + w.getD (i - 7) 0 + sg0 (w.getD (i - 15) 0) +
        w.getD (i - 16) 0])

/-- A round, with its constant and its word. -/
def round (s : Words) (kw : UInt32 × UInt32) : Words :=
  let t1 := s.h + ep1 s.e + ch s.e s.f s.g + kw.1 + kw.2
  let t2 := ep0 s.a + maj s.a s.b s.c
  ⟨t1 + t2, s.a, s.b, s.c, s.d + t1, s.e, s.f, s.g⟩

/-- `sha256_transform`. -/
def sha256Transform (s : Words) (blk : Bytes) : Words :=
  let w := schedule 48 ((List.range 16).map fun i => be32 (blk.drop (i * 4)))
  let v := (roundConstants.zip w).foldl round s
  ⟨s.a + v.a, s.b + v.b, s.c + v.c, s.d + v.d, s.e + v.e, s.f + v.f, s.g + v.g, s.h + v.h⟩

/-- The processor: `zupt_cpu.has_shani`, and what a turn of the loop of
    `zupt_sha256_transform_shani` makes of the state. -/
structure Cpu where
  hasShani : Bool
  shani : Words → Bytes → Words

/-- The compression that `sha256_blocks` dispatches to. -/
def Cpu.compress (cpu : Cpu) : Words → Bytes → Words :=
  if cpu.hasShani then cpu.shani else sha256Transform

/-! ## The context -/

/-- `zupt_sha256_ctx`. -/
structure Sha256Ctx where
  state : Words
  count : UInt64
  buf : Mem UInt8

/-- The state of `zupt_sha256_init`. -/
def startWords : Words :=
  ⟨0x6a09e667, 0xbb67ae85, 0x3c6ef372, 0xa54ff53a, 0x510e527f, 0x9b05688c, 0x1f83d9ab, 0x5be0cd19⟩

/-- `zupt_sha256_init`, which leaves the buffer as it is. -/
def sha256Init (c : Sha256Ctx) : Sha256Ctx := { c with state := startWords, count := 0 }

/-- `sha256_blocks`. -/
def sha256Blocks (cpu : Cpu) (c : Sha256Ctx) (data : Bytes) (n : Nat) : Sha256Ctx :=
  { c with state := blocks 64 cpu.compress n c.state data }

/-- The top-up of `zupt_sha256_update`: the context and the input behind it. -/
def topUp (cpu : Cpu) (c : Sha256Ctx) (d : Bytes) : Sha256Ctx × Bytes :=
  let off := (c.count % 64).toNat
  if off ≠ 0 then
    let chunk := min (64 - off) d.length
    let c := { c with buf := write c.buf off (d.take chunk), count := c.count + UInt64.ofNat chunk }
    (if c.count % 64 = 0 then sha256Blocks cpu c (read c.buf 0 64) 1 else c, d.drop chunk)
  else (c, d)

/-- The whole blocks of the input. -/
def bulk (cpu : Cpu) (c : Sha256Ctx) (d : Bytes) : Sha256Ctx × Bytes :=
  if 64 ≤ d.length then
    let full := d.length / 64
    let c := sha256Blocks cpu c d full
    ({ c with count := c.count + UInt64.ofNat (full * 64) }, d.drop (full * 64))
  else (c, d)

/-- The bytes behind the last block. -/
def trailing (c : Sha256Ctx) (d : Bytes) : Sha256Ctx :=
  if 0 < d.length then
    { c with buf := write c.buf 0 d, count := c.count + UInt64.ofNat d.length }
  else c

/-- `zupt_sha256_update`. -/
def sha256Update (cpu : Cpu) (c : Sha256Ctx) (d : Bytes) : Sha256Ctx :=
  let top := topUp cpu c d
  let whole := bulk cpu top.1 top.2
  trailing whole.1 whole.2

/-- `while (c->count % 64 != 56)` of `zupt_sha256_final`. -/
def zeroPad (cpu : Cpu) : (turns : Nat) → Sha256Ctx → Sha256Ctx
  | 0, c => c
  | turns + 1, c =>
      if c.count % 64 ≠ 56 then zeroPad cpu turns (sha256Update cpu c [0]) else c

/-- `len[8]`. -/
def lenBytes (bits : UInt64) : Bytes :=
  [(bits >>> 56).toUInt8, (bits >>> 48).toUInt8, (bits >>> 40).toUInt8, (bits >>> 32).toUInt8,
    (bits >>> 24).toUInt8, (bits >>> 16).toUInt8, (bits >>> 8).toUInt8, bits.toUInt8]

/-- The bytes of a state. -/
def digest (s : Words) : Bytes :=
  be32Put s.a ++ be32Put s.b ++ be32Put s.c ++ be32Put s.d ++ be32Put s.e ++ be32Put s.f ++
    be32Put s.g ++ be32Put s.h

/-- `zupt_sha256_final`; a block has room for no more than 64 zeros. -/
def sha256Final (cpu : Cpu) (c : Sha256Ctx) : Bytes :=
  let bits := c.count * 8
  let c := sha256Update cpu c [0x80]
  let c := zeroPad cpu 64 c
  digest (sha256Update cpu c (lenBytes bits)).state

/-- `zupt_sha256`; `junk` is what the context held on the stack. -/
def sha256 (cpu : Cpu) (junk : Sha256Ctx) (d : Bytes) : Bytes :=
  sha256Final cpu (sha256Update cpu (sha256Init junk) d)

/-! ## What a context stands for -/

/-- A context that was fed `data`: its whole blocks went through the compression, and
    the rest of it is in the buffer. -/
structure Hashes (cpu : Cpu) (c : Sha256Ctx) (data : Bytes) : Prop where
  counted : c.count = UInt64.ofNat data.length
  fed : absorb 64 cpu.compress (startWords, []) data = (c.state, read c.buf 0 (data.length % 64))

section Update

variable {cpu : Cpu} {c : Sha256Ctx} {n : Nat}

/-- The count wraps at a multiple of the block. -/
theorem count_mod (n : Nat) : (UInt64.ofNat n % 64).toNat = n % 64 := by
  rw [UInt64.toNat_mod, UInt64.toNat_ofNat']
  show n % 2 ^ 64 % 64 = n % 64
  omega

theorem count_mod_eq {k : Nat} (hk : k < 64) :
    UInt64.ofNat n % 64 = UInt64.ofNat k ↔ n % 64 = k := by
  rw [← UInt64.toNat_inj, count_mod, UInt64.toNat_ofNat_of_lt' (by show k < 2 ^ 64; omega)]

theorem bulk_spec (cpu : Cpu) (c : Sha256Ctx) (d : Bytes) :
    (bulk cpu c d).1.state = blocks 64 cpu.compress (d.length / 64) c.state d ∧
      (bulk cpu c d).1.buf = c.buf ∧
      (bulk cpu c d).1.count = c.count + UInt64.ofNat (64 * (d.length / 64)) ∧
      (bulk cpu c d).2 = d.drop (64 * (d.length / 64)) := by
  rw [bulk, Nat.mul_comm]
  by_cases hfull : 64 ≤ d.length
  · rw [if_pos hfull]
    exact ⟨rfl, rfl, rfl, rfl⟩
  · have hnone : d.length / 64 = 0 := by omega
    rw [if_neg hfull, hnone]
    exact ⟨rfl, rfl, (UInt64.add_zero _).symm, rfl⟩

theorem trailing_spec (c : Sha256Ctx) (d : Bytes) :
    (trailing c d).state = c.state ∧ (trailing c d).count = c.count + UInt64.ofNat d.length ∧
      read (trailing c d).buf 0 d.length = d := by
  rw [trailing]
  by_cases hpos : 0 < d.length
  · rw [if_pos hpos]
    exact ⟨rfl, rfl, read_write c.buf 0 d⟩
  · obtain rfl := List.eq_nil_of_length_eq_zero (Nat.eq_zero_of_not_pos hpos)
    rw [if_neg hpos]
    exact ⟨rfl, (UInt64.add_zero _).symm, rfl⟩

/-- With nothing waiting the blocks are taken from the input itself. -/
theorem bulk_trailing_fed (cpu : Cpu) (hc : c.count = UInt64.ofNat n) (hn : n % 64 = 0) (d : Bytes) :
    absorb 64 cpu.compress (c.state, []) d =
        ((trailing (bulk cpu c d).1 (bulk cpu c d).2).state,
          read (trailing (bulk cpu c d).1 (bulk cpu c d).2).buf 0 ((n + d.length) % 64)) ∧
      (trailing (bulk cpu c d).1 (bulk cpu c d).2).count = UInt64.ofNat (n + d.length) := by
  obtain ⟨hstate, -, hcount, hrest⟩ := bulk_spec cpu c d
  obtain ⟨hkept, hmore, hread⟩ := trailing_spec (bulk cpu c d).1 (bulk cpu c d).2
  have hlen : (bulk cpu c d).2.length = (n + d.length) % 64 := by
    rw [hrest, List.length_drop]
    omega
  rw [hlen] at hread
  constructor
  · rw [absorb_bulk (Nat.succ_pos 63), hkept, hstate, hread, hrest]
  · rw [hmore, hcount, hc, hrest, ← UInt64.ofNat_add, ← UInt64.ofNat_add, List.length_drop]
    congr 1
    omega

/-- Nothing waits: there is nothing to top up. -/
theorem topUp_none (hc : c.count = UInt64.ofNat n) (hn : n % 64 = 0) (d : Bytes) :
    topUp cpu c d = (c, d) := by
  rw [topUp, hc, count_mod]
  exact if_neg (not_not.mpr hn)

/-- The input does not reach the end of the block. -/
theorem topUp_part (hc : c.count = UInt64.ofNat n) {d : Bytes} (hn : n % 64 ≠ 0)
    (hpart : n % 64 + d.length < 64) :
    topUp cpu c d = (⟨c.state, UInt64.ofNat (n + d.length), write c.buf (n % 64) d⟩, []) := by
  have hchunk : min (64 - n % 64) d.length = d.length := by omega
  have hcount : c.count + UInt64.ofNat d.length = UInt64.ofNat (n + d.length) := by
    rw [hc, UInt64.ofNat_add]
  have hwaits : UInt64.ofNat (n + d.length) % 64 ≠ 0 := by
    intro hzero
    have hmod := (count_mod_eq (n := n + d.length) (Nat.succ_pos 63)).mp hzero
    omega
  rw [topUp, show (c.count % 64).toNat = n % 64 by rw [hc, count_mod], if_pos hn, hchunk]
  dsimp only
  rw [hcount, if_neg hwaits, List.take_length, List.drop_length]

/-- The input completes the block. -/
theorem topUp_full (cpu : Cpu) (hc : c.count = UInt64.ofNat n) {d : Bytes} (hn : n % 64 ≠ 0)
    (hfull : 64 ≤ n % 64 + d.length) :
    (topUp cpu c d).1.state =
        cpu.compress c.state (read c.buf 0 (n % 64) ++ d.take (64 - n % 64)) ∧
      (topUp cpu c d).1.count = UInt64.ofNat (n + (64 - n % 64)) ∧
      (topUp cpu c d).2 = d.drop (64 - n % 64) := by
  have hlt : n % 64 < 64 := Nat.mod_lt n (Nat.succ_pos 63)
  have hchunk : min (64 - n % 64) d.length = 64 - n % 64 := by omega
  have hcount : c.count + UInt64.ofNat (64 - n % 64) = UInt64.ofNat (n + (64 - n % 64)) := by
    rw [hc, UInt64.ofNat_add]
  have hdone : UInt64.ofNat (n + (64 - n % 64)) % 64 = 0 :=
    (count_mod_eq (n := n + (64 - n % 64)) (Nat.succ_pos 63)).mpr (by omega)
  have htake : (d.take (64 - n % 64)).length = 64 - n % 64 := by
    rw [List.length_take]
    omega
  have hread : read (write c.buf (n % 64) (d.take (64 - n % 64))) 0 64 =
      read c.buf 0 (n % 64) ++ d.take (64 - n % 64) := by
    have hboth := read_write_append c.buf 0 (n % 64) (d.take (64 - n % 64))
    rw [Nat.zero_add, htake, Nat.add_sub_cancel' (Nat.le_of_lt hlt)] at hboth
    exact hboth
  have hblock : ∀ p : Bytes, p.length = 64 →
      blocks 64 cpu.compress 1 c.state p = cpu.compress c.state p := by
    intro p hp
    rw [blocks, blocks, List.take_of_length_le (Nat.le_of_eq hp)]
  rw [topUp, show (c.count % 64).toNat = n % 64 by rw [hc, count_mod], if_pos hn, hchunk]
  dsimp only
  rw [hcount, if_pos hdone]
  refine ⟨?_, rfl, rfl⟩
  show blocks 64 cpu.compress 1 c.state (read (write c.buf (n % 64) (d.take (64 - n % 64))) 0 64) = _
  rw [hblock _ (read_length _ _ _), hread]

/-- **ONE UPDATE** feeds a context the new bytes. -/
theorem update_fed (cpu : Cpu) (hc : c.count = UInt64.ofNat n) (d : Bytes) :
    absorb 64 cpu.compress (c.state, read c.buf 0 (n % 64)) d =
        ((sha256Update cpu c d).state, read (sha256Update cpu c d).buf 0 ((n + d.length) % 64)) ∧
      (sha256Update cpu c d).count = UInt64.ofNat (n + d.length) := by
  have hlt : n % 64 < 64 := Nat.mod_lt n (Nat.succ_pos 63)
  rw [sha256Update]
  by_cases hnone : n % 64 = 0
  · rw [topUp_none hc hnone, hnone]
    exact bulk_trailing_fed cpu hc hnone d
  by_cases hfull : 64 ≤ n % 64 + d.length
  · obtain ⟨hstate, hcount, hrest⟩ := topUp_full cpu hc hnone hfull
    have hmod : (n + (64 - n % 64)) % 64 = 0 := by omega
    have hfed := bulk_trailing_fed cpu hcount hmod (topUp cpu c d).2
    have hsum : n + (64 - n % 64) + (topUp cpu c d).2.length = n + d.length := by
      rw [hrest, List.length_drop]
      omega
    rw [hsum, hstate] at hfed
    refine ⟨?_, hfed.2⟩
    rw [← hfed.1, absorb_top (by rw [read_length]; exact hlt) (by rw [read_length]; exact hfull),
      read_length, hrest]
  · have hpart : n % 64 + d.length < 64 := by omega
    have hmod : (n + d.length) % 64 = n % 64 + d.length := by omega
    have hread := read_write_append c.buf 0 (n % 64) d
    rw [Nat.zero_add] at hread
    rw [topUp_part hc hnone hpart, hmod, absorb_short (by rw [read_length]; exact hpart)]
    exact ⟨congrArg (c.state, ·) hread.symm, rfl⟩

theorem hashes_init (cpu : Cpu) (junk : Sha256Ctx) : Hashes cpu (sha256Init junk) [] := ⟨rfl, rfl⟩

theorem Hashes.update {data : Bytes} (h : Hashes cpu c data) (d : Bytes) :
    Hashes cpu (sha256Update cpu c d) (data ++ d) := by
  obtain ⟨hfed, hcount⟩ := update_fed cpu h.counted d
  refine ⟨?_, ?_⟩
  · rw [hcount, List.length_append]
  · rw [absorb_append, h.fed, hfed, List.length_append]

/-- Any number of updates. -/
theorem Hashes.updates {data : Bytes} (h : Hashes cpu c data) (pieces : List Bytes) :
    Hashes cpu (pieces.foldl (sha256Update cpu) c) (data ++ pieces.flatten) := by
  induction pieces generalizing c data with
  | nil =>
      rw [List.flatten_nil, List.append_nil]
      exact h
  | cons d pieces ih =>
      rw [List.foldl_cons, List.flatten_cons, ← List.append_assoc]
      exact ih (h.update d)

end Update

/-! ## Padding -/

/-- How many zeros bring a message of `n` bytes and the byte behind it to 56 bytes of a
    block. -/
def zeros (n : Nat) : Nat := (119 - n % 64) % 64

/-- The padded message. -/
def padded (m : Bytes) : Bytes :=
  m ++ [0x80] ++ List.replicate (zeros m.length) 0 ++ lenBytes (UInt64.ofNat (8 * m.length))

/-- What FIPS 180-4 makes of a message, with the compression of the processor. -/
def hash (cpu : Cpu) (m : Bytes) : Bytes :=
  digest (blocks 64 cpu.compress ((padded m).length / 64) startWords (padded m))

section Padding

variable {cpu : Cpu} {c : Sha256Ctx} {data : Bytes}

/-- The zeros are written one after another, and no more of them than are needed. -/
theorem zeroPad_hashes {turns z : Nat} (h : Hashes cpu c data) (hz : z < 64)
    (hend : (data.length + z) % 64 = 56) (hturns : z ≤ turns) :
    Hashes cpu (zeroPad cpu turns c) (data ++ List.replicate z 0) := by
  induction z generalizing turns c data with
  | zero =>
      have hdone : c.count % 64 = 56 := by
        rw [h.counted]
        exact (count_mod_eq (n := data.length) (show 56 < 64 by omega)).mpr hend
      have hpad : zeroPad cpu turns c = c := by
        cases turns with
        | zero => rfl
        | succ turns => exact if_neg (not_not.mpr hdone)
      rw [hpad, List.replicate_zero, List.append_nil]
      exact h
  | succ z ih =>
      obtain ⟨turns, rfl⟩ : ∃ t, turns = t + 1 := ⟨turns - 1, by omega⟩
      have hmore : c.count % 64 ≠ 56 := by
        rw [h.counted]
        intro hstop
        have hmod := (count_mod_eq (n := data.length) (show 56 < 64 by omega)).mp hstop
        omega
      have hsum : ((data ++ [0]).length + z) % 64 = 56 := by
        rw [List.length_append, List.length_singleton]
        omega
      have hnext := ih (h.update [0]) (by omega) hsum (show z ≤ turns by omega)
      rw [List.append_assoc, List.singleton_append, ← List.replicate_succ] at hnext
      rw [zeroPad, if_pos hmore]
      exact hnext

theorem padded_length (m : Bytes) : (padded m).length % 64 = 0 := by
  have hlen : (padded m).length = m.length + 1 + zeros m.length + 8 := by
    rw [padded, List.length_append, List.length_append, List.length_append, List.length_replicate]
    rfl
  rw [hlen, zeros]
  omega

/-- The bytes of the length are the length in bits, the highest first. -/
theorem lenBytes_value (bits : UInt64) :
    (lenBytes bits).foldl (fun n b => n * 256 + b.toNat) 0 = bits.toNat := by
  have hlt := bits.toNat_lt
  have hbyte : ∀ k : UInt64, k.toNat < 64 →
      (bits >>> k).toUInt8.toNat = bits.toNat / 2 ^ k.toNat % 256 := by
    intro k hk
    rw [UInt64.toNat_toUInt8, UInt64.toNat_shiftRight, Nat.mod_eq_of_lt hk, Nat.shiftRight_eq_div_pow]
  have hlow : bits.toUInt8.toNat = bits.toNat % 256 := UInt64.toNat_toUInt8 bits
  simp only [lenBytes, List.foldl_cons, List.foldl_nil, hlow, hbyte 56 (by decide),
    hbyte 48 (by decide), hbyte 40 (by decide), hbyte 32 (by decide), hbyte 24 (by decide),
    hbyte 16 (by decide), hbyte 8 (by decide)]
  simp only [UInt64.reduceToNat]
  omega

theorem digest_length (s : Words) : (digest s).length = 32 := rfl

/-- **THE END** of a context that was fed a message is the hash of the message. -/
theorem Hashes.final (h : Hashes cpu c data) : sha256Final cpu c = hash cpu data := by
  have hone := h.update [0x80]
  have hzeros : Hashes cpu (zeroPad cpu 64 (sha256Update cpu c [0x80]))
      (data ++ [0x80] ++ List.replicate (zeros data.length) 0) := by
    refine zeroPad_hashes hone (Nat.mod_lt _ (Nat.succ_pos 63)) ?_
      (Nat.le_of_lt (Nat.mod_lt _ (Nat.succ_pos 63)))
    rw [List.length_append, List.length_singleton, zeros]
    omega
  have hbits : c.count * 8 = UInt64.ofNat (8 * data.length) := by
    rw [h.counted, Nat.mul_comm, UInt64.ofNat_mul]
    rfl
  have hlast := (hzeros.update (lenBytes (UInt64.ofNat (8 * data.length)))).fed
  rw [show data ++ [0x80] ++ List.replicate (zeros data.length) 0 ++
    lenBytes (UInt64.ofNat (8 * data.length)) = padded data by rfl, absorb_bulk (Nat.succ_pos 63)]
    at hlast
  rw [sha256Final, hbits, hash, (Prod.mk.inj hlast).1]

/-- One call. -/
theorem sha256_eq_hash (cpu : Cpu) (junk : Sha256Ctx) (m : Bytes) :
    sha256 cpu junk m = hash cpu m :=
  ((hashes_init cpu junk).update m).final

/-- **THE PIECES DO NOT MATTER**. -/
theorem sha256_pieces (cpu : Cpu) (junk : Sha256Ctx) (pieces : List Bytes) :
    sha256Final cpu (pieces.foldl (sha256Update cpu) (sha256Init junk)) = hash cpu pieces.flatten :=
  ((hashes_init cpu junk).updates pieces).final

end Padding

end Zupt.Sha256
