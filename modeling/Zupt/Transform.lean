import Zupt.LittleEndian

/-! # Checksums and byte prediction

    The two transformations of plain bytes the format is built on: the XXH64
    hash of `zupt_xxh.c`, which is the checksum of every frame and, chained
    through its seed, the content hash of a file; and the order-1 prediction
    of `zupt_predict.c`, which replaces each byte by its difference from the
    likeliest successor of the byte before it. -/

namespace Zupt.Transform

open Zupt.LittleEndian

/-! ## XXH64 -/

def P1 : UInt64 := 0x9E3779B185EBCA87
def P2 : UInt64 := 0xC2B2AE3D27D4EB4F
def P3 : UInt64 := 0x165667B19E3779F9
def P4 : UInt64 := 0x85EBCA77C2B2AE63
def P5 : UInt64 := 0x27D4EB2F165667C5

/-- `rotl64`. -/
def rotl64 (x r : UInt64) : UInt64 := (x <<< r) ||| (x >>> (64 - r))

/-- `xround`. -/
def xround (a i : UInt64) : UInt64 := rotl64 (a + i * P2) 31 * P1

/-- `merge`. -/
def merge (a v : UInt64) : UInt64 := (a ^^^ xround 0 v) * P1 + P4

/-- `aval`, the final avalanche. -/
def aval (h : UInt64) : UInt64 :=
  let h := (h ^^^ (h >>> 33)) * P2
  let h := (h ^^^ (h >>> 29)) * P3
  h ^^^ (h >>> 32)

/-- The four accumulators of the stripe loop. -/
structure Lanes where
  v1 : UInt64
  v2 : UInt64
  v3 : UInt64
  v4 : UInt64

/-- `do .. while (p <= lim)`: the accumulators after all whole 32-byte
    stripes, and the bytes that are left. -/
def stripes : (turns : Nat) → Lanes → Bytes → Lanes × Bytes
  | 0, v, p => (v, p)
  | turns + 1, v, p =>
      stripes turns
        ⟨xround v.v1 (le64Get p), xround v.v2 (le64Get (p.drop 8)),
          xround v.v3 (le64Get (p.drop 16)), xround v.v4 (le64Get (p.drop 24))⟩
        (p.drop 32)

/-- `while (p + 8 <= end)`. -/
def words : (turns : Nat) → UInt64 → Bytes → UInt64 × Bytes
  | 0, h, p => (h, p)
  | turns + 1, h, p =>
      words turns (rotl64 (h ^^^ xround 0 (le64Get p)) 27 * P1 + P4) (p.drop 8)

/-- `while (p < end)`. -/
def tailBytes (h : UInt64) : Bytes → UInt64
  | [] => h
  | b :: p => tailBytes (rotl64 (h ^^^ (UInt64.ofNat b.toNat * P5)) 11 * P1) p

/-- `zupt_xxh64`. -/
def xxh64 (data : Bytes) (seed : UInt64) : UInt64 :=
  let start : UInt64 × Bytes :=
    if 32 ≤ data.length then
      let (v, rest) := stripes (data.length / 32)
        ⟨seed + P1 + P2, seed + P2, seed, seed - P1⟩ data
      let h := rotl64 v.v1 1 + rotl64 v.v2 7 + rotl64 v.v3 12 + rotl64 v.v4 18
      (merge (merge (merge (merge h v.v1) v.v2) v.v3) v.v4, rest)
    else (seed + P5, data)
  let h := start.1 + UInt64.ofNat data.length
  let (h, p) := words (start.2.length / 8) h start.2
  let (h, p) :=
    if 4 ≤ p.length then
      (rotl64 (h ^^^ (UInt64.ofNat (le32Get p).toNat * P1)) 23 * P2 + P3, p.drop 4)
    else (h, p)
  aval (tailBytes h p)

/-- The reference values of the empty input and of one short string. -/
example : xxh64 [] 0 = 0xEF46DB3751D8E999 := by decide

/-! ## Byte prediction -/

/-- The counter `counts[c][b]` of `zupt_predict_build` after `data`, where
    `prev` came before it; it stops at 65535. -/
def pairCount (c b : UInt8) : (prev : UInt8) → Bytes → Nat → Nat
  | _, [], n => n
  | prev, x :: data, n =>
      pairCount c b x data (if prev = c ∧ x = b ∧ n < 65535 then n + 1 else n)

/-- The inner loop over `b` that keeps the first byte with the largest count. -/
def bestByte (count : UInt8 → Nat) : (todo : List UInt8) → (best : UInt8 × Nat) → UInt8
  | [], best => best.1
  | b :: todo, best => bestByte count todo (if count b > best.2 then (b, count b) else best)

/-- All bytes in order. -/
def allBytes : List UInt8 := (List.range 256).map UInt8.ofNat

/-- `zupt_predict_build`: the likeliest successor of each byte. -/
def predictBuild (data : Bytes) : Bytes :=
  allBytes.map fun c => bestByte (fun b => pairCount c b 0 data 0) allBytes (0, 0)

@[simp] theorem predictBuild_length (data : Bytes) : (predictBuild data).length = 256 := by
  rw [predictBuild, List.length_map, allBytes, List.length_map, List.length_range]

/-- The loop of `zupt_predict_encode`; the context is the original byte. -/
def encodeFrom (pred : Bytes) : (prev : UInt8) → Bytes → Bytes
  | _, [] => []
  | prev, b :: input => (b ^^^ charAt pred prev.toNat) :: encodeFrom pred b input

/-- The loop of `zupt_predict_decode`; the context is the recovered byte. -/
def decodeFrom (pred : Bytes) : (prev : UInt8) → Bytes → Bytes
  | _, [] => []
  | prev, b :: input =>
      (b ^^^ charAt pred prev.toNat) :: decodeFrom pred (b ^^^ charAt pred prev.toNat) input

/-- `zupt_predict_encode`. -/
def predictEncode (pred input : Bytes) : Bytes := encodeFrom pred 0 input

/-- `zupt_predict_decode`. -/
def predictDecode (pred input : Bytes) : Bytes := decodeFrom pred 0 input

theorem decodeFrom_encodeFrom (pred : Bytes) (prev : UInt8) (input : Bytes) :
    decodeFrom pred prev (encodeFrom pred prev input) = input := by
  induction input generalizing prev with
  | nil => rfl
  | cons b input ih =>
      have hb : b ^^^ charAt pred prev.toNat ^^^ charAt pred prev.toNat = b := by
        rw [UInt8.xor_assoc, UInt8.xor_self, UInt8.xor_zero]
      rw [encodeFrom, decodeFrom, hb, ih]

/-- **PREDICTION IS REVERSIBLE**, whatever the table. -/
theorem predictDecode_predictEncode (pred input : Bytes) :
    predictDecode pred (predictEncode pred input) = input :=
  decodeFrom_encodeFrom pred 0 input

@[simp] theorem decodeFrom_length (pred : Bytes) (prev : UInt8) (input : Bytes) :
    (decodeFrom pred prev input).length = input.length := by
  induction input generalizing prev with
  | nil => rfl
  | cons b input ih => rw [decodeFrom, List.length_cons, List.length_cons, ih]

@[simp] theorem predictDecode_length (pred input : Bytes) :
    (predictDecode pred input).length = input.length :=
  decodeFrom_length pred 0 input

@[simp] theorem encodeFrom_length (pred : Bytes) (prev : UInt8) (input : Bytes) :
    (encodeFrom pred prev input).length = input.length := by
  induction input generalizing prev with
  | nil => rfl
  | cons b input ih => rw [encodeFrom, List.length_cons, List.length_cons, ih]

@[simp] theorem predictEncode_length (pred input : Bytes) :
    (predictEncode pred input).length = input.length :=
  encodeFrom_length pred 0 input

end Zupt.Transform
