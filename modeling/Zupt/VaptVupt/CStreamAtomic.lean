import Zupt.VaptVupt.EncoderBound

/-! # Calls of a stream that fail

    `vv_cstream_compress_chunk` changes the stream before it knows whether the
    output has room: the header counts as written, the chunk lies in the source
    buffer and in the checksum, and the matcher has seen it.  Only a call that
    fails before any of that leaves the stream as it was. -/

namespace Zupt.VaptVupt

open Zupt.LittleEndian

/-- A call and the memory that `malloc` returns to it. -/
abbrev StreamCall := FreshTables × ChunkCall

/-- Calls one after another: the stream they leave, and all that was written. -/
def CStream.feed (C : EntropyCoders) : CStream → List StreamCall → CStream × Bytes
  | ctx, [] => (ctx, [])
  | ctx, (fresh, c) :: rest =>
      match ctx.compressChunk C fresh c with
      | (ctx, .error _) => ctx.feed C rest
      | (ctx, .ok out) =>
          let fed := ctx.feed C rest
          (fed.1, out ++ fed.2)

/-- The calls of a run that did not fail for want of room. -/
def CStream.kept (C : EntropyCoders) : CStream → List StreamCall → List StreamCall
  | _, [] => []
  | ctx, (fresh, c) :: rest =>
      match ctx.compressChunk C fresh c with
      | (ctx, .error .overflow) => ctx.kept C rest
      | (ctx, _) => (fresh, c) :: ctx.kept C rest

/-- A call that can fail only before the stream changes: the header is pending
    and has no room, or it is out and there is no chunk. -/
def CStream.Harmless (ctx : CStream) (c : ChunkCall) : Prop :=
  if ctx.header_emitted then c.chunk = [] else c.dst_cap < 16

instance (ctx : CStream) (c : ChunkCall) : Decidable (ctx.Harmless c) :=
  inferInstanceAs (Decidable (if ctx.header_emitted then c.chunk = [] else c.dst_cap < 16))

/-- Every call of the run that fails for want of room is harmless. -/
def CStream.AllHarmless (C : EntropyCoders) : CStream → List StreamCall → Prop
  | _, [] => True
  | ctx, (fresh, c) :: rest =>
      ((ctx.compressChunk C fresh c).2 = .error .overflow → ctx.Harmless c) ∧
        (ctx.compressChunk C fresh c).1.AllHarmless C rest

/-- Nothing is appended without a chunk. -/
theorem CStream.append_nil (ctx : CStream) : ctx.append [] = ctx := rfl

/-- A harmless call leaves the stream as it was. -/
theorem compressChunk_harmless {C : EntropyCoders} {fresh : FreshTables} {ctx : CStream}
    {c : ChunkCall} (h : ctx.Harmless c) : (ctx.compressChunk C fresh c).1 = ctx := by
  rw [CStream.Harmless] at h
  by_cases hdone : ctx.header_emitted
  · rw [if_pos hdone] at h
    have hheader : ctx.header c.dst_cap = .ok (ctx, []) := by
      rw [CStream.header, if_pos hdone]
    have hshort : ¬ maxBlockSize < c.chunk.length := by
      rw [h, List.length_nil]
      exact Nat.not_lt_zero _
    have hblock (cap_left : Nat) : (ctx.block C fresh 0 cap_left c.is_last).1 = ctx := by
      rw [CStream.block, if_pos rfl]
      cases c.is_last with
      | false => rfl
      | true =>
          rw [if_pos rfl]
          split
          · rfl
          · rfl
    rw [CStream.compressChunk, if_neg hshort, hheader]
    dsimp only
    rw [h, CStream.append_nil, List.length_nil]
    have hsame := hblock (c.dst_cap - 0)
    rcases hr : ctx.block C fresh 0 (c.dst_cap - 0) c.is_last with ⟨ctx', r⟩
    rw [hr] at hsame
    cases r with
    | error e => exact hsame
    | ok block =>
        dsimp only
        cases ctx'.footer (c.dst_cap - 0 - block.length) c.is_last with
        | error e => exact hsame
        | ok footer => exact hsame
  · rw [if_neg hdone] at h
    have hheader : ctx.header c.dst_cap = .error .overflow := by
      rw [CStream.header, if_neg hdone, if_pos h]
    rw [CStream.compressChunk]
    split
    · rfl
    · rw [hheader]

/-- No call of the run fails for want of room. -/
def CStream.HasRoom (C : EntropyCoders) : CStream → List StreamCall → Prop
  | _, [] => True
  | ctx, (fresh, c) :: rest =>
      (ctx.compressChunk C fresh c).2 ≠ .error .overflow ∧
        (ctx.compressChunk C fresh c).1.HasRoom C rest

/-- The first call of a run is kept, or it failed for want of room. -/
theorem kept_cons (C : EntropyCoders) (ctx : CStream) (fresh : FreshTables) (c : ChunkCall)
    (rest : List StreamCall) : ctx.kept C ((fresh, c) :: rest) =
      if (ctx.compressChunk C fresh c).2 = .error .overflow then
        (ctx.compressChunk C fresh c).1.kept C rest
      else (fresh, c) :: (ctx.compressChunk C fresh c).1.kept C rest := by
  rw [CStream.kept]
  rcases ctx.compressChunk C fresh c with ⟨ctx', r⟩
  cases r with
  | ok out => rfl
  | error e =>
      cases e with
      | overflow => rfl
      | io => rfl
      | corrupt => rfl
      | nomem => rfl
      | badMagic => rfl
      | param => rfl

/-- A run in which both kinds of harmless failure happen. -/
def harmlessRun : List StreamCall :=
  [(zeroTables, ⟨[7], 10, false⟩), (zeroTables, ⟨[7], 400, false⟩), (zeroTables, ⟨[], 2, true⟩),
    (zeroTables, ⟨[], 400, true⟩)]

/-- The stream after a first call that had room for the header alone. -/
def afterOverflow : CStream := (plainStream.compressChunk noCoders zeroTables ⟨[7], 16, true⟩).1

/-- The retry, with and without the failure before it. -/
def retried : Bytes := [12, 0, 0, 0, 7, 124, 213, 40, 7, 29, 220, 247, 200, 68, 78, 86, 86]

/-- The frame of the single byte. -/
def untroubled : Bytes :=
  [0, 1, 86, 86, 1, 1, 1, 16, 0, 0, 0, 0, 0, 0, 0, 0, 12, 0, 0, 0, 7, 183, 187, 88, 232, 12, 127,
    108, 169, 68, 78, 86, 86]

end Zupt.VaptVupt
