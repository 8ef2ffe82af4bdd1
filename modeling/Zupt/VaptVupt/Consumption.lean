import Zupt.VaptVupt.StreamDecoder

/-! # What the stream reports as consumed

    A call takes all of its chunk into the input buffer and reports the whole
    of it as consumed, also where the frame ends inside the chunk.  So the sum
    over the calls of a frame is the length of the frame exactly if the frame
    ends where a chunk ends. -/

namespace Zupt.VaptVupt

open Zupt.LittleEndian Zupt.Memory Zupt.Resumable

/-- The bytes reported as consumed by all calls of a run. -/
def totalConsumed (calls : List Call) : Nat := (calls.map Call.consumed).sum

section Sums

variable {calls : List Call} {f : Finished} {prior : List Bytes} {final : Bytes}

/-- What a run that ends a frame reports: its chunks up to the one that brings
    the end, whole. -/
theorem EndsWith.totalConsumed (h : EndsWith calls f prior final) :
    totalConsumed calls = prior.flatten.length + final.length := by
  obtain ⟨before, call, after, hcalls, -, hsums, -, hfinal, hafter⟩ := h
  have hzero : ∀ n ∈ after.map Call.consumed, n = 0 := by
    intro n hn
    obtain ⟨c, hc, rfl⟩ := List.mem_map.mp hn
    rw [hafter c hc]
  have hrest : (after.map Call.consumed).sum = 0 := List.sum_eq_zero hzero
  rw [VaptVupt.totalConsumed, hcalls, List.map_append, List.map_cons, List.sum_append,
    List.sum_cons, hsums, hfinal, hrest, List.length_flatten, Nat.add_zero]

end Sums

section Exact

variable {D : BlockDecoders} {dst_cap : Nat}

/-- A complete frame: its headers end where the string ends. -/
def CompleteFrame (s : Bytes) : Prop := frameLength s = some s.length

theorem CompleteFrame.single {s : Bytes} (h : CompleteFrame s) : SingleFrame s := by
  intro n hn
  rw [h] at hn
  exact (Option.some.inj hn).symm

/-- The first chunks that hold a frame are the first that are as long as it. -/
theorem prior_lt_of_paused {frame extra p : Bytes} {prior later : List Bytes} {f : Finished}
    {t : FrameState}
    (hframe : (frameMachine D dst_cap).settle .header frame = .halted (.ok f) [])
    (hchunks : prior.flatten ++ later.flatten = frame ++ extra)
    (hprior : (frameMachine D dst_cap).settle .header prior.flatten = .paused t p) :
    prior.flatten.length < frame.length := by
  by_contra hle
  -- otherwise the frame is in front of the chunks, and the machine would have ended
  have hprefix : frame <+: prior.flatten := by
    have h1 : frame <+: prior.flatten ++ later.flatten := hchunks ▸ List.prefix_append ..
    have h2 : prior.flatten <+: prior.flatten ++ later.flatten := List.prefix_append ..
    exact List.prefix_of_prefix_length_le h1 h2 (by omega)
  obtain ⟨more, hmore⟩ := hprefix
  rw [← hmore, Machine.settle_append_halted _ hframe] at hprior
  cases hprior

theorem le_of_halted {frame extra : Bytes} {read later : List Bytes} {f g : Finished} {r : Bytes}
    (hframe : (frameMachine D dst_cap).settle .header frame = .halted (.ok f) [])
    (hchunks : read.flatten ++ later.flatten = frame ++ extra)
    (hread : (frameMachine D dst_cap).settle .header read.flatten = .halted (.ok g) r) :
    frame.length ≤ read.flatten.length := by
  by_contra hlt
  -- otherwise the machine would have left some of the frame alone
  have hprefix : read.flatten <+: frame := by
    have h1 : read.flatten <+: frame ++ extra := hchunks ▸ List.prefix_append ..
    have h2 : frame <+: frame ++ extra := List.prefix_append ..
    exact List.prefix_of_prefix_length_le h1 h2 (by omega)
  obtain ⟨more, rfl⟩ := hprefix
  rw [Machine.settle_append_halted _ hread] at hframe
  obtain ⟨-, hnil⟩ := Settled.halted.inj hframe
  have := congrArg List.length hnil
  rw [List.length_append, List.length_nil] at this
  rw [List.length_append] at hlt
  omega

/-- **CONSUMPTION IS EXACT** for a frame and the bytes behind it exactly if the
    frame ends where a chunk ends. -/
theorem totalConsumed_eq_iff {ctx : DStream} (hfresh : Fresh ctx) {frame extra out : Bytes}
    {chunks : List Bytes} (hvalid : decompress D frame dst_cap = .ok out)
    (hcomplete : CompleteFrame frame) (hchunks : chunks.flatten = frame ++ extra)
    (hsize : (frame ++ extra).length < 2 ^ 64) (hcap : dst_cap < 2 ^ 64) (addr : Nat)
    (dst : Mem UInt8) :
    totalConsumed (runChunks D addr dst_cap ctx dst chunks) = frame.length ↔
      ∃ k, (chunks.take k).flatten = frame := by
  obtain ⟨f, hframe, -⟩ := (decompress_single hcomplete.single out).mp hvalid
  obtain ⟨prior, final, later, hsplit, hends, ⟨t, p, hprior⟩, r, hfinal⟩ :=
    hfresh.ends hsize hcap hchunks (Machine.settle_append_halted extra hframe) addr dst
  rw [hends.totalConsumed]
  have hall : prior.flatten ++ (final :: later).flatten = frame ++ extra := by
    rw [← List.flatten_append, ← hsplit, hchunks]
  have hread : (prior ++ [final]).flatten = prior.flatten ++ final := by
    rw [List.flatten_append, List.flatten_singleton]
  have hall' : (prior ++ [final]).flatten ++ later.flatten = frame ++ extra := by
    rw [hread, List.append_assoc]
    exact hall
  have hlt := prior_lt_of_paused hframe hall hprior
  have hle := le_of_halted hframe hall' (hread ▸ hfinal)
  constructor
  · intro htotal
    refine ⟨prior.length + 1, ?_⟩
    have htake : chunks.take (prior.length + 1) = prior ++ [final] := by
      rw [hsplit, List.take_append, List.take_of_length_le (by omega),
        Nat.add_sub_cancel_left, List.take_succ_cons, List.take_zero]
    have hlen : (prior ++ [final]).flatten.length = frame.length := by
      rw [hread, List.length_append]
      exact htotal
    rw [htake]
    exact (List.append_inj hall' hlen).1
  · rintro ⟨k, hk⟩
    -- the chunks up to `k` are neither fewer than those read nor more
    by_contra hne
    rw [hread, List.length_append] at hle
    by_cases hkp : k ≤ prior.length
    · have hsub : (chunks.take k).flatten <+: prior.flatten := by
        have htake : chunks.take k = prior.take k := by
          rw [hsplit, List.take_append_of_le_length hkp]
        have hparts : prior.flatten = (prior.take k).flatten ++ (prior.drop k).flatten := by
          rw [← List.flatten_append, List.take_append_drop]
        rw [htake, hparts]
        exact List.prefix_append ..
      have := hsub.length_le
      rw [hk] at this
      omega
    · obtain ⟨j, rfl⟩ : ∃ j, k = prior.length + (j + 1) := ⟨k - prior.length - 1, by omega⟩
      have htake : chunks.take (prior.length + (j + 1)) = prior ++ final :: later.take j := by
        rw [hsplit, List.take_append, List.take_of_length_le (by omega),
          Nat.add_sub_cancel_left, List.take_succ_cons]
      rw [htake, List.flatten_append, List.flatten_cons] at hk
      have := congrArg List.length hk
      rw [List.length_append, List.length_append] at this
      omega

end Exact

/-- The tiny frame and a byte behind it, with a chunk that ends where the frame
    does. -/
theorem totalConsumed_eq_iff_tinyFrame :
    totalConsumed (runChunks noDecoders 0 8 (dstreamCreate fun _ => 0) (fun _ => 0)
      [tinyFrame, [0]]) = tinyFrame.length ↔
    ∃ k, (([tinyFrame, [0]] : List Bytes).take k).flatten = tinyFrame :=
  totalConsumed_eq_iff (.created fun _ => 0)
    (by decide : decompress noDecoders tinyFrame 8 = .ok [65])
    (by decide : frameLength tinyFrame = some tinyFrame.length)
    (by decide : [tinyFrame, [0]].flatten = tinyFrame ++ [0]) (by decide) (by decide) 0
    (fun _ => 0)

/-- **THE BYTE BEHIND THE FRAME IS REPORTED AS CONSUMED** when it comes in the
    chunk that ends the frame. -/
theorem totalConsumed_past_tinyFrame :
    decompress noDecoders tinyFrame 8 = .ok [65] ∧ frameLength tinyFrame = some 21 ∧
    (runChunks noDecoders 0 8 (dstreamCreate fun _ => 0) (fun _ => 0)
      [tinyFrame ++ [0]]).map Call.ret = [.finished] ∧
    totalConsumed (runChunks noDecoders 0 8 (dstreamCreate fun _ => 0) (fun _ => 0)
      [tinyFrame ++ [0]]) = 22 := by
  refine ⟨?_, ?_, ?_, ?_⟩
  · decide +kernel
  · decide
  · decide +kernel
  · decide +kernel

end Zupt.VaptVupt
