import Zupt.VaptVupt.Concat
import Zupt.VaptVupt.StreamDecoder
import Zupt.WorkQueue

/-! # Parallel compression

    `vv_compress_mt`: a long input is cut into chunks, each of which becomes a
    frame of its own.  The chunks are the jobs of a work queue, whose workers
    are the threads that could be started; the results are put together in
    order once all of these were joined. -/

namespace Zupt.VaptVupt

open Zupt.WorkQueue

/-- `vv_compress` with its options: the frame it writes into a buffer of the
    given capacity.  A frame has its header at least. -/
structure Compressor where
  compress : (src : Bytes) → (dst_cap : Nat) → Except VvError Bytes
  framed : ∀ {src out : Bytes} {dst_cap : Nat}, compress src dst_cap = .ok out → 16 ≤ out.length

/-- `vv_compress_bound`. -/
def compressBound (src_len : Nat) : Nat := src_len + src_len / 255 + 256 + 16 + 12

/-- The chunk size `vv_compress_mt` works with. -/
def mtChunkSize (chunk_size : Nat) : Nat :=
  let chunk_size := if chunk_size = 0 then 4 * 1024 * 1024 else chunk_size
  if chunk_size < maxBlockSize then maxBlockSize else chunk_size

/-- `n_chunks`. -/
def nChunks (src_len chunk_size : Nat) : Nat := (src_len + chunk_size - 1) / chunk_size

/-- The number of threads that are requested, on a machine with `online`
    processors. -/
def mtThreads (nthreads online n_chunks : Nat) : Nat :=
  let nthreads := if nthreads = 0 then (if 0 < online then online else 1) else nthreads
  let nthreads := if n_chunks < nthreads then n_chunks else nthreads
  if nthreads = 0 then 1 else nthreads

/-- The source of task `i`. -/
def mtChunk (src : Bytes) (chunk_size i : Nat) : Bytes :=
  let off := i * chunk_size
  (src.drop off).take (if off + chunk_size ≤ src.length then chunk_size else src.length - off)

/-- What `mt_worker` stores for task `i`: the frame in the buffer of the chunk,
    with its size or error. -/
def mtTask (C : Compressor) (src : Bytes) (chunk_size i : Nat) : Except VvError Bytes :=
  C.compress (mtChunk src chunk_size i) (compressBound chunk_size)

/-- The loop that checks the results and puts the frames together, from task
    `i` on. -/
def mtGather (results : Nat → Except VvError Bytes) : (left i : Nat) → Except VvError Bytes
  | 0, _ => .ok []
  | left + 1, i =>
      match results i with
      | .error e => .error e
      | .ok frame =>
          match mtGather results left (i + 1) with
          | .error e => .error e
          | .ok rest => .ok (frame ++ rest)

/-- The end of `vv_compress_mt`: errors, the capacity check and the
    concatenation. -/
def mtCollect (results : Nat → Except VvError Bytes) (n_chunks dst_cap : Nat) :
    Except VvError Bytes :=
  match mtGather results n_chunks 0 with
  | .error e => .error e
  | .ok out => if dst_cap < out.length then .error .overflow else .ok out

/-- The queue of the tasks of `vv_compress_mt`.  Their results start as zero
    sizes. -/
abbrev MtQueue := Queue Nat (Except VvError Bytes)

/-- The arguments of `vv_compress_mt` behind the options, and the number of
    online processors. -/
structure MtArgs where
  src : Bytes
  dst_cap : Nat
  nthreads : Nat
  chunk_size : Nat
  online : Nat

namespace MtArgs

variable (a : MtArgs)

/-- The effective chunk size. -/
def size : Nat := mtChunkSize a.chunk_size

/-- The number of chunks. -/
def count : Nat := nChunks a.src.length a.size

/-- The task of each chunk. -/
def task (C : Compressor) : Nat → Except VvError Bytes := mtTask C a.src a.size

/-- The number of threads that are requested. -/
def threads : Nat := mtThreads a.nthreads a.online a.count

end MtArgs

/-- `vv_compress_mt`, where `pthread_create` could start the requested threads
    in `started`: its answer is open, because the workers interleave and
    allocations may fail.  Without `VV_ENABLE_THREADS`, which `enabled` tells,
    the chunks are compressed one after the other. -/
inductive CompressMt (C : Compressor) (enabled : Bool) (a : MtArgs) (started : Set Nat) :
    Except VvError Bytes → Prop
  | small : a.src.length ≤ a.size → CompressMt C enabled a started (C.compress a.src a.dst_cap)
  | nomem : a.size < a.src.length → CompressMt C enabled a started (.error .nomem)
  | joined (q : MtQueue) : a.size < a.src.length → enabled = true →
      (∀ t ∈ started, t < a.threads) → Reachable a.count (a.task C) started (.ok []) q →
      AtRest started q →
      CompressMt C enabled a started (mtCollect q.result a.count a.dst_cap)
  | sequential : a.size < a.src.length → enabled = false →
      CompressMt C enabled a started (mtCollect (a.task C) a.count a.dst_cap)

/-! ## Putting the frames together -/

/-- The frames of tasks `i` to `i + left - 1`, in order and none left out. -/
inductive FramesFrom (task : Nat → Except VvError Bytes) : (left i : Nat) → List Bytes → Prop
  | nil (i : Nat) : FramesFrom task 0 i []
  | cons {left i : Nat} {frame : Bytes} {frames : List Bytes} : task i = .ok frame →
      FramesFrom task left (i + 1) frames → FramesFrom task (left + 1) i (frame :: frames)

/-- The output `vv_compress_mt` owes: the frame of the whole input where it fits
    one chunk, and otherwise the frames of the chunks, in order, each once. -/
def InOrder (C : Compressor) (a : MtArgs) (out : Bytes) : Prop :=
  if a.src.length ≤ a.size then C.compress a.src a.dst_cap = .ok out
  else ∃ frames, FramesFrom (a.task C) a.count 0 frames ∧ out = frames.flatten

section Gather

variable {task results : Nat → Except VvError Bytes}

theorem mtGather_ok {left i : Nat} {out : Bytes} (h : mtGather results left i = .ok out) :
    ∃ frames, FramesFrom results left i frames ∧ out = frames.flatten := by
  induction left generalizing i out with
  | zero =>
      obtain rfl := Except.ok.inj h
      exact ⟨[], .nil i, rfl⟩
  | succ left ih =>
      rw [mtGather] at h
      cases hi : results i with
      | error e =>
          rw [hi] at h
          cases h
      | ok frame =>
          rw [hi] at h
          dsimp only at h
          cases hrest : mtGather results left (i + 1) with
          | error e =>
              rw [hrest] at h
              cases h
          | ok rest =>
              rw [hrest] at h
              obtain rfl := Except.ok.inj h
              obtain ⟨frames, hframes, rfl⟩ := ih hrest
              exact ⟨frame :: frames, .cons hi hframes, rfl⟩

theorem mtCollect_ok {n_chunks dst_cap : Nat} {out : Bytes}
    (h : mtCollect results n_chunks dst_cap = .ok out) :
    mtGather results n_chunks 0 = .ok out := by
  rw [mtCollect] at h
  cases hg : mtGather results n_chunks 0 with
  | error e =>
      rw [hg] at h
      cases h
  | ok all =>
      rw [hg] at h
      dsimp only at h
      by_cases hover : dst_cap < all.length
      · rw [if_pos hover] at h
        cases h
      · rw [if_neg hover] at h
        rw [Except.ok.inj h]

theorem FramesFrom.congr {left i : Nat} {frames : List Bytes}
    (h : FramesFrom results left i frames)
    (heq : ∀ j, i ≤ j → j < i + left → results j = task j) : FramesFrom task left i frames := by
  induction h with
  | nil i => exact .nil i
  | cons hi _ ih =>
      have hsame := heq _ (Nat.le_refl _) (by omega)
      exact .cons (hsame ▸ hi) (ih fun j hij hj => heq j (by omega) (by omega))

/-- Results that are all empty gather to nothing. -/
theorem mtGather_empty (h : ∀ i, results i = .ok []) (left i : Nat) :
    mtGather results left i = .ok [] := by
  induction left generalizing i with
  | zero => rfl
  | succ left ih =>
      rw [mtGather, h i, ih (i + 1)]
      rfl

end Gather

theorem nChunks_pos {src_len chunk_size : Nat} (hpos : 0 < chunk_size)
    (h : chunk_size < src_len) : 0 < nChunks src_len chunk_size := by
  rw [nChunks]
  exact Nat.div_pos (by omega) hpos

theorem mtChunkSize_pos (chunk_size : Nat) : 0 < mtChunkSize chunk_size := by
  have hmax : 0 < maxBlockSize := by decide
  rw [mtChunkSize]
  generalize (if chunk_size = 0 then 4 * 1024 * 1024 else chunk_size) = size
  by_cases hsmall : size < maxBlockSize
  · rw [if_pos hsmall]
    exact hmax
  · rw [if_neg hsmall]
    omega

/-! ## Completeness -/

section Complete

variable {C : Compressor} {enabled : Bool} {a : MtArgs} {started : Set Nat}

/-- With a worker, every interleaving ends in the frames of all chunks. -/
theorem CompressMt.inOrder {out : Bytes} (h : CompressMt C enabled a started (.ok out))
    (hcond : a.src.length ≤ a.size ∨ enabled = false ∨ started.Nonempty) : InOrder C a out := by
  rw [InOrder]
  generalize hr : Except.ok out = r at h
  cases h with
  | small hsmall =>
      rw [if_pos hsmall]
  | nomem hlong => cases hr
  | joined q hlong henabled hrequested hreach hrest =>
      rw [if_neg (by omega)]
      obtain ⟨frames, hframes, hout⟩ := mtGather_ok (mtCollect_ok hr.symm)
      have hsome : started.Nonempty := by
        rcases hcond with hsmall | hseq | hsome
        · omega
        · rw [henabled] at hseq
          cases hseq
        · exact hsome
      -- at rest, the queue holds the frame of every chunk
      refine ⟨frames, hframes.congr ?_, hout⟩
      intro j _ hj
      exact done_of_rest hreach hrest hsome (by omega)
  | sequential hlong henabled =>
      rw [if_neg (by omega)]
      exact mtGather_ok (mtCollect_ok hr.symm)

/-- Without a worker, `vv_compress_mt` answers zero bytes for any long input. -/
theorem compressMt_idle (hlong : a.size < a.src.length) (hnone : ¬ started.Nonempty) :
    CompressMt C true a started (.ok []) := by
  have hnobody {p : Nat → Prop} : ∀ t ∈ started, p t := fun t ht => absurd ⟨t, ht⟩ hnone
  have hzero : ∀ i, (start (.ok []) : MtQueue).result i = .ok [] := fun _ => rfl
  have hcollect : mtCollect (start (.ok []) : MtQueue).result a.count a.dst_cap = .ok [] := by
    rw [mtCollect, mtGather_empty hzero]
    exact if_neg (Nat.not_lt_zero _)
  rw [← hcollect]
  exact .joined _ hlong rfl hnobody .start hnobody

/-- Nothing is not what `vv_compress_mt` owes for a long input. -/
theorem not_inOrder_nil (hlong : a.size < a.src.length) : ¬ InOrder C a [] := by
  rw [InOrder, if_neg (by omega)]
  rintro ⟨frames, hframes, hnil⟩
  obtain ⟨k, hk⟩ : ∃ k, a.count = k + 1 :=
    ⟨_, (Nat.succ_pred_eq_of_pos (nChunks_pos (mtChunkSize_pos _) hlong)).symm⟩
  rw [hk] at hframes
  cases hframes with
  | cons hfirst _ =>
      have hlen := congrArg List.length hnil
      have hheader := C.framed hfirst
      rw [List.flatten_cons, List.length_append, List.length_nil] at hlen
      omega

end Complete

theorem le_of_storing {src out : Bytes} {dst_cap : Nat}
    (h : (if dst_cap < compressBound src.length then .error .overflow
      else .ok (tinyFrame.take 16 ++ (LittleEndian.lePut 4 (src.length * 8 + 4) ++ src)) :
        Except VvError Bytes) = .ok out) : 16 ≤ out.length := by
  by_cases hsmall : dst_cap < compressBound src.length
  · rw [if_pos hsmall] at h
    cases h
  · rw [if_neg hsmall] at h
    obtain rfl := Except.ok.inj h
    have hheader : (tinyFrame.take 16).length = 16 := by decide
    rw [List.length_append, hheader]
    omega

/-- A compressor that stores its input in one raw block. -/
def storing : Compressor where
  compress src dst_cap :=
    if dst_cap < compressBound src.length then .error .overflow
    else .ok (tinyFrame.take 16 ++ (LittleEndian.lePut 4 (src.length * 8 + 4) ++ src))
  framed h := le_of_storing h

end Zupt.VaptVupt
