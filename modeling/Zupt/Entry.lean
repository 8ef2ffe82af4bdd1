import Zupt.Extract

/-! # What the blocks of an entry decode to

    Facts about `blockLoop`, the loop both paths of the extraction are
    measured against.  `Accepted` says declaratively what it means for a run
    of frames to decode; the loop ends well exactly on such a run, with the
    chunks written one behind the other.

    A batch of submitted frames is a list of jobs.  `drain` writes what they
    decode to in order, and draining the batch is the loop over its frames
    (`Same`, since a bad entry may stop at different places). -/

namespace Zupt.Extract

open Zupt.Stream Zupt.Seal Zupt.Frame Zupt.Transform Zupt.Decode Zupt.Index Zupt.Open

/-! ## Writing chunks -/

/-- The chained hash of the chunks of an output. -/
def chainedHash (chunks : List Bytes) : UInt64 :=
  chunks.foldl (fun h chunk => if chunk.length > 0 then xxh64 chunk h else h) 0

/-- An output with these chunks written. -/
def Progress.after (chunks : List Bytes) : Progress :=
  ⟨UInt64.ofNat chunks.flatten.length, chainedHash chunks, chunks.flatten⟩

/-- The bytes written are counted, and stay within the indexed size. -/
structure Progress.Sound (size : UInt64) (p : Progress) : Prop where
  le_size : p.extracted ≤ size
  length_data : p.data.length = p.extracted.toNat

theorem Progress.sound_start (size : UInt64) : Progress.start.Sound size :=
  ⟨Nat.zero_le _, rfl⟩

theorem Progress.after_concat_of_pos (chunks : List Bytes) {chunk : Bytes}
    (h : chunk.length > 0) :
    Progress.after (chunks ++ [chunk]) =
      ⟨UInt64.ofNat chunks.flatten.length + UInt64.ofNat chunk.length,
        xxh64 chunk (chainedHash chunks), chunks.flatten ++ chunk⟩ := by
  have hflat : (chunks ++ [chunk]).flatten = chunks.flatten ++ chunk := by
    rw [List.flatten_append, List.flatten_singleton]
  rw [Progress.after, hflat, List.length_append, UInt64.ofNat_add, chainedHash, chainedHash,
    List.foldl_append, List.foldl_cons, List.foldl_nil, if_pos h]

theorem Progress.after_concat_nil (chunks : List Bytes) :
    Progress.after (chunks ++ [[]]) = Progress.after chunks := by
  have hflat : (chunks ++ [[]]).flatten = chunks.flatten := by
    rw [List.flatten_append, List.flatten_singleton, List.append_nil]
  rw [Progress.after, hflat, Progress.after, chainedHash, chainedHash, List.foldl_append,
    List.foldl_cons, List.foldl_nil, if_neg (by decide)]

/-- A chunk that was written is behind the others, within the indexed size. -/
theorem writeVerifiedChunk_some {env : OutputEnv} {i : Nat} {size : UInt64} {p p' : Progress}
    {chunk : Bytes} (h : writeVerifiedChunk env i size p chunk = some p') :
    (p.Sound size → p'.Sound size) ∧
      ∀ chunks, p = Progress.after chunks → p' = Progress.after (chunks ++ [chunk]) := by
  rw [writeVerifiedChunk] at h
  by_cases hfit : p.extracted > size ∨ chunk.length > (size - p.extracted).toNat
  · rw [if_pos hfit] at h
    exact nomatch h
  · rw [if_neg hfit] at h
    by_cases hpos : chunk.length > 0
    · rw [if_pos hpos] at h
      by_cases hok : env.writeOk i p.extracted chunk = true
      · rw [if_pos hok] at h
        obtain rfl := Option.some.inj h
        constructor
        · rintro ⟨hle, hlen⟩
          have hsub : (size - p.extracted).toNat = size.toNat - p.extracted.toNat :=
            UInt64.toNat_sub_of_le _ _ hle
          have hle' : p.extracted.toNat ≤ size.toNat := hle
          have hroom : p.extracted.toNat + chunk.length ≤ size.toNat := by
            have := (not_or.mp hfit).2
            omega
          have hsize := size.toNat_lt
          have hadd : (p.extracted + UInt64.ofNat chunk.length).toNat
              = p.extracted.toNat + chunk.length := by
            rw [UInt64.toNat_add, UInt64.toNat_ofNat', Nat.mod_eq_of_lt (a := chunk.length)
              (by omega), Nat.mod_eq_of_lt (by omega)]
          refine ⟨?_, ?_⟩
          · show (p.extracted + UInt64.ofNat chunk.length).toNat ≤ size.toNat
            rw [hadd]
            exact hroom
          · show (p.data ++ chunk).length = (p.extracted + UInt64.ofNat chunk.length).toNat
            rw [hadd, List.length_append, hlen]
        · rintro chunks rfl
          rw [Progress.after_concat_of_pos chunks hpos]
          rfl
      · rw [if_neg hok] at h
        exact nomatch h
    · rw [if_neg hpos] at h
      obtain rfl := Option.some.inj h
      refine ⟨id, fun chunks hp => ?_⟩
      obtain rfl : chunk = [] := List.length_eq_zero_iff.mp (by omega)
      rw [hp, Progress.after_concat_nil]

section Write

variable {env : OutputEnv} {i : Nat} {e : IndexEntry}

theorem FileState.write_pos (st : FileState) (chunk : Bytes) :
    (FileState.write env i e st chunk).pos = st.pos := by
  rw [FileState.write]
  cases writeVerifiedChunk env i e.uncompressedSize st.progress chunk <;> rfl

/-- A bad entry stays bad. -/
theorem FileState.write_berr {st : FileState} {chunk : Bytes}
    (h : (FileState.write env i e st chunk).berr = false) : st.berr = false := by
  rw [FileState.write] at h
  cases hw : writeVerifiedChunk env i e.uncompressedSize st.progress chunk with
  | none =>
      rw [hw] at h
      exact nomatch h
  | some p =>
      rw [hw] at h
      exact h

theorem FileState.write_sound {st : FileState} (h : st.progress.Sound e.uncompressedSize)
    (chunk : Bytes) : (FileState.write env i e st chunk).progress.Sound e.uncompressedSize := by
  rw [FileState.write]
  cases hw : writeVerifiedChunk env i e.uncompressedSize st.progress chunk with
  | none => exact h
  | some p => exact (writeVerifiedChunk_some hw).1 h

theorem FileState.write_after {st : FileState} {chunk : Bytes} {chunks : List Bytes}
    (h : (FileState.write env i e st chunk).berr = false)
    (hst : st.progress = Progress.after chunks) :
    (FileState.write env i e st chunk).progress = Progress.after (chunks ++ [chunk]) := by
  rw [FileState.write] at h ⊢
  cases hw : writeVerifiedChunk env i e.uncompressedSize st.progress chunk with
  | none =>
      rw [hw] at h
      exact nomatch h
  | some p => exact (writeVerifiedChunk_some hw).2 chunks hst

/-- Within the indexed size an empty chunk is no write at all. -/
theorem FileState.write_nil {st : FileState} (h : st.progress.Sound e.uncompressedSize) :
    FileState.write env i e st [] = st := by
  have hfit : ¬ (st.progress.extracted > e.uncompressedSize ∨
      ([] : Bytes).length > (e.uncompressedSize - st.progress.extracted).toNat) := by
    rintro (hgt | hgt)
    · exact UInt64.not_lt.mpr h.le_size hgt
    · exact absurd hgt (Nat.not_lt_zero _)
  rw [FileState.write, writeVerifiedChunk, if_neg hfit, if_neg (by decide)]

end Write

/-! ## Runs of frames -/

variable (P : Primitives) (C : Codecs)

/-- Reading `b` frames from `start` on ends at `pos`. -/
inductive FrameAt (bytes : Bytes) (start : Nat) : (b pos : Nat) → Prop where
  | zero : FrameAt bytes start 0 start
  | succ {b pos next : Nat} {blk : Block} (hprev : FrameAt bytes start b pos)
      (hread : readBlock.run bytes pos = (.ok blk, next)) : FrameAt bytes start (b + 1) next

/-- The frames of entry `i` from block `b` on, read from `pos` to `fin`, all
    decode, to these chunks: DATA frames by `dec` at their own sequence, and
    references to what they refer to. -/
inductive Accepted (dec : Block → UInt64 → Result Bytes) (src : Source) (i : Nat) :
    (b pos : Nat) → (chunks : List Bytes) → (fin : Nat) → Prop where
  | done {b pos} : Accepted dec src i b pos [] pos
  | data {b pos next fin blk out outs} (hread : readBlock.run src.bytes pos = (.ok blk, next))
      (htype : blk.blockType = blockData)
      (hdec : dec blk (archiveDataAadSeq src.globalFlags i b) = .ok out)
      (hrest : Accepted dec src i (b + 1) next outs fin) :
      Accepted dec src i b pos (out :: outs) fin
  | ref {b pos next fin blk out outs} (hread : readBlock.run src.bytes pos = (.ok blk, next))
      (htype : blk.blockType = blockDedupRef)
      (href : referencedData P C src i b next blk = .ok out)
      (hrest : Accepted dec src i (b + 1) next outs fin) :
      Accepted dec src i b pos (out :: outs) fin

/-- Among the frames of entry `i`, read from `start` on, there is a DATA frame
    that `dec` rejects. -/
def Rejected (dec : Block → UInt64 → Result Bytes) (src : Source) (i : Nat) (e : IndexEntry)
    (start : Nat) : Prop :=
  ∃ b pos blk next err, b < e.blockCount.toNat ∧ FrameAt src.bytes start b pos ∧
    readBlock.run src.bytes pos = (.ok blk, next) ∧ blk.blockType = blockData ∧
    dec blk (archiveDataAadSeq src.globalFlags i b) = .error err

variable {P C} {dec : Block → UInt64 → Result Bytes} {src : Source} {env : OutputEnv} {i : Nat}
  {e : IndexEntry}

/-- One turn of the loop, on a frame that was read. -/
theorem blockLoop_succ {n b next : Nat} {st : FileState} {blk : Block}
    (hread : readBlock.run src.bytes st.pos = (.ok blk, next)) :
    blockLoop P C dec src env i e (n + 1) b st =
      if blk.blockType = blockDedupRef then
        match referencedData P C src i b next blk with
        | .error _ => { st with pos := next, berr := true }
        | .ok out =>
            blockLoop P C dec src env i e n (b + 1)
              (FileState.write env i e { st with pos := next } out)
      else if blk.blockType ≠ blockData then { st with pos := next, berr := true }
      else
        match dec blk (archiveDataAadSeq src.globalFlags i b) with
        | .error _ => { st with pos := next, berr := true }
        | .ok out =>
            blockLoop P C dec src env i e n (b + 1)
              (FileState.write env i e { st with pos := next } out) := by
  rw [blockLoop, hread] <;> rfl

theorem blockLoop_unread {n b next : Nat} {st : FileState} {err : ZuptError}
    (hread : readBlock.run src.bytes st.pos = (.error err, next)) :
    blockLoop P C dec src env i e (n + 1) b st = { st with pos := next, berr := true } := by
  rw [blockLoop, hread]

/-- The four ways a turn of the loop goes: the entry goes bad on a frame, or
    a chunk is there and the loop goes on behind the frame. -/
theorem blockLoop_cases (n b : Nat) (st : FileState) :
    (∃ next, blockLoop P C dec src env i e (n + 1) b st
        = { st with pos := next, berr := true }) ∨
    ∃ blk next out, readBlock.run src.bytes st.pos = (.ok blk, next) ∧
      (blk.blockType = blockDedupRef ∧ referencedData P C src i b next blk = .ok out ∨
        blk.blockType = blockData ∧
          dec blk (archiveDataAadSeq src.globalFlags i b) = .ok out) ∧
      blockLoop P C dec src env i e (n + 1) b st = blockLoop P C dec src env i e n (b + 1)
        (FileState.write env i e { st with pos := next } out) := by
  cases hread : readBlock.run src.bytes st.pos with
  | mk res next =>
      cases res with
      | error err => exact Or.inl ⟨next, blockLoop_unread hread⟩
      | ok blk =>
          rw [blockLoop_succ hread]
          by_cases href : blk.blockType = blockDedupRef
          · rw [if_pos href]
            cases hdata : referencedData P C src i b next blk with
            | error err => exact Or.inl ⟨next, rfl⟩
            | ok out => exact Or.inr ⟨blk, next, out, rfl, Or.inl ⟨href, hdata⟩, rfl⟩
          · rw [if_neg href]
            by_cases htype : blk.blockType = blockData
            · rw [if_neg (not_not.mpr htype)]
              cases hdec : dec blk (archiveDataAadSeq src.globalFlags i b) with
              | error err => exact Or.inl ⟨next, rfl⟩
              | ok out => exact Or.inr ⟨blk, next, out, rfl, Or.inr ⟨htype, hdec⟩, rfl⟩
            · rw [if_pos htype]
              exact Or.inl ⟨next, rfl⟩

/-- A loop that ends well never saw a bad state. -/
theorem blockLoop_berr {n b : Nat} {st : FileState}
    (h : (blockLoop P C dec src env i e n b st).berr = false) : st.berr = false := by
  induction n generalizing b st with
  | zero => exact h
  | succ n ih =>
      rcases blockLoop_cases n b st with ⟨next, hbad⟩ | ⟨blk, next, out, -, -, hgo⟩
      · rw [hbad] at h
        exact nomatch h
      · rw [hgo] at h
        exact (FileState.write_berr (ih h) : FileState.berr { st with pos := next } = false)

/-- A bad entry goes through the loop bad. -/
theorem blockLoop_of_berr {st : FileState} (h : st.berr = true) (n b : Nat) :
    (blockLoop P C dec src env i e n b st).berr = true := by
  by_contra hb
  rw [blockLoop_berr (eq_false_of_ne_true hb)] at h
  exact nomatch h

/-- Whatever the frames are, the output stays within the indexed size. -/
theorem blockLoop_sound (n b : Nat) {st : FileState}
    (h : st.progress.Sound e.uncompressedSize) :
    (blockLoop P C dec src env i e n b st).progress.Sound e.uncompressedSize := by
  induction n generalizing b st with
  | zero => exact h
  | succ n ih =>
      rcases blockLoop_cases n b st with ⟨next, hbad⟩ | ⟨blk, next, out, -, -, hgo⟩
      · rw [hbad]
        exact h
      · rw [hgo]
        have hst : Progress.Sound e.uncompressedSize { st with pos := next }.progress := h
        exact ih (b + 1) (FileState.write_sound hst out)

/-- **THE LOOP ENDS WELL ONLY ON ACCEPTED FRAMES**: as many as it was asked
    for, and what they decode to is what was written. -/
theorem blockLoop_accepted {n b : Nat} {st : FileState} {before : List Bytes}
    (hst : st.progress = Progress.after before)
    (h : (blockLoop P C dec src env i e n b st).berr = false) :
    ∃ chunks, Accepted P C dec src i b st.pos chunks
        (blockLoop P C dec src env i e n b st).pos ∧ chunks.length = n ∧
      (blockLoop P C dec src env i e n b st).progress = Progress.after (before ++ chunks) := by
  induction n generalizing b st before with
  | zero => exact ⟨[], .done, rfl, by rw [List.append_nil]; exact hst⟩
  | succ n ih =>
      rcases blockLoop_cases n b st with ⟨next, hbad⟩ | ⟨blk, next, out, hread, hkind, hgo⟩
      · rw [hbad] at h
        exact nomatch h
      · rw [hgo] at h ⊢
        have hwrite := blockLoop_berr h
        have hst' : { st with pos := next }.progress = Progress.after before := hst
        obtain ⟨chunks, hacc, hlen, hprog⟩ := ih (FileState.write_after hwrite hst') h
        rw [FileState.write_pos] at hacc
        refine ⟨out :: chunks, ?_, congrArg (· + 1) hlen, ?_⟩
        · rcases hkind with ⟨htype, href⟩ | ⟨htype, hdec⟩
          · exact .ref hread htype href hacc
          · exact .data hread htype hdec hacc
        · rw [hprog, List.append_assoc, List.singleton_append]

/-! ## Batches -/

/-- Two states of an entry agree: both are bad, or they are the same. -/
structure Same (st st' : FileState) : Prop where
  berr_eq : st.berr = st'.berr
  eq_of_ok : st.berr = false → st = st'

theorem Same.refl (st : FileState) : Same st st := ⟨rfl, fun _ => rfl⟩

theorem Same.symm {st st' : FileState} (h : Same st st') : Same st' st :=
  ⟨h.berr_eq.symm, fun hok => (h.eq_of_ok (h.berr_eq.trans hok)).symm⟩

theorem Same.trans {st st' st'' : FileState} (h : Same st st') (h' : Same st' st'') :
    Same st st'' :=
  ⟨h.berr_eq.trans h'.berr_eq,
    fun hok => (h.eq_of_ok hok).trans (h'.eq_of_ok (h.berr_eq ▸ hok))⟩

theorem Same.of_berr {st st' : FileState} (h : st.berr = true) (h' : st'.berr = true) :
    Same st st' :=
  ⟨h.trans h'.symm, fun hok => by rw [h] at hok; exact nomatch hok⟩

/-- A submitted frame is decoded and its chunk written. -/
def decodeJob (dec : Block → UInt64 → Result Bytes) (env : OutputEnv) (i : Nat) (e : IndexEntry)
    (st : FileState) (job : DecodeJob) : FileState :=
  match dec job.1 job.2 with
  | .error _ => { st with berr := true }
  | .ok out => FileState.write env i e st out

/-- A batch is decoded and written in order, past any bad frame. -/
def drain (dec : Block → UInt64 → Result Bytes) (env : OutputEnv) (i : Nat) (e : IndexEntry)
    (jobs : List DecodeJob) (st : FileState) : FileState :=
  jobs.foldl (decodeJob dec env i e) st

theorem decodeJob_berr {st : FileState} {job : DecodeJob}
    (h : (decodeJob dec env i e st job).berr = false) : st.berr = false := by
  rw [decodeJob] at h
  cases hdec : dec job.1 job.2 with
  | error err =>
      rw [hdec] at h
      exact nomatch h
  | ok out =>
      rw [hdec] at h
      exact FileState.write_berr h

theorem decodeJob_pos (st : FileState) (job : DecodeJob) (pos : Nat) :
    decodeJob dec env i e { st with pos := pos } job
      = { decodeJob dec env i e st job with pos := pos } := by
  rw [decodeJob, decodeJob]
  cases dec job.1 job.2 with
  | error err => rfl
  | ok out =>
      show FileState.write env i e _ out = { FileState.write env i e st out with pos := pos }
      rw [FileState.write, FileState.write]
      cases writeVerifiedChunk env i e.uncompressedSize st.progress out <;> rfl

theorem decodeJob_pos_eq (st : FileState) (job : DecodeJob) :
    (decodeJob dec env i e st job).pos = st.pos := by
  rw [show decodeJob dec env i e st job = _ from decodeJob_pos st job st.pos]

theorem decodeJob_sound {st : FileState} (h : st.progress.Sound e.uncompressedSize)
    (job : DecodeJob) :
    (decodeJob dec env i e st job).progress.Sound e.uncompressedSize := by
  rw [decodeJob]
  cases dec job.1 job.2 with
  | error err => exact h
  | ok out => exact FileState.write_sound h out

theorem drain_berr {jobs : List DecodeJob} {st : FileState}
    (h : (drain dec env i e jobs st).berr = false) : st.berr = false := by
  induction jobs generalizing st with
  | nil => exact h
  | cons job jobs ih => exact decodeJob_berr (ih h)

theorem drain_pos (jobs : List DecodeJob) (st : FileState) (pos : Nat) :
    drain dec env i e jobs { st with pos := pos }
      = { drain dec env i e jobs st with pos := pos } := by
  induction jobs generalizing st with
  | nil => rfl
  | cons job jobs ih =>
      show drain dec env i e jobs (decodeJob dec env i e _ job) = _
      rw [decodeJob_pos, ih]
      rfl

theorem drain_pos_eq (jobs : List DecodeJob) (st : FileState) :
    (drain dec env i e jobs st).pos = st.pos := by
  rw [show drain dec env i e jobs st = _ from drain_pos jobs st st.pos]

theorem drain_concat (jobs : List DecodeJob) (job : DecodeJob) (st : FileState) :
    drain dec env i e (jobs ++ [job]) st
      = decodeJob dec env i e (drain dec env i e jobs st) job := by
  rw [drain, List.foldl_append]
  rfl

/-- A batch with a frame that does not decode is bad. -/
theorem drain_rejected {jobs : List DecodeJob} {st : FileState} {job : DecodeJob}
    (hmem : job ∈ jobs) {err : ZuptError} (hdec : dec job.1 job.2 = .error err) :
    (drain dec env i e jobs st).berr = true := by
  obtain ⟨before, behind, rfl⟩ := List.append_of_mem hmem
  by_contra hb
  have hok : (drain dec env i e behind
      (decodeJob dec env i e (drain dec env i e before st) job)).berr = false := by
    rw [drain, List.foldl_append] at hb
    exact eq_false_of_ne_true hb
  have hjob := drain_berr hok
  rw [decodeJob, hdec] at hjob
  exact nomatch hjob

/-- The loop from bad states ends in bad states, and from equal ones in equal
    ones. -/
theorem blockLoop_same {st st' : FileState} (h : Same st st') (n b : Nat) :
    Same (blockLoop P C dec src env i e n b st) (blockLoop P C dec src env i e n b st') := by
  cases hst : st.berr with
  | false =>
      rw [h.eq_of_ok hst]
      exact .refl _
  | true =>
      exact .of_berr (blockLoop_of_berr hst n b) (blockLoop_of_berr (h.berr_eq ▸ hst) n b)

/-- **ONE MORE FRAME IN THE BATCH**: the loop over a DATA frame is to drain
    it and to go on. -/
theorem blockLoop_data {n b next : Nat} {st : FileState} {blk : Block}
    (hread : readBlock.run src.bytes st.pos = (.ok blk, next)) (htype : blk.blockType = blockData) :
    Same (blockLoop P C dec src env i e (n + 1) b st)
      (blockLoop P C dec src env i e n (b + 1)
        (decodeJob dec env i e { st with pos := next }
          (blk, archiveDataAadSeq src.globalFlags i b))) := by
  have href : ¬ blk.blockType = blockDedupRef := by
    rw [htype]
    decide
  rw [blockLoop_succ hread, if_neg href, if_neg (not_not.mpr htype), decodeJob]
  cases dec blk (archiveDataAadSeq src.globalFlags i b) with
  | error err => exact .of_berr rfl (blockLoop_of_berr rfl n (b + 1))
  | ok out => exact .refl _

end Zupt.Extract
