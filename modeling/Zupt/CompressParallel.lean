import Zupt.Writers
import Zupt.SlotPool.Wlp
import Zupt.SlotPool.Once
import Zupt.SlotPool.Schedule
import Zupt.Publication

/-! # Compression with threads against compression without

    The workers and the single-threaded loop make the same frame of a block,
    although the code is there twice; the one capacity in which the copies
    differ does not matter to the VaptVupt encoder (`CapacityInsensitive`).
    Collected in order, the batches then put the same frames into the archive
    as the loop.  Frames are compared without their nonces (`SameOut`,
    `SameWriter`): sizes and positions do not depend on them. -/

namespace Zupt.Writers

open Zupt.Seal Zupt.Frame Zupt.Transform Zupt.Decode Zupt.Index Zupt.Open Zupt.Paths
open Zupt.Layout Zupt.Compress Zupt.SlotPool Zupt.Authentication

variable {P : Primitives} {C : Codecs}

/-! ## The same frame of a block -/

/-- `vv_compress` does not look at capacity beyond `vv_compress_bound`: every
    block it emits is at most 7 bytes longer than its input, so that with the
    bound there is always room. -/
def CapacityInsensitive (C : Codecs) : Prop :=
  ∀ src cap level, vvzCompressBound src.length ≤ cap →
    C.vvCompress src cap level = C.vvCompress src (vvzCompressBound src.length) level

/-- The VaptVupt branch, which the copies give different buffers. -/
theorem compressVv_serial_eq_worker (hC : CapacityInsensitive C) (level : Int) (src : Bytes) :
    compressVv C (serialCaps src.length) level src
      = compressVv C (workerCaps src.length) level src := by
  have hcap : vvzCompressBound src.length ≤ (serialCaps src.length).vv := by
    show _ ≤ if vvzCompressBound src.length > lzhBound src.length + 512 then _ else _
    split <;> omega
  have hcall : C.vvzCompress src (serialCaps src.length).vv level
      = C.vvzCompress src (workerCaps src.length).vv level := by
    rw [Codecs.vvzCompress, Codecs.vvzCompress, hC src _ level hcap]
    rfl
  rw [compressVv, compressVv, hcall]
  rcases C.vvzCompress src (workerCaps src.length).vv level with - | out
  · rfl
  · -- what is shorter than the block fits the buffer it is copied to
    have hbound : src.length ≤ lzhBound src.length + 512 := by
      rw [lzhBound]
      omega
    have hfits : (out.length < src.length ∧
        ∀ cap ∈ (serialCaps src.length).vvCopied, out.length ≤ cap) ↔
        out.length < src.length ∧
          ∀ cap ∈ (workerCaps src.length).vvCopied, out.length ≤ cap := by
      refine and_congr_right fun hlt => ⟨fun _ cap hmem => ?_, fun _ cap hmem => (nomatch hmem)⟩
      obtain rfl : lzhBound src.length + 512 = cap := Option.some.inj hmem
      exact hlt.le.trans hbound
    exact if_congr hfits rfl rfl

/-- **THE TWO COPIES AGREE** on every block. -/
theorem serialFrame_eq_workerFrame (hC : CapacityInsensitive C) (codec : UInt16) (level : Int)
    (src : Bytes) (seq : UInt64) :
    serialFrame C codec level src seq = workerFrame C codec level src seq := by
  have hcomp : compressWith C (serialCaps src.length) codec level src
      = compressWith C (workerCaps src.length) codec level src := by
    rw [compressWith, compressWith, compressVv_serial_eq_worker hC]
    rfl
  rw [serialFrame, workerFrame, hcomp]

/-! ## The same writer, up to nonces -/

/-- Two archive files hold the same frames at the same places. -/
structure SameOut (out out' : OutState) : Prop where
  frames : out.frames.map Prod.fst = out'.frames.map Prod.fst
  pos : out.pos = out'.pos

/-- Two loops over the blocks of a file stand at the same place. -/
structure SameWriter (fw fw' : FileWriter) : Prop where
  out : SameOut fw.out fw'.out
  hash : fw.hash = fw'.hash
  comp : fw.comp = fw'.comp
  blockCount : fw.blockCount = fw'.blockCount
  blockSeq : fw.blockSeq = fw'.blockSeq

theorem SameWriter.refl (fw : FileWriter) : SameWriter fw fw := ⟨⟨rfl, rfl⟩, rfl, rfl, rfl, rfl⟩

theorem SameWriter.trans {fw fw' fw'' : FileWriter} (h : SameWriter fw fw')
    (h' : SameWriter fw' fw'') : SameWriter fw fw'' :=
  ⟨⟨h.out.frames.trans h'.out.frames, h.out.pos.trans h'.out.pos⟩, h.hash.trans h'.hash,
    h.comp.trans h'.comp, h.blockCount.trans h'.blockCount, h.blockSeq.trans h'.blockSeq⟩

theorem SameOut.put {kr : Option Keyring} {out out' : OutState} (h : SameOut out out')
    {w w' : Written} (hw : w.1 = w'.1) : SameOut (out.put P kr w) (out'.put P kr w') := by
  obtain ⟨hframes, hpos⟩ := h
  constructor
  · simp only [OutState.put, List.map_append, List.map_singleton, hframes, hw]
  · simp only [OutState.put, hpos, encodeWritten_length_eq P kr hw]

theorem SameWriter.put {kr : Option Keyring} {fw fw' : FileWriter} (h : SameWriter fw fw')
    {w w' : Written} (hw : w.1 = w'.1) : SameWriter (fw.put P kr w) (fw'.put P kr w') := by
  obtain ⟨hout, hhash, hcomp, hcount, hseq⟩ := h
  have hlen : (wirePayload P kr w).length = (wirePayload P kr w').length := by
    rw [wirePayload_length, wirePayload_length, hw]
  constructor
  · exact hout.put hw
  all_goals simp only [FileWriter.put, hhash, hcomp, hcount, hseq, hlen]

theorem SameWriter.count {fw fw' : FileWriter} (h : SameWriter fw fw') (chunk : Bytes) :
    SameWriter (fw.count chunk) (fw'.count chunk) := by
  obtain ⟨hout, hhash, hcomp, hcount, hseq⟩ := h
  constructor
  · simpa only [FileWriter.count_out] using hout
  · rw [FileWriter.count_hash, FileWriter.count_hash, hhash]
  · simpa only [FileWriter.count_comp] using hcomp
  · simpa only [FileWriter.count_blockCount] using hcount
  · rw [FileWriter.count_blockSeq, FileWriter.count_blockSeq, hseq]

variable {opts : WriterOptions} {env : WriterEnv}

/-- Without deduplication a block is one more DATA frame. -/
theorem putBlock_of_no_dedup (hdedup : opts.dedup = false) (data : WrittenFrame) (chunk : Bytes)
    (seq : UInt64) (fw : FileWriter) :
    putBlock P opts env data chunk seq fw
      = fw.put P opts.keyring (data, env.nonces fw.out.frames.length) := by
  have hhit : dedupHit opts env fw.out.dedup chunk = none := by
    rw [dedupHit, hdedup, if_neg (by decide)]
  rw [putBlock]
  simp only [hhit, dedupInsert, hdedup]
  rfl

/-! ## Batches -/

/-- The jobs of a batch, written as frames with some nonce. -/
def drainBlocks (P : Primitives) (C : Codecs) (opts : WriterOptions) (env : WriterEnv)
    (nonce : Nonce) (jobs : List CompressJob) (fw : FileWriter) : FileWriter :=
  jobs.foldl (fun fw job => fw.put P opts.keyring
    (workerFrame C (resolveCodec opts env) opts.level job.1 job.2, nonce)) fw

variable {nonce : Nonce}

theorem drainBlocks_same {fw fw' : FileWriter} (h : SameWriter fw fw') (jobs : List CompressJob) :
    SameWriter (drainBlocks P C opts env nonce jobs fw)
      (drainBlocks P C opts env nonce jobs fw') := by
  induction jobs generalizing fw fw' with
  | nil => exact h
  | cons job jobs ih => exact ih (h.put rfl)

theorem put_count (kr : Option Keyring) (w : Written) (fw : FileWriter) (chunk : Bytes) :
    (fw.count chunk).put P kr w = (fw.put P kr w).count chunk := by
  cases fw
  simp only [FileWriter.count, FileWriter.put]

/-- Counting a block does not meet the frames. -/
theorem drainBlocks_count (jobs : List CompressJob) (fw : FileWriter) (chunk : Bytes) :
    drainBlocks P C opts env nonce jobs (fw.count chunk)
      = (drainBlocks P C opts env nonce jobs fw).count chunk := by
  induction jobs generalizing fw with
  | nil => rw [drainBlocks, drainBlocks, List.foldl_nil, List.foldl_nil]
  | cons job jobs ih =>
      rw [drainBlocks, drainBlocks, List.foldl_cons, List.foldl_cons, put_count]
      exact ih (fw.put P opts.keyring _)

theorem drainBlocks_concat (jobs : List CompressJob) (job : CompressJob) (fw : FileWriter) :
    drainBlocks P C opts env nonce (jobs ++ [job]) fw
      = (drainBlocks P C opts env nonce jobs fw).put P opts.keyring
        (workerFrame C (resolveCodec opts env) opts.level job.1 job.2, nonce) := by
  rw [drainBlocks, List.foldl_append]
  rfl

theorem drainBlocks_blockSeq (jobs : List CompressJob) (fw : FileWriter) :
    (drainBlocks P C opts env nonce jobs fw).blockSeq = fw.blockSeq := by
  induction jobs generalizing fw with
  | nil => rfl
  | cons job jobs ih => exact ih (fw.put P opts.keyring _)

/-- Only these slots are in use. -/
def OnlyIn {J : Type} (σ : Track J) (slots : List Nat) : Prop :=
  ∀ slot, slot ∉ slots → σ.pending slot = none

/-- What collecting a batch without an error has done. -/
structure CollectedBlocks (P : Primitives) (C : Codecs) (opts : WriterOptions) (env : WriterEnv)
    (nonce : Nonce) (σ : Track CompressJob) (jobs : List CompressJob) (fw : FileWriter)
    (σ' : Track CompressJob) (fw' : FileWriter) : Prop where
  same : SameWriter (drainBlocks P C opts env nonce jobs fw) fw'
  submitted : σ'.submitted = σ.submitted
  sawError : σ'.sawError = σ.sawError
  empty : OnlyIn σ' []

variable {started : Nat → Prop} {E : Empty → Prop}

/-- **COLLECTING A BATCH** puts one frame into the archive for every job, in
    the order of submission. -/
theorem collectBlocks_spec (nonce : Nonce) {slots : List Nat} :
    ∀ {σ : Track CompressJob} {jobs : List CompressJob} {writeErr : Bool} {fw : FileWriter},
      Holds σ slots jobs → OnlyIn σ slots →
      wlp (compressPool C opts env started) E σ (collectBlocks P opts.keyring slots writeErr fw)
        fun σ' r => r.1 = false → writeErr = false ∧
          CollectedBlocks P C opts env nonce σ jobs fw σ' r.2 := by
  induction slots with
  | nil =>
      intro σ jobs writeErr fw hheld honly hok
      obtain rfl := List.forall₂_nil_left_iff.mp hheld.pending
      exact ⟨hok, .refl fw, rfl, rfl, honly⟩
  | cons slot slots ih =>
      intro σ jobs writeErr fw hheld honly job r hpend hyields
      obtain ⟨job', jobs', hhead, hrest, rfl⟩ := List.forall₂_cons_left_iff.mp hheld.pending
      obtain rfl : job' = job := Option.some.inj (hhead.symm.trans hpend)
      have hheld' := hheld.collect (compressPool C opts env started) r
      have honly' : OnlyIn (σ.collect (compressPool C opts env started) slot r) slots := by
        intro slot' hslot
        show Function.update σ.pending slot none slot' = none
        by_cases hs : slot' = slot
        · rw [hs, Function.update_self]
        · rw [Function.update_of_ne hs]
          exact honly slot' fun hmem => (List.mem_cons.mp hmem).elim hs hslot
      cases r with
      | error err =>
          refine (ih hheld' honly').mono ?_
          intro σ' r' h hok
          obtain ⟨hfalse, -⟩ := h hok
          exact nomatch hfalse
      | ok w =>
          have hw : w.1 = workerFrame C (resolveCodec opts env) opts.level job'.1 job'.2 := by
            rcases hyields with (⟨n, hn⟩ | herr) | ⟨-, hcancel⟩
            · rw [Except.ok.inj hn]
            · exact nomatch herr
            · exact nomatch hcancel
          refine (ih hheld' honly').mono ?_
          intro σ' r' h hok
          obtain ⟨herr, hc⟩ := h hok
          refine ⟨herr, (drainBlocks_same ?_ jobs').trans hc.same, hc.submitted, ?_, hc.empty⟩
          · exact (SameWriter.refl fw).put hw.symm
          · rw [hc.sawError]
            exact Bool.or_false _

/-! ## The two loops over the blocks of a file -/

theorem SameOut.symm {out out' : OutState} (h : SameOut out out') : SameOut out' out :=
  ⟨h.frames.symm, h.pos.symm⟩

theorem SameWriter.symm {fw fw' : FileWriter} (h : SameWriter fw fw') : SameWriter fw' fw :=
  ⟨h.out.symm, h.hash.symm, h.comp.symm, h.blockCount.symm, h.blockSeq.symm⟩

/-- The options of the run without threads. -/
def singleThreaded (opts : WriterOptions) : WriterOptions := { opts with threads := 1 }

/-- Another random generator. -/
def reseed (env : WriterEnv) (nonces : Nat → Nonce) : WriterEnv :=
  { env with nonces := nonces }

/-- The blocks of file `fi` from number `blockSeq` on, each with its sequence. -/
def jobsFrom (fi : Nat) : (blockSeq : Nat) → List Bytes → List CompressJob
  | _, [] => []
  | blockSeq, chunk :: chunks =>
      (chunk, fileAadSeq fi blockSeq) :: jobsFrom fi (blockSeq + 1) chunks

/-- The pool holds a batch that, once drained, brings the writer to where the
    single-threaded loop stands. -/
structure Behind (P : Primitives) (C : Codecs) (opts : WriterOptions) (env : WriterEnv)
    (nonce : Nonce) (σ : Track CompressJob) (pending : List Nat) (fw sfw : FileWriter)
    (jobs : List CompressJob) : Prop where
  holds : Holds σ pending jobs
  only : OnlyIn σ pending
  same : SameWriter (drainBlocks P C opts env nonce jobs fw) sfw

theorem Behind.blockSeq {σ : Track CompressJob} {pending : List Nat} {fw sfw : FileWriter}
    {jobs : List CompressJob} (h : Behind P C opts env nonce σ pending fw sfw jobs) :
    fw.blockSeq = sfw.blockSeq := by
  rw [← @drainBlocks_blockSeq P C opts env nonce jobs fw]
  exact h.same.blockSeq

/-- A flush leaves the writer behind the single-threaded loop. -/
theorem flushBlocks_spec {threads : Nat} {σ : Track CompressJob} {pending : List Nat}
    {fw sfw : FileWriter} {jobs : List CompressJob}
    (h : Behind P C opts env nonce σ pending fw sfw jobs) :
    wlp (compressPool C opts env started) E σ (flushBlocks P opts.keyring threads pending fw)
      fun σ' r => r.2.1 = false → σ'.submitted = σ.submitted ∧ σ'.sawError = σ.sawError ∧
        ∃ jobs', Behind P C opts env nonce σ' r.1 r.2.2 sfw jobs' := by
  rw [flushBlocks]
  by_cases hlt : pending.length < threads
  · rw [if_pos hlt]
    exact fun _ => ⟨rfl, rfl, jobs, h⟩
  · rw [if_neg hlt]
    refine wlp.bind ((collectBlocks_spec nonce h.holds h.only).mono ?_)
    intro σ' r hr hok
    obtain ⟨-, hc⟩ := hr hok
    exact ⟨hc.submitted, hc.sawError, [], .nil σ', hc.empty, hc.same.symm.trans h.same⟩

/-- A block is submitted here and written there. -/
theorem Behind.submit (hC : CapacityInsensitive C) (hdedup : opts.dedup = false)
    (nonces : Nat → Nonce) {σ : Track CompressJob} {pending : List Nat} {fw sfw : FileWriter}
    {jobs : List CompressJob} (h : Behind P C opts env nonce σ pending fw sfw jobs) {slot : Nat}
    (hfree : σ.pending slot = none) (chunk : Bytes) (seq : UInt64) :
    Behind P C opts env nonce
      (σ.submit (compressPool C opts env started) slot (chunk, seq)) (pending ++ [slot])
      (fw.count chunk)
      ((putBlock P (singleThreaded opts) (reseed env nonces)
        (serialFrame C (resolveCodec opts env) opts.level chunk seq) chunk seq sfw).count chunk)
      (jobs ++ [(chunk, seq)]) := by
  refine ⟨h.holds.submit hfree _, fun slot' hslot => ?_, ?_⟩
  · obtain ⟨hold, hnew⟩ := not_or.mp (List.mem_append.not.mp hslot)
    show Function.update σ.pending slot _ slot' = none
    rw [Function.update_of_ne fun heq => hnew (List.mem_singleton.mpr heq)]
    exact h.only slot' hold
  · have hsingle : (singleThreaded opts).dedup = false := hdedup
    rw [drainBlocks_count, drainBlocks_concat, putBlock_of_no_dedup hsingle,
      serialFrame_eq_workerFrame hC]
    refine (h.same.put ?_).count chunk
    rfl

/-- **THE BATCHES AND THE LOOP** over the blocks of a file write the same
    frames. -/
theorem mtBlocks_spec (hC : CapacityInsensitive C) (hdedup : opts.dedup = false)
    (nonces : Nat → Nonce) {threads fi : Nat} {chunks : List Bytes} :
    ∀ {σ : Track CompressJob} {pending : List Nat} {fw sfw : FileWriter}
      {jobs : List CompressJob}, Behind P C opts env nonce σ pending fw sfw jobs →
      wlp (compressPool C opts env started) E σ
        (mtBlocks P opts.keyring threads fi chunks pending fw)
        fun σ' r => r.1 = false →
          SameWriter r.2 (serialBlocks P C (singleThreaded opts) (reseed env nonces) fi chunks
            sfw) ∧
          σ'.submitted = σ.submitted ++ jobsFrom fi fw.blockSeq chunks ∧
          σ'.sawError = σ.sawError ∧ OnlyIn σ' [] := by
  induction chunks with
  | nil =>
      intro σ pending fw sfw jobs h
      refine (collectBlocks_spec nonce h.holds h.only).mono ?_
      intro σ' r hr hok
      obtain ⟨-, hc⟩ := hr hok
      refine ⟨hc.same.symm.trans h.same, ?_, hc.sawError, hc.empty⟩
      rw [hc.submitted, jobsFrom, List.append_nil]
  | cons chunk chunks ih =>
      intro σ pending fw sfw jobs h
      rw [mtBlocks]
      refine wlp.bind ((flushBlocks_spec h).mono ?_)
      rintro σ' ⟨pending', writeErr, fw'⟩ hflush
      cases writeErr with
      | true => exact fun hok => (nomatch hok)
      | false =>
          obtain ⟨hsub, hsaw, jobs', h'⟩ := hflush rfl
          have hseq : fw'.blockSeq = fw.blockSeq := h'.blockSeq.trans h.blockSeq.symm
          intro hfree
          refine (ih (h'.submit hC hdedup nonces hfree chunk (fileAadSeq fi fw'.blockSeq))).mono ?_
          intro σ'' r hr hok
          obtain ⟨hsame, hsub', hsaw', hempty⟩ := hr hok
          refine ⟨?_, ?_, hsaw'.trans hsaw, hempty⟩
          · rw [serialBlocks, ← h'.blockSeq]
            exact hsame
          · rw [hsub', FileWriter.count_blockSeq, jobsFrom, hseq]
            show (σ'.submitted ++ [_]) ++ _ = _
            rw [hsub, List.append_assoc, List.singleton_append]

/-! ## The loops over the files -/

/-- The single-threaded loop does not look at nonces, nor at `threads`. -/
theorem serialBlocks_same (hdedup : opts.dedup = false) (nonces : Nat → Nonce) {fi : Nat}
    {chunks : List Bytes} {fw sfw : FileWriter} (h : SameWriter fw sfw) :
    SameWriter (serialBlocks P C opts env fi chunks fw)
      (serialBlocks P C (singleThreaded opts) (reseed env nonces) fi chunks sfw) := by
  induction chunks generalizing fw sfw with
  | nil => exact h
  | cons chunk chunks ih =>
      have hsingle : (singleThreaded opts).dedup = false := hdedup
      rw [serialBlocks, serialBlocks, putBlock_of_no_dedup hdedup, putBlock_of_no_dedup hsingle]
      refine ih ((h.put ?_).count chunk)
      rw [h.blockSeq]
      rfl

/-- All blocks of these files, in order. -/
def blocksRead (opts : WriterOptions) : (fi : Nat) → List Input → List CompressJob
  | _, [] => []
  | fi, input :: inputs =>
      jobsFrom fi 0 (chunksOf (resolveBlockSize opts).toNat input.content)
        ++ blocksRead opts (fi + 1) inputs

theorem SameOut.start {out out' : OutState} (h : SameOut out out') :
    SameWriter (.start out) (.start out') := ⟨h, rfl, rfl, rfl, rfl⟩

/-- One file, through the pool or not. -/
theorem compressBlocks_spec (hC : CapacityInsensitive C) (hdedup : opts.dedup = false)
    (nonces : Nat → Nonce) {mt : Bool} {fi : Nat} {input : Input} {out sout : OutState}
    {σ : Track CompressJob} (hout : SameOut out sout) (hempty : OnlyIn σ []) :
    wlp (compressPool C opts env started) E σ (compressBlocks P C opts env mt fi input out)
      fun σ' r => r.1 = false →
        SameWriter r.2 (serialBlocks P C (singleThreaded opts) (reseed env nonces) fi
          (chunksOf (resolveBlockSize opts).toNat input.content) (.start sout)) ∧
        σ'.submitted = σ.submitted ++ (if mt then
          jobsFrom fi 0 (chunksOf (resolveBlockSize opts).toNat input.content) else []) ∧
        σ'.sawError = σ.sawError ∧ OnlyIn σ' [] := by
  cases mt with
  | true =>
      have hbehind : Behind P C opts env (nonces 0) σ [] (.start out) (.start sout) [] :=
        ⟨.nil σ, hempty, hout.start⟩
      exact mtBlocks_spec hC hdedup nonces hbehind
  | false =>
      exact fun _ => ⟨serialBlocks_same hdedup nonces hout.start, (List.append_nil _).symm, rfl,
        hempty⟩

/-- Both runs over the files. -/
structure SameFiles (jobs : List CompressJob) (σ σ' : Track CompressJob)
    (a b : OutState × List IndexEntry) : Prop where
  out : SameOut a.1 b.1
  entries : a.2 = b.2
  submitted : σ'.submitted = σ.submitted ++ jobs
  sawError : σ'.sawError = σ.sawError
  empty : OnlyIn σ' []

/-- The entries do not look at nonces. -/
theorem fileEntry_eq {fw fw' : FileWriter} (h : SameWriter fw fw') (input : Input) (pos : Nat) :
    fileEntry input pos fw = fileEntry input pos fw' := by
  rw [fileEntry, fileEntry, h.comp, h.hash, h.blockCount]

/-- The files one by one: what the pool writes is what the loop writes. -/
theorem compressInputs_spec (hC : CapacityInsensitive C) (hdedup : opts.dedup = false)
    (nonces : Nat → Nonce) {mt : Bool} {inputs : List Input} :
    ∀ {fi : Nat} {out sout : OutState} {index : List IndexEntry} {σ : Track CompressJob},
      SameOut out sout → OnlyIn σ [] →
      wlp (compressPool C opts env started) E σ
        (compressInputs P C opts env mt fi inputs out index)
        fun σ' r => ∀ a, r = some a → ∃ b,
          compressInputs P C (singleThreaded opts) (reseed env nonces) false fi inputs sout index
            = .ret (some b) ∧
          SameFiles (if mt then blocksRead opts fi inputs else []) σ σ' a b := by
  induction inputs with
  | nil =>
      intro fi out sout index σ hout hempty a ha
      obtain rfl := Option.some.inj ha
      refine ⟨(sout, index), rfl, hout, rfl, ?_, rfl, hempty⟩
      rw [blocksRead, ite_self, List.append_nil]
  | cons input inputs ih =>
      intro fi out sout index σ hout hempty
      rw [compressInputs, compressInputs]
      by_cases hlarge : input.content.length ≥ 2 ^ 63
      · rw [if_pos hlarge]
        exact fun a ha => (nomatch ha)
      · rw [if_neg hlarge, if_neg hlarge]
        refine wlp.bind ((compressBlocks_spec hC hdedup nonces hout hempty).mono ?_)
        rintro σ' ⟨writeErr, fw⟩ hblocks
        cases writeErr with
        | true => exact fun a ha => (nomatch ha)
        | false =>
            obtain ⟨hsame, hsub, hsaw, hempty'⟩ := hblocks rfl
            refine (ih hsame.out hempty').mono ?_
            intro σ'' r hr a ha
            obtain ⟨b, hb, hfiles⟩ := hr a ha
            rw [fileEntry_eq hsame, hout.pos] at hb
            refine ⟨b, hb, hfiles.out, hfiles.entries, ?_, hfiles.sawError.trans hsaw,
              hfiles.empty⟩
            rw [hfiles.submitted, hsub, blocksRead, List.append_assoc]
            cases mt <;> rfl

/-! ## The archives -/

/-- Two archives, up to the nonces of their frames and the flag that says
    threads were used. -/
structure SameArchive (P : Primitives) (a b : Archive) : Prop where
  keyring : a.parts.keyring = b.parts.keyring
  frames : a.parts.frames.map Prod.fst = b.parts.frames.map Prod.fst
  sizes : a.parts.frames.map (fun w => (wirePayload P a.parts.keyring w).length)
    = b.parts.frames.map fun w => (wirePayload P b.parts.keyring w).length
  entries : a.entries = b.entries

/-- Frames that agree without their nonces agree in their sizes. -/
theorem sizes_eq (kr : Option Keyring) {ws ws' : List Written}
    (h : ws.map Prod.fst = ws'.map Prod.fst) :
    ws.map (fun w => (wirePayload P kr w).length)
      = ws'.map fun w => (wirePayload P kr w).length := by
  have hsize : ∀ ws : List Written, ws.map (fun w => (wirePayload P kr w).length)
      = (ws.map Prod.fst).map (wireSize kr) := by
    intro ws
    rw [List.map_map]
    exact List.map_congr_left fun w _ => wirePayload_length P kr w
  rw [hsize, hsize, h]

theorem sameArchive_finish {mt mt' : Bool} {nonces : Nat → Nonce}
    {a b : OutState × List IndexEntry} (hout : SameOut a.1 b.1) (hentries : a.2 = b.2) :
    SameArchive P (finishFiles P C opts env mt a.1 a.2)
      (finishFiles P C (singleThreaded opts) (reseed env nonces) mt' b.1 b.2) :=
  ⟨rfl, hout.frames, sizes_eq opts.keyring hout.frames, hentries⟩

/-- **THREADS CHANGE NOTHING**: whatever the interleaving, an archive written
    with threads is the archive written without, and every block read is
    worked on once. -/
theorem compressParallel_eq_serial (hC : CapacityInsensitive C) (hdedup : opts.dedup = false)
    {pool : Bool} {inputs : List Input} {nonces : Nat → Nonce}
    {c : Config CompressJob (Result Written) Empty (Result Archive)} {a : Archive}
    (hrun : Reachable (compressPool C opts env started) (compressFiles P C opts env pool inputs) c)
    (hmain : c.main = .run (.ret (.ok a))) :
    (∃ b, compressFiles P C (singleThreaded opts) (reseed env nonces) pool inputs
        = .ret (.ok b) ∧ SameArchive P a b) ∧
      c.processed.Perm
        (if multithreaded opts pool then blocksRead opts 0 inputs else []).zipIdx := by
  have hprog : wlp (compressPool C opts env started) (fun _ => True) Track.initial
      (compressFiles P C opts env pool inputs) fun σ' r => ∀ a, r = .ok a →
        (∃ b, compressFiles P C (singleThreaded opts) (reseed env nonces) pool inputs
            = .ret (.ok b) ∧ SameArchive P a b) ∧
          σ'.submitted = (if multithreaded opts pool then blocksRead opts 0 inputs else []) ∧
          σ'.sawError = false ∧ OnlyIn σ' [] := by
    have hserial : multithreaded (singleThreaded opts) pool = false := by
      cases pool <;> rfl
    rw [compressFiles, compressFiles, hserial]
    cases inputsError inputs with
    | some e => exact fun a ha => (nomatch ha)
    | none =>
        refine wlp.bind ((compressInputs_spec hC hdedup nonces ⟨rfl, rfl⟩ fun _ _ => rfl).mono ?_)
        rintro σ' (- | ⟨out, entries⟩) hfiles a ha
        · exact nomatch ha
        · obtain rfl := Except.ok.inj ha
          obtain ⟨b, hb, hsame⟩ := hfiles _ rfl
          refine ⟨⟨finishFiles P C (singleThreaded opts) (reseed env nonces) false b.1 b.2, ?_,
            sameArchive_finish hsame.out hsame.entries⟩, hsame.submitted, hsame.sawError,
            hsame.empty⟩
          show Prog.bind (compressInputs P C (singleThreaded opts) (reseed env nonces) false 0
            inputs ⟨[], firstFramePos opts, .init⟩ []) _ = _
          rw [hb]
          rfl
  obtain ⟨σ, hd, hsaw, hQ⟩ := wlp_sound hprog hrun hmain
  obtain ⟨hsame, hsub, hsaw', hempty⟩ := hQ a rfl
  refine ⟨hsame, ?_⟩
  rw [← hsub, ← hd.submitted]
  refine processed_perm hrun (hsaw.trans hsaw') fun i => ?_
  have hslot : (c.slots i).job? = none := by
    rw [hd.pending, hempty i List.not_mem_nil]
  cases hi : c.slots i with
  | empty => rfl
  | ready id job =>
      rw [hi] at hslot
      exact nomatch hslot
  | done id job r =>
      rw [hi] at hslot
      exact nomatch hslot

/-! ## Two small files -/

/-- Store blocks of one byte with two threads. -/
def smallWriter : WriterOptions where
  level := 0
  blockSize := 1
  codecId := codecStore
  dedup := false
  threads := 2
  comment := none
  encrypt := none

/-- A clock that stands still and a generator that repeats itself. -/
def smallEnv : WriterEnv where
  creationTime := 0
  archiveId := ⟨List.replicate 16 0, Trailer.zeroed_id_length⟩
  nonces _ := ⟨toyNonce, toyNonce_length⟩
  resolveAutoCodec := codecStore
  sha256 _ := List.replicate 32 0

/-- A file of three blocks and a file of one. -/
def smallInputs : List Input :=
  [⟨⟨[0x61], Extract.nul_notMem_a⟩, [1, 2, 3], 0⟩, ⟨⟨[0x62], Extract.nul_notMem_b⟩, [4], 0⟩]

/-- What two threads return if every worker runs to the end at once. -/
def smallCompressRun : Option (Result Archive) :=
  runEager (compressPool storeOnly smallWriter smallEnv fun _ => True).nslots
    (fun job => .ok (workerFrame storeOnly codecStore 0 job.1 job.2, smallEnv.nonces 0))
    (compressPool storeOnly smallWriter smallEnv fun _ => True).failed (.error .corrupt) false
    (fun _ => none)
    (compressFiles toyPrimitives storeOnly smallWriter smallEnv true smallInputs)

/-- Some interleaving of both workers ends with an archive, and it is the one
    written without threads. -/
theorem compressParallel_eq_serial_small :
    ∃ c a, Reachable (compressPool storeOnly smallWriter smallEnv fun _ => True)
        (compressFiles toyPrimitives storeOnly smallWriter smallEnv true smallInputs) c ∧
      c.main = .run (.ret (.ok a)) ∧
      (∃ b, compressFiles toyPrimitives storeOnly (singleThreaded smallWriter)
          (reseed smallEnv smallEnv.nonces) true smallInputs = .ret (.ok b) ∧
        SameArchive toyPrimitives a b) ∧
      c.processed.Perm [(([1], 0x100000000), 0), (([2], 0x100000001), 1),
        (([3], 0x100000002), 2), (([4], 0x200000000), 3)] := by
  have hok : (smallCompressRun.any fun r => r.toOption.isSome) = true := by decide
  obtain ⟨r, hr, hsome⟩ := (Option.any_eq_true _ _).mp hok
  cases r with
  | error e => exact nomatch hsome
  | ok a =>
      have heager : Eager (compressPool storeOnly smallWriter smallEnv fun _ => True) false
          (fun _ => none)
          (compressFiles toyPrimitives storeOnly smallWriter smallEnv true smallInputs) (.ok a) :=
        eager_of_runEager (fun _ => trivial) (fun job => Or.inl ⟨smallEnv.nonces 0, rfl⟩) hr
      obtain ⟨c, hc, hmain⟩ := returns_of_eager heager
      obtain ⟨hsame, hperm⟩ :=
        compressParallel_eq_serial (fun _ _ _ _ => rfl) rfl hc hmain
      exact ⟨c, a, hc, hmain, hsame, hperm⟩

end Zupt.Writers
