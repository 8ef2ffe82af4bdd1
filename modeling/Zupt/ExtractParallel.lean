import Zupt.Publication

/-! # Extraction with threads against extraction without

    With threads an entry comes out of the pool as the single-threaded loop
    leaves it, unless a frame of an *earlier* entry was rejected: the error
    flag of the pool is never lowered, so that every later frame may be
    cancelled.  An entry that went bad also leaves the stream at another
    place, which an entry whose offset `fseeko` refuses inherits.

    `Undisturbed` rules out exactly these two; then both extractions publish
    the same files and answer the same. -/

namespace Zupt.Extract

open Zupt.Stream Zupt.Seal Zupt.Frame Zupt.Transform Zupt.Decode Zupt.Index Zupt.Open
open Zupt.Paths Zupt.SlotPool Zupt.Trailer Zupt.Layout Zupt.Authentication

variable {P : Primitives} {C : Codecs}

/-! ## Two decoders that agree -/

/-- Two decoders give the same answer for every DATA frame of the archive. -/
def DecodersAgree (dec dec' : Block → UInt64 → Result Bytes) (bytes : Bytes) : Prop :=
  ∀ pos blk next seq, readBlock.run bytes pos = (.ok blk, next) → blk.blockType = blockData →
    (dec blk seq).toOption = (dec' blk seq).toOption

theorem DecodersAgree.ok {dec dec' : Block → UInt64 → Result Bytes} {bytes : Bytes}
    (h : DecodersAgree dec dec' bytes) {pos next : Nat} {blk : Block} {seq : UInt64} {out : Bytes}
    (hread : readBlock.run bytes pos = (.ok blk, next)) (htype : blk.blockType = blockData)
    (hdec : dec blk seq = .ok out) : dec' blk seq = .ok out := by
  have hsame := h pos blk next seq hread htype
  rw [hdec] at hsame
  cases hdec' : dec' blk seq with
  | error err =>
      rw [hdec'] at hsame
      exact nomatch hsame
  | ok out' =>
      rw [hdec'] at hsame
      rw [Option.some.inj hsame]

theorem DecodersAgree.symm {dec dec' : Block → UInt64 → Result Bytes} {bytes : Bytes}
    (h : DecodersAgree dec dec' bytes) : DecodersAgree dec' dec bytes :=
  fun pos blk next seq hread htype => (h pos blk next seq hread htype).symm

theorem DecodersAgree.error {dec dec' : Block → UInt64 → Result Bytes} {bytes : Bytes}
    (h : DecodersAgree dec dec' bytes) {pos next : Nat} {blk : Block} {seq : UInt64}
    {err : ZuptError} (hread : readBlock.run bytes pos = (.ok blk, next))
    (htype : blk.blockType = blockData) (hdec : dec blk seq = .error err) :
    ∃ err', dec' blk seq = .error err' := by
  cases hdec' : dec' blk seq with
  | error err' => exact ⟨err', rfl⟩
  | ok out =>
      rw [h.symm.ok hread htype hdec'] at hdec
      exact nomatch hdec

variable {dec dec' : Block → UInt64 → Result Bytes} {src : Source} {env : OutputEnv} {i : Nat}
  {e : IndexEntry}

/-- The loop only looks at what the decoder accepts, and at the bytes. -/
theorem blockLoop_congr (h : DecodersAgree dec dec' src.bytes) (n b : Nat) (st : FileState) :
    blockLoop P C dec src env i e n b st = blockLoop P C dec' src env i e n b st := by
  induction n generalizing b st with
  | zero => rfl
  | succ n ih =>
      cases hread : readBlock.run src.bytes st.pos with
      | mk res next =>
          cases res with
          | error err => rw [blockLoop_unread hread, blockLoop_unread hread]
          | ok blk =>
              rw [blockLoop_succ hread, blockLoop_succ hread]
              by_cases href : blk.blockType = blockDedupRef
              · rw [if_pos href, if_pos href]
                cases referencedData P C src i b next blk with
                | error err => rfl
                | ok out => exact ih (b + 1) _
              · rw [if_neg href, if_neg href]
                by_cases htype : blk.blockType = blockData
                · rw [if_neg (not_not.mpr htype), if_neg (not_not.mpr htype)]
                  cases hdec : dec blk (archiveDataAadSeq src.globalFlags i b) with
                  | error err =>
                      obtain ⟨err', hdec'⟩ := h.error hread htype hdec
                      rw [hdec']
                  | ok out =>
                      rw [h.ok hread htype hdec]
                      exact ih (b + 1) _
                · rw [if_pos htype, if_pos htype]

theorem Rejected.congr (h : DecodersAgree dec dec' src.bytes) {start : Nat}
    (hrej : Rejected dec src i e start) : Rejected dec' src i e start := by
  obtain ⟨b, pos, blk, next, err, hb, hframe, hread, htype, hdec⟩ := hrej
  obtain ⟨err', hdec'⟩ := h.error hread htype hdec
  exact ⟨b, pos, blk, next, err', hb, hframe, hread, htype, hdec'⟩

/-! ## The single-threaded run -/

/-- `decompress_block` with the keyring of the archive. -/
abbrev serialDec (P : Primitives) (C : Codecs) (kr : Keyring) (blk : Block) (seq : UInt64) :
    Result Bytes :=
  decompressBlock P C blk (some kr) seq

/-- Whether an entry is left out before it is decoded. -/
def skipped (env : OutputEnv) (i : Nat) (e : IndexEntry) : Bool :=
  !pathIsSafe e.path.bytes || !env.canOpen i

/-- Where the decoding of an entry starts, with the stream at `pos`. -/
def entryStart (e : IndexEntry) (pos : Nat) : Nat := (fseeko e.firstBlockOffset pos).2

/-- The single-threaded decoding of an entry, with the stream at `pos`. -/
def serialEntry (P : Primitives) (C : Codecs) (src : Source) (env : OutputEnv) (i : Nat)
    (e : IndexEntry) (pos : Nat) : FileState :=
  serialLoop P C src env i e e.blockCount.toNat 0 ⟨entryStart e pos, .start, false⟩

/-- The loop over the entries without a pool, as a function. -/
def serialEntries (P : Primitives) (C : Codecs) (src : Source) (env : OutputEnv) :
    (i : Nat) → List IndexEntry → RunState → RunState
  | _, [], run => run
  | i, e :: es, run =>
      if skipped env i e then serialEntries P C src env (i + 1) es { run with fail := run.fail + 1 }
      else serialEntries P C src env (i + 1) es
        (RunState.finish src.globalFlags env i e (serialEntry P C src env i e run.pos) run)

/-! ## Undisturbed entries -/

/-- The entry goes through the pool. -/
def pooled (mt : Bool) (e : IndexEntry) : Bool := mt && decide (1 < e.blockCount.toNat)

/-- No entry of several blocks that is intact comes behind one with a frame
    the decoder rejects (`poisoned`), and no entry that `fseeko` refuses to
    seek to comes right behind one whose decoding may have stopped elsewhere
    (`drifted`).  The walk follows the single-threaded extraction. -/
def Undisturbed (P : Primitives) (C : Codecs) (src : Source) (env : OutputEnv) (mt : Bool) :
    (i : Nat) → List IndexEntry → (pos : Nat) → (poisoned drifted : Prop) → Prop
  | _, [], _, _, _ => True
  | i, e :: es, pos, poisoned, drifted =>
      if skipped env i e then Undisturbed P C src env mt (i + 1) es pos poisoned drifted
      else
        let fin := serialEntry P C src env i e pos
        (drifted → e.firstBlockOffset.toNat < 2 ^ 63) ∧
        (pooled mt e = true → poisoned → entryBad src.globalFlags e fin = true) ∧
        Undisturbed P C src env mt (i + 1) es fin.pos
          (poisoned ∨ pooled mt e = true ∧
            Rejected (serialDec P C src.keyring) src i e (entryStart e pos))
          (pooled mt e = true ∧ (fin.berr = true ∨ poisoned))

/-! ## Both runs, side by side -/

/-- The outputs of a run that were published. -/
def publishedFiles (outputs : List OutputFile) : List OutputFile := outputs.filter (·.published)

/-- Two runs over entries have counted and published the same. -/
structure Agrees (run run' : RunState) : Prop where
  fail : run.fail = run'.fail
  published : publishedFiles run.outputs = publishedFiles run'.outputs

theorem Agrees.skip {run run' : RunState} (h : Agrees run run') :
    Agrees { run with fail := run.fail + 1 } { run' with fail := run'.fail + 1 } :=
  ⟨congrArg (· + 1) h.fail, h.published⟩

/-- Two ways an entry came out that are both bad, or the same. -/
structure SameEntry (globalFlags : UInt32) (e : IndexEntry) (st st' : FileState) : Prop where
  bad_eq : entryBad globalFlags e st = entryBad globalFlags e st'
  eq_of_good : entryBad globalFlags e st' = false → st = st'

theorem Agrees.finish {globalFlags : UInt32} {st st' : FileState} {run run' : RunState}
    (h : Agrees run run') (hst : SameEntry globalFlags e st st') :
    Agrees (RunState.finish globalFlags env i e st run)
      (RunState.finish globalFlags env i e st' run') := by
  cases hbad : entryBad globalFlags e st' with
  | false =>
      rw [hst.eq_of_good hbad]
      refine ⟨?_, ?_⟩
      · show (if _ then run.fail else run.fail + 1) = if _ then run'.fail else run'.fail + 1
        rw [h.fail]
      · show publishedFiles (run.outputs ++ _) = publishedFiles (run'.outputs ++ _)
        rw [publishedFiles, publishedFiles, List.filter_append, List.filter_append]
        exact congrArg (· ++ _) h.published
  | true =>
      -- a bad entry publishes nothing, whatever it wrote
      have hfin : entryOutput globalFlags env i e st' = (.failed, ⟨i, st'.progress.data, false⟩) := by
        rw [entryOutput, if_pos hbad]
      have hfin' : entryOutput globalFlags env i e st = (.failed, ⟨i, st.progress.data, false⟩) := by
        rw [entryOutput, if_pos (hst.bad_eq.trans hbad)]
      rw [RunState.finish, RunState.finish, hfin, hfin']
      refine ⟨congrArg (· + 1) h.fail, ?_⟩
      show publishedFiles (run.outputs ++ [⟨i, st.progress.data, false⟩])
        = publishedFiles (run'.outputs ++ [⟨i, st'.progress.data, false⟩])
      rw [publishedFiles, publishedFiles, List.filter_append, List.filter_append]
      exact congrArg (· ++ []) h.published

/-- An entry through the pool and the single-threaded entry, where nothing
    earlier can have cancelled an intact one. -/
theorem sameEntry_of_outcome {globalFlags : UInt32} {st F : FileState} {may₀ rejected : Prop}
    {σ' : Track DecodeJob} (h : PoolOutcome may₀ F rejected e.uncompressedSize σ' st)
    (hintact : may₀ → entryBad globalFlags e F = true) : SameEntry globalFlags e st F := by
  cases hst : st.berr with
  | false =>
      rw [h.eq_of_ok hst]
      exact ⟨rfl, fun _ => rfl⟩
  | true =>
      have hbad : entryBad globalFlags e st = true := by
        rw [entryBad, hst, Bool.true_or]
      have hF : entryBad globalFlags e F = true := by
        rcases h.bad hst with hF | hmay
        · rw [entryBad, hF, Bool.true_or]
        · exact hintact hmay
      refine ⟨hbad.trans hF.symm, fun hgood => ?_⟩
      rw [hF] at hgood
      exact nomatch hgood

/-- Where the position does not matter, or is the same. -/
theorem entryStart_eq {pos pos' : Nat} {drifted : Prop}
    (hseek : drifted → e.firstBlockOffset.toNat < 2 ^ 63) (hpos : ¬ drifted → pos = pos') :
    entryStart e pos = entryStart e pos' := by
  by_cases hoff : e.firstBlockOffset.toNat < 2 ^ 63
  · rw [entryStart, entryStart, fseeko, if_pos hoff, fseeko, if_pos hoff]
  · rw [hpos (fun hd => hoff (hseek hd))]

section Run

variable {threads : Nat} {started : Nat → Prop}

/-- **ALL ENTRIES**: in every interleaving the run with a pool agrees with
    the run without one. -/
theorem extractEntries_agrees (mt : Bool)
    (hdec : DecodersAgree (workerDec P C (workerKeyring src.globalFlags src.keyring))
      (serialDec P C src.keyring) src.bytes) (es : List IndexEntry) :
    ∀ (i : Nat) (run run' : RunState) (σ : Track DecodeJob) (poisoned drifted : Prop),
      Undisturbed P C src env mt i es run'.pos poisoned drifted → (σ.mayFail → poisoned) →
      (¬ drifted → run.pos = run'.pos) → Agrees run run' →
      wlp (decodePool P C threads started (workerKeyring src.globalFlags src.keyring))
        (fun _ => True) σ (extractEntries P C src env mt threads i es run)
        fun _ r => Agrees r (serialEntries P C src env i es run') := by
  induction es with
  | nil => exact fun i run run' σ poisoned drifted _ _ _ h => h
  | cons e es ih =>
      intro i run run' σ poisoned drifted hund hmay hpos hagree
      rw [Undisturbed] at hund
      rw [extractEntries, serialEntries]
      show wlp _ _ _ (if skipped env i e = true then _ else _) _
      by_cases hskip : skipped env i e = true
      · rw [if_pos hskip] at hund ⊢
        rw [if_pos hskip]
        exact ih (i + 1) _ _ σ poisoned drifted hund hmay hpos hagree.skip
      · rw [if_neg hskip] at hund ⊢
        rw [if_neg hskip]
        obtain ⟨hseek, hintact, hrest⟩ := hund
        have hstart : entryStart e run.pos = entryStart e run'.pos := entryStart_eq hseek hpos
        -- the single-threaded entry, from the start both share
        have hserial : serialLoop P C src env i e e.blockCount.toNat 0
            ⟨entryStart e run.pos, .start, false⟩ = serialEntry P C src env i e run'.pos := by
          rw [hstart]
          rfl
        refine wlp.bind ?_
        show wlp _ _ _ (if pooled mt e = true then _ else _) _
        by_cases hpool : pooled mt e = true
        · rw [if_pos hpool]
          refine (mtLoop_spec (fun _ _ => trivial) (MtState.start _ σ)).mono ?_
          intro σ' st hout
          rw [blockLoop_congr hdec] at hout
          change PoolOutcome _ (serialLoop P C src env i e e.blockCount.toNat 0
            ⟨entryStart e run.pos, .start, false⟩) _ _ σ' st at hout
          rw [hserial] at hout
          refine ⟨trivial, ih (i + 1) _ _ σ' _ _ hrest ?_ ?_ (hagree.finish
            (sameEntry_of_outcome hout fun hm => hintact hpool (hmay hm)))⟩
          · intro hm
            rcases hout.mayFail hm with hm | hrej
            · exact Or.inl (hmay hm)
            · have hrej' := hrej.congr hdec
              change Rejected _ src i e (entryStart e run.pos) at hrej'
              rw [hstart] at hrej'
              exact Or.inr ⟨hpool, hrej'⟩
          · intro hdrift
            -- nothing went wrong and nothing was cancelled
            cases hst : st.berr with
            | false => exact congrArg FileState.pos (hout.eq_of_ok hst)
            | true =>
                refine absurd ⟨hpool, ?_⟩ hdrift
                exact (hout.bad hst).imp id hmay
        · rw [if_neg hpool]
          refine ⟨trivial, trivial, ?_⟩
          have hsame : SameEntry src.globalFlags e (serialLoop P C src env i e e.blockCount.toNat 0
              ⟨entryStart e run.pos, .start, false⟩) (serialEntry P C src env i e run'.pos) := by
            rw [hserial]
            exact ⟨rfl, fun _ => rfl⟩
          refine ih (i + 1) _ _ σ _ _ hrest (fun hm => Or.inl (hmay hm)) ?_ (hagree.finish hsame)
          exact fun _ => congrArg FileState.pos hserial

/-- Without a pool the loop over the entries is the function. -/
theorem extractEntries_serial {pool : Pool DecodeJob (Result Bytes)} (es : List IndexEntry) :
    ∀ (i : Nat) (run : RunState) (σ : Track DecodeJob),
      wlp pool (fun _ => True) σ (extractEntries P C src env false threads i es run)
        fun _ r => r = serialEntries P C src env i es run := by
  induction es with
  | nil => exact fun i run σ => rfl
  | cons e es ih =>
      intro i run σ
      rw [extractEntries, serialEntries]
      show wlp _ _ _ (if skipped env i e = true then _ else _) _
      by_cases hskip : skipped env i e = true
      · rw [if_pos hskip, if_pos hskip]
        exact ih (i + 1) _ σ
      · rw [if_neg hskip, if_neg hskip]
        exact ⟨trivial, trivial, ih (i + 1) _ σ⟩

end Run

/-! ## The whole extraction -/

/-- Two extractions answer the same and publish the same files. -/
structure SameOutcome (r r' : Result Unit × List OutputFile) : Prop where
  verdict : r.1 = r'.1
  published : publishedFiles r.2 = publishedFiles r'.2

theorem SameOutcome.refl (r : Result Unit × List OutputFile) : SameOutcome r r := ⟨rfl, rfl⟩

theorem Agrees.outcome {run run' : RunState} (h : Agrees run run') :
    SameOutcome (verdict run, run.outputs) (verdict run', run'.outputs) := by
  refine ⟨?_, h.published⟩
  show verdict run = verdict run'
  rw [verdict, verdict, h.fail]

/-- `Undisturbed` for a whole archive that is opened and extracted entry by
    entry. -/
def UndisturbedArchive (P : Primitives) (C : Codecs) (opts : ReaderOptions) (env : OutputEnv)
    (pool : Bool) (bytes : Bytes) : Prop :=
  ∀ o pos map, (openArchive P C opts).run bytes 0 = (.ok o, pos) → legacyMap o bytes = .ok map →
    Undisturbed P C ⟨bytes, o.hdr.globalFlags, o.keyring, map⟩ env
      (pool && decide (1 < opts.threads)) 0 o.entries pos False False

/-- `worker_decompress` and `decompress_block` agree on the archive, under
    the keyrings they are given. -/
def CodecParity (P : Primitives) (C : Codecs) (opts : ReaderOptions) (bytes : Bytes) : Prop :=
  ∀ o pos, (openArchive P C opts).run bytes 0 = (.ok o, pos) →
    DecodersAgree (workerDec P C (workerKeyring o.hdr.globalFlags o.keyring))
      (serialDec P C o.keyring) bytes

/-- The solid branch does not use the pool: what it returns is one value. -/
theorem extractSolid_value (o : Opened) (env : OutputEnv) (bytes : Bytes) :
    ∃ r, ∀ (pool : Pool DecodeJob (Result Bytes)) (σ : Track DecodeJob),
      wlp pool (fun _ => True) σ (extractSolid P C o env bytes) fun _ r' => r' = r := by
  have hentries (stream : Bytes) (es : List IndexEntry) : ∀ (i : Nat) (run : RunState),
      ∃ r, ∀ (pool : Pool DecodeJob (Result Bytes)) (σ : Track DecodeJob),
        wlp pool (fun _ => True) σ (solidEntries env stream i es run) fun _ r' => r' = r := by
    induction es with
    | nil => exact fun i run => ⟨run, fun _ _ => rfl⟩
    | cons e es ih =>
        intro i run
        rw [solidEntries]
        cases solidOutput env stream i e with
        | none => exact ih (i + 1) _
        | some r =>
            obtain ⟨r', hr'⟩ := ih (i + 1) _
            exact ⟨r', fun pool σ => ⟨trivial, hr' pool σ⟩⟩
  rw [extractSolid]
  generalize (if o.hdr.commentOffset ≠ 0 then o.hdr.commentOffset.toNat
    else o.footer.indexOffset.toNat) = dataEnd
  generalize (if o.hdr.commentOffset ≠ 0 then 2 else 1) = metadataBlocks
  by_cases hlarge : indexedSize o.entries > 4 * 1024 * 1024 * 1024
  · rw [if_pos hlarge]
    exact ⟨_, fun _ _ => rfl⟩
  rw [if_neg hlarge]
  cases solidStart o.hdr.globalFlags bytes with
  | error err => exact ⟨_, fun _ _ => rfl⟩
  | ok start =>
      dsimp only
      cases solidLoop P C bytes o.keyring dataEnd (indexedSize o.entries) (bytes.length + 1) start
          0 [] with
      | none => exact ⟨_, fun _ _ => rfl⟩
      | some r =>
          obtain ⟨stream, blocks⟩ := r
          dsimp only
          split
          · exact ⟨_, fun _ _ => rfl⟩
          · obtain ⟨run, hrun⟩ := hentries stream o.entries 0 ⟨dataEnd, 0, []⟩
            refine ⟨(verdict run, run.outputs), fun pool σ => wlp.bind ?_⟩
            exact (hrun pool σ).mono fun _ r h => congrArg (fun run => (verdict run, run.outputs)) h

/-- **AN OPEN ARCHIVE**: without threads there is one outcome, and with them
    every interleaving has the same. -/
theorem extractOpened_agrees {opts : ReaderOptions} {started : Nat → Prop} {bytes : Bytes}
    {o : Opened} {pos : Nat} (pool : Bool)
    (hdec : DecodersAgree (workerDec P C (workerKeyring o.hdr.globalFlags o.keyring))
      (serialDec P C o.keyring) bytes)
    (hund : ∀ map, legacyMap o bytes = .ok map →
      Undisturbed P C ⟨bytes, o.hdr.globalFlags, o.keyring, map⟩ env
        (pool && decide (1 < opts.threads)) 0 o.entries pos False False) :
    ∃ r₀, (∀ (q : Pool DecodeJob (Result Bytes)) (p : Bool),
        wlp q (fun _ => True) Track.initial
          (extractOpened P C { opts with threads := 1 } env p bytes o pos) fun _ r => r = r₀) ∧
      wlp (decodePool P C opts.threads started (workerKeyring o.hdr.globalFlags o.keyring))
        (fun _ => True) Track.initial (extractOpened P C opts env pool bytes o pos)
        fun _ r => SameOutcome r r₀ := by
  simp only [extractOpened]
  by_cases hquota : quotaExceeded opts.maxOutputSize o.entries = true
  · simp only [if_pos hquota]
    exact ⟨_, fun _ _ => rfl, .refl _⟩
  simp only [if_neg hquota]
  by_cases hsolid : hasFlag o.hdr.globalFlags flagSolid = true
  · simp only [if_pos hsolid]
    obtain ⟨r₀, hr₀⟩ := extractSolid_value (P := P) (C := C) o env bytes
    exact ⟨r₀, fun q _ => hr₀ q _, (hr₀ _ _).mono fun _ r h => h ▸ .refl r₀⟩
  simp only [if_neg hsolid]
  cases hmap : legacyMap o bytes with
  | error err => exact ⟨_, fun _ _ => rfl, .refl _⟩
  | ok map =>
      obtain ⟨src, hsrc⟩ : ∃ src : Source, src = ⟨bytes, o.hdr.globalFlags, o.keyring, map⟩ :=
        ⟨_, rfl⟩
      have hund := hund map hmap
      have hdec : DecodersAgree (workerDec P C (workerKeyring src.globalFlags src.keyring))
          (serialDec P C src.keyring) src.bytes := by
        rw [hsrc]
        exact hdec
      rw [← hsrc] at hund
      obtain ⟨run, hrun⟩ : ∃ run, run = serialEntries P C src env 0 o.entries ⟨pos, 0, []⟩ :=
        ⟨_, rfl⟩
      refine ⟨(verdict run, run.outputs), fun q p => wlp.bind ?_, wlp.bind ?_⟩
      · rw [show (p && decide (1 < 1)) = false by rw [decide_eq_false (by omega), Bool.and_false],
          ← hsrc]
        refine (extractEntries_serial o.entries 0 ⟨pos, 0, []⟩ _).mono ?_
        rintro σ r rfl
        rw [hrun]
        rfl
      · rw [← hsrc]
        have hspec := @extractEntries_agrees P C src env opts.threads started _ hdec o.entries 0
          ⟨pos, 0, []⟩ ⟨pos, 0, []⟩ Track.initial False False hund id (fun _ => rfl) ⟨rfl, rfl⟩
        rw [← hrun] at hspec
        have hkey : workerKeyring src.globalFlags src.keyring
            = workerKeyring o.hdr.globalFlags o.keyring := by rw [hsrc]
        rw [hkey] at hspec
        exact hspec.mono fun _ r h => h.outcome

/-- **THREADS CHANGE NOTHING** in an undisturbed archive: in every
    interleaving, whichever workers were started, the extraction publishes the
    same files with the same bytes and returns the same verdict as the
    single-threaded one. -/
theorem parallel_eq_serial {opts : ReaderOptions} {pool p : Bool} {started started' : Nat → Prop}
    {bytes : Bytes} (hparity : CodecParity P C opts bytes)
    (hund : UndisturbedArchive P C opts env pool bytes)
    {r r' : Result Unit × List OutputFile}
    (hr : Returns (readerPool P C opts started bytes) (extractArchive P C opts env pool bytes) r)
    (hr' : Returns (readerPool P C { opts with threads := 1 } started' bytes)
      (extractArchive P C { opts with threads := 1 } env p bytes) r') :
    SameOutcome r r' := by
  have hopen : openArchive P C { opts with threads := 1 } = openArchive P C opts := rfl
  rw [extractArchive, readerPool, readerKeyring] at hr hr'
  rw [hopen] at hr'
  cases hres : (openArchive P C opts).run bytes 0 with
  | mk res pos =>
      rw [hres] at hr hr'
      cases res with
      | error err =>
          have hbad (q : Pool DecodeJob (Result Bytes)) : wlp q (fun _ => True) Track.initial
              (.ret (.error err, []) : ReaderProg (Result Unit × List OutputFile))
              fun _ r => r = (.error err, []) := rfl
          rw [wlp_returns (hbad _) hr, wlp_returns (hbad _) hr']
          exact .refl _
      | ok o =>
          obtain ⟨r₀, hserial, hpar⟩ := @extractOpened_agrees P C env opts started bytes o pos pool
            (hparity o pos hres) fun map => hund o pos map hres
          rw [wlp_returns (hserial _ p) hr']
          exact wlp_returns hpar hr

/-! ## Intact archives are undisturbed -/

/-- The second of several frames is the first one read from behind the first. -/
theorem FrameAt.tail {bytes : Bytes} {start b pos : Nat} (h : FrameAt bytes start (b + 1) pos) :
    ∃ blk next, readBlock.run bytes start = (.ok blk, next) ∧ FrameAt bytes next b pos := by
  generalize hk : b + 1 = k at h
  induction h generalizing b with
  | zero => exact nomatch hk
  | succ hprev hread ih =>
      obtain rfl := Nat.succ.inj hk
      cases b with
      | zero =>
          cases hprev
          exact ⟨_, _, hread, .zero⟩
      | succ b =>
          obtain ⟨blk, next, hfirst, hrest⟩ := ih rfl
          exact ⟨blk, next, hfirst, hrest.succ hread⟩

/-- In a run of accepted frames every DATA frame decodes. -/
theorem Accepted.decodes {b pos fin : Nat} {chunks : List Bytes}
    (h : Accepted P C dec src i b pos chunks fin) {k at' next : Nat} {blk : Block}
    (hk : k < chunks.length) (hframe : FrameAt src.bytes pos k at')
    (hread : readBlock.run src.bytes at' = (.ok blk, next)) (htype : blk.blockType = blockData) :
    ∃ out, dec blk (archiveDataAadSeq src.globalFlags i (b + k)) = .ok out := by
  induction h generalizing k with
  | done => exact nomatch hk
  | data hfirst _ hdec _ ih =>
      cases k with
      | zero =>
          cases hframe
          obtain ⟨hblk, -⟩ := Prod.mk.inj (hfirst.symm.trans hread)
          obtain rfl := Except.ok.inj hblk
          exact ⟨_, hdec⟩
      | succ k =>
          obtain ⟨_, _, hfirst', hrest⟩ := hframe.tail
          obtain ⟨-, rfl⟩ := Prod.mk.inj (hfirst.symm.trans hfirst')
          have hout := ih (Nat.lt_of_succ_lt_succ hk) hrest
          rwa [Nat.add_right_comm] at hout
  | ref hfirst href' _ _ ih =>
      cases k with
      | zero =>
          cases hframe
          obtain ⟨hblk, -⟩ := Prod.mk.inj (hfirst.symm.trans hread)
          obtain rfl := Except.ok.inj hblk
          rw [htype] at href'
          exact absurd href' (by decide)
      | succ k =>
          obtain ⟨_, _, hfirst', hrest⟩ := hframe.tail
          obtain ⟨-, rfl⟩ := Prod.mk.inj (hfirst.symm.trans hfirst')
          have hout := ih (Nat.lt_of_succ_lt_succ hk) hrest
          rwa [Nat.add_right_comm] at hout

/-- A loop that ends well leaves no rejected frame behind. -/
theorem not_rejected_of_loop {start : Nat}
    (h : (blockLoop P C dec src env i e e.blockCount.toNat 0 ⟨start, .start, false⟩).berr = false) :
    ¬ Rejected dec src i e start := by
  have hstart : (FileState.progress ⟨start, .start, false⟩) = Progress.after [] := rfl
  obtain ⟨chunks, hacc, hlen, -⟩ := blockLoop_accepted hstart h
  rintro ⟨b, pos, blk, next, err, hb, hframe, hread, htype, hdec⟩
  obtain ⟨out, hout⟩ := hacc.decodes (hlen ▸ hb) hframe hread htype
  rw [Nat.zero_add, hdec] at hout
  exact nomatch hout

/-- **AN INTACT ARCHIVE IS UNDISTURBED**: all its entries decode, from offsets
    that `fseeko` accepts. -/
theorem undisturbed_of_intact (mt : Bool) (es : List IndexEntry) :
    ∀ (i pos : Nat) (poisoned drifted : Prop), ¬ poisoned → ¬ drifted →
      (∀ j e, es[j]? = some e → e.firstBlockOffset.toNat < 2 ^ 63 ∧
        (serialEntry P C src env (i + j) e 0).berr = false) →
      Undisturbed P C src env mt i es pos poisoned drifted := by
  induction es with
  | nil => exact fun _ _ _ _ _ _ _ => trivial
  | cons e es ih =>
      intro i pos poisoned drifted hpoisoned hdrifted hgood
      have hrest : ∀ j e, es[j]? = some e → e.firstBlockOffset.toNat < 2 ^ 63 ∧
          (serialEntry P C src env (i + 1 + j) e 0).berr = false := by
        intro j e hj
        rw [Nat.add_right_comm]
        exact hgood (j + 1) e hj
      obtain ⟨hoff, hok⟩ := hgood 0 e rfl
      -- the offset alone says where the entry starts
      have hentry : serialEntry P C src env i e pos = serialEntry P C src env i e 0 := by
        rw [serialEntry, serialEntry, entryStart_eq (fun _ : True => hoff) fun h => absurd trivial h]
      rw [Undisturbed]
      by_cases hskip : skipped env i e = true
      · rw [if_pos hskip]
        exact ih (i + 1) pos _ _ hpoisoned hdrifted hrest
      · rw [if_neg hskip]
        have hfin : (serialEntry P C src env i e pos).berr = false := by
          rw [hentry]
          exact hok
        refine ⟨fun h => absurd h hdrifted, fun _ h => absurd h hpoisoned,
          ih (i + 1) _ _ _ ?_ ?_ hrest⟩
        · rintro (h | ⟨-, hrej⟩)
          · exact hpoisoned h
          · exact not_rejected_of_loop hfin hrej
        · rintro ⟨-, h | h⟩
          · rw [hfin] at h
            exact nomatch h
          · exact hpoisoned h

/-! ## Decoders that agree, for any codec -/

/-- On an archive of at most 256 MiB and 1 KiB the limits of the two decoders
    make no difference, and what is left is the VaptVupt entry point. -/
theorem decodersAgree_of_small {bytes : Bytes} {wkr : Option Keyring} {kr : Keyring}
    (hkey : wkr = some kr ∨ (wkr = none ∧ kr.active = false))
    (hvv : C.vvDecompress = C.vvzDecompress) (hlen : bytes.length ≤ maxBlockSz + 1024) :
    DecodersAgree (workerDec P C wkr) (serialDec P C kr) bytes := by
  intro pos blk next seq hread htype
  obtain ⟨-, husz, start, hat, -⟩ := readBlock_ok hread
  have hcsz : ¬ blk.compressedSize.toNat > maxBlockSz + 1024 := by
    obtain ⟨rest, hdrop⟩ := hat
    have hle := congrArg List.length hdrop
    rw [List.length_drop, List.length_append, blk.payload_length] at hle
    omega
  have hopen : openPayload P blk wkr seq = openPayload P blk (some kr) seq := by
    rcases hkey with rfl | ⟨rfl, hinactive⟩
    · rfl
    · simp only [openPayload, keyringActive, Option.any_none, Option.any_some, hinactive,
        Bool.false_eq_true, false_and, if_false]
  rw [workerDec, serialDec, workerDecompress, decompressBlock, if_neg (not_lt.mpr husz),
    if_neg (not_lt.mpr husz), if_neg hcsz, hopen, hvv]

/-! ## The small archives -/

theorem smallReader_open (threads : Nat) (bytes : Bytes) :
    (openArchive toyPrimitives storeOnly (smallReader threads)).run bytes 0
      = (openArchive toyPrimitives storeOnly (smallReader 1)).run bytes 0 := rfl

/-- A short archive that opens as plaintext, with these entries. -/
structure OpensPlain (bytes : Bytes) (entries : List IndexEntry) : Prop where
  short : bytes.length ≤ maxBlockSz + 1024
  opens : ((openArchive toyPrimitives storeOnly (smallReader 1)).run bytes 0).1.toOption.map
    (fun o => (o.hdr.globalFlags, o.keyring, o.entries))
      = some (0, (smallReader 1).keyring, entries)

theorem OpensPlain.opened {bytes : Bytes} {entries : List IndexEntry} (h : OpensPlain bytes entries)
    {threads : Nat} {o : Opened} {pos : Nat}
    (hopen : (openArchive toyPrimitives storeOnly (smallReader threads)).run bytes 0
      = (.ok o, pos)) :
    o.hdr.globalFlags = 0 ∧ o.keyring = (smallReader 1).keyring ∧ o.entries = entries := by
  have hsome := h.opens
  rw [smallReader_open] at hopen
  rw [hopen] at hsome
  obtain ⟨hflags, hrest⟩ := Prod.mk.inj (Option.some.inj hsome)
  obtain ⟨hkeyring, hentries⟩ := Prod.mk.inj hrest
  exact ⟨hflags, hkeyring, hentries⟩

theorem OpensPlain.parity {bytes : Bytes} {entries : List IndexEntry} (h : OpensPlain bytes entries)
    (threads : Nat) : CodecParity toyPrimitives storeOnly (smallReader threads) bytes := by
  intro o pos hopen
  obtain ⟨hflags, hkeyring, -⟩ := h.opened hopen
  refine decodersAgree_of_small (Or.inr ⟨?_, congrArg Keyring.active hkeyring⟩) rfl h.short
  rw [workerKeyring, hflags]
  rfl

theorem twoFiles_opens : OpensPlain twoFilesArchive twoFiles :=
  ⟨by decide +kernel, by decide +kernel⟩

theorem twoFiles_undisturbed :
    UndisturbedArchive toyPrimitives storeOnly (smallReader 2) faultless true twoFilesArchive := by
  intro o pos map hopen hmap
  obtain ⟨hflags, hkeyring, hentries⟩ := twoFiles_opens.opened hopen
  have hnone : map = none := by
    rw [legacyMap, hflags] at hmap
    exact (Except.ok.inj hmap).symm
  rw [hflags, hkeyring, hentries, hnone]
  refine undisturbed_of_intact _ _ 0 pos False False id id ?_
  intro j e hj
  match j with
  | 0 =>
      obtain rfl := Option.some.inj hj
      exact ⟨by decide, by decide⟩
  | 1 =>
      obtain rfl := Option.some.inj hj
      exact ⟨by decide, by decide⟩
  | j + 2 => exact nomatch hj

/-- The instance of `parallel_eq_serial` at the archive of the two files. -/
theorem parallel_eq_serial_twoFiles :
    ∃ r r', Returns (smallPool 2 twoFilesArchive) (smallExtract 2 twoFilesArchive) r ∧
      Returns (smallPool 1 twoFilesArchive) (smallExtract 1 twoFilesArchive) r' ∧
      publishedFiles r.2 = [⟨0, [1, 2], true⟩, ⟨1, [3, 4], true⟩] ∧ SameOutcome r r' := by
  have hr : Returns (smallPool 2 twoFilesArchive) (smallExtract 2 twoFilesArchive)
      (.ok (), [⟨0, [1, 2], true⟩, ⟨1, [3, 4], true⟩]) := returns_of_smallRun (by decide +kernel)
  have hr' : Returns (smallPool 1 twoFilesArchive) (smallExtract 1 twoFilesArchive)
      (.ok (), [⟨0, [1, 2], true⟩, ⟨1, [3, 4], true⟩]) := returns_of_smallRun (by decide +kernel)
  exact ⟨_, _, hr, hr', rfl,
    parallel_eq_serial (twoFiles_opens.parity 2) twoFiles_undisturbed hr hr'⟩

/-- The archive of the two files with the first frame damaged. -/
def damagedArchive : Bytes :=
  smallArchive ({ storedFrame [1] with checksum := 0 } :: [[2], [3], [4]].map storedFrame) twoFiles

theorem damaged_opens : OpensPlain damagedArchive twoFiles :=
  ⟨by decide +kernel, by decide +kernel⟩

/-- **A REJECTED FRAME COSTS A LATER ENTRY**: with two threads the damaged
    first file takes the second one with it, without threads it does not. -/
theorem damaged_file_cancels_other :
    CodecParity toyPrimitives storeOnly (smallReader 2) damagedArchive ∧
      ∃ r r', Returns (smallPool 2 damagedArchive) (smallExtract 2 damagedArchive) r ∧
        Returns (smallPool 1 damagedArchive) (smallExtract 1 damagedArchive) r' ∧
        publishedFiles r.2 = [] ∧ publishedFiles r'.2 = [⟨1, [3, 4], true⟩] ∧
        ¬ SameOutcome r r' := by
  refine ⟨damaged_opens.parity 2, (.error .corrupt, [⟨0, [], false⟩, ⟨1, [], false⟩]),
    (.error .corrupt, [⟨0, [], false⟩, ⟨1, [3, 4], true⟩]),
    returns_of_smallRun (by decide +kernel), returns_of_smallRun (by decide +kernel), rfl, rfl, ?_⟩
  intro h
  exact absurd h.published (by decide)

end Zupt.Extract
