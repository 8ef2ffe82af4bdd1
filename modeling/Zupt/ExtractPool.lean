import Zupt.Entry
import Zupt.SlotPool.Wlp

/-! # An entry through the pool

    What `mtLoop` returns, in every interleaving, measured against
    `blockLoop` with the decoder of the workers: if the entry does not go
    bad it is the same state, and it goes bad only where the loop does, or
    because a frame submitted earlier may have been rejected and this one was
    cancelled (`PoolOutcome`). -/

namespace Zupt.Extract

open Zupt.Stream Zupt.Seal Zupt.Frame Zupt.Transform Zupt.Decode Zupt.Index Zupt.Open
open Zupt.SlotPool

variable {P : Primitives} {C : Codecs} {threads : Nat} {started : Nat → Prop}
  {kr : Option Keyring} {src : Source} {env : OutputEnv} {i : Nat} {e : IndexEntry}
  {E : OutputEvent → Prop}

/-- The decoder of the workers. -/
abbrev workerDec (P : Primitives) (C : Codecs) (kr : Option Keyring) (blk : Block)
    (seq : UInt64) : Result Bytes :=
  workerDecompress P C blk kr seq

/-- `E` lets the output of entry `i` grow to its indexed size. -/
def AllowsWrites (E : OutputEvent → Prop) (i : Nat) (e : IndexEntry) : Prop :=
  ∀ data : Bytes, data.length ≤ e.uncompressedSize.toNat → E (.wrote i data)

theorem AllowsWrites.of_sound (hE : AllowsWrites E i e) {p : Progress}
    (h : p.Sound e.uncompressedSize) : E (.wrote i p.data) :=
  hE p.data (h.length_data ▸ h.le_size)

/-- What collecting a batch does, against draining it. -/
structure Collected (kr : Option Keyring) (P : Primitives) (C : Codecs) (env : OutputEnv)
    (i : Nat) (e : IndexEntry) (σ : Track DecodeJob) (jobs : List DecodeJob)
    (st : FileState) (σ' : Track DecodeJob) (st' : FileState) : Prop where
  mayFail : σ'.mayFail ↔ σ.mayFail
  sound : st'.progress.Sound e.uncompressedSize
  pos : st'.pos = st.pos
  eq_of_ok : st'.berr = false → st' = drain (workerDec P C kr) env i e jobs st
  bad : st'.berr = true →
    (drain (workerDec P C kr) env i e jobs st).berr = true ∨ σ.mayFail

/-- **COLLECTING A BATCH**: what comes out was worked on or cancelled. -/
theorem collectAll_spec (hE : AllowsWrites E i e) {slots : List Nat} :
    ∀ {σ : Track DecodeJob} {jobs : List DecodeJob} {st : FileState}, Holds σ slots jobs →
      st.progress.Sound e.uncompressedSize →
      wlp (decodePool P C threads started kr) E σ (collectAll env i e slots st)
        (Collected kr P C env i e σ jobs st) := by
  induction slots with
  | nil =>
      intro σ jobs st hheld hsound
      obtain rfl := List.forall₂_nil_left_iff.mp hheld.pending
      exact ⟨Iff.rfl, hsound, rfl, fun _ => rfl, fun hbad => Or.inl hbad⟩
  | cons slot slots ih =>
      intro σ jobs st hheld hsound job r hpend hyields
      obtain ⟨job', jobs', hhead, hrest, rfl⟩ := List.forall₂_cons_left_iff.mp hheld.pending
      obtain rfl : job' = job := Option.some.inj (hhead.symm.trans hpend)
      have hheld' := hheld.collect (decodePool P C threads started kr) r
      cases r with
      | error err =>
          have hbad : Progress.Sound e.uncompressedSize { st with berr := true }.progress := hsound
          refine (ih hheld' hbad).mono ?_
          intro σ' st' h
          refine ⟨h.mayFail, h.sound, h.pos, fun hok => ?_, fun _ => ?_⟩
          · have hst := h.eq_of_ok hok
            have hfalse : true = false := drain_berr (hst ▸ hok)
            exact nomatch hfalse
          · rcases hyields with hwork | ⟨hmay, -⟩
            · exact Or.inl (drain_rejected List.mem_cons_self (Eq.symm hwork))
            · exact Or.inr hmay
      | ok out =>
          -- a result that is there was not a cancellation
          have hwork : workerDec P C kr job'.1 job'.2 = .ok out := by
            rcases hyields with hwork | ⟨-, hcancel⟩
            · exact Eq.symm hwork
            · exact nomatch hcancel
          have hjob : FileState.write env i e st out
              = decodeJob (workerDec P C kr) env i e st job' := by
            rw [decodeJob, hwork]
          have hsound' := @decodeJob_sound (workerDec P C kr) env i e st hsound job'
          have hweaken : ∀ σ' st', Collected kr P C env i e
              (σ.collect (decodePool P C threads started kr) slot (.ok out)) jobs'
              (decodeJob (workerDec P C kr) env i e st job') σ' st' →
              Collected kr P C env i e σ (job' :: jobs') st σ' st' :=
            fun σ' st' h => ⟨h.mayFail, h.sound, h.pos.trans (decodeJob_pos_eq st job'),
              h.eq_of_ok, h.bad⟩
          have hrest := (ih hheld' hsound').mono hweaken
          rw [← hjob] at hrest hsound'
          show wlp _ _ _ (writeResult env i e st out >>= collectAll env i e slots) _
          refine wlp.bind ?_
          rw [writeResult]
          by_cases hnil : out = []
          · rw [if_pos hnil]
            rw [hnil, FileState.write_nil hsound] at hrest
            exact hrest
          · rw [if_neg hnil]
            exact ⟨hE.of_sound hsound', hrest⟩

/-! ## The loop over the blocks -/

/-- How an entry comes out of the pool, against `F`, what the loop makes of
    it; `may₀` is whether a frame submitted before the entry can have been
    rejected. -/
structure PoolOutcome (may₀ : Prop) (F : FileState) (rejected : Prop) (size : UInt64)
    (σ' : Track DecodeJob) (st' : FileState) : Prop where
  sound : st'.progress.Sound size
  eq_of_ok : st'.berr = false → st' = F
  bad : st'.berr = true → F.berr = true ∨ may₀
  mayFail : σ'.mayFail → may₀ ∨ rejected

/-- An entry that went bad, for one of the two reasons there are. -/
theorem PoolOutcome.of_bad {may₀ rejected : Prop} {F st' : FileState} {size : UInt64}
    {σ' : Track DecodeJob} (hsound : st'.progress.Sound size) (hst : st'.berr = true)
    (hbad : F.berr = true ∨ may₀) (hmay : σ'.mayFail → may₀ ∨ rejected) :
    PoolOutcome may₀ F rejected size σ' st' := by
  refine ⟨hsound, fun hok => ?_, fun _ => hbad, hmay⟩
  rw [hst] at hok
  exact nomatch hok

/-- Between two turns of the loop: the frames of the batch are still to be
    drained, and a job that can fail makes the entry bad. -/
structure MtState (P : Primitives) (C : Codecs) (kr : Option Keyring) (src : Source)
    (env : OutputEnv) (i : Nat) (e : IndexEntry) (start : Nat) (may₀ : Prop) (F : FileState)
    (n b : Nat) (slots : List Nat) (jobs : List DecodeJob) (st : FileState)
    (σ : Track DecodeJob) : Prop where
  holds : Holds σ slots jobs
  sound : st.progress.Sound e.uncompressedSize
  frame : FrameAt src.bytes start b st.pos
  count : b + n = e.blockCount.toNat
  track : st.berr = false → Same F (blockLoop P C (workerDec P C kr) src env i e n b
    (drain (workerDec P C kr) env i e jobs st))
  bad : st.berr = true → F.berr = true ∨ may₀
  mayFail : σ.mayFail → may₀ ∨ (F.berr = true ∧ Rejected (workerDec P C kr) src i e start)

section Loop

variable {start : Nat} {may₀ : Prop} {F : FileState} {n b : Nat} {slots : List Nat}
  {jobs : List DecodeJob} {st : FileState} {σ σ' : Track DecodeJob}

/-- If the rest of the loop is bad, so is the entry, or something was
    cancelled. -/
theorem MtState.bad_of_loop (h : MtState P C kr src env i e start may₀ F n b slots jobs st σ)
    (hloop : (blockLoop P C (workerDec P C kr) src env i e n b
      (drain (workerDec P C kr) env i e jobs st)).berr = true) : F.berr = true ∨ may₀ := by
  cases hst : st.berr with
  | true => exact h.bad hst
  | false => exact Or.inl ((h.track hst).berr_eq.trans hloop)

/-- A collected batch leaves the loop where it stands. -/
theorem MtState.collected (h : MtState P C kr src env i e start may₀ F n b slots jobs st σ)
    {st' : FileState} (hc : Collected kr P C env i e σ jobs st σ' st') :
    MtState P C kr src env i e start may₀ F n b [] [] st' σ' := by
  refine ⟨.nil σ', hc.sound, hc.pos ▸ h.frame, h.count, ?_, ?_, fun hmay =>
    h.mayFail (hc.mayFail.mp hmay)⟩
  · intro hok
    have heq := hc.eq_of_ok hok
    have hst := drain_berr (heq ▸ hok)
    rw [heq]
    exact h.track hst
  · intro hbad
    rcases hc.bad hbad with hdrain | hmay
    · exact h.bad_of_loop (blockLoop_of_berr hdrain n b)
    · rcases h.mayFail hmay with hmay | ⟨hF, -⟩
      · exact Or.inr hmay
      · exact Or.inl hF

/-- A bad entry with nothing pending is done. -/
theorem MtState.outcome_of_bad (h : MtState P C kr src env i e start may₀ F n b [] [] st σ)
    (hbad : st.berr = true) :
    PoolOutcome may₀ F (Rejected (workerDec P C kr) src i e start) e.uncompressedSize σ st :=
  .of_bad h.sound hbad (h.bad hbad) fun hmay => (h.mayFail hmay).imp id And.right

/-- So is an entry with no blocks left. -/
theorem MtState.outcome_of_done (h : MtState P C kr src env i e start may₀ F 0 b [] [] st σ) :
    PoolOutcome may₀ F (Rejected (workerDec P C kr) src i e start) e.uncompressedSize σ st :=
  ⟨h.sound, fun hok => ((h.track hok).eq_of_ok ((h.track hok).berr_eq.trans hok)).symm, h.bad,
    fun hmay => (h.mayFail hmay).imp id And.right⟩

/-- An entry that goes bad behind a batch is done once that is collected. -/
theorem MtState.collect_bad (hE : AllowsWrites E i e)
    (h : MtState P C kr src env i e start may₀ F n b slots jobs st σ)
    (pos : Nat) (hbad : F.berr = true ∨ may₀) :
    wlp (decodePool P C threads started kr) E σ
      (collectAll env i e slots { st with pos := pos, berr := true })
      (PoolOutcome may₀ F (Rejected (workerDec P C kr) src i e start) e.uncompressedSize) := by
  have hsound : Progress.Sound e.uncompressedSize
      { st with pos := pos, berr := true }.progress := h.sound
  refine (collectAll_spec hE h.holds hsound).mono ?_
  intro σ' st' hc
  have hst : st'.berr = true := by
    by_contra hb
    have hok := eq_false_of_ne_true hb
    have hfalse : true = false := drain_berr (hc.eq_of_ok hok ▸ hok)
    exact nomatch hfalse
  exact .of_bad hc.sound hst hbad fun hmay =>
    (h.mayFail (hc.mayFail.mp hmay)).imp id And.right

/-- The end of a batch. -/
theorem flushFull_spec (hE : AllowsWrites E i e)
    (h : MtState P C kr src env i e start may₀ F n b slots jobs st σ) :
    wlp (decodePool P C threads started kr) E σ (flushFull env i e threads slots st)
      fun σ' r => if r.2.2 = true then
          PoolOutcome may₀ F (Rejected (workerDec P C kr) src i e start) e.uncompressedSize σ'
            r.2.1
        else ∃ jobs', MtState P C kr src env i e start may₀ F n b r.1 jobs' r.2.1 σ' := by
  rw [flushFull]
  by_cases hroom : slots.length < threads
  · rw [if_pos hroom]
    exact ⟨jobs, h⟩
  · rw [if_neg hroom]
    refine wlp.bind ((collectAll_spec hE h.holds h.sound).mono ?_)
    intro σ' st' hc
    show if st'.berr = true then _ else _
    by_cases hbad : st'.berr = true
    · rw [if_pos hbad]
      exact (h.collected hc).outcome_of_bad hbad
    · rw [if_neg hbad]
      exact ⟨[], h.collected hc⟩

/-- A DATA frame goes to the pool: the batch has one job more. -/
theorem MtState.submit {next : Nat} {blk : Block} {slot : Nat}
    (h : MtState P C kr src env i e start may₀ F (n + 1) b slots jobs st σ)
    (hread : readBlock.run src.bytes st.pos = (.ok blk, next)) (htype : blk.blockType = blockData)
    (hfree : σ.pending slot = none) :
    MtState P C kr src env i e start may₀ F n (b + 1) (slots ++ [slot])
      (jobs ++ [(blk, archiveDataAadSeq src.globalFlags i b)]) { st with pos := next }
      (σ.submit (decodePool P C threads started kr) slot
        (blk, archiveDataAadSeq src.globalFlags i b)) := by
  have hstep : Same (blockLoop P C (workerDec P C kr) src env i e (n + 1) b
        (drain (workerDec P C kr) env i e jobs st))
      (blockLoop P C (workerDec P C kr) src env i e n (b + 1)
        (drain (workerDec P C kr) env i e
          (jobs ++ [(blk, archiveDataAadSeq src.globalFlags i b)]) { st with pos := next })) := by
    rw [drain_concat, drain_pos jobs st next]
    refine blockLoop_data ?_ htype
    rw [drain_pos_eq]
    exact hread
  refine ⟨h.holds.submit hfree _, h.sound, h.frame.succ hread, by have := h.count; omega,
    fun hok => (h.track hok).trans hstep, h.bad, ?_⟩
  rintro (hmay | ⟨r, hwork, hfailed⟩)
  · exact h.mayFail hmay
  · cases r with
    | ok out => exact nomatch hfailed
    | error err =>
        -- the new frame is rejected, and the loop will not get past it
        have hdec : workerDec P C kr blk (archiveDataAadSeq src.globalFlags i b) = .error err :=
          Eq.symm hwork
        have hrej : Rejected (workerDec P C kr) src i e start :=
          ⟨b, st.pos, blk, next, err, by have := h.count; omega, h.frame, hread, htype, hdec⟩
        have hdrain : (drain (workerDec P C kr) env i e
            (jobs ++ [(blk, archiveDataAadSeq src.globalFlags i b)])
            { st with pos := next }).berr = true :=
          drain_rejected (List.mem_append_right jobs (List.mem_singleton_self _)) hdec
        have hbad := h.bad_of_loop (hstep.berr_eq.trans (blockLoop_of_berr hdrain n (b + 1)))
        exact hbad.symm.imp id fun hF => ⟨hF, hrej⟩

/-- A reference frame behind a collected batch: the loop goes on with what it
    refers to, or the entry is bad. -/
theorem MtState.reference {next : Nat} {blk : Block} {st' : FileState}
    (h : MtState P C kr src env i e start may₀ F (n + 1) b slots jobs st σ)
    (hread : readBlock.run src.bytes st.pos = (.ok blk, next))
    (href : blk.blockType = blockDedupRef)
    (hc : Collected kr P C env i e σ jobs { st with pos := next } σ' st') :
    (st'.berr = true → F.berr = true ∨ may₀) ∧
      match referencedData P C src i b next blk with
      | .error _ => F.berr = true ∨ may₀
      | .ok out => MtState P C kr src env i e start may₀ F n (b + 1) [] []
          (FileState.write env i e st' out) σ' := by
  have hread' : readBlock.run src.bytes (drain (workerDec P C kr) env i e jobs st).pos
      = (.ok blk, next) := by
    rw [drain_pos_eq]
    exact hread
  have hturn := @blockLoop_succ P C (workerDec P C kr) src env i e n b _ _ _ hread'
  rw [if_pos href, ← drain_pos jobs st next] at hturn
  have hbad : st'.berr = true → F.berr = true ∨ may₀ := by
    intro hst'
    rcases hc.bad hst' with hdrain | hmay
    · rw [drain_pos jobs st next] at hdrain
      have hdrain' : (drain (workerDec P C kr) env i e jobs st).berr = true := hdrain
      exact h.bad_of_loop (blockLoop_of_berr hdrain' (n + 1) b)
    · exact (h.mayFail hmay).symm.imp And.left id
  refine ⟨hbad, ?_⟩
  cases hdata : referencedData P C src i b next blk with
  | error err =>
      refine h.bad_of_loop ?_
      rw [hturn, hdata]
  | ok out =>
      rw [hdata] at hturn
      refine ⟨.nil σ', FileState.write_sound hc.sound out, ?_, by have := h.count; omega, ?_, ?_,
        fun hmay => h.mayFail (hc.mayFail.mp hmay)⟩
      · rw [FileState.write_pos, hc.pos]
        exact h.frame.succ hread
      · intro hok
        have heq := hc.eq_of_ok (FileState.write_berr hok)
        have hst := drain_berr (heq ▸ FileState.write_berr hok)
        have hF := h.track hst
        rw [hturn] at hF
        rw [heq]
        exact hF
      · intro hw
        cases hst' : st'.berr with
        | true => exact hbad hst'
        | false =>
            refine h.bad_of_loop ?_
            rw [hturn, ← hc.eq_of_ok hst']
            exact blockLoop_of_berr hw n (b + 1)

/-- **AN ENTRY THROUGH THE POOL**, from any turn of the loop on. -/
theorem mtLoop_spec (hE : AllowsWrites E i e) : ∀ {n b : Nat} {slots : List Nat} {jobs : List DecodeJob} {st : FileState}
    {σ : Track DecodeJob}, MtState P C kr src env i e start may₀ F n b slots jobs st σ →
    wlp (decodePool P C threads started kr) E σ (mtLoop P C src env threads i e n b slots st)
      (PoolOutcome may₀ F (Rejected (workerDec P C kr) src i e start) e.uncompressedSize) := by
  intro n
  induction n with
  | zero =>
      intro b slots jobs st σ h
      exact (collectAll_spec hE h.holds h.sound).mono fun σ' st' hc =>
        (h.collected hc).outcome_of_done
  | succ n ih =>
      intro b slots jobs st σ h
      rw [mtLoop]
      refine wlp.bind ((flushFull_spec hE h).mono ?_)
      rintro σ' ⟨slots', st', stop⟩ hflush
      cases stop with
      | true => exact hflush
      | false =>
          obtain ⟨jobs', h'⟩ : ∃ jobs', MtState P C kr src env i e start may₀ F (n + 1) b slots'
            jobs' st' σ' := hflush
          have hpos : (drain (workerDec P C kr) env i e jobs' st').pos = st'.pos :=
            drain_pos_eq jobs' st'
          dsimp only
          rw [if_neg Bool.false_ne_true]
          cases hread : readBlock.run src.bytes st'.pos with
          | mk res next =>
              have hread' := hpos ▸ hread
              cases res with
              | error err =>
                  refine h'.collect_bad hE next (h'.bad_of_loop ?_)
                  rw [blockLoop_unread hread']
              | ok blk =>
                  show wlp _ _ _ (if blk.blockType = blockDedupRef then _ else _) _
                  by_cases href : blk.blockType = blockDedupRef
                  · rw [if_pos href]
                    have hsound : Progress.Sound e.uncompressedSize
                        { st' with pos := next }.progress := h'.sound
                    refine wlp.bind ((collectAll_spec hE h'.holds hsound).mono ?_)
                    intro σ'' st'' hc
                    obtain ⟨hbad, hgo⟩ := h'.reference hread href hc
                    have hmay (hm : σ''.mayFail) :=
                      (h'.mayFail (hc.mayFail.mp hm)).imp id And.right
                    show wlp _ _ _ (if st''.berr = true then _ else _) _
                    by_cases hst : st''.berr = true
                    · rw [if_pos hst]
                      exact .of_bad hc.sound hst (hbad hst) hmay
                    · rw [if_neg hst]
                      cases hdata : referencedData P C src i b next blk with
                      | error err =>
                          rw [hdata] at hgo
                          exact .of_bad hc.sound rfl hgo hmay
                      | ok out =>
                          rw [hdata] at hgo
                          exact ⟨hE.of_sound hgo.sound, ih hgo⟩
                  · rw [if_neg href]
                    by_cases htype : blk.blockType = blockData
                    · rw [if_neg (not_not.mpr htype)]
                      intro hfree
                      exact ih (h'.submit hread htype hfree)
                    · rw [if_pos htype]
                      refine h'.collect_bad hE next (h'.bad_of_loop ?_)
                      rw [blockLoop_succ hread', if_neg href, if_pos htype]

end Loop

end Zupt.Extract
