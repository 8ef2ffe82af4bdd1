import Zupt.CompressParallel
import Zupt.ExtractParallel
import Zupt.HashChain
import Zupt.SlotPool.Safe

/-! # The pipeline never waits for itself

    Both main threads fill a batch slot by slot and then collect it in order.
    A batch has at most `threads` blocks, but the pool has at most 64 slots and
    a slot is the sequence modulo their number.  As long as the blocks of a
    batch come to slots of their own, with workers that were started, neither
    thread ever waits for itself. -/

namespace Zupt.SlotPool

/-! ## Batches of consecutive blocks -/

/-- The slots of a batch, as what a program holds. -/
def heldBy (slots : List Nat) : Nat → Bool := fun i => decide (i ∈ slots)

theorem heldBy_nil : heldBy [] = fun _ => false := by
  funext i
  simp [heldBy]

theorem heldBy_append (slots : List Nat) (i : Nat) :
    Function.update (heldBy slots) i true = heldBy (slots ++ [i]) := by
  funext j
  by_cases hj : j = i
  · rw [hj, Function.update_self]
    simp [heldBy]
  · rw [Function.update_of_ne hj]
    simp [heldBy, hj]

theorem heldBy_cons {i : Nat} {slots : List Nat} (h : (i :: slots).Nodup) :
    Function.update (heldBy (i :: slots)) i false = heldBy slots := by
  obtain ⟨hnew, -⟩ := List.nodup_cons.mp h
  funext j
  by_cases hj : j = i
  · rw [hj, Function.update_self]
    simp [heldBy, hnew]
  · rw [Function.update_of_ne hj]
    simp [heldBy, hj]

/-- The last blocks before block `b` are pending, each in its slot and no two in
    one. -/
structure Pending (slotOf : Nat → Nat) (b : Nat) (slots : List Nat) : Prop where
  fits : slots.length ≤ b
  eq : slots = (List.range' (b - slots.length) slots.length).map slotOf
  nodup : slots.Nodup

theorem Pending.nil (slotOf : Nat → Nat) (b : Nat) : Pending slotOf b [] :=
  ⟨Nat.zero_le b, rfl, List.nodup_nil⟩

/-- Block `b` has a slot of its own. -/
theorem Pending.fresh {slotOf : Nat → Nat} {b : Nat} {slots : List Nat} (h : Pending slotOf b slots)
    (hnew : ∀ b', b' < b → b < b' + slots.length + 1 → slotOf b' ≠ slotOf b) :
    slotOf b ∉ slots := by
  intro hmem
  have hfits := h.fits
  rw [h.eq] at hmem
  obtain ⟨b', hb', hslot⟩ := List.mem_map.mp hmem
  obtain ⟨hlo, hhi⟩ := List.mem_range'_1.mp hb'
  exact hnew b' (by omega) (by omega) hslot

/-- Then it joins the batch. -/
theorem Pending.push {slotOf : Nat → Nat} {b : Nat} {slots : List Nat} (h : Pending slotOf b slots)
    (hnew : slotOf b ∉ slots) : Pending slotOf (b + 1) (slots ++ [slotOf b]) := by
  have hfits := h.fits
  have hlen : (slots ++ [slotOf b]).length = slots.length + 1 := by simp
  constructor
  · rw [hlen]
    exact Nat.succ_le_succ hfits
  · rw [hlen, Nat.add_sub_add_right, List.range'_concat, List.map_append, ← h.eq]
    simp only [List.map_cons, List.map_nil, Nat.one_mul]
    rw [Nat.sub_add_cancel hfits]
  · rw [List.nodup_append]
    refine ⟨h.nodup, List.nodup_singleton _, ?_⟩
    intro i hi j hj heq
    rw [List.mem_singleton.mp hj] at heq
    exact hnew (heq ▸ hi)

/-- `x << 32 | b`, where `b` has 32 bits. -/
theorem packed_toNat (x : Nat) {b : Nat} (hb : b < 2 ^ 32) :
    ((UInt64.ofNat x <<< 32) ||| UInt64.ofNat b).toNat = x % 2 ^ 32 * 2 ^ 32 + b := by
  have hhigh : (UInt64.ofNat x <<< 32).toNat = x % 2 ^ 32 * 2 ^ 32 := by
    rw [UInt64.toNat_shiftLeft, UInt64.toNat_ofNat']
    show (x % 2 ^ 64) <<< 32 % 2 ^ 64 = x % 2 ^ 32 * 2 ^ 32
    rw [Nat.shiftLeft_eq]
    omega
  have hlow : (UInt64.ofNat b).toNat = b := by
    rw [UInt64.toNat_ofNat']
    omega
  rw [UInt64.toNat_or, hhigh, hlow, Nat.mul_comm, Nat.two_pow_add_eq_or_of_lt hb]

/-- Blocks that are less than the number of slots apart have slots of their
    own. -/
theorem slot_ne {base b b' nslots : Nat} (hlt : b' < b) (hnear : b < b' + nslots) :
    (base + b') % nslots ≠ (base + b) % nslots :=
  HashChain.mod_ne (by omega) (by omega)

end Zupt.SlotPool

namespace Zupt.Writers

open Zupt.Compress Zupt.Decode Zupt.SlotPool Zupt.Seal Zupt.Transform Zupt.Layout Zupt.Index

/-! ## Compressing -/

section Compressing

variable {P : Primitives} {C : Codecs} {opts : WriterOptions} {env : WriterEnv}
  {started : Nat → Prop} {kr : Option Keyring} {threads fi : Nat}

/-- The slot of a block of a file. -/
def fileSlot (opts : WriterOptions) (fi b : Nat) : Nat :=
  (fileAadSeq fi b).toNat % max 1 (min opts.threads 64)

/-- A file that the pool can take: the workers of its blocks were started, it
    has no more blocks than there are slots unless there are slots for all
    threads, and its block numbers have 32 bits. -/
structure FileFits (opts : WriterOptions) (started : Nat → Prop) (fi blocks : Nat) : Prop where
  started : ∀ b < blocks, started (fileSlot opts fi b)
  room : opts.threads ≤ 64 ∨ blocks ≤ 64
  numbers : blocks ≤ 2 ^ 32

/-- A batch is collected whole. -/
theorem collectBlocks_safe {pool : Pool CompressJob (Result Written)} {slots : List Nat}
    (hslots : slots.Nodup) (writeErr : Bool) (fw : FileWriter) :
    Safe pool (heldBy slots) (collectBlocks P kr slots writeErr fw) fun held r =>
      held = heldBy [] ∧ r.2.blockSeq = fw.blockSeq := by
  induction slots generalizing writeErr fw with
  | nil => exact ⟨rfl, rfl⟩
  | cons slot slots ih =>
      have hrest := (List.nodup_cons.mp hslots).2
      refine ⟨?_, ?_⟩
      · simp [heldBy]
      · intro r
        rw [heldBy_cons hslots]
        cases r with
        | error e => exact ih hrest true fw
        | ok w => exact ih hrest writeErr (fw.put P kr w)

/-- Behind a flush there is room for a block. -/
theorem flushBlocks_safe {pool : Pool CompressJob (Result Written)} {slots : List Nat}
    (hslots : slots.Nodup) (hthreads : 0 < threads) (fw : FileWriter) :
    Safe pool (heldBy slots) (flushBlocks P kr threads slots fw) fun held r =>
      held = heldBy r.1 ∧ r.2.2.blockSeq = fw.blockSeq ∧ r.1.length < threads ∧
        (r.1 = slots ∧ r.2.1 = false ∨ r.1 = []) := by
  rw [flushBlocks]
  by_cases hroom : slots.length < threads
  · rw [if_pos hroom]
    exact ⟨rfl, rfl, hroom, Or.inl ⟨rfl, rfl⟩⟩
  · rw [if_neg hroom]
    refine Safe.bind ((collectBlocks_safe hslots false fw).mono ?_)
    intro held r h
    exact ⟨h.1, h.2, hthreads, Or.inr rfl⟩

/-- **ONE FILE**: the loop over its blocks submits only to slots it does not
    hold. -/
theorem mtBlocks_safe {blocks : Nat} (hfits : FileFits opts started fi blocks)
    (hthreads : 0 < opts.threads) (chunks : List Bytes) {pending : List Nat} {fw : FileWriter}
    (hpending : Pending (fileSlot opts fi) fw.blockSeq pending)
    (hcount : fw.blockSeq + chunks.length ≤ blocks) :
    Safe (compressPool C opts env started) (heldBy pending)
      (mtBlocks P kr opts.threads fi chunks pending fw) fun held _ => held = heldBy [] := by
  induction chunks generalizing pending fw with
  | nil =>
      refine (collectBlocks_safe hpending.nodup false fw).mono ?_
      intro held r h
      exact h.1
  | cons chunk chunks ih =>
      rw [List.length_cons] at hcount
      refine Safe.bind ((flushBlocks_safe hpending.nodup hthreads fw).mono ?_)
      intro held r hflush
      obtain ⟨pending', writeErr, fw'⟩ := r
      obtain ⟨hheld, hseq, hroom, hkept⟩ := hflush
      dsimp only at hheld hseq hroom hkept
      have hpending' : Pending (fileSlot opts fi) fw'.blockSeq pending' := by
        rw [hseq]
        rcases hkept with ⟨hsame, -⟩ | hnone
        · rw [hsame]
          exact hpending
        · rw [hnone]
          exact Pending.nil _ _
      have hlen := hpending'.fits
      have hnumbers := hfits.numbers
      have hfresh : fileSlot opts fi fw'.blockSeq ∉ pending' := by
        apply hpending'.fresh
        intro b' hlt hnear
        have hslots : pending'.length + 1 ≤ max 1 (min opts.threads 64) := by
          rcases hfits.room with hall | hfew
          · omega
          · omega
        rw [fileSlot, fileSlot, fileAadSeq, fileAadSeq, packed_toNat _ (by omega),
          packed_toNat _ (by omega)]
        exact slot_ne hlt (by omega)
      subst hheld
      dsimp only
      cases writeErr with
      | true =>
          rcases hkept with ⟨-, hok⟩ | hnone
          · cases hok
          · rw [if_pos rfl, hnone]
            rfl
      | false =>
          rw [if_neg Bool.false_ne_true]
          have hpushed := hpending'.push hfresh
          refine ⟨?_, ?_, ?_⟩
          · show decide (fileSlot opts fi fw'.blockSeq ∈ pending') = false
            simp [hfresh]
          · exact hfits.started fw'.blockSeq (by omega)
          · show Safe (compressPool C opts env started)
              (Function.update (heldBy pending') (fileSlot opts fi fw'.blockSeq) true)
              (mtBlocks P kr opts.threads fi chunks (pending' ++ [fileSlot opts fi fw'.blockSeq])
                (fw'.count chunk)) _
            rw [heldBy_append]
            apply ih
            · rw [FileWriter.count_blockSeq]
              exact hpushed
            · rw [FileWriter.count_blockSeq]
              omega

/-- The files of an archive, that the pool can take. -/
def FilesFit (opts : WriterOptions) (started : Nat → Prop) (inputs : List Input) : Prop :=
  ∀ fi input, inputs[fi]? = some input →
    FileFits opts started fi (chunksOf (resolveBlockSize opts).toNat input.content).length

/-- The loop over the files, file by file. -/
theorem compressInputs_safe {mt : Bool} (hthreads : mt = true → 0 < opts.threads)
    (inputs : List Input) (fi : Nat) (hfit : mt = true → ∀ k input, inputs[k]? = some input →
      FileFits opts started (fi + k)
        (chunksOf (resolveBlockSize opts).toNat input.content).length)
    (out : OutState) (index : List IndexEntry) :
    Safe (compressPool C opts env started) (heldBy [])
      (compressInputs P C opts env mt fi inputs out index) fun held _ => held = heldBy [] := by
  induction inputs generalizing fi out index with
  | nil => rfl
  | cons input inputs ih =>
      rw [compressInputs]
      by_cases hlarge : input.content.length ≥ 2 ^ 63
      · rw [if_pos hlarge]
        rfl
      · rw [if_neg hlarge]
        refine Safe.bind (Safe.mono (Q := fun held _ => held = heldBy []) ?_ ?_)
        · rw [compressBlocks]
          cases mt with
          | true =>
              refine mtBlocks_safe (hfit rfl 0 input rfl) (hthreads rfl) _ (Pending.nil _ _) ?_
              show 0 + _ ≤ _
              rw [Nat.zero_add]
          | false => rfl
        · intro held r hheld
          obtain ⟨writeErr, fw⟩ := r
          subst hheld
          dsimp only
          cases writeErr with
          | true => rfl
          | false =>
              rw [if_neg Bool.false_ne_true]
              apply ih (fi + 1)
              intro hmt k input' hk
              rw [Nat.add_assoc, Nat.add_comm 1 k]
              exact hfit hmt (k + 1) input' hk

/-- **COMPRESSING NEVER WAITS FOR ITSELF** on files that the pool can take. -/
theorem compressFiles_safe {pool : Bool} {inputs : List Input}
    (hfit : multithreaded opts pool = true → FilesFit opts started inputs) :
    Safe (compressPool C opts env started) (fun _ => false)
      (compressFiles P C opts env pool inputs) fun _ _ => True := by
  rw [compressFiles]
  cases inputsError inputs with
  | some e => trivial
  | none =>
      have hthreads : multithreaded opts pool = true → 0 < opts.threads := by
        intro hmt
        simp only [multithreaded, Bool.and_eq_true, decide_eq_true_eq] at hmt
        omega
      rw [← heldBy_nil]
      refine Safe.bind (Safe.mono (compressInputs_safe hthreads inputs 0 ?_ _ _) ?_)
      · intro hmt k input hk
        rw [Nat.zero_add]
        exact hfit hmt k input hk
      · intro held written _
        cases written with
        | none => trivial
        | some w => trivial

end Compressing

end Zupt.Writers

namespace Zupt.Extract

open Zupt.Stream Zupt.Seal Zupt.Frame Zupt.Transform Zupt.Decode Zupt.Index Zupt.Open Zupt.Paths
open Zupt.SlotPool

/-! ## Extracting -/

section Extracting

variable {P : Primitives} {C : Codecs} {threads : Nat} {started : Nat → Prop}
  {kr : Option Keyring} {src : Source} {env : OutputEnv} {i : Nat} {e : IndexEntry}

/-- The slot of a block of an entry. -/
def entrySlot (threads : Nat) (globalFlags : UInt32) (i b : Nat) : Nat :=
  (archiveDataAadSeq globalFlags i b).toNat % max 1 (min threads maxThreads)

/-- Files with references that are not authenticated: all their blocks have
    sequence zero. -/
def oneSequence (globalFlags : UInt32) : Bool :=
  !hasFlag globalFlags flagDiskImage && hasFlag globalFlags flagDedup &&
    !hasFlag globalFlags flagAuthDedupRefs

/-- No DATA frame of the entry lies right behind another. -/
def Scattered (bytes : Bytes) (e : IndexEntry) (start : Nat) : Prop :=
  ∀ b pos blk next blk' next', b + 1 < e.blockCount.toNat → FrameAt bytes start b pos →
    readBlock.run bytes pos = (.ok blk, next) → blk.blockType = blockData →
    readBlock.run bytes next = (.ok blk', next') → blk'.blockType ≠ blockData

/-- An entry that the pool can take: the workers of its blocks were started, it
    has no more blocks than there are slots unless there are slots for all
    threads, and if its blocks have one sequence, no two are in one batch. -/
structure EntryFits (threads : Nat) (started : Nat → Prop) (bytes : Bytes) (globalFlags : UInt32)
    (i : Nat) (e : IndexEntry) : Prop where
  started : ∀ b < e.blockCount.toNat, started (entrySlot threads globalFlags i b)
  room : threads ≤ maxThreads ∨ e.blockCount.toNat ≤ maxThreads
  apart : oneSequence globalFlags = true → ∀ pos, Scattered bytes e (entryStart e pos)

theorem writeResult_safe {pool : Pool DecodeJob (Result Bytes)} (held : Nat → Bool)
    (st : FileState) (out : Bytes) :
    Safe pool held (writeResult env i e st out) fun held' st' => held' = held ∧ st'.pos = st.pos := by
  rw [writeResult]
  split
  · exact ⟨rfl, rfl⟩
  · exact ⟨rfl, FileState.write_pos st out⟩

/-- A batch is collected whole. -/
theorem collectAll_safe {pool : Pool DecodeJob (Result Bytes)} {slots : List Nat}
    (hslots : slots.Nodup) (st : FileState) :
    Safe pool (heldBy slots) (collectAll env i e slots st) fun held st' =>
      held = heldBy [] ∧ st'.pos = st.pos := by
  induction slots generalizing st with
  | nil => exact ⟨rfl, rfl⟩
  | cons slot slots ih =>
      have hrest := (List.nodup_cons.mp hslots).2
      refine ⟨?_, ?_⟩
      · simp [heldBy]
      · intro r
        rw [heldBy_cons hslots]
        cases r with
        | error err => exact ih hrest { st with berr := true }
        | ok out =>
            show Safe pool (heldBy slots)
              (writeResult env i e st out >>= collectAll env i e slots) _
            refine Safe.bind ((writeResult_safe (heldBy slots) st out).mono ?_)
            intro held st' hwritten
            obtain ⟨hheld, hpos⟩ := hwritten
            rw [hheld, ← hpos]
            exact ih hrest st'

/-- Behind a flush there is room for a block. -/
theorem flushFull_safe {pool : Pool DecodeJob (Result Bytes)} {slots : List Nat}
    (hslots : slots.Nodup) (hthreads : 0 < threads) (st : FileState) :
    Safe pool (heldBy slots) (flushFull env i e threads slots st) fun held r =>
      held = heldBy r.1 ∧ r.2.1.pos = st.pos ∧ r.1.length < threads ∧
        (r.1 = slots ∧ r.2.2 = false ∨ r.1 = []) := by
  rw [flushFull]
  by_cases hroom : slots.length < threads
  · rw [if_pos hroom]
    exact ⟨rfl, rfl, hroom, Or.inl ⟨rfl, rfl⟩⟩
  · rw [if_neg hroom]
    refine Safe.bind ((collectAll_safe hslots st).mono ?_)
    intro held st' h
    exact ⟨h.1, h.2, hthreads, Or.inr rfl⟩

/-- The frame in front of `pos` is a DATA frame, if anything is pending. -/
def BehindData (bytes : Bytes) (start b : Nat) (slots : List Nat) (pos : Nat) : Prop :=
  slots ≠ [] → ∃ b' pos' blk, b = b' + 1 ∧ FrameAt bytes start b' pos' ∧
    readBlock.run bytes pos' = (.ok blk, pos) ∧ blk.blockType = blockData

/-- The slot of the next DATA frame is not pending. -/
theorem entrySlot_fresh {globalFlags : UInt32} {bytes : Bytes} {pos0 b next : Nat} {blk : Block}
    {slots : List Nat} {pos : Nat}
    (hfits : EntryFits threads started bytes globalFlags i e)
    (hpending : Pending (entrySlot threads globalFlags i) b slots)
    (hbehind : BehindData bytes (entryStart e pos0) b slots pos) (hroom : slots.length < threads)
    (hb : b < e.blockCount.toNat) (hread : readBlock.run bytes pos = (.ok blk, next))
    (hdata : blk.blockType = blockData) : entrySlot threads globalFlags i b ∉ slots := by
  have hlen := hpending.fits
  have hcount := e.blockCount.toNat_lt
  cases hone : oneSequence globalFlags with
  | true =>
      -- a batch of more than one block would hold two DATA frames in a row
      by_cases hnone : slots = []
      · simp [hnone]
      · obtain ⟨b', pos', blk', hb', hframe, hread', hdata'⟩ := hbehind hnone
        have happart := hfits.apart hone pos0 b' pos' blk' pos blk next (by omega) hframe hread'
          hdata' hread
        exact absurd hdata happart
  | false =>
      apply hpending.fresh
      intro b' hlt hnear
      have hslots : slots.length + 1 ≤ max 1 (min threads maxThreads) := by
        rcases hfits.room with hall | hfew
        · omega
        · omega
      rw [entrySlot, entrySlot, archiveDataAadSeq, archiveDataAadSeq]
      cases hdisk : hasFlag globalFlags flagDiskImage with
      | true =>
          have hsmall {c : Nat} (hc : c ≤ b) : (UInt64.ofNat c).toNat = 0 + c := by
            rw [UInt64.toNat_ofNat']
            omega
          rw [if_pos rfl, if_pos rfl, hsmall (Nat.le_of_lt hlt), hsmall (Nat.le_refl b)]
          exact slot_ne hlt (by omega)
      | false =>
          have hseq : ¬ (hasFlag globalFlags flagDedup && !hasFlag globalFlags flagAuthDedupRefs) =
              true := by
            intro hlegacy
            simp [oneSequence, hdisk, hlegacy] at hone
          rw [if_neg Bool.false_ne_true, if_neg Bool.false_ne_true, if_neg hseq, if_neg hseq,
            packed_toNat _ (by omega), packed_toNat _ (by omega)]
          exact slot_ne hlt (by omega)

/-- **ONE ENTRY**: the loop over its blocks submits only to slots it does not
    hold. -/
theorem mtLoop_safe (hfits : EntryFits threads started src.bytes src.globalFlags i e)
    (hthreads : 0 < threads) {pos0 : Nat} (n : Nat) {b : Nat} {slots : List Nat} {st : FileState}
    (hpending : Pending (entrySlot threads src.globalFlags i) b slots)
    (hframe : FrameAt src.bytes (entryStart e pos0) b st.pos)
    (hbehind : BehindData src.bytes (entryStart e pos0) b slots st.pos)
    (hcount : b + n ≤ e.blockCount.toNat) :
    Safe (decodePool P C threads started kr) (heldBy slots)
      (mtLoop P C src env threads i e n b slots st) fun held _ => held = heldBy [] := by
  induction n generalizing b slots st with
  | zero =>
      refine (collectAll_safe hpending.nodup st).mono ?_
      intro held st' h
      exact h.1
  | succ n ih =>
      refine Safe.bind ((flushFull_safe hpending.nodup hthreads st).mono ?_)
      intro held r hflush
      obtain ⟨slots', st', stop⟩ := r
      obtain ⟨hheld, hpos, hroom, hkept⟩ := hflush
      dsimp only at hheld hpos hroom hkept
      have hpending' : Pending (entrySlot threads src.globalFlags i) b slots' := by
        rcases hkept with ⟨hsame, -⟩ | hnone
        · rw [hsame]
          exact hpending
        · rw [hnone]
          exact Pending.nil _ _
      have hbehind' : BehindData src.bytes (entryStart e pos0) b slots' st'.pos := by
        rw [hpos]
        rcases hkept with ⟨hsame, -⟩ | hnone
        · rw [hsame]
          exact hbehind
        · intro hsome
          exact absurd hnone hsome
      rw [← hpos] at hframe
      subst hheld
      dsimp only
      cases stop with
      | true =>
          rcases hkept with ⟨-, hok⟩ | hnone
          · cases hok
          · rw [if_pos rfl, hnone]
            rfl
      | false =>
          rw [if_neg Bool.false_ne_true]
          have hcollect (st'' : FileState) : Safe (decodePool P C threads started kr) (heldBy slots')
              (collectAll env i e slots' st'') fun held _ => held = heldBy [] := by
            refine (collectAll_safe hpending'.nodup st'').mono ?_
            intro held _ h
            exact h.1
          cases hread : readBlock.run src.bytes st'.pos with
          | mk res next =>
              cases res with
              | error err => exact hcollect _
              | ok blk =>
                  have hnext := hframe.succ hread
                  dsimp only
                  by_cases href : blk.blockType = blockDedupRef
                  · rw [if_pos href]
                    refine Safe.bind ((collectAll_safe hpending'.nodup { st' with pos := next }).mono ?_)
                    intro held st'' hcollected
                    obtain ⟨hheld, hpos''⟩ := hcollected
                    subst hheld
                    dsimp only at hpos'' ⊢
                    cases st''.berr with
                    | true => rfl
                    | false =>
                        rw [if_neg Bool.false_ne_true]
                        cases referencedData P C src i b next blk with
                        | error err => rfl
                        | ok dec =>
                            show Safe _ _ (mtLoop P C src env threads i e n (b + 1) []
                              (FileState.write env i e st'' dec)) _
                            refine ih (Pending.nil _ _) ?_ ?_ (by omega)
                            · rw [FileState.write_pos, hpos'']
                              exact hnext
                            · intro hsome
                              exact absurd rfl hsome
                  · rw [if_neg href]
                    by_cases htype : blk.blockType = blockData
                    · rw [if_neg (not_not.mpr htype)]
                      have hfresh := entrySlot_fresh hfits hpending' hbehind' hroom (by omega)
                        hread htype
                      refine ⟨?_, ?_, ?_⟩
                      · show decide (entrySlot threads src.globalFlags i b ∈ slots') = false
                        simp [hfresh]
                      · exact hfits.started b (by omega)
                      · show Safe (decodePool P C threads started kr)
                          (Function.update (heldBy slots') (entrySlot threads src.globalFlags i b)
                            true)
                          (mtLoop P C src env threads i e n (b + 1)
                            (slots' ++ [entrySlot threads src.globalFlags i b])
                            { st' with pos := next }) _
                        rw [heldBy_append]
                        refine ih (hpending'.push hfresh) hnext ?_ (by omega)
                        intro _
                        exact ⟨b, st'.pos, blk, rfl, hframe, hread, htype⟩
                    · rw [if_pos htype]
                      exact hcollect _

/-- The entries of an archive that is open, that the pool can take. -/
def EntriesFit (threads : Nat) (started : Nat → Prop) (env : OutputEnv) (bytes : Bytes)
    (globalFlags : UInt32) (entries : List IndexEntry) : Prop :=
  ∀ i e, entries[i]? = some e → pathIsSafe e.path.bytes = true → env.canOpen i = true →
    1 < e.blockCount.toNat → EntryFits threads started bytes globalFlags i e

/-- The loop over the entries, entry by entry. -/
theorem extractEntries_safe {mt : Bool} (hthreads : mt = true → 0 < threads)
    (entries : List IndexEntry) (i : Nat)
    (hfit : mt = true → ∀ k e, entries[k]? = some e → pathIsSafe e.path.bytes = true →
      env.canOpen (i + k) = true → 1 < e.blockCount.toNat →
        EntryFits threads started src.bytes src.globalFlags (i + k) e) (run : RunState) :
    Safe (decodePool P C threads started kr) (heldBy [])
      (extractEntries P C src env mt threads i entries run) fun held _ => held = heldBy [] := by
  induction entries generalizing i run with
  | nil => rfl
  | cons e es ih =>
      have hrest : mt = true → ∀ k e', es[k]? = some e' → pathIsSafe e'.path.bytes = true →
          env.canOpen (i + 1 + k) = true → 1 < e'.blockCount.toNat →
            EntryFits threads started src.bytes src.globalFlags (i + 1 + k) e' := by
        intro hmt k e' hk
        rw [Nat.add_assoc, Nat.add_comm 1 k]
        exact hfit hmt (k + 1) e' hk
      rw [extractEntries]
      by_cases hskip : (!pathIsSafe e.path.bytes || !env.canOpen i) = true
      · rw [if_pos hskip]
        exact ih (i + 1) hrest _
      · rw [if_neg hskip]
        refine Safe.bind (Safe.mono (Q := fun held _ => held = heldBy []) ?_ ?_)
        · rw [extractBlocks]
          by_cases hpooled : (mt && decide (1 < e.blockCount.toNat)) = true
          · rw [if_pos hpooled]
            simp only [Bool.and_eq_true, decide_eq_true_eq] at hpooled
            simp only [Bool.or_eq_true, Bool.not_eq_true', not_or, Bool.not_eq_false] at hskip
            have hfits := hfit hpooled.1 0 e rfl hskip.1 hskip.2 hpooled.2
            refine mtLoop_safe hfits (hthreads hpooled.1) _ (Pending.nil _ _) FrameAt.zero ?_ ?_
            · intro hsome
              exact absurd rfl hsome
            · rw [Nat.zero_add]
          · rw [if_neg hpooled]
            rfl
        · intro held st hheld
          subst hheld
          exact ih (i + 1) hrest _

theorem solidEntries_safe {pool : Pool DecodeJob (Result Bytes)} (held : Nat → Bool)
    (stream : Bytes) (i : Nat) (entries : List IndexEntry) (run : RunState) :
    Safe pool held (solidEntries env stream i entries run) fun _ _ => True := by
  induction entries generalizing i run with
  | nil => trivial
  | cons e es ih =>
      rw [solidEntries]
      cases solidOutput env stream i e with
      | none => exact ih (i + 1) _
      | some out => exact ih (i + 1) _

/-- A solid archive does not go through the pool. -/
theorem extractSolid_safe {pool : Pool DecodeJob (Result Bytes)} (o : Opened) (bytes : Bytes) :
    Safe pool (fun _ => false) (extractSolid P C o env bytes) fun _ _ => True := by
  rw [extractSolid]
  generalize (if o.hdr.commentOffset ≠ 0 then 2 else 1) = metadataBlocks
  generalize (if o.hdr.commentOffset ≠ 0 then o.hdr.commentOffset.toNat
    else o.footer.indexOffset.toNat) = dataEnd
  split
  · trivial
  · cases solidStart o.hdr.globalFlags bytes with
    | error err => trivial
    | ok start =>
        dsimp only
        cases solidLoop P C bytes o.keyring dataEnd (indexedSize o.entries) (bytes.length + 1) start
            0 [] with
        | none => trivial
        | some decoded =>
            obtain ⟨stream, blocks⟩ := decoded
            dsimp only
            split
            · trivial
            · refine Safe.bind ((solidEntries_safe _ stream 0 o.entries _).mono ?_)
              intro held run _
              trivial

/-- What an archive opens to, that the pool can take. -/
def ArchiveFits (P : Primitives) (C : Codecs) (opts : ReaderOptions) (started : Nat → Prop)
    (env : OutputEnv) (bytes : Bytes) : Prop :=
  ∀ o pos, (openArchive P C opts).run bytes 0 = (.ok o, pos) →
    EntriesFit opts.threads started env bytes o.hdr.globalFlags o.entries

/-- **EXTRACTING NEVER WAITS FOR ITSELF** on archives that the pool can take. -/
theorem extractArchive_safe {opts : ReaderOptions} {pool : Bool} {bytes : Bytes}
    (hfit : pool = true → 1 < opts.threads → ArchiveFits P C opts started env bytes) :
    Safe (decodePool P C opts.threads started kr) (fun _ => false)
      (extractArchive P C opts env pool bytes) fun _ _ => True := by
  rw [extractArchive]
  cases hopen : (openArchive P C opts).run bytes 0 with
  | mk res pos =>
      cases res with
      | error err => trivial
      | ok o =>
          dsimp only
          rw [extractOpened]
          split
          · trivial
          · split
            · exact extractSolid_safe o bytes
            · cases legacyMap o bytes with
              | error err => trivial
              | ok map =>
                  rw [← heldBy_nil]
                  refine Safe.bind (Safe.mono (extractEntries_safe ?_ o.entries 0 ?_ _) ?_)
                  · intro hmt
                    simp only [Bool.and_eq_true, decide_eq_true_eq] at hmt
                    omega
                  · intro hmt k e hk
                    simp only [Bool.and_eq_true, decide_eq_true_eq] at hmt
                    rw [Nat.zero_add]
                    exact hfit hmt.1 hmt.2 o pos hopen k e hk
                  · intro held run _
                    trivial

end Extracting

end Zupt.Extract

namespace Zupt.Pipeline

open Zupt.Stream Zupt.Seal Zupt.Frame Zupt.Transform Zupt.Decode Zupt.Index Zupt.Open Zupt.Paths
open Zupt.Compress Zupt.Writers Zupt.Extract Zupt.Layout Zupt.Authentication Zupt.SlotPool

/-- **THE PIPELINE NEVER WAITS FOR ITSELF**, in any interleaving, where the pool
    can take the files, and on the other side the archive. -/
theorem never_waits_for_itself (P : Primitives) (C : Codecs) (pool : Bool)
    (started : Nat → Prop) :
    (∀ (opts : WriterOptions) (env : WriterEnv) (inputs : List Input),
      (multithreaded opts pool = true → FilesFit opts started inputs) →
      ∀ c, Reachable (compressPool C opts env started) (compressFiles P C opts env pool inputs) c →
        ¬ WaitsForItself (compressPool C opts env started) c) ∧
    ∀ (opts : ReaderOptions) (env : OutputEnv) (kr : Option Keyring) (bytes : Bytes),
      (pool = true → 1 < opts.threads → ArchiveFits P C opts started env bytes) →
      ∀ c, Reachable (decodePool P C opts.threads started kr)
          (extractArchive P C opts env pool bytes) c →
        ¬ WaitsForItself (decodePool P C opts.threads started kr) c := by
  constructor
  · intro opts env inputs hfit c hc
    exact safe_not_blocked (compressFiles_safe hfit) hc
  · intro opts env kr bytes hfit c hc
    exact safe_not_blocked (extractArchive_safe hfit) hc

/-- Two threads that were both started, for three blocks and for one, and for the
    archive of two files of two blocks. -/
theorem never_waits_for_itself_small :
    (∀ c, Reachable (compressPool storeOnly smallWriter smallEnv fun i => i < 2)
        (compressFiles toyPrimitives storeOnly smallWriter smallEnv true smallInputs) c →
      ¬ WaitsForItself (compressPool storeOnly smallWriter smallEnv fun i => i < 2) c) ∧
    ∀ c, Reachable (decodePool toyPrimitives storeOnly (smallReader 2).threads (fun i => i < 2) none)
        (extractArchive toyPrimitives storeOnly (smallReader 2) faultless true twoFilesArchive) c →
      ¬ WaitsForItself (decodePool toyPrimitives storeOnly (smallReader 2).threads
        (fun i => i < 2) none) c := by
  constructor
  · refine (never_waits_for_itself toyPrimitives storeOnly true _).1 smallWriter smallEnv _ ?_
    intro _ fi input hin
    have hslot (b : Nat) : fileSlot smallWriter fi b < 2 := Nat.mod_lt _ (by decide)
    have hall : ∀ input ∈ smallInputs,
        (chunksOf (resolveBlockSize smallWriter).toNat input.content).length ≤ 3 := by decide
    have hsmall := hall input (List.mem_of_getElem? hin)
    have hthreads : smallWriter.threads ≤ 64 := by decide
    exact ⟨fun b _ => hslot b, Or.inl hthreads, hsmall.trans (by decide)⟩
  · refine (never_waits_for_itself toyPrimitives storeOnly true _).2 (smallReader 2) faultless none _ ?_
    intro _ _ o pos hopen i e _ _ _ _
    obtain ⟨hflags, -, -⟩ := twoFiles_opens.opened hopen
    rw [hflags]
    refine ⟨fun b _ => Nat.mod_lt _ (by decide), Or.inl (by decide), ?_⟩
    intro hone
    cases hone

/-! ## An archive that blocks its reader -/

/-- The small files again, with deduplication. -/
def dedupArchive : Bytes :=
  match compressFiles toyPrimitives storeOnly { smallWriter with dedup := true } smallEnv true
      smallInputs with
  | .ret (.ok a) => a.bytes toyPrimitives
  | _ => []

/-- The sequences of the first two submissions of a program that starts with
    them. -/
def firstTwo {J R W α : Type} (nslots : Nat) : Prog J R W α → Option (Nat × Nat)
  | .submit seq _ k =>
      match k (seq % nslots) with
      | .submit seq' _ _ => some (seq, seq')
      | _ => none
  | _ => none

/-- Two submissions in a row that go to one slot leave the main thread waiting
    for itself. -/
theorem waits_of_firstTwo {J R W α : Type} {pool : Pool J R} {p : Prog J R W α} {seq seq' : Nat}
    (h : firstTwo pool.nslots p = some (seq, seq'))
    (hslot : seq % pool.nslots = seq' % pool.nslots) :
    ∃ c, Reachable pool p c ∧ WaitsForItself pool c := by
  cases p with
  | ret a => cases h
  | collect slot k => cases h
  | note w k => cases h
  | submit s job k =>
      rw [firstTwo] at h
      cases hk : k (s % pool.nslots) with
      | ret a =>
          rw [hk] at h
          cases h
      | collect slot k' =>
          rw [hk] at h
          cases h
      | note w k' =>
          rw [hk] at h
          cases h
      | submit s' job' k' =>
          rw [hk] at h
          cases h
          have hstep : Step pool (Config.initial (.submit seq job k)) _ := Step.submit rfl rfl
          have hmain : Main.run (W := W) (R := R) (k (seq % pool.nslots)) =
              .run (.submit seq' job' k') := congrArg Main.run hk
          refine ⟨_, Relation.ReflTransGen.single hstep, Or.inl ⟨seq', job', k', hmain, ?_, ?_⟩⟩
          · refine Or.inl ⟨seq', job', k', hmain, rfl, ?_⟩
            show Function.update (fun _ => Slot.empty) (seq % pool.nslots) (Slot.ready 0 job)
              (seq' % pool.nslots) ≠ Slot.empty
            rw [← hslot, Function.update_self]
            intro hempty
            cases hempty
          · show seq' % pool.nslots ∈ [] ++ [seq % pool.nslots]
            rw [hslot]
            exact List.mem_append_right _ (List.mem_singleton_self _)

/-- **AN ARCHIVE THAT BLOCKS ITS READER**: deduplicated, not encrypted, and
    extracted with two threads. -/
theorem dedupArchive_waits :
    ∃ c, Reachable (smallPool 2 dedupArchive) (smallExtract 2 dedupArchive) c ∧
      WaitsForItself (smallPool 2 dedupArchive) c := by
  have htwo : firstTwo (smallPool 2 dedupArchive).nslots (smallExtract 2 dedupArchive) =
      some (0, 0) := by decide +kernel
  exact waits_of_firstTwo htwo rfl

end Zupt.Pipeline
