import Zupt.Test
import Zupt.ExtractParallel
import Zupt.SlotPool.Alone

/-! # Testing against extracting

    When the test of an archive predicts what its extraction does.  Both are
    measured against what the frames decode to (`WholeEntries`,
    `SolidFrames`), which leaves three differences: how empty blocks are
    hashed, whether an empty file of a solid archive needs a hash, and what is
    made of an encryption header that does not read and of sizes whose sum
    does not fit 64 bits. -/

namespace Zupt.Extract

open Zupt.Stream Zupt.Seal Zupt.Frame Zupt.Transform Zupt.Decode Zupt.Trailer Zupt.Index Zupt.Open
open Zupt.Paths Zupt.SlotPool Zupt.Authentication

variable {P : Primitives} {C : Codecs} {src : Source} {i : Nat} {e : IndexEntry}

/-! ## The blocks of an entry -/

/-- The hash the test chains: every block, the empty ones too. -/
def testedHash (chunks : List Bytes) : UInt64 := chunks.foldl (fun h chunk => xxh64 chunk h) 0

/-- The test of an entry behind these blocks. -/
def Tested.after (pos : Nat) (chunks : List Bytes) : Tested :=
  ⟨pos, UInt64.ofNat chunks.flatten.length, testedHash chunks, true⟩

/-- A run of frames decodes the same way at most once. -/
theorem Accepted.unique {dec : Block → UInt64 → Result Bytes} {b pos fin fin' : Nat}
    {chunks chunks' : List Bytes} (h : Accepted P C dec src i b pos chunks fin)
    (h' : Accepted P C dec src i b pos chunks' fin') (hlen : chunks.length = chunks'.length) :
    chunks = chunks' ∧ fin = fin' := by
  induction h generalizing chunks' with
  | done =>
      obtain rfl := List.length_eq_zero_iff.mp hlen.symm
      cases h'
      exact ⟨rfl, rfl⟩
  | data hread htype hdec hrest ih =>
      cases h' with
      | done => cases hlen
      | data hread' htype' hdec' hrest' =>
          obtain ⟨hblk, rfl⟩ := Prod.mk.inj (hread.symm.trans hread')
          obtain rfl := Except.ok.inj hblk
          obtain rfl := Except.ok.inj (hdec.symm.trans hdec')
          obtain ⟨rfl, rfl⟩ := ih hrest' (Nat.succ.inj hlen)
          exact ⟨rfl, rfl⟩
      | ref hread' htype' href' hrest' =>
          obtain ⟨hblk, -⟩ := Prod.mk.inj (hread.symm.trans hread')
          obtain rfl := Except.ok.inj hblk
          rw [htype] at htype'
          exact absurd htype' (by decide)
  | ref hread htype href hrest ih =>
      cases h' with
      | done => cases hlen
      | data hread' htype' hdec' hrest' =>
          obtain ⟨hblk, -⟩ := Prod.mk.inj (hread.symm.trans hread')
          obtain rfl := Except.ok.inj hblk
          rw [htype] at htype'
          exact absurd htype' (by decide)
      | ref hread' htype' href' hrest' =>
          obtain ⟨hblk, rfl⟩ := Prod.mk.inj (hread.symm.trans hread')
          obtain rfl := Except.ok.inj hblk
          obtain rfl := Except.ok.inj (href.symm.trans href')
          obtain ⟨rfl, rfl⟩ := ih hrest' (Nat.succ.inj hlen)
          exact ⟨rfl, rfl⟩

/-- The two ways a turn of the test goes: the entry fails, or a block is
    decoded, fits, and the loop goes on behind its frame. -/
theorem testBlocks_cases (n b : Nat) (st : Tested) :
    (testBlocks P C src i e (n + 1) b st).fok = false ∨
    ∃ blk next dec, readBlock.run src.bytes st.pos = (.ok blk, next) ∧
      testedBlock P C src i b next blk = .ok dec ∧
      ¬ (st.size > e.uncompressedSize ∨ dec.length > (e.uncompressedSize - st.size).toNat) ∧
      testBlocks P C src i e (n + 1) b st = testBlocks P C src i e n (b + 1)
        ⟨next, st.size + UInt64.ofNat dec.length, xxh64 dec st.hash, true⟩ := by
  rw [testBlocks]
  cases hread : readBlock.run src.bytes st.pos with
  | mk res next =>
      cases res with
      | error err => exact Or.inl rfl
      | ok blk =>
          dsimp only
          cases hblk : testedBlock P C src i b next blk with
          | error err => exact Or.inl rfl
          | ok dec =>
              dsimp only
              by_cases hfit : st.size > e.uncompressedSize ∨
                  dec.length > (e.uncompressedSize - st.size).toNat
              · rw [if_pos hfit]
                exact Or.inl rfl
              · rw [if_neg hfit]
                exact Or.inr ⟨blk, next, dec, rfl, hblk, hfit, rfl⟩

/-- A block that is tested is one the extraction accepts. -/
theorem accepted_of_testedBlock {b pos next fin : Nat} {blk : Block} {dec : Bytes}
    {chunks : List Bytes} (hread : readBlock.run src.bytes pos = (.ok blk, next))
    (hblk : testedBlock P C src i b next blk = .ok dec)
    (hrest : Accepted P C (serialDec P C src.keyring) src i (b + 1) next chunks fin) :
    Accepted P C (serialDec P C src.keyring) src i b pos (dec :: chunks) fin := by
  rw [testedBlock] at hblk
  by_cases href : blk.blockType = blockDedupRef
  · rw [if_pos href] at hblk
    exact .ref hread href hblk hrest
  · rw [if_neg href] at hblk
    by_cases htype : blk.blockType = blockData
    · rw [if_pos htype] at hblk
      exact .data hread htype hblk hrest
    · rw [if_neg htype] at hblk
      cases hblk

/-- The sizes so far and the next block add up without wrapping around. -/
theorem size_add {total : UInt64} {n m : Nat} (hn : n ≤ total.toNat)
    (hfit : ¬ (UInt64.ofNat n > total ∨ m > (total - UInt64.ofNat n).toNat)) :
    n + m ≤ total.toNat := by
  have hlt := total.toNat_lt
  have hnat : (UInt64.ofNat n).toNat = n := by
    rw [UInt64.toNat_ofNat', Nat.mod_eq_of_lt (by omega)]
  have hle : UInt64.ofNat n ≤ total := UInt64.not_lt.mp (not_or.mp hfit).1
  have hsub := UInt64.toNat_sub_of_le _ _ hle
  have := (not_or.mp hfit).2
  omega

theorem fits_of_add {total : UInt64} {n m : Nat} (h : n + m ≤ total.toNat) :
    ¬ (UInt64.ofNat n > total ∨ m > (total - UInt64.ofNat n).toNat) := by
  have hlt := total.toNat_lt
  have hnat : (UInt64.ofNat n).toNat = n := by
    rw [UInt64.toNat_ofNat', Nat.mod_eq_of_lt (by omega)]
  have hle : UInt64.ofNat n ≤ total := by
    rw [UInt64.le_iff_toNat_le, hnat]
    omega
  have hsub := UInt64.toNat_sub_of_le _ _ hle
  rintro (hgt | hgt)
  · exact UInt64.not_lt.mpr hle hgt
  · omega

theorem Tested.after_concat (pos next : Nat) (chunks : List Bytes) (dec : Bytes) :
    ⟨next, (Tested.after pos chunks).size + UInt64.ofNat dec.length,
      xxh64 dec (Tested.after pos chunks).hash, true⟩ = Tested.after next (chunks ++ [dec]) := by
  have hflat : (chunks ++ [dec]).flatten = chunks.flatten ++ dec := by
    rw [List.flatten_append, List.flatten_singleton]
  rw [Tested.after, Tested.after, hflat, List.length_append, UInt64.ofNat_add, testedHash,
    testedHash, List.foldl_append]
  rfl

/-- **THE TEST OF AN ENTRY PASSES ONLY OVER ACCEPTED FRAMES** that fit. -/
theorem testBlocks_accepted {n b pos : Nat} {before : List Bytes}
    (hsize : before.flatten.length ≤ e.uncompressedSize.toNat)
    (h : (testBlocks P C src i e n b (.after pos before)).fok = true) :
    ∃ chunks fin, Accepted P C (serialDec P C src.keyring) src i b pos chunks fin ∧
      chunks.length = n ∧
      (before ++ chunks).flatten.length ≤ e.uncompressedSize.toNat ∧
      testBlocks P C src i e n b (.after pos before) = .after fin (before ++ chunks) := by
  induction n generalizing b pos before with
  | zero =>
      refine ⟨[], pos, .done, rfl, ?_, ?_⟩
      · rwa [List.append_nil]
      · rw [List.append_nil]
        rfl
  | succ n ih =>
      rcases testBlocks_cases n b (.after pos before) with
        hbad | ⟨blk, next, dec, hread, hblk, hfit, hgo⟩
      · rw [hbad] at h
        cases h
      · rw [hgo, Tested.after_concat] at h
        have hsize' : (before ++ [dec]).flatten.length ≤ e.uncompressedSize.toNat := by
          rw [List.flatten_append, List.flatten_singleton, List.length_append]
          exact size_add hsize hfit
        obtain ⟨chunks, fin, hacc, hlen, hle, hfin⟩ := ih hsize' h
        have hassoc : before ++ [dec] ++ chunks = before ++ dec :: chunks :=
          List.append_cons before dec chunks ▸ rfl
        rw [hassoc] at hle hfin
        refine ⟨dec :: chunks, fin, accepted_of_testedBlock hread hblk hacc,
          congrArg (· + 1) hlen, hle, ?_⟩
        rw [hgo, Tested.after_concat, hfin]

/-- One turn of the test over an accepted block that fits. -/
theorem testBlocks_succ {n b next : Nat} {st : Tested} {blk : Block} {dec : Bytes}
    (hread : readBlock.run src.bytes st.pos = (.ok blk, next))
    (hblk : testedBlock P C src i b next blk = .ok dec)
    (hfit : ¬ (st.size > e.uncompressedSize ∨
      dec.length > (e.uncompressedSize - st.size).toNat)) :
    testBlocks P C src i e (n + 1) b st = testBlocks P C src i e n (b + 1)
      ⟨next, st.size + UInt64.ofNat dec.length, xxh64 dec st.hash, true⟩ := by
  rw [testBlocks, hread]
  dsimp only
  rw [hblk]
  dsimp only
  rw [if_neg hfit]

/-- The next of several blocks that fit together. -/
theorem fits_of_flatten {total : UInt64} {before rest : List Bytes} {chunk : Bytes}
    (h : (before ++ chunk :: rest).flatten.length ≤ total.toNat) :
    ¬ (UInt64.ofNat before.flatten.length > total ∨
      chunk.length > (total - UInt64.ofNat before.flatten.length).toNat) := by
  apply fits_of_add
  rw [List.flatten_append, List.flatten_cons, List.length_append, List.length_append] at h
  omega

/-- **ACCEPTED FRAMES THAT FIT ARE TESTED** to the end. -/
theorem testBlocks_of_accepted {b pos fin : Nat} {chunks before : List Bytes}
    (h : Accepted P C (serialDec P C src.keyring) src i b pos chunks fin)
    (hsize : (before ++ chunks).flatten.length ≤ e.uncompressedSize.toNat) :
    testBlocks P C src i e chunks.length b (.after pos before) = .after fin (before ++ chunks) := by
  induction h generalizing before with
  | done =>
      rw [List.append_nil]
      rfl
  | @data b pos next fin blk out outs hread htype hdec hrest ih =>
      have hblk : testedBlock P C src i b next blk = .ok out := by
        rw [testedBlock, if_neg (by rw [htype]; decide), if_pos htype]
        exact hdec
      rw [List.length_cons, testBlocks_succ hread hblk (fits_of_flatten hsize),
        Tested.after_concat, List.append_cons before out outs]
      exact ih (List.append_cons before out outs ▸ hsize)
  | @ref b pos next fin blk out outs hread htype href hrest ih =>
      have hblk : testedBlock P C src i b next blk = .ok out := by
        rw [testedBlock, if_pos htype]
        exact href
      rw [List.length_cons, testBlocks_succ hread hblk (fits_of_flatten hsize),
        Tested.after_concat, List.append_cons before out outs]
      exact ih (List.append_cons before out outs ▸ hsize)

/-- A block that fits is written, if it can be. -/
theorem writeVerifiedChunk_of_fits {env : OutputEnv} {size : UInt64} {p : Progress}
    {chunk : Bytes}
    (hfit : ¬ (p.extracted > size ∨ chunk.length > (size - p.extracted).toNat))
    (hwrite : env.writeOk i p.extracted chunk = true) :
    ∃ p', writeVerifiedChunk env i size p chunk = some p' := by
  rw [writeVerifiedChunk, if_neg hfit]
  by_cases hpos : chunk.length > 0
  · rw [if_pos hpos, if_pos hwrite]
    exact ⟨_, rfl⟩
  · rw [if_neg hpos]
    exact ⟨_, rfl⟩

/-- **ACCEPTED FRAMES THAT FIT ARE EXTRACTED** to the end, when every write
    succeeds. -/
theorem blockLoop_of_accepted {dec : Block → UInt64 → Result Bytes} {env : OutputEnv}
    (hwrite : ∀ i written chunk, env.writeOk i written chunk = true) {b pos fin : Nat}
    {chunks before : List Bytes} (h : Accepted P C dec src i b pos chunks fin)
    (hsize : (before ++ chunks).flatten.length ≤ e.uncompressedSize.toNat) :
    blockLoop P C dec src env i e chunks.length b ⟨pos, .after before, false⟩
      = ⟨fin, .after (before ++ chunks), false⟩ := by
  have hput {pos : Nat} {before rest : List Bytes} {chunk : Bytes}
      (hsize : (before ++ chunk :: rest).flatten.length ≤ e.uncompressedSize.toNat) :
      FileState.write env i e ⟨pos, .after before, false⟩ chunk
        = ⟨pos, .after (before ++ [chunk]), false⟩ := by
    obtain ⟨p, hp⟩ := @writeVerifiedChunk_of_fits i env e.uncompressedSize (.after before) chunk
      (fits_of_flatten hsize) (hwrite _ _ _)
    rw [FileState.write, hp, (writeVerifiedChunk_some hp).2 before rfl]
  induction h generalizing before with
  | done =>
      rw [List.append_nil]
      rfl
  | @data b pos next fin blk out outs hread htype hdec hrest ih =>
      have hread' : readBlock.run src.bytes (FileState.pos ⟨pos, .after before, false⟩)
        = (.ok blk, next) := hread
      rw [List.length_cons, blockLoop_succ hread', if_neg (by rw [htype]; decide),
        if_neg (not_not.mpr htype), hdec, List.append_cons before out outs]
      show blockLoop P C dec src env i e _ _ (FileState.write env i e ⟨next, .after before, false⟩
        out) = _
      rw [hput hsize]
      exact ih (List.append_cons before out outs ▸ hsize)
  | @ref b pos next fin blk out outs hread htype href hrest ih =>
      have hread' : readBlock.run src.bytes (FileState.pos ⟨pos, .after before, false⟩)
        = (.ok blk, next) := hread
      rw [List.length_cons, blockLoop_succ hread', if_pos htype, href,
        List.append_cons before out outs]
      show blockLoop P C dec src env i e _ _ (FileState.write env i e ⟨next, .after before, false⟩
        out) = _
      rw [hput hsize]
      exact ih (List.append_cons before out outs ▸ hsize)

/-! ## Whole entries -/

/-- Entry `i`, read with the stream at `pos`, decodes to these chunks of its
    indexed number and size; behind them the stream is at `fin`. -/
structure WholeEntry (P : Primitives) (C : Codecs) (src : Source) (i : Nat) (e : IndexEntry)
    (pos : Nat) (chunks : List Bytes) (fin : Nat) : Prop where
  accepted : Accepted P C (serialDec P C src.keyring) src i 0 (entryStart e pos) chunks fin
  count : chunks.length = e.blockCount.toNat
  size : chunks.flatten.length = e.uncompressedSize.toNat

theorem WholeEntry.unique {pos fin fin' : Nat} {chunks chunks' : List Bytes}
    (h : WholeEntry P C src i e pos chunks fin) (h' : WholeEntry P C src i e pos chunks' fin') :
    chunks = chunks' ∧ fin = fin' :=
  h.accepted.unique h'.accepted (h.count.trans h'.count.symm)

/-- The content hash of an entry is the chained hash of its chunks, where one
    is required. -/
def HashFits (globalFlags : UInt32) (hash : List Bytes → UInt64) (e : IndexEntry)
    (chunks : List Bytes) : Prop :=
  requireContentHash globalFlags = true → hash chunks = e.contentHash

theorem testEntry_of_whole {pos fin : Nat} {chunks : List Bytes}
    (h : WholeEntry P C src i e pos chunks fin) :
    testEntry P C src i e pos = .after fin chunks := by
  have hrun := @testBlocks_of_accepted P C src i e 0 _ fin chunks [] h.accepted h.size.le
  rw [h.count] at hrun
  exact hrun

/-- **THE TEST OF AN ENTRY** asks that it is whole, and hashed block by block. -/
theorem testedOk_iff {pos : Nat} :
    testedOk src.globalFlags e (testEntry P C src i e pos) = true ↔
      ∃ chunks fin, WholeEntry P C src i e pos chunks fin ∧
        HashFits src.globalFlags testedHash e chunks := by
  have hvalue {fin : Nat} {chunks : List Bytes} :
      testedOk src.globalFlags e (.after fin chunks) = true ↔
        UInt64.ofNat chunks.flatten.length = e.uncompressedSize ∧
          HashFits src.globalFlags testedHash e chunks := by
    rw [testedOk, Bool.and_eq_true, Bool.and_eq_true, Bool.or_eq_true, decide_eq_true_iff,
      decide_eq_true_iff, HashFits, Bool.not_eq_true', ← Bool.not_eq_true, ← imp_iff_not_or]
    exact ⟨fun h => h.2, fun h => ⟨rfl, h⟩⟩
  constructor
  · intro h
    have hfok : (testEntry P C src i e pos).fok = true := (Bool.and_eq_true_iff.mp h).1
    obtain ⟨chunks, fin, hacc, hlen, hle, hrun⟩ :=
      @testBlocks_accepted P C src i e e.blockCount.toNat 0 _ [] (Nat.zero_le _) hfok
    rw [List.nil_append] at hle hrun
    have hst : testEntry P C src i e pos = .after fin chunks := hrun
    rw [hst] at h
    obtain ⟨hsize, hhash⟩ := hvalue.mp h
    refine ⟨chunks, fin, ⟨hacc, hlen, ?_⟩, hhash⟩
    rw [← hsize, UInt64.toNat_ofNat', Nat.mod_eq_of_lt]
    exact lt_of_le_of_lt hle e.uncompressedSize.toNat_lt
  · rintro ⟨chunks, fin, hwhole, hhash⟩
    rw [testEntry_of_whole hwhole]
    refine hvalue.mpr ⟨?_, hhash⟩
    rw [hwhole.size, UInt64.ofNat_toNat]

theorem serialEntry_of_whole {env : OutputEnv}
    (hwrite : ∀ i written chunk, env.writeOk i written chunk = true) {pos fin : Nat}
    {chunks : List Bytes} (h : WholeEntry P C src i e pos chunks fin) :
    serialEntry P C src env i e pos = ⟨fin, .after chunks, false⟩ := by
  have hrun := @blockLoop_of_accepted P C src i e _ env hwrite 0 _ fin chunks [] h.accepted
    h.size.le
  rw [h.count] at hrun
  exact hrun

/-- **THE EXTRACTION OF AN ENTRY** asks that it is whole, and hashed without
    its empty blocks. -/
theorem entryBad_iff {env : OutputEnv}
    (hwrite : ∀ i written chunk, env.writeOk i written chunk = true) {pos : Nat} :
    entryBad src.globalFlags e (serialEntry P C src env i e pos) = false ↔
      ∃ chunks fin, WholeEntry P C src i e pos chunks fin ∧
        HashFits src.globalFlags chainedHash e chunks := by
  have hvalue {fin : Nat} {chunks : List Bytes} :
      entryBad src.globalFlags e ⟨fin, .after chunks, false⟩ = false ↔
        UInt64.ofNat chunks.flatten.length = e.uncompressedSize ∧
          HashFits src.globalFlags chainedHash e chunks := by
    rw [entryBad, Bool.false_or, Bool.or_eq_false_iff, Bool.and_eq_false_imp,
      decide_eq_false_iff_not, decide_eq_false_iff_not, not_not, not_not]
    rfl
  constructor
  · intro h
    have hberr : (serialEntry P C src env i e pos).berr = false := (Bool.or_eq_false_iff.mp h).1
    obtain ⟨chunks, hacc, hlen, hprog⟩ :=
      @blockLoop_accepted P C (serialDec P C src.keyring) src env i e e.blockCount.toNat 0
        ⟨entryStart e pos, .start, false⟩ [] rfl hberr
    have hsound := @blockLoop_sound P C (serialDec P C src.keyring) src env i e e.blockCount.toNat
      0 ⟨entryStart e pos, .start, false⟩ (Progress.sound_start _)
    rw [hprog] at hsound
    have hst : serialEntry P C src env i e pos
        = ⟨(serialEntry P C src env i e pos).pos, .after chunks, false⟩ := by
      rw [← hberr]
      exact congrArg (FileState.mk _ · _) hprog
    rw [hst] at h
    obtain ⟨hsize, hhash⟩ := hvalue.mp h
    refine ⟨chunks, _, ⟨hacc, hlen, ?_⟩, hhash⟩
    rw [← hsize]
    exact hsound.length_data
  · rintro ⟨chunks, fin, hwhole, hhash⟩
    rw [serialEntry_of_whole hwrite hwhole]
    refine hvalue.mpr ⟨?_, hhash⟩
    rw [hwhole.size, UInt64.ofNat_toNat]

/-! ## All entries -/

/-- All entries from number `i` on are whole, read one behind the other. -/
inductive WholeEntries (P : Primitives) (C : Codecs) (src : Source) :
    (i : Nat) → List IndexEntry → (pos : Nat) → List (List Bytes) → Prop where
  | nil {i pos} : WholeEntries P C src i [] pos []
  | cons {i e es pos chunks fin css} (hentry : WholeEntry P C src i e pos chunks fin)
      (hrest : WholeEntries P C src (i + 1) es fin css) :
      WholeEntries P C src i (e :: es) pos (chunks :: css)

theorem WholeEntries.unique {es : List IndexEntry} {pos : Nat} {css css' : List (List Bytes)}
    (h : WholeEntries P C src i es pos css) (h' : WholeEntries P C src i es pos css') :
    css = css' := by
  induction h generalizing css' with
  | nil =>
      cases h'
      rfl
  | cons hentry hrest ih =>
      cases h' with
      | cons hentry' hrest' =>
          obtain ⟨rfl, rfl⟩ := hentry.unique hentry'
          rw [ih hrest']

/-- Every entry has the content hash its chunks have. -/
def AllHashed (globalFlags : UInt32) (hash : List Bytes → UInt64) (es : List IndexEntry)
    (css : List (List Bytes)) : Prop :=
  List.Forall₂ (HashFits globalFlags hash) es css

/-- **THE TEST OF ALL ENTRIES** finds nothing exactly if they are whole and
    hashed block by block. -/
theorem testEntries_iff {es : List IndexEntry} {pos : Nat} :
    testEntries P C src i es pos = 0 ↔
      ∃ css, WholeEntries P C src i es pos css ∧
        AllHashed src.globalFlags testedHash es css := by
  induction es generalizing i pos with
  | nil => exact ⟨fun _ => ⟨[], .nil, .nil⟩, fun _ => rfl⟩
  | cons e es ih =>
      rw [testEntries, Nat.add_eq_zero_iff]
      constructor
      · rintro ⟨hentry, hrest⟩
        have hok : testedOk src.globalFlags e (testEntry P C src i e pos) = true := by
          by_contra hbad
          rw [if_neg hbad] at hentry
          cases hentry
        obtain ⟨chunks, fin, hwhole, hhash⟩ := testedOk_iff.mp hok
        rw [testEntry_of_whole hwhole] at hrest
        obtain ⟨css, hall, hhashes⟩ := ih.mp hrest
        exact ⟨chunks :: css, .cons hwhole hall, .cons hhash hhashes⟩
      · rintro ⟨css, hall, hhashes⟩
        cases hall with
        | cons hwhole hrest =>
            obtain ⟨hhash, hhashes⟩ := List.forall₂_cons.mp hhashes
            refine ⟨if_pos (testedOk_iff.mpr ⟨_, _, hwhole, hhash⟩), ?_⟩
            rw [testEntry_of_whole hwhole]
            exact ih.mpr ⟨_, hrest, hhashes⟩

/-- **THE EXTRACTION OF ALL ENTRIES** counts no failure exactly if they are
    whole and hashed without their empty blocks; then it publishes them. -/
theorem serialEntries_iff {es : List IndexEntry} {run : RunState}
    (hsafe : ∀ e ∈ es, pathIsSafe e.path.bytes = true) :
    (serialEntries P C src faultless i es run).fail = 0 ↔
      run.fail = 0 ∧ ∃ css, WholeEntries P C src i es run.pos css ∧
        AllHashed src.globalFlags chainedHash es css := by
  induction es generalizing i run with
  | nil => exact ⟨fun h => ⟨h, [], .nil, .nil⟩, fun h => h.1⟩
  | cons e es ih =>
      have hskip : ¬ skipped faultless i e = true := by
        rw [skipped, hsafe e List.mem_cons_self]
        exact Bool.false_ne_true
      rw [serialEntries, if_neg hskip, ih fun e' he' => hsafe e' (List.mem_cons_of_mem e he')]
      have hbad := @entryBad_iff P C src i e faultless (fun _ _ _ => rfl) run.pos
      cases hentry : entryBad src.globalFlags e (serialEntry P C src faultless i e run.pos) with
      | true =>
          rw [RunState.finish, entryOutput, hentry]
          constructor
          · rintro ⟨hfail, -⟩
            cases hfail
          · rintro ⟨-, css, hall, hhashes⟩
            cases hall with
            | cons hwhole hrest =>
                obtain ⟨hhash, -⟩ := List.forall₂_cons.mp hhashes
                rw [hentry] at hbad
                cases hbad.mpr ⟨_, _, hwhole, hhash⟩
      | false =>
          obtain ⟨chunks, fin, hwhole, hhash⟩ := hbad.mp hentry
          rw [RunState.finish, entryOutput, hentry,
            serialEntry_of_whole (fun _ _ _ => rfl) hwhole]
          constructor
          · rintro ⟨hfail, css, hall, hhashes⟩
            exact ⟨hfail, chunks :: css, .cons hwhole hall, .cons hhash hhashes⟩
          · rintro ⟨hfail, css, hall, hhashes⟩
            cases hall with
            | cons hwhole' hrest =>
                obtain ⟨rfl, rfl⟩ := hwhole.unique hwhole'
                exact ⟨hfail, _, hrest, (List.forall₂_cons.mp hhashes).2⟩

/-- The outputs of a run that published entry after entry. -/
def publishedOutputs : (i : Nat) → List (List Bytes) → List OutputFile
  | _, [] => []
  | i, chunks :: css => ⟨i, chunks.flatten, true⟩ :: publishedOutputs (i + 1) css

theorem serialEntries_outputs {es : List IndexEntry} {run : RunState} {css : List (List Bytes)}
    (hsafe : ∀ e ∈ es, pathIsSafe e.path.bytes = true)
    (hall : WholeEntries P C src i es run.pos css)
    (hhashes : AllHashed src.globalFlags chainedHash es css) :
    (serialEntries P C src faultless i es run).outputs
      = run.outputs ++ publishedOutputs i css := by
  induction es generalizing i run css with
  | nil =>
      cases hall
      exact (List.append_nil _).symm
  | cons e es ih =>
      cases hall with
      | cons hwhole hrest =>
          obtain ⟨hhash, hhashes⟩ := List.forall₂_cons.mp hhashes
          have hskip : ¬ skipped faultless i e = true := by
            rw [skipped, hsafe e List.mem_cons_self]
            exact Bool.false_ne_true
          have hgood := (@entryBad_iff P C src i e faultless (fun _ _ _ => rfl) run.pos).mpr
            ⟨_, _, hwhole, hhash⟩
          rw [serialEntries, if_neg hskip, RunState.finish, entryOutput, hgood,
            serialEntry_of_whole (fun _ _ _ => rfl) hwhole]
          refine (ih (fun e' he' => hsafe e' (List.mem_cons_of_mem e he')) hrest hhashes).trans ?_
          exact List.append_assoc _ _ _

theorem mem_publishedOutputs {css : List (List Bytes)} {k : Nat} (h : k < css.length) :
    ∃ out ∈ publishedOutputs i css, out.index = i + k ∧ out.published = true := by
  induction css generalizing i k with
  | nil => exact absurd h (Nat.not_lt_zero k)
  | cons chunks css ih =>
      cases k with
      | zero => exact ⟨_, List.mem_cons_self, rfl, rfl⟩
      | succ k =>
          obtain ⟨out, hmem, hindex, hpub⟩ := @ih (i + 1) k (Nat.lt_of_succ_lt_succ h)
          exact ⟨out, List.mem_cons_of_mem _ hmem, by omega, hpub⟩

/-! ## Solid streams -/

/-- The DATA frames between `pos` and `dataEnd` decode to these chunks, at the
    sequences of a solid archive from number `blockSeq` on. -/
inductive SolidFrames (P : Primitives) (C : Codecs) (bytes : Bytes) (kr : Keyring)
    (dataEnd : Nat) : (pos blockSeq : Nat) → List Bytes → Prop where
  | done {blockSeq} : SolidFrames P C bytes kr dataEnd dataEnd blockSeq []
  | frame {pos blockSeq next blk dec chunks} (hlt : pos < dataEnd)
      (hread : readBlock.run bytes pos = (.ok blk, next)) (htype : blk.blockType = blockData)
      (hdec : decompressBlock P C blk (some kr) (((1 : UInt64) <<< 32) ||| UInt64.ofNat blockSeq)
        = .ok dec)
      (hrest : SolidFrames P C bytes kr dataEnd next (blockSeq + 1) chunks) :
      SolidFrames P C bytes kr dataEnd pos blockSeq (dec :: chunks)

/-- The solid stream of an archive is whole from `start` on: the size is that
    of all entries together, the number of frames that of the footer. -/
structure WholeStream (P : Primitives) (C : Codecs) (o : Opened) (bytes : Bytes) (start : Nat)
    (chunks : List Bytes) : Prop where
  frames : SolidFrames P C bytes o.keyring (solidDataEnd o) start 0 chunks
  size : chunks.flatten.length = indexedSize o.entries
  count : chunks.length + solidMetadataBlocks o = o.footer.totalBlocks.toNat

variable {bytes : Bytes} {kr : Keyring} {dataEnd : Nat}

theorem SolidFrames.length_le {pos blockSeq : Nat} {chunks : List Bytes}
    (h : SolidFrames P C bytes kr dataEnd pos blockSeq chunks) (hne : chunks ≠ []) :
    pos + chunks.length ≤ bytes.length := by
  induction h with
  | done => exact absurd rfl hne
  | @frame pos blockSeq next blk dec chunks hlt hread htype hdec hrest ih =>
      obtain ⟨hadv, hle⟩ := readBlock_advances hread
      rw [List.length_cons]
      by_cases hnil : chunks = []
      · rw [hnil, List.length_nil]
        omega
      · have := ih hnil
        omega

/-- One turn of the loop over a solid stream. -/
theorem solidLoop_frame {totalSize turns pos blockSeq next : Nat} {buf dec : Bytes} {blk : Block}
    (hlt : pos < dataEnd) (hread : readBlock.run bytes pos = (.ok blk, next))
    (htype : blk.blockType = blockData)
    (hdec : decompressBlock P C blk (some kr) (((1 : UInt64) <<< 32) ||| UInt64.ofNat blockSeq)
      = .ok dec) (hfit : dec.length ≤ totalSize - buf.length) :
    solidLoop P C bytes kr dataEnd totalSize (turns + 1) pos blockSeq buf
      = solidLoop P C bytes kr dataEnd totalSize turns next (blockSeq + 1) (buf ++ dec) := by
  rw [solidLoop, if_neg (by omega), if_neg (by omega), hread]
  dsimp only
  rw [if_neg (not_not.mpr htype), hdec]
  dsimp only
  rw [if_neg (by omega)]

/-- **THE LOOP OVER A SOLID STREAM** gathers the frames it is made of. -/
theorem solidFrames_of_loop {totalSize turns pos blockSeq n : Nat} {buf stream : Bytes}
    (h : solidLoop P C bytes kr dataEnd totalSize turns pos blockSeq buf = some (stream, n)) :
    ∃ chunks, SolidFrames P C bytes kr dataEnd pos blockSeq chunks ∧
      stream = buf ++ chunks.flatten ∧ n = blockSeq + chunks.length := by
  induction turns generalizing pos blockSeq buf with
  | zero => cases h
  | succ turns ih =>
      rw [solidLoop] at h
      by_cases hend : pos = dataEnd
      · rw [if_pos hend] at h
        obtain ⟨rfl, rfl⟩ := Prod.mk.inj (Option.some.inj h)
        exact ⟨[], hend ▸ .done, (List.append_nil _).symm, rfl⟩
      rw [if_neg hend] at h
      by_cases hpast : pos > dataEnd
      · rw [if_pos hpast] at h
        cases h
      rw [if_neg hpast] at h
      cases hread : readBlock.run bytes pos with
      | mk res next =>
          rw [hread] at h
          cases res with
          | error err => cases h
          | ok blk =>
              dsimp only at h
              by_cases htype : blk.blockType = blockData
              · rw [if_neg (not_not.mpr htype)] at h
                cases hdec : decompressBlock P C blk (some kr)
                    (((1 : UInt64) <<< 32) ||| UInt64.ofNat blockSeq) with
                | error err =>
                    rw [hdec] at h
                    cases h
                | ok dec =>
                    rw [hdec] at h
                    dsimp only at h
                    by_cases hfit : dec.length > totalSize - buf.length
                    · rw [if_pos hfit] at h
                      cases h
                    · rw [if_neg hfit] at h
                      obtain ⟨chunks, hframes, rfl, rfl⟩ := ih h
                      refine ⟨dec :: chunks, .frame (by omega) hread htype hdec hframes, ?_, ?_⟩
                      · rw [List.flatten_cons, List.append_assoc]
                      · rw [List.length_cons]
                        omega
              · rw [if_pos htype] at h
                cases h

theorem solidLoop_of_frames {totalSize turns pos blockSeq : Nat} {buf : Bytes}
    {chunks : List Bytes} (h : SolidFrames P C bytes kr dataEnd pos blockSeq chunks)
    (hturns : chunks.length < turns) (hsize : (buf ++ chunks.flatten).length ≤ totalSize) :
    solidLoop P C bytes kr dataEnd totalSize turns pos blockSeq buf
      = some (buf ++ chunks.flatten, blockSeq + chunks.length) := by
  induction h generalizing turns buf with
  | done =>
      obtain ⟨turns, rfl⟩ := Nat.exists_eq_succ_of_ne_zero (Nat.ne_of_gt hturns)
      rw [solidLoop, if_pos rfl, List.flatten_nil, List.append_nil]
      rfl
  | @frame pos blockSeq next blk dec chunks hlt hread htype hdec hrest ih =>
      rw [List.length_cons] at hturns
      obtain ⟨turns, rfl⟩ := Nat.exists_eq_succ_of_ne_zero (Nat.ne_zero_of_lt hturns)
      rw [List.flatten_cons, ← List.append_assoc] at hsize ⊢
      have hfit : dec.length ≤ totalSize - buf.length := by
        rw [List.length_append, List.length_append] at hsize
        omega
      rw [solidLoop_frame hlt hread htype hdec hfit, ih (by omega) hsize, List.length_cons]
      congr 2
      omega

/-- A solid stream is there exactly if its frames are. -/
theorem solidStream_iff {o : Opened} {start : Nat} {stream : Bytes} :
    solidStream P C o bytes start = some stream ↔
      ∃ chunks, WholeStream P C o bytes start chunks ∧ stream = chunks.flatten := by
  rw [solidStream]
  constructor
  · intro h
    cases hloop : solidLoop P C bytes o.keyring (solidDataEnd o) (indexedSize o.entries)
        (bytes.length + 1) start 0 [] with
    | none =>
        rw [hloop] at h
        cases h
    | some r =>
        obtain ⟨s, n⟩ := r
        rw [hloop] at h
        dsimp only at h
        obtain ⟨chunks, hframes, rfl, rfl⟩ := solidFrames_of_loop hloop
        by_cases hbad : ([] ++ chunks.flatten).length ≠ indexedSize o.entries ∨
            o.footer.totalBlocks.toNat < solidMetadataBlocks o ∨
            0 + chunks.length ≠ o.footer.totalBlocks.toNat - solidMetadataBlocks o
        · rw [if_pos hbad] at h
          cases h
        · rw [if_neg hbad] at h
          obtain ⟨hsize, hbad⟩ := not_or.mp hbad
          obtain ⟨hle, hcount⟩ := not_or.mp hbad
          rw [List.nil_append] at hsize h
          exact ⟨chunks, ⟨hframes, not_not.mp hsize, by omega⟩, (Option.some.inj h).symm⟩
  · rintro ⟨chunks, ⟨hframes, hsize, hcount⟩, rfl⟩
    have hturns : chunks.length < bytes.length + 1 := by
      by_cases hnil : chunks = []
      · rw [hnil]
        exact Nat.succ_pos _
      · have := hframes.length_le hnil
        omega
    have hloop := @solidLoop_of_frames P C bytes o.keyring _ (indexedSize o.entries) _ _ _ [] _
      hframes hturns hsize.le
    rw [hloop]
    dsimp only
    rw [if_neg ?_, List.nil_append]
    rw [List.nil_append]
    omega

/-! ## The entries of a solid archive -/

/-- The bytes of an entry in a solid stream. -/
def sliceOf (stream : Bytes) (e : IndexEntry) : Bytes :=
  (stream.drop e.firstBlockOffset.toNat).take e.uncompressedSize.toNat

/-- The slice of an entry lies in the stream and, unless it is empty, has the
    indexed hash. -/
structure SliceFits (stream : Bytes) (e : IndexEntry) : Prop where
  inside : e.firstBlockOffset.toNat + e.uncompressedSize.toNat ≤ stream.length
  hashed : e.uncompressedSize.toNat > 0 → xxh64 (sliceOf stream e) 0 = e.contentHash

theorem testSlice_iff {stream : Bytes} : testSlice stream e = true ↔ SliceFits stream e := by
  rw [testSlice]
  by_cases hout : e.firstBlockOffset.toNat > stream.length ∨
      e.uncompressedSize.toNat > stream.length - e.firstBlockOffset.toNat
  · rw [if_pos hout]
    refine ⟨fun h => (by cases h), fun h => ?_⟩
    have := h.inside
    omega
  · rw [if_neg hout]
    have hin : e.firstBlockOffset.toNat + e.uncompressedSize.toNat ≤ stream.length := by omega
    by_cases hpos : e.uncompressedSize.toNat > 0
    · rw [if_pos hpos, decide_eq_true_iff]
      exact ⟨fun h => ⟨hin, fun _ => h⟩, fun h => h.hashed hpos⟩
    · rw [if_neg hpos]
      exact ⟨fun _ => ⟨hin, fun h => absurd h hpos⟩, fun _ => rfl⟩

/-- The loop over the entries of a solid archive, as a function. -/
def solidRun (env : OutputEnv) (stream : Bytes) :
    (i : Nat) → List IndexEntry → RunState → RunState
  | _, [], run => run
  | i, e :: es, run =>
      match solidOutput env stream i e with
      | none => solidRun env stream (i + 1) es { run with fail := run.fail + 1 }
      | some (finish, out) =>
          solidRun env stream (i + 1) es { run with
            fail := if finish = .published then run.fail else run.fail + 1
            outputs := run.outputs ++ [out] }

theorem solidEntries_alone (env : OutputEnv) (stream : Bytes) (es : List IndexEntry) :
    ∀ (i : Nat) (run : RunState),
      (solidEntries env stream i es run).alone = some (solidRun env stream i es run) := by
  induction es with
  | nil => exact fun i run => rfl
  | cons e es ih =>
      intro i run
      rw [solidEntries, solidRun]
      cases solidOutput env stream i e with
      | none => exact ih (i + 1) _
      | some r => exact ih (i + 1) _

/-- What the extraction asks of an entry beyond what the test does. -/
def EmptyUnhashed (e : IndexEntry) : Prop := e.uncompressedSize.toNat = 0 → e.contentHash = 0

/-- The output of an entry of a solid archive, when the file system does not
    fail. -/
theorem solidOutput_iff {stream : Bytes} (hsafe : pathIsSafe e.path.bytes = true) :
    (SliceFits stream e ∧ EmptyUnhashed e ∧
      solidOutput faultless stream i e = some (.published, ⟨i, sliceOf stream e, true⟩)) ∨
    (¬ (SliceFits stream e ∧ EmptyUnhashed e) ∧ solidOutput faultless stream i e = none) := by
  rw [solidOutput, hsafe, if_neg (by decide)]
  by_cases hout : e.firstBlockOffset.toNat > stream.length ∨
      e.uncompressedSize.toNat > stream.length - e.firstBlockOffset.toNat
  · rw [if_pos hout]
    refine Or.inr ⟨?_, rfl⟩
    rintro ⟨hfits, -⟩
    have := hfits.inside
    omega
  · rw [if_neg hout]
    have hin : e.firstBlockOffset.toNat + e.uncompressedSize.toNat ≤ stream.length := by omega
    by_cases hck : (if e.uncompressedSize.toNat > 0 then xxh64 (sliceOf stream e) 0 else 0)
        = e.contentHash
    · refine Or.inl ⟨⟨hin, fun hpos => ?_⟩, fun hzero => ?_, ?_⟩
      · rwa [if_pos hpos] at hck
      · rw [if_neg (by omega)] at hck
        exact hck.symm
      · show (if (if _ then xxh64 (sliceOf stream e) 0 else 0) ≠ _ then none else _) = _
        have hwrite : ¬ (e.uncompressedSize.toNat > 0 ∧
            ¬ faultless.writeOk i 0 (sliceOf stream e) = true) := fun h => h.2 rfl
        have hopen : ¬ (!faultless.canOpen i) = true := Bool.false_ne_true
        rw [if_neg (not_not.mpr hck), if_neg hopen]
        exact if_neg hwrite
    · refine Or.inr ⟨?_, ?_⟩
      · rintro ⟨hfits, hempty⟩
        by_cases hpos : e.uncompressedSize.toNat > 0
        · rw [if_pos hpos] at hck
          exact hck (hfits.hashed hpos)
        · rw [if_neg hpos] at hck
          exact hck (hempty (by omega)).symm
      · show (if (if _ then xxh64 (sliceOf stream e) 0 else 0) ≠ _ then none else _) = _
        rw [if_pos hck]

/-- **THE EXTRACTION OF A SOLID STREAM** counts no failure exactly if every
    slice fits and the empty ones have no hash. -/
theorem solidRun_iff {stream : Bytes} {es : List IndexEntry} {run : RunState}
    (hsafe : ∀ e ∈ es, pathIsSafe e.path.bytes = true) :
    (solidRun faultless stream i es run).fail = 0 ↔
      run.fail = 0 ∧ ∀ e ∈ es, SliceFits stream e ∧ EmptyUnhashed e := by
  induction es generalizing i run with
  | nil => exact ⟨fun h => ⟨h, fun _ hmem => (nomatch hmem)⟩, fun h => h.1⟩
  | cons e es ih =>
      have ih {run : RunState} := @ih (i + 1) run fun e' he' =>
        hsafe e' (List.mem_cons_of_mem e he')
      rw [solidRun, List.forall_mem_cons]
      rcases @solidOutput_iff i e stream (hsafe e List.mem_cons_self) with
        ⟨hfits, hempty, hout⟩ | ⟨hbad, hout⟩
      · rw [hout]
        dsimp only
        rw [ih, if_pos rfl]
        exact ⟨fun h => ⟨h.1, ⟨hfits, hempty⟩, h.2⟩, fun h => ⟨h.1, h.2.2⟩⟩
      · rw [hout]
        dsimp only
        rw [ih]
        exact ⟨fun h => (by cases h.1), fun h => absurd h.2.1 hbad⟩

theorem solidRun_outputs {stream : Bytes} {es : List IndexEntry} {run : RunState}
    (hsafe : ∀ e ∈ es, pathIsSafe e.path.bytes = true)
    (hfits : ∀ e ∈ es, SliceFits stream e ∧ EmptyUnhashed e) :
    (solidRun faultless stream i es run).outputs
      = run.outputs ++ publishedOutputs i (es.map fun e => [sliceOf stream e]) := by
  induction es generalizing i run with
  | nil => exact (List.append_nil _).symm
  | cons e es ih =>
      obtain ⟨hhead, htail⟩ := List.forall_mem_cons.mp hfits
      rw [solidRun]
      rcases @solidOutput_iff i e stream (hsafe e List.mem_cons_self) with
        ⟨-, -, hout⟩ | ⟨hbad, -⟩
      · rw [hout]
        dsimp only
        rw [ih (fun e' he' => hsafe e' (List.mem_cons_of_mem e he')) htail, List.map_cons,
          publishedOutputs, List.flatten_singleton, List.append_assoc]
        rfl
      · exact absurd hhead hbad

/-! ## The whole archive -/

/-- The reader of a single-threaded extraction without a quota. -/
def plainly (opts : ReaderOptions) : ReaderOptions := { opts with threads := 1, maxOutputSize := 0 }

/-- Every entry has an output that was published. -/
def PublishesAll (o : Opened) (outs : List OutputFile) : Prop :=
  ∀ k, k < o.entries.length → ∃ out ∈ outs, out.index = k ∧ out.published = true

/-- `zupt_extract_archive` with one thread, no quota and a file system that
    does not fail publishes every entry and returns `ZUPT_OK`. -/
def ExtractsAll (P : Primitives) (C : Codecs) (opts : ReaderOptions) (bytes : Bytes) : Prop :=
  ∃ o pos outs, (openArchive P C opts).run bytes 0 = (.ok o, pos) ∧
    Returns (readerPool P C (plainly opts) (fun _ => True) bytes)
      (extractArchive P C (plainly opts) faultless false bytes) (.ok (), outs) ∧
    PublishesAll o outs

/-- All entry paths of the archive are safe. -/
def PathsSafe (P : Primitives) (C : Codecs) (opts : ReaderOptions) (bytes : Bytes) : Prop :=
  ∀ o pos, (openArchive P C opts).run bytes 0 = (.ok o, pos) →
    ∀ e ∈ o.entries, pathIsSafe e.path.bytes = true

/-- **THE TEST OF A SOLID ARCHIVE** passes exactly if its stream is whole from
    where the test starts, and every slice fits. -/
theorem testSolid_iff {o : Opened} :
    testSolid P C o bytes = .ok () ↔
      indexedSize o.entries ≤ 4 * 1024 * 1024 * 1024 ∧
      ∃ chunks, WholeStream P C o bytes (testSolidStart o.hdr.globalFlags bytes) chunks ∧
        ∀ e ∈ o.entries, SliceFits chunks.flatten e := by
  rw [testSolid]
  by_cases hlarge : indexedSize o.entries ≥ 2 ^ 64 ∨
      indexedSize o.entries > 4 * 1024 * 1024 * 1024
  · rw [if_pos hlarge]
    refine ⟨fun h => (by cases h), fun h => ?_⟩
    have := h.1
    omega
  rw [if_neg hlarge]
  have hcount {stream : Bytes} : testVerdict (o.entries.countP fun e => !testSlice stream e)
      = .ok () ↔ ∀ e ∈ o.entries, SliceFits stream e := by
    have hzero : (o.entries.countP fun e => !testSlice stream e) = 0 ↔
        ∀ e ∈ o.entries, SliceFits stream e := by
      rw [List.countP_eq_zero]
      refine forall₂_congr fun e _ => ?_
      rw [Bool.not_eq_true', Bool.not_eq_false, testSlice_iff]
    rw [← hzero, testVerdict]
    by_cases hfail : (o.entries.countP fun e => !testSlice stream e) > 0
    · rw [if_pos hfail]
      exact ⟨fun h => (by cases h), fun h => by omega⟩
    · rw [if_neg hfail]
      exact ⟨fun _ => by omega, fun _ => rfl⟩
  cases hstream : solidStream P C o bytes (testSolidStart o.hdr.globalFlags bytes) with
  | none =>
      dsimp only
      refine ⟨fun h => (by cases h), ?_⟩
      rintro ⟨-, chunks, hwhole, -⟩
      rw [solidStream_iff.mpr ⟨chunks, hwhole, rfl⟩] at hstream
      cases hstream
  | some stream =>
      dsimp only
      rw [hcount]
      constructor
      · intro hfits
        obtain ⟨chunks, hwhole, rfl⟩ := solidStream_iff.mp hstream
        exact ⟨by omega, chunks, hwhole, hfits⟩
      · rintro ⟨-, chunks, hwhole, hfits⟩
        rw [solidStream_iff.mpr ⟨chunks, hwhole, rfl⟩] at hstream
        rwa [← Option.some.inj hstream]

/-- What the extraction of a solid archive returns. -/
def solidOutcome (P : Primitives) (C : Codecs) (env : OutputEnv) (bytes : Bytes) (o : Opened) :
    Result Unit × List OutputFile :=
  if indexedSize o.entries > 4 * 1024 * 1024 * 1024 then (.error .overflow, [])
  else
    match solidStart o.hdr.globalFlags bytes with
    | .error err => (.error err, [])
    | .ok start =>
        match solidStream P C o bytes start with
        | none => (.error .corrupt, [])
        | some stream =>
            let run := solidRun env stream 0 o.entries ⟨solidDataEnd o, 0, []⟩
            (verdict run, run.outputs)

theorem extractEntries_alone {env : OutputEnv} {threads : Nat} (es : List IndexEntry) :
    ∀ (i : Nat) (run : RunState),
      (extractEntries P C src env false threads i es run).alone
        = some (serialEntries P C src env i es run) := by
  induction es with
  | nil => exact fun i run => rfl
  | cons e es ih =>
      intro i run
      rw [extractEntries, serialEntries]
      show (if skipped env i e = true then _ else _ : ReaderProg RunState).alone = _
      by_cases hskip : skipped env i e = true
      · rw [if_pos hskip, if_pos hskip]
        exact ih (i + 1) _
      · rw [if_neg hskip, if_neg hskip]
        exact ih (i + 1) _

theorem extractSolid_alone (o : Opened) (env : OutputEnv) (bytes : Bytes) :
    (extractSolid P C o env bytes).alone = some (solidOutcome P C env bytes o) := by
  have hend : (if o.hdr.commentOffset ≠ 0 then o.hdr.commentOffset.toNat
    else o.footer.indexOffset.toNat) = solidDataEnd o := rfl
  have hmeta : (if o.hdr.commentOffset ≠ 0 then 2 else 1) = solidMetadataBlocks o := rfl
  rw [extractSolid, solidOutcome, hend, hmeta]
  by_cases hlarge : indexedSize o.entries > 4 * 1024 * 1024 * 1024
  · rw [if_pos hlarge, if_pos hlarge]
    rfl
  rw [if_neg hlarge, if_neg hlarge]
  cases solidStart o.hdr.globalFlags bytes with
  | error err => rfl
  | ok start =>
      dsimp only
      rw [solidStream]
      cases solidLoop P C bytes o.keyring (solidDataEnd o) (indexedSize o.entries)
          (bytes.length + 1) start 0 [] with
      | none => rfl
      | some r =>
          obtain ⟨stream, blocks⟩ := r
          dsimp only
          by_cases hbad : stream.length ≠ indexedSize o.entries ∨
              o.footer.totalBlocks.toNat < solidMetadataBlocks o ∨
              blocks ≠ o.footer.totalBlocks.toNat - solidMetadataBlocks o
          · rw [if_pos hbad, if_pos hbad]
            rfl
          · rw [if_neg hbad, if_neg hbad]
            exact alone_bind (solidEntries_alone env stream o.entries 0 _)

/-- What the single-threaded extraction of an open archive returns. -/
def serialOutcome (P : Primitives) (C : Codecs) (env : OutputEnv) (bytes : Bytes) (o : Opened)
    (pos : Nat) : Result Unit × List OutputFile :=
  if indexedSize o.entries ≥ 2 ^ 64 then (.error .overflow, [])
  else if hasFlag o.hdr.globalFlags flagSolid then solidOutcome P C env bytes o
  else
    match legacyMap o bytes with
    | .error err => (.error err, [])
    | .ok map =>
        let run := serialEntries P C ⟨bytes, o.hdr.globalFlags, o.keyring, map⟩ env 0 o.entries
          ⟨pos, 0, []⟩
        (verdict run, run.outputs)

theorem extractOpened_alone {opts : ReaderOptions} {env : OutputEnv} {o : Opened} {pos : Nat} :
    (extractOpened P C (plainly opts) env false bytes o pos).alone
      = some (serialOutcome P C env bytes o pos) := by
  have hquota : quotaExceeded (plainly opts).maxOutputSize o.entries
      = decide (indexedSize o.entries ≥ 2 ^ 64) := Bool.or_false _
  rw [extractOpened, serialOutcome, hquota]
  by_cases hsum : indexedSize o.entries ≥ 2 ^ 64
  · rw [if_pos (decide_eq_true hsum), if_pos hsum]
    rfl
  rw [if_neg (by rw [decide_eq_false hsum]; exact Bool.false_ne_true), if_neg hsum]
  by_cases hsolid : hasFlag o.hdr.globalFlags flagSolid = true
  · rw [if_pos hsolid, if_pos hsolid]
    exact extractSolid_alone o env bytes
  rw [if_neg hsolid, if_neg hsolid]
  cases legacyMap o bytes with
  | error err => rfl
  | ok map => exact alone_bind (extractEntries_alone o.entries 0 _)

theorem verdict_ok_iff {run : RunState} : verdict run = .ok () ↔ run.fail = 0 := by
  rw [verdict]
  by_cases hfail : run.fail > 0
  · rw [if_pos hfail]
    exact ⟨fun h => (by cases h), fun h => by omega⟩
  · rw [if_neg hfail]
    exact ⟨fun _ => by omega, fun _ => rfl⟩

theorem publishesAll_of_outputs {o : Opened} {outs : List OutputFile} {css : List (List Bytes)}
    (hlen : css.length = o.entries.length) (houts : outs = publishedOutputs 0 css) :
    PublishesAll o outs := by
  intro k hk
  obtain ⟨out, hmem, hindex, hpub⟩ := @mem_publishedOutputs 0 css k (by omega)
  exact ⟨out, houts ▸ hmem, by omega, hpub⟩

theorem WholeEntries.length {es : List IndexEntry} {pos : Nat} {css : List (List Bytes)}
    (h : WholeEntries P C src i es pos css) : css.length = es.length := by
  induction h with
  | nil => rfl
  | cons _ _ ih => rw [List.length_cons, List.length_cons, ih]

/-- The encryption header of an encrypted archive reads as a frame. -/
def EnvelopeReads (o : Opened) (bytes : Bytes) : Prop :=
  hasFlag o.hdr.globalFlags flagEncrypted = true →
    ∃ blk, (readBlock.run bytes archiveHeaderSize).1 = .ok blk

/-- The test and the extraction start to read at the same place if the
    encryption header reads. -/
theorem solidStart_iff {o : Opened} {start : Nat} :
    solidStart o.hdr.globalFlags bytes = .ok start ↔
      EnvelopeReads o bytes ∧ start = testSolidStart o.hdr.globalFlags bytes := by
  rw [solidStart, testSolidStart, EnvelopeReads]
  by_cases henc : hasFlag o.hdr.globalFlags flagEncrypted = true
  · rw [if_pos henc, if_pos henc]
    cases readBlock.run bytes archiveHeaderSize with
    | mk res next =>
        cases res with
        | error err =>
            refine ⟨fun h => (by cases h), fun h => ?_⟩
            obtain ⟨blk, hblk⟩ := h.1 henc
            cases hblk
        | ok blk =>
            exact ⟨fun h => ⟨fun _ => ⟨blk, rfl⟩, (Except.ok.inj h).symm⟩,
              fun h => congrArg Except.ok h.2.symm⟩
  · rw [if_neg henc, if_neg henc]
    exact ⟨fun h => ⟨fun h' => absurd h' henc, (Except.ok.inj h).symm⟩,
      fun h => congrArg Except.ok h.2.symm⟩

/-- **THE EXTRACTION OF A SOLID ARCHIVE** succeeds exactly if the test does,
    the encryption header reads, and empty files have no hash. -/
theorem solidOutcome_iff {o : Opened} (hsafe : ∀ e ∈ o.entries, pathIsSafe e.path.bytes = true) :
    (solidOutcome P C faultless bytes o).1 = .ok () ↔
      testSolid P C o bytes = .ok () ∧ EnvelopeReads o bytes ∧
        ∀ e ∈ o.entries, EmptyUnhashed e := by
  rw [testSolid_iff, solidOutcome]
  by_cases hlarge : indexedSize o.entries > 4 * 1024 * 1024 * 1024
  · rw [if_pos hlarge]
    exact ⟨fun h => (by cases h), fun h => absurd h.1.1 (by omega)⟩
  rw [if_neg hlarge]
  cases hstart : solidStart o.hdr.globalFlags bytes with
  | error err =>
      refine ⟨fun h => (by cases h), fun h => ?_⟩
      rw [solidStart_iff.mpr ⟨h.2.1, rfl⟩] at hstart
      cases hstart
  | ok start =>
      obtain ⟨henv, rfl⟩ := solidStart_iff.mp hstart
      dsimp only
      cases hstream : solidStream P C o bytes (testSolidStart o.hdr.globalFlags bytes) with
      | none =>
          refine ⟨fun h => (by cases h), ?_⟩
          rintro ⟨⟨-, chunks, hwhole, -⟩, -⟩
          rw [solidStream_iff.mpr ⟨chunks, hwhole, rfl⟩] at hstream
          cases hstream
      | some stream =>
          dsimp only
          rw [verdict_ok_iff, solidRun_iff hsafe]
          constructor
          · rintro ⟨-, hfits⟩
            obtain ⟨chunks, hwhole, rfl⟩ := solidStream_iff.mp hstream
            exact ⟨⟨by omega, chunks, hwhole, fun e he => (hfits e he).1⟩, henv,
              fun e he => (hfits e he).2⟩
          · rintro ⟨⟨-, chunks, hwhole, hfits⟩, -, hempty⟩
            rw [solidStream_iff.mpr ⟨chunks, hwhole, rfl⟩] at hstream
            obtain rfl := Option.some.inj hstream
            exact ⟨rfl, fun e he => ⟨hfits e he, hempty e he⟩⟩

theorem solidOutcome_publishes {o : Opened}
    (hsafe : ∀ e ∈ o.entries, pathIsSafe e.path.bytes = true)
    (hok : (solidOutcome P C faultless bytes o).1 = .ok ()) :
    PublishesAll o (solidOutcome P C faultless bytes o).2 := by
  obtain ⟨htest, henv, hempty⟩ := (solidOutcome_iff hsafe).mp hok
  obtain ⟨hsize, chunks, hwhole, hfits⟩ := testSolid_iff.mp htest
  have hvalue : (solidOutcome P C faultless bytes o).2
      = (solidRun faultless chunks.flatten 0 o.entries ⟨solidDataEnd o, 0, []⟩).outputs := by
    rw [solidOutcome, if_neg (by omega), solidStart_iff.mpr ⟨henv, rfl⟩]
    dsimp only
    rw [solidStream_iff.mpr ⟨chunks, hwhole, rfl⟩]
  have houts := @solidRun_outputs 0 chunks.flatten o.entries ⟨solidDataEnd o, 0, []⟩ hsafe
    fun e he => ⟨hfits e he, hempty e he⟩
  exact publishesAll_of_outputs (List.length_map _) (hvalue.trans houts)

/-- The archive as the loops over its entries see it. -/
def sourceOf (o : Opened) (bytes : Bytes) (map : Option (List (UInt64 × UInt64))) : Source :=
  ⟨bytes, o.hdr.globalFlags, o.keyring, map⟩

/-- The entries of an archive that is not solid are whole, and decode to these
    chunks. -/
def WholeArchive (P : Primitives) (C : Codecs) (o : Opened) (bytes : Bytes) (pos : Nat)
    (css : List (List Bytes)) : Prop :=
  ∃ map, legacyMap o bytes = .ok map ∧ WholeEntries P C (sourceOf o bytes map) 0 o.entries pos css

theorem WholeArchive.unique {o : Opened} {pos : Nat} {css css' : List (List Bytes)}
    (h : WholeArchive P C o bytes pos css) (h' : WholeArchive P C o bytes pos css') :
    css = css' := by
  obtain ⟨map, hmap, hall⟩ := h
  obtain ⟨map', hmap', hall'⟩ := h'
  obtain rfl := Except.ok.inj (hmap.symm.trans hmap')
  exact hall.unique hall'

theorem testOpened_iff {o : Opened} {pos : Nat}
    (hsolid : ¬ hasFlag o.hdr.globalFlags flagSolid = true) :
    testOpened P C bytes o pos = .ok () ↔
      ∃ css, WholeArchive P C o bytes pos css ∧
        AllHashed o.hdr.globalFlags testedHash o.entries css := by
  rw [testOpened, if_neg hsolid]
  cases hmap : legacyMap o bytes with
  | error err =>
      refine ⟨fun h => (by cases h), ?_⟩
      rintro ⟨css, ⟨map, hmap', -⟩, -⟩
      rw [hmap] at hmap'
      cases hmap'
  | ok map =>
      dsimp only
      have hverdict {n : Nat} : testVerdict n = .ok () ↔ n = 0 := by
        rw [testVerdict]
        by_cases hfail : n > 0
        · rw [if_pos hfail]
          exact ⟨fun h => (by cases h), fun h => by omega⟩
        · rw [if_neg hfail]
          exact ⟨fun _ => by omega, fun _ => rfl⟩
      rw [hverdict, testEntries_iff]
      constructor
      · rintro ⟨css, hall, hhashes⟩
        exact ⟨css, ⟨map, hmap, hall⟩, hhashes⟩
      · rintro ⟨css, ⟨map', hmap', hall⟩, hhashes⟩
        obtain rfl := Except.ok.inj (hmap.symm.trans hmap')
        exact ⟨css, hall, hhashes⟩

theorem serialOutcome_iff {o : Opened} {pos : Nat}
    (hsolid : ¬ hasFlag o.hdr.globalFlags flagSolid = true)
    (hsafe : ∀ e ∈ o.entries, pathIsSafe e.path.bytes = true) :
    (serialOutcome P C faultless bytes o pos).1 = .ok () ↔
      ∃ css, WholeArchive P C o bytes pos css ∧ indexedSize o.entries < 2 ^ 64 ∧
        AllHashed o.hdr.globalFlags chainedHash o.entries css := by
  rw [serialOutcome]
  by_cases hsum : indexedSize o.entries ≥ 2 ^ 64
  · rw [if_pos hsum]
    refine ⟨fun h => (by cases h), ?_⟩
    rintro ⟨css, -, hlt, -⟩
    omega
  rw [if_neg hsum, if_neg hsolid]
  cases hmap : legacyMap o bytes with
  | error err =>
      refine ⟨fun h => (by cases h), ?_⟩
      rintro ⟨css, ⟨map, hmap', -⟩, -⟩
      rw [hmap] at hmap'
      cases hmap'
  | ok map =>
      dsimp only
      rw [verdict_ok_iff, serialEntries_iff hsafe]
      constructor
      · rintro ⟨-, css, hall, hhashes⟩
        exact ⟨css, ⟨map, hmap, hall⟩, by omega, hhashes⟩
      · rintro ⟨css, ⟨map', hmap', hall⟩, -, hhashes⟩
        obtain rfl := Except.ok.inj (hmap.symm.trans hmap')
        exact ⟨rfl, css, hall, hhashes⟩

theorem serialOutcome_publishes {o : Opened} {pos : Nat}
    (hsafe : ∀ e ∈ o.entries, pathIsSafe e.path.bytes = true)
    (hok : (serialOutcome P C faultless bytes o pos).1 = .ok ()) :
    PublishesAll o (serialOutcome P C faultless bytes o pos).2 := by
  by_cases hsolid : hasFlag o.hdr.globalFlags flagSolid = true
  · rw [serialOutcome] at hok ⊢
    by_cases hsum : indexedSize o.entries ≥ 2 ^ 64
    · rw [if_pos hsum] at hok
      cases hok
    · rw [if_neg hsum, if_pos hsolid] at hok ⊢
      exact solidOutcome_publishes hsafe hok
  · obtain ⟨css, ⟨map, hmap, hall⟩, hsum, hhashes⟩ := (serialOutcome_iff hsolid hsafe).mp hok
    rw [serialOutcome, if_neg (by omega), if_neg hsolid, hmap]
    exact publishesAll_of_outputs hall.length (serialEntries_outputs hsafe hall hhashes)

/-- **THE EXTRACTION** of an archive that opens has one outcome. -/
theorem extractsAll_iff {opts : ReaderOptions} {o : Opened} {pos : Nat}
    (hopen : (openArchive P C opts).run bytes 0 = (.ok o, pos))
    (hsafe : ∀ e ∈ o.entries, pathIsSafe e.path.bytes = true) :
    ExtractsAll P C opts bytes ↔ (serialOutcome P C faultless bytes o pos).1 = .ok () := by
  have hprog : (extractArchive P C (plainly opts) faultless false bytes).alone
      = some (serialOutcome P C faultless bytes o pos) := by
    have hopen' : (openArchive P C (plainly opts)).run bytes 0 = (.ok o, pos) := hopen
    rw [extractArchive, hopen']
    exact extractOpened_alone
  constructor
  · rintro ⟨o', pos', outs, hopen', hret, -⟩
    rw [← (returns_iff_of_alone hprog _).mp hret]
  · intro hok
    refine ⟨o, pos, (serialOutcome P C faultless bytes o pos).2, hopen,
      (returns_iff_of_alone hprog _).mpr ?_, serialOutcome_publishes hsafe hok⟩
    rw [← hok]

/-- Where the test predicts the extraction.  Of a solid archive whose stream
    is whole, the encryption header reads and empty files have no hash; of any
    other whose entries are whole, the hashes with and without the empty
    blocks are right together, and the sizes add up to less than `2 ^ 64`. -/
def TestExact (P : Primitives) (C : Codecs) (opts : ReaderOptions) (bytes : Bytes) : Prop :=
  ∀ o pos, (openArchive P C opts).run bytes 0 = (.ok o, pos) →
    if hasFlag o.hdr.globalFlags flagSolid = true then
      ∀ chunks, indexedSize o.entries ≤ 4 * 1024 * 1024 * 1024 →
        WholeStream P C o bytes (testSolidStart o.hdr.globalFlags bytes) chunks →
        (∀ e ∈ o.entries, SliceFits chunks.flatten e) →
        EnvelopeReads o bytes ∧ ∀ e ∈ o.entries, EmptyUnhashed e
    else
      ∀ css, WholeArchive P C o bytes pos css →
        (AllHashed o.hdr.globalFlags testedHash o.entries css ↔
          indexedSize o.entries < 2 ^ 64 ∧
            AllHashed o.hdr.globalFlags chainedHash o.entries css)

/-- What the single-threaded extraction of an archive the small reader opens
    answers. -/
def smallVerdict (bytes : Bytes) : Option (Result Unit) :=
  match (openArchive toyPrimitives storeOnly (smallReader 1)).run bytes 0 with
  | (.error _, _) => none
  | (.ok o, pos) => some (serialOutcome toyPrimitives storeOnly faultless bytes o pos).1

/-- The paths in the index of a small archive are safe. -/
def smallPathsSafe (bytes : Bytes) : Bool :=
  match (openArchive toyPrimitives storeOnly (smallReader 1)).run bytes 0 with
  | (.error _, _) => true
  | (.ok o, _) => o.entries.all fun e => pathIsSafe e.path.bytes

theorem pathsSafe_of_small {bytes : Bytes} (h : smallPathsSafe bytes = true) :
    PathsSafe toyPrimitives storeOnly (smallReader 1) bytes := by
  intro o pos hopen
  rw [smallPathsSafe, hopen] at h
  exact List.all_eq_true.mp h

theorem extractsAll_iff_small {bytes : Bytes} (h : smallPathsSafe bytes = true) :
    ExtractsAll toyPrimitives storeOnly (smallReader 1) bytes ↔
      smallVerdict bytes = some (.ok ()) := by
  rw [smallVerdict]
  cases hopen : (openArchive toyPrimitives storeOnly (smallReader 1)).run bytes 0 with
  | mk res pos =>
      cases res with
      | error err =>
          refine ⟨?_, fun h => (by cases h)⟩
          rintro ⟨o, pos', outs, hopen', -⟩
          rw [hopen] at hopen'
          cases congrArg Prod.fst hopen'
      | ok o =>
          rw [extractsAll_iff hopen (pathsSafe_of_small h o pos hopen)]
          exact ⟨congrArg some, Option.some.inj⟩

/-- A solid archive of a file of one byte and an empty file that carries a
    hash. -/
def hashedEmptyFile : Bytes :=
  let entries := [smallEntry 0x61 nul_notMem_a 0 [[1]],
    { smallEntry 0x62 nul_notMem_b 0 [] with contentHash := 1 }]
  let parts := { smallParts [storedFrame [1]] entries with
    baseHeader := { plainHeader with globalFlags := flagSolid } }
  parts.bytes toyPrimitives ⟨UInt64.ofNat (parts.indexPos toyPrimitives), 2, 0⟩

end Zupt.Extract
