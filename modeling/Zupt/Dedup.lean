import Zupt.CompressParallel
import Zupt.SlotPool.Alone
import Zupt.Probing

/-! # Deduplication

    What a reference frame refers to.  The index of the blocks written so far
    is an open-addressed table: `DedupTable` is an instance of the probing
    scheme, and a lookup in it answers with the first entry that went in.  The
    writers keep every entry of it true (`Describes`), so that a reference
    they emit points back at a DATA frame of the same block; and the reader
    takes out of a reference what the writer put into it. -/

namespace Zupt.Dedup

open Zupt.LittleEndian Zupt.Stream Zupt.Seal Zupt.Frame Zupt.Transform Zupt.Decode Zupt.Index
open Zupt.Open Zupt.Layout Zupt.Compress Zupt.Writers Zupt.SlotPool Zupt.Probing Zupt.Trailer

/-! ## The table -/

/-- An entry is one for this fingerprint and digest. -/
abbrev Matches (fingerprint : UInt64) (digest : Bytes) (e : DedupEntry) : Prop :=
  e.fingerprint = fingerprint ∧ e.digest = digest

/-- The fingerprint selects the slots, of which 64 are probed. -/
def dedupScheme : Scheme UInt64 DedupEntry where
  slot := dedupSlot
  key := DedupEntry.fingerprint
  limit := 64

theorem lookupFrom_eq (t : DedupTable) (fingerprint : UInt64) (digest : Bytes) (n i : Nat) :
    lookupFrom t fingerprint digest n i
      = find t.table (dedupSlot fingerprint) (Matches fingerprint digest) n i := by
  induction n generalizing i with
  | zero => rfl
  | succ n ih =>
      rw [lookupFrom, find]
      cases t.table (dedupSlot fingerprint i) with
      | none => rfl
      | some e =>
          dsimp only
          rw [ih]

theorem insertFrom_eq (t : DedupTable) (e : DedupEntry) (n i : Nat) :
    insertFrom t e n i = match free t.table (dedupSlot e.fingerprint) n i with
      | none => t
      | some s => ⟨Function.update t.table s (some e), t.count + 1⟩ := by
  induction n generalizing i with
  | zero => rfl
  | succ n ih =>
      rw [insertFrom, free]
      cases t.table (dedupSlot e.fingerprint i) with
      | none => rfl
      | some y => exact ih (i + 1)

/-- `zupt_dedup_insert_secure` returns 1: the entry was counted. -/
def Accepts (t : DedupTable) (e : DedupEntry) : Bool := decide ((t.insert e).count ≠ t.count)

/-- An insertion, and the list of the entries that went in so far. -/
def insertNext (st : DedupTable × List DedupEntry) (e : DedupEntry) :
    DedupTable × List DedupEntry :=
  (st.1.insert e, if Accepts st.1 e then st.2 ++ [e] else st.2)

/-- The table after these insertions, and the entries that went in. -/
def insertAll (es : List DedupEntry) : DedupTable × List DedupEntry :=
  es.foldl insertNext (.init, [])

/-- An insertion leaves the table as it is, or fills the first free slot. -/
theorem insert_cases (t : DedupTable) (e : DedupEntry) :
    (Accepts t e = false ∧ t.insert e = t) ∨
      ∃ s, free t.table (dedupSlot e.fingerprint) 64 0 = some s ∧ Accepts t e = true ∧
        t.insert e = ⟨Function.update t.table s (some e), t.count + 1⟩ := by
  have hsame (h : t.insert e = t) : Accepts t e = false := by
    rw [Accepts, h]
    exact decide_eq_false (not_not.mpr rfl)
  by_cases hfull : t.count ≥ dedupMaxEntries * 3 / 4
  · have h : t.insert e = t := by
      rw [DedupTable.insert, if_pos hfull]
    exact Or.inl ⟨hsame h, h⟩
  · have h : t.insert e = insertFrom t e 64 0 := by
      rw [DedupTable.insert, if_neg hfull]
    rw [insertFrom_eq] at h
    cases hfree : free t.table (dedupSlot e.fingerprint) 64 0 with
    | none =>
        rw [hfree] at h
        exact Or.inl ⟨hsame h, h⟩
    | some s =>
        rw [hfree] at h
        refine Or.inr ⟨s, rfl, ?_, h⟩
        rw [Accepts, h]
        exact decide_eq_true (Nat.succ_ne_self t.count)

/-- The table is settled, and answers as the list of accepted entries does. -/
structure Answers (t : DedupTable) (accepted : List DedupEntry) : Prop where
  settled : dedupScheme.Settled t.table
  lookup : ∀ fingerprint digest,
    t.lookup fingerprint digest = accepted.find? fun e => decide (Matches fingerprint digest e)

theorem answers_init : Answers .init [] :=
  ⟨Scheme.settled_empty dedupScheme, fun _ _ => rfl⟩

/-- One insertion keeps the answers right. -/
theorem Answers.insert {t : DedupTable} {accepted : List DedupEntry} (h : Answers t accepted)
    (e : DedupEntry) :
    Answers (t.insert e) (if Accepts t e then accepted ++ [e] else accepted) := by
  rcases insert_cases t e with ⟨hrefused, hsame⟩ | ⟨s, hs, haccepted, hplaced⟩
  · rw [hsame, hrefused]
    exact h
  · rw [hplaced, if_pos haccepted]
    refine ⟨h.settled.place hs, fun fingerprint digest => ?_⟩
    have hkey (x : DedupEntry) (hx : Matches fingerprint digest x) :
        dedupScheme.key x = fingerprint := hx.1
    have hfind := h.settled.find_place hkey hs
    have hold := h.lookup fingerprint digest
    rw [DedupTable.lookup, lookupFrom_eq] at hold ⊢
    rw [List.find?_append, ← hold]
    refine hfind.trans ?_
    congr 1
    by_cases hp : Matches fingerprint digest e
    · rw [if_pos hp, List.find?_cons, decide_eq_true hp]
    · rw [if_neg hp, List.find?_cons, decide_eq_false hp, List.find?_nil]

/-- **THE TABLE ANSWERS FIRST COME**: after any insertions, a lookup finds the
    first entry that went in under the fingerprint and the digest. -/
theorem lookup_insertAll (es : List DedupEntry) (fingerprint : UInt64) (digest : Bytes) :
    (insertAll es).1.lookup fingerprint digest
      = (insertAll es).2.find? fun e => decide (Matches fingerprint digest e) := by
  have hrun (es : List DedupEntry) : ∀ st : DedupTable × List DedupEntry, Answers st.1 st.2 →
      Answers (es.foldl insertNext st).1 (es.foldl insertNext st).2 := by
    induction es with
    | nil => exact fun _ h => h
    | cons e es ih => exact fun st h => ih _ (h.insert e)
  exact (hrun es (.init, []) answers_init).lookup fingerprint digest

/-! ## What the writers refer to -/

section Writing

variable {P : Primitives} {opts : WriterOptions} {env : WriterEnv}

/-- No two different blocks share both hashes. -/
def NoCollision (env : WriterEnv) (blocks : List Bytes) : Prop :=
  ∀ a ∈ blocks, ∀ b ∈ blocks, xxh64 a 0 = xxh64 b 0 → dedupDigest env a = dedupDigest env b →
    a = b

/-- Where frame `j` of these stands, if the first one stands at `start`. -/
def frameOffset (P : Primitives) (kr : Option Keyring) (start : Nat) (frames : List Written)
    (j : Nat) : Nat :=
  start + (encodeAll P kr (frames.take j)).length

/-- Frame `j` is the DATA frame `data` makes of block `b`, at the sequence it
    is sealed at. -/
structure DataAt (data : Bytes → UInt64 → WrittenFrame) (blocks : List Bytes)
    (frames : List Written) (j : Nat) (b : Bytes) (w : Written) : Prop where
  frame : frames[j]? = some w
  block : blocks[j]? = some b
  data : w.1 = data b w.1.blockSeq

/-- Frame `k`, for block `b`, refers to an earlier DATA frame of the same
    block: to where it stands, and to the sequence it is sealed at. -/
def RefersBack (P : Primitives) (kr : Option Keyring) (data : Bytes → UInt64 → WrittenFrame)
    (start : Nat) (blocks : List Bytes) (frames : List Written) (k : Nat) (b : Bytes)
    (w : Written) : Prop :=
  ∃ j w', j < k ∧ DataAt data blocks frames j b w' ∧
    w.1 = refFrame kr.isSome (UInt64.ofNat (frameOffset P kr start frames j))
      (UInt32.ofNat b.length) (xxh64 b 0) w.1.blockSeq w'.1.blockSeq

/-- An entry of the table is one for a DATA frame of the archive. -/
def Describes (P : Primitives) (kr : Option Keyring) (env : WriterEnv)
    (data : Bytes → UInt64 → WrittenFrame) (start : Nat) (blocks : List Bytes)
    (frames : List Written) (e : DedupEntry) : Prop :=
  ∃ j b w, DataAt data blocks frames j b w ∧
    e = ⟨xxh64 b 0, UInt64.ofNat (frameOffset P kr start frames j), dedupDigest env b,
      UInt32.ofNat b.length, w.1.blockSeq⟩

/-- The archive while a writer with deduplication sends blocks into it: one
    frame a block, a DATA frame or a reference back, and a table that describes
    the DATA frames. -/
structure Deduped (P : Primitives) (kr : Option Keyring) (env : WriterEnv)
    (data : Bytes → UInt64 → WrittenFrame) (start : Nat) (blocks : List Bytes) (out : OutState) :
    Prop where
  length : out.frames.length = blocks.length
  pos : out.pos = frameOffset P kr start out.frames out.frames.length
  frames : ∀ k b w, out.frames[k]? = some w → blocks[k]? = some b →
    w.1 = data b w.1.blockSeq ∨ RefersBack P kr data start blocks out.frames k b w
  table : ∀ s e, out.dedup.table s = some e →
    Describes P kr env data start blocks out.frames e

variable {kr : Option Keyring} {data : Bytes → UInt64 → WrittenFrame} {start : Nat}
  {blocks : List Bytes} {frames : List Written} {b : Bytes} {w : Written}

theorem getElem?_append_of_some {α : Type} {l l' : List α} {i : Nat} {a : α}
    (h : l[i]? = some a) : (l ++ l')[i]? = some a := by
  obtain ⟨hi, -⟩ := List.getElem?_eq_some_iff.mp h
  rw [List.getElem?_append_left hi, h]

theorem DataAt.concat {j : Nat} (h : DataAt data blocks frames j b w) (b' : Bytes) (w' : Written) :
    DataAt data (blocks ++ [b']) (frames ++ [w']) j b w where
  frame := getElem?_append_of_some h.frame
  block := getElem?_append_of_some h.block
  data := h.data

theorem frameOffset_concat {j : Nat} (h : DataAt data blocks frames j b w) (w' : Written) :
    frameOffset P kr start (frames ++ [w']) j = frameOffset P kr start frames j := by
  obtain ⟨hj, -⟩ := List.getElem?_eq_some_iff.mp h.frame
  rw [frameOffset, frameOffset, List.take_append_of_le_length hj.le]

theorem RefersBack.concat {k : Nat} (h : RefersBack P kr data start blocks frames k b w)
    (b' : Bytes) (w' : Written) :
    RefersBack P kr data start (blocks ++ [b']) (frames ++ [w']) k b w := by
  obtain ⟨j, v, hlt, hdata, hw⟩ := h
  refine ⟨j, v, hlt, hdata.concat b' w', ?_⟩
  rw [frameOffset_concat hdata]
  exact hw

theorem Describes.concat {e : DedupEntry} (h : Describes P kr env data start blocks frames e)
    (b' : Bytes) (w' : Written) :
    Describes P kr env data start (blocks ++ [b']) (frames ++ [w']) e := by
  obtain ⟨j, b, v, hdata, he⟩ := h
  refine ⟨j, b, v, hdata.concat b' w', ?_⟩
  rw [frameOffset_concat hdata]
  exact he

theorem deduped_start : Deduped P kr env data start [] ⟨[], start, .init⟩ where
  length := rfl
  pos := rfl
  frames _ _ _ h := nomatch h
  table _ _ h := nomatch h

theorem encodeAll_concat (ws : List Written) (w : Written) :
    encodeAll P kr (ws ++ [w]) = encodeAll P kr ws ++ encodeWritten P kr w := by
  rw [encodeAll, List.map_append, List.flatten_append, List.map_singleton, List.flatten_singleton,
    encodeAll]

/-- The frame just written keeps the archive as it should be. -/
theorem Deduped.put {out : OutState} (h : Deduped P kr env data start blocks out) {chunk : Bytes}
    (hw : w.1 = data chunk w.1.blockSeq ∨
      RefersBack P kr data start blocks out.frames blocks.length chunk w) :
    Deduped P kr env data start (blocks ++ [chunk]) (out.put P kr w) where
  length := by
    rw [OutState.put, List.length_append, List.length_append, h.length]
    rfl
  pos := by
    rw [OutState.put, frameOffset, List.take_length, encodeAll_concat, List.length_append, h.pos,
      frameOffset, List.take_length, Nat.add_assoc]
  frames := by
    intro k b v hk hb
    rw [OutState.put] at hk ⊢
    by_cases hlt : k < blocks.length
    · rw [List.getElem?_append_left hlt] at hb
      rw [List.getElem?_append_left (h.length ▸ hlt)] at hk
      exact (h.frames k b v hk hb).imp_right fun hback => hback.concat chunk w
    · have hk' : k = blocks.length := by
        obtain ⟨hk', -⟩ := List.getElem?_eq_some_iff.mp hb
        rw [List.length_append, List.length_singleton] at hk'
        omega
      subst hk'
      rw [List.getElem?_concat_length] at hb
      rw [← h.length, List.getElem?_concat_length] at hk
      obtain rfl := Option.some.inj hb
      obtain rfl := Option.some.inj hk
      exact hw.imp_right fun hback => hback.concat chunk w
  table := by
    intro s e he
    rw [OutState.put] at he ⊢
    exact (h.table s e he).concat chunk w

/-- What the table holds after an insertion is what it held, or the entry. -/
theorem table_insert {t : DedupTable} {e x : DedupEntry} {s : Nat}
    (h : (t.insert e).table s = some x) : t.table s = some x ∨ x = e := by
  rcases insert_cases t e with ⟨-, hsame⟩ | ⟨s', -, -, hplaced⟩
  · rw [hsame] at h
    exact Or.inl h
  · rw [hplaced] at h
    dsimp only at h
    by_cases hs : s = s'
    · subst hs
      rw [Function.update_self] at h
      exact Or.inr (Option.some.inj h).symm
    · rw [Function.update_of_ne hs] at h
      exact Or.inl h

/-- What a lookup finds is in the table, under the fingerprint and the digest. -/
theorem table_of_lookup {t : DedupTable} {fingerprint : UInt64} {digest : Bytes} {e : DedupEntry}
    (h : t.lookup fingerprint digest = some e) :
    (∃ s, t.table s = some e) ∧ e.fingerprint = fingerprint ∧ e.digest = digest := by
  rw [DedupTable.lookup, lookupFrom_eq] at h
  obtain ⟨m, -, -, hslot, hp, -, -⟩ := find_eq_some h
  exact ⟨⟨_, hslot⟩, hp⟩

/-- **A HIT IS THE BLOCK**: without collisions, what the table finds for a
    block is an entry for that very block. -/
theorem Deduped.hit {out : OutState} (h : Deduped P kr env data start blocks out) {chunk : Bytes}
    (hfree : NoCollision env (blocks ++ [chunk])) {hit : DedupEntry}
    (hhit : dedupHit opts env out.dedup chunk = some hit) :
    ∃ j v, DataAt data blocks out.frames j chunk v ∧
      hit.blockOffset = UInt64.ofNat (frameOffset P kr start out.frames j) ∧
      hit.aadSeq = v.1.blockSeq := by
  rw [dedupHit] at hhit
  split at hhit
  case isFalse => cases hhit
  cases hlook : out.dedup.lookup (xxh64 chunk 0) (dedupDigest env chunk) with
  | none =>
      rw [hlook] at hhit
      cases hhit
  | some e =>
      rw [hlook] at hhit
      dsimp only at hhit
      split at hhit
      case isFalse => cases hhit
      obtain rfl := Option.some.inj hhit
      obtain ⟨⟨s, hs⟩, hfp, hdig⟩ := table_of_lookup hlook
      obtain ⟨j, b, v, hdata, he⟩ := h.table s e hs
      have hb : b = chunk := by
        have hmem : b ∈ blocks := List.mem_of_getElem? hdata.block
        refine hfree b (List.mem_append_left _ hmem) chunk (by simp) ?_ ?_
        · rw [← hfp, he]
        · rw [← hdig, he]
      subst hb
      exact ⟨j, v, hdata, by rw [he], by rw [he]⟩

/-- A true entry may go into the table. -/
theorem Deduped.insert {out : OutState} (h : Deduped P kr env data start blocks out)
    {e : DedupEntry} (he : Describes P kr env data start blocks out.frames e) :
    Deduped P kr env data start blocks { out with dedup := out.dedup.insert e } where
  length := h.length
  pos := h.pos
  frames := h.frames
  table := by
    intro s x hx
    rcases table_insert hx with hold | rfl
    · exact h.table s x hold
    · exact he

/-- The frame written last stands where the archive ended before. -/
theorem Deduped.offset_last {out : OutState} (h : Deduped P kr env data start blocks out)
    (w : Written) : frameOffset P kr start (out.frames ++ [w]) blocks.length = out.pos := by
  rw [h.pos, frameOffset, frameOffset, ← h.length, List.take_append_of_le_length (Nat.le_refl _)]

/-- **ONE BLOCK** sent into the archive keeps it as it should be. -/
theorem Deduped.putBlock {fw : FileWriter} (h : Deduped P opts.keyring env data start blocks fw.out)
    (hdata : ∀ b seq, (data b seq).blockSeq = seq) (chunk : Bytes) (seq : UInt64)
    (hfree : NoCollision env (blocks ++ [chunk])) :
    Deduped P opts.keyring env data start (blocks ++ [chunk])
      (putBlock P opts env (data chunk seq) chunk seq fw).out := by
  rw [Writers.putBlock]
  dsimp only
  cases hhit : dedupHit opts env fw.out.dedup chunk with
  | some hit =>
      obtain ⟨j, v, hat, hoff, hseq⟩ := h.hit hfree hhit
      dsimp only
      refine h.put (Or.inr ⟨j, v, ?_, hat, ?_⟩)
      · obtain ⟨hj, -⟩ := List.getElem?_eq_some_iff.mp hat.block
        exact hj
      · dsimp only
        rw [hoff, hseq]
        rfl
  | none =>
      dsimp only
      have hput : Deduped P opts.keyring env data start (blocks ++ [chunk])
          (fw.out.put P opts.keyring (data chunk seq, env.nonces fw.out.frames.length)) :=
        h.put (Or.inl (by rw [hdata]))
      rw [dedupInsert]
      by_cases hdedup : opts.dedup = true
      · rw [if_pos hdedup]
        refine hput.insert ⟨blocks.length, chunk, (data chunk seq, env.nonces fw.out.frames.length),
          ⟨?_, List.getElem?_concat_length, by rw [hdata]⟩, ?_⟩
        · rw [OutState.put, ← h.length]
          exact List.getElem?_concat_length
        · rw [OutState.put, h.offset_last, hdata]
      · rw [if_neg hdedup]
        exact hput

theorem NoCollision.of_append_left {b : List Bytes} (h : NoCollision env (blocks ++ b)) :
    NoCollision env blocks :=
  fun x hx y hy => h x (List.mem_append_left b hx) y (List.mem_append_left b hy)

end Writing

/-! ## Whole archives -/

section Archives

variable {P : Primitives} {C : Codecs} {opts : WriterOptions} {env : WriterEnv}

/-- The DATA frame `zupt_compress_files` makes of a block. -/
def fileData (C : Codecs) (opts : WriterOptions) (env : WriterEnv) : Bytes → UInt64 → WrittenFrame :=
  serialFrame C (resolveCodec opts env) opts.level

/-- The DATA frame `zupt_disk_backup` makes of a block. -/
def diskData (C : Codecs) (opts : WriterOptions) (env : WriterEnv) : Bytes → UInt64 → WrittenFrame :=
  diskFrame C (diskBlockSize opts).toNat (resolveCodec opts env) opts.level

theorem diskFrame_cases (blockSize : Nat) (codec : UInt16) (level : Int) (b : Bytes)
    (seq : UInt64) : ∃ codec' comp, diskFrame C blockSize codec level b seq
      = dataFrame codec' comp b seq := by
  rw [diskFrame]
  split
  · exact ⟨_, _, rfl⟩
  · exact ⟨_, _, rfl⟩

/-- The blocks of these files, in the order in which they are written. -/
def fileBlocks (opts : WriterOptions) (inputs : List Input) : List Bytes :=
  inputs.flatMap fun input => chunksOf (resolveBlockSize opts).toNat input.content

theorem serialBlocks_deduped {fi start : Nat} {blocks chunks : List Bytes} {fw : FileWriter}
    (h : Deduped P opts.keyring env (fileData C opts env) start blocks fw.out)
    (hfree : NoCollision env (blocks ++ chunks)) :
    Deduped P opts.keyring env (fileData C opts env) start (blocks ++ chunks)
      (serialBlocks P C opts env fi chunks fw).out := by
  induction chunks generalizing blocks fw with
  | nil =>
      rw [List.append_nil]
      exact h
  | cons chunk chunks ih =>
      rw [List.append_cons] at hfree ⊢
      rw [serialBlocks]
      refine ih ?_ hfree
      rw [FileWriter.count_out]
      exact h.putBlock (fun _ _ => rfl) chunk _ hfree.of_append_left

theorem diskBlocks_deduped {start : Nat} {blocks chunks : List Bytes} {fw : FileWriter}
    (h : Deduped P opts.keyring env (diskData C opts env) start blocks fw.out)
    (hfree : NoCollision env (blocks ++ chunks)) :
    Deduped P opts.keyring env (diskData C opts env) start (blocks ++ chunks)
      (diskBlocks P C opts env chunks fw).out := by
  induction chunks generalizing blocks fw with
  | nil =>
      rw [List.append_nil]
      exact h
  | cons chunk chunks ih =>
      rw [List.append_cons] at hfree ⊢
      rw [diskBlocks]
      refine ih ?_ hfree
      rw [FileWriter.count_out]
      refine h.putBlock (fun b seq => ?_) chunk _ hfree.of_append_left
      obtain ⟨codec, comp, hdisk⟩ := diskFrame_cases (C := C) (diskBlockSize opts).toNat
        (resolveCodec opts env) opts.level b seq
      rw [diskData, hdisk, dataFrame]

/-- **ALL FILES**, written without threads. -/
theorem compressInputs_deduped {fi start : Nat} {inputs : List Input} {out : OutState}
    {index : List IndexEntry} {blocks : List Bytes}
    (h : Deduped P opts.keyring env (fileData C opts env) start blocks out)
    (hfree : NoCollision env (blocks ++ fileBlocks opts inputs)) :
    ∃ r, (compressInputs P C opts env false fi inputs out index).alone = some r ∧
      ∀ out' index', r = some (out', index') →
        Deduped P opts.keyring env (fileData C opts env) start (blocks ++ fileBlocks opts inputs)
          out' := by
  induction inputs generalizing fi out index blocks with
  | nil =>
      refine ⟨some (out, index), rfl, ?_⟩
      rintro out' index' hr
      obtain ⟨rfl, -⟩ := Prod.mk.inj (Option.some.inj hr)
      rw [fileBlocks, List.flatMap_nil, List.append_nil]
      exact h
  | cons input inputs ih =>
      rw [compressInputs]
      by_cases hlarge : input.content.length ≥ 2 ^ 63
      · rw [if_pos hlarge]
        exact ⟨none, rfl, fun _ _ hr => by cases hr⟩
      · rw [if_neg hlarge]
        rw [fileBlocks, List.flatMap_cons, ← List.append_assoc] at hfree ⊢
        have hfile := @serialBlocks_deduped P C opts env fi start blocks
          (chunksOf (resolveBlockSize opts).toNat input.content) (.start out) h
          hfree.of_append_left
        exact ih hfile hfree

/-- A frame stands in the archive where it was written. -/
theorem frame_at (a : Archive) {j : Nat} {w : Written} (hw : a.parts.frames[j]? = some w) :
    At (a.bytes P) (frameOffset P a.parts.keyring a.parts.framesPos a.parts.frames j)
      (encodeWritten P a.parts.keyring w) := by
  obtain ⟨hj, rfl⟩ := List.getElem?_eq_some_iff.mp hw
  have hsplit : encodeAll P a.parts.keyring a.parts.frames
      = encodeAll P a.parts.keyring (a.parts.frames.take j)
        ++ (encodeWritten P a.parts.keyring a.parts.frames[j]
          ++ encodeAll P a.parts.keyring (a.parts.frames.drop (j + 1))) := by
    conv_lhs => rw [← List.take_append_drop j a.parts.frames, List.drop_eq_getElem_cons hj]
    rw [encodeAll, List.map_append, List.flatten_append, List.map_cons, List.flatten_cons]
    rfl
  have hbytes : a.bytes P = (serializeArchiveHeader (a.parts.header P) ++ (a.parts.envelopeBytes
      ++ encodeAll P a.parts.keyring (a.parts.frames.take j)))
      ++ (encodeWritten P a.parts.keyring a.parts.frames[j]
        ++ (encodeAll P a.parts.keyring (a.parts.frames.drop (j + 1)) ++ (a.parts.commentBytes P
          ++ (encodeWritten P a.parts.keyring a.parts.index ++ (serializeFooter a.footer
            ++ aitField P (a.parts.header P) a.footer a.parts.keyring))))) := by
    rw [Archive.bytes, Parts.bytes, Parts.body, hsplit]
    simp only [List.append_assoc]
  have hpos : frameOffset P a.parts.keyring a.parts.framesPos a.parts.frames j
      = (serializeArchiveHeader (a.parts.header P) ++ (a.parts.envelopeBytes
        ++ encodeAll P a.parts.keyring (a.parts.frames.take j))).length := by
    rw [frameOffset, Parts.framesPos, List.length_append, List.length_append,
      serializeArchiveHeader_length, Nat.add_assoc]
  rw [hpos, hbytes]
  exact at_append _ _ _

theorem framesPos_eq (globalFlags : UInt32) (frames : List Written)
    (comment : Option WrittenFrame) (index : WrittenFrame) :
    (archiveParts opts env globalFlags frames comment index).framesPos = firstFramePos opts := by
  rw [Parts.framesPos, Parts.envelopeBytes, firstFramePos, archiveParts]
  cases opts.encrypt with
  | none => rfl
  | some key => rfl

/-- Frame `k`, a reference for block `b`, is sound: it points to where an
    earlier DATA frame of the same block stands, announces its size and
    checksum, and, if frames are sealed, carries the sequence that frame is
    sealed at. -/
def ReferenceSound (P : Primitives) (data : Bytes → UInt64 → WrittenFrame) (blocks : List Bytes)
    (a : Archive) (k : Nat) (b : Bytes) (w : WrittenFrame) : Prop :=
  ∃ (j off : Nat) (w' : Written), j < k ∧ blocks[j]? = some b ∧ a.parts.frames[j]? = some w' ∧
    w'.1.blockType = blockData ∧ w'.1 = data b w'.1.blockSeq ∧
    At (a.bytes P) off (encodeWritten P a.parts.keyring w') ∧
    w.uncompressedSize = w'.1.uncompressedSize ∧ w.checksum = w'.1.checksum ∧
    w.plain = if a.parts.keyring.isSome then referenceBytes (UInt64.ofNat off) w'.1.blockSeq
      else le64Put (UInt64.ofNat off)

/-- The archive holds one frame a block: the DATA frame of the block, or a
    sound reference. -/
structure ReferencesSound (P : Primitives) (data : Bytes → UInt64 → WrittenFrame)
    (blocks : List Bytes) (a : Archive) : Prop where
  count : a.parts.frames.length = blocks.length
  frames : ∀ (k : Nat) (b : Bytes) (w : Written), blocks[k]? = some b →
    a.parts.frames[k]? = some w →
    if w.1.blockType = blockDedupRef then ReferenceSound P data blocks a k b w.1
    else w.1 = data b w.1.blockSeq

/-- A reference back is sound in the finished archive. -/
theorem RefersBack.sound {data : Bytes → UInt64 → WrittenFrame} {blocks : List Bytes}
    {a : Archive} {k : Nat} {b : Bytes} {w : Written}
    (h : RefersBack P a.parts.keyring data a.parts.framesPos blocks a.parts.frames k b w)
    (hdata : ∀ b seq, ∃ codec comp, data b seq = dataFrame codec comp b seq)
    (hsize : b.length < 2 ^ 32) : ReferenceSound P data blocks a k b w.1 := by
  obtain ⟨j, w', hlt, hat, href⟩ := h
  obtain ⟨codec, comp, hframe⟩ := hdata b w'.1.blockSeq
  have hw' : w'.1 = dataFrame codec comp b w'.1.blockSeq := hat.data.trans hframe
  have hsize' : UInt64.ofNat (UInt32.ofNat b.length).toNat = UInt64.ofNat b.length := by
    rw [UInt32.toNat_ofNat', Nat.mod_eq_of_lt hsize]
  refine ⟨j, _, w', hlt, hat.block, hat.frame, ?_, hat.data, frame_at a hat.frame, ?_, ?_, ?_⟩
  · rw [hw', dataFrame]
  · rw [href, refFrame, hw', dataFrame]
    exact hsize'
  · rw [href, refFrame, hw', dataFrame]
  · rw [href, refFrame]
    rfl

/-- An archive made of a deduplicated output has sound references. -/
theorem referencesSound {data : Bytes → UInt64 → WrittenFrame} {blocks : List Bytes}
    {out : OutState} {a : Archive} (hframes : a.parts.frames = out.frames)
    (h : Deduped P a.parts.keyring env data a.parts.framesPos blocks out)
    (hdata : ∀ b seq, ∃ codec comp, data b seq = dataFrame codec comp b seq)
    (hsize : ∀ b ∈ blocks, b.length < 2 ^ 32) : ReferencesSound P data blocks a := by
  refine ⟨hframes ▸ h.length, fun k b w hb hw => ?_⟩
  have hcase := h.frames k b w (hframes ▸ hw) hb
  rw [← hframes] at hcase
  by_cases htype : w.1.blockType = blockDedupRef
  · rw [if_pos htype]
    rcases hcase with hdat | hback
    · -- a DATA frame is not a reference
      obtain ⟨codec, comp, hframe⟩ := hdata b w.1.blockSeq
      rw [hdat, hframe] at htype
      have hne : blockData ≠ blockDedupRef := by decide
      exact absurd htype hne
    · exact hback.sound hdata (hsize b (List.mem_of_getElem? hb))
  · rw [if_neg htype]
    rcases hcase with hdat | ⟨j, w', -, -, href⟩
    · exact hdat
    · rw [href, refFrame] at htype
      exact absurd rfl htype

/-- No block is longer than the block size. -/
theorem length_of_mem_chunksFrom {blockSize turns : Nat} {content chunk : Bytes}
    (h : chunk ∈ chunksFrom blockSize turns content) : chunk.length ≤ blockSize := by
  induction turns generalizing content with
  | zero => cases h
  | succ turns ih =>
      rw [chunksFrom] at h
      split at h
      · cases h
      · rcases List.mem_cons.mp h with rfl | h
        · exact List.length_take_le _ _
        · exact ih h

theorem length_of_mem_chunksOf {blockSize : UInt32} {content chunk : Bytes}
    (h : chunk ∈ chunksOf blockSize.toNat content) : chunk.length < 2 ^ 32 :=
  lt_of_le_of_lt (length_of_mem_chunksFrom h) blockSize.toNat_lt

/-- **REFERENCES OF A FILE ARCHIVE ARE SOUND**, whatever the pool does. -/
theorem compressFiles_references {pool : Bool} {workers : Pool CompressJob (Result Written)}
    {inputs : List Input} {a : Archive} (hdedup : opts.dedup = true)
    (hreturns : Returns workers (compressFiles P C opts env pool inputs) (.ok a))
    (hfree : NoCollision env (fileBlocks opts inputs)) :
    ReferencesSound P (fileData C opts env) (fileBlocks opts inputs) a := by
  have hserial : multithreaded opts pool = false := by
    rw [multithreaded, hdedup]
    exact Bool.and_false _
  obtain ⟨r, halone, hr⟩ := @compressInputs_deduped P C opts env 0 (firstFramePos opts) inputs
    ⟨[], firstFramePos opts, .init⟩ [] [] deduped_start hfree
  rw [compressFiles, hserial] at hreturns
  cases herr : inputsError inputs with
  | some e =>
      rw [herr] at hreturns
      cases (returns_iff_of_alone rfl _).mp hreturns
  | none =>
      rw [herr] at hreturns
      dsimp only at hreturns
      cases r with
      | none => cases (returns_iff_of_alone (alone_bind halone) _).mp hreturns
      | some written =>
          obtain ⟨out, entries⟩ := written
          have ha := (returns_iff_of_alone (alone_bind halone) _).mp hreturns
          obtain rfl := Except.ok.inj ha
          have hout := hr out entries rfl
          have hdeduped : Deduped P opts.keyring env (fileData C opts env)
              (finishFiles P C opts env false out entries).parts.framesPos
              (fileBlocks opts inputs) out := by
            rw [finishFiles, framesPos_eq]
            exact hout
          refine referencesSound rfl hdeduped (fun b seq => ⟨_, _, rfl⟩) fun b hb => ?_
          obtain ⟨input, -, hb⟩ := List.mem_flatMap.mp hb
          exact length_of_mem_chunksOf hb

/-- The blocks of a disk image. -/
def imageBlocks (opts : WriterOptions) (source : Input) : List Bytes :=
  chunksOf (diskBlockSize opts).toNat source.content

/-- **REFERENCES OF A DISK IMAGE ARE SOUND.** -/
theorem diskBackup_references {source : Input} {a : Archive}
    (hok : diskBackup P C opts env source = .ok a)
    (hfree : NoCollision env (imageBlocks opts source)) :
    ReferencesSound P (diskData C opts env) (imageBlocks opts source) a := by
  have hrun := @diskBlocks_deduped P C opts env (firstFramePos opts) []
    (imageBlocks opts source) (.start ⟨[], firstFramePos opts, .init⟩) deduped_start hfree
  rw [diskBackup] at hok
  by_cases hsize : source.content.length = 0 ∨ source.content.length ≥ 2 ^ 63
  · rw [if_pos hsize] at hok
    cases hok
  rw [if_neg hsize] at hok
  by_cases hcount : source.content.length / (diskBlockSize opts).toNat
      + (if source.content.length % (diskBlockSize opts).toNat ≠ 0 then 1 else 0) > 0xFFFFFFFF
  · rw [if_pos hcount] at hok
    cases hok
  rw [if_neg hcount] at hok
  have ha := Except.ok.inj hok
  have hframes : a.parts.frames = (diskBlocks P C opts env (imageBlocks opts source)
      (.start ⟨[], firstFramePos opts, .init⟩)).out.frames := by
    rw [← ha]
    rfl
  have hkeyring : a.parts.keyring = opts.keyring := by
    rw [← ha]
    rfl
  have hpos : a.parts.framesPos = firstFramePos opts := by
    rw [← ha]
    exact framesPos_eq _ _ _ _
  have hdeduped : Deduped P a.parts.keyring env (diskData C opts env) a.parts.framesPos
      (imageBlocks opts source) (diskBlocks P C opts env (imageBlocks opts source)
        (.start ⟨[], firstFramePos opts, .init⟩)).out := by
    rw [hkeyring, hpos]
    exact hrun
  exact referencesSound hframes hdeduped (fun b seq => diskFrame_cases _ _ _ b seq) fun b hb =>
    length_of_mem_chunksOf hb

end Archives

/-! ## Reading a reference -/

section Reading

variable {P : Primitives}

/-- A frame as `read_block` gives it back. -/
def wireBlock (P : Primitives) (kr : Option Keyring) (w : Written)
    (hsize : wireSize kr w.1 < 2 ^ 64) : Block where
  blockType := w.1.blockType
  codecId := w.1.codecId
  blockFlags := wireFlags kr
  uncompressedSize := w.1.uncompressedSize
  compressedSize := UInt64.ofNat (wireSize kr w.1)
  checksum := w.1.checksum
  payload := wirePayload P kr w
  payload_length := by rw [wirePayload_length, UInt64.toNat_ofNat_of_lt' hsize]

theorem wireBlock_encode (kr : Option Keyring) (w : Written) (hsize : wireSize kr w.1 < 2 ^ 64) :
    (wireBlock P kr w hsize).encode = encodeWritten P kr w := rfl

theorem wireSize_refFrame (kr : Option Keyring) (refOffset : UInt64) (size : UInt32)
    (checksum seq refSeq : UInt64) :
    wireSize kr (refFrame kr.isSome refOffset size checksum seq refSeq) < 2 ^ 64 := by
  cases kr with
  | none => exact (le64Put_length refOffset ▸ by decide : (le64Put refOffset).length < 2 ^ 64)
  | some kr =>
      show nonceSize + (le64Put refOffset ++ le64Put refSeq).length + hmacSize < 2 ^ 64
      rw [List.length_append, le64Put_length, le64Put_length]
      decide

/-- The sixteen bytes of a reference, taken apart and put together. -/
theorem referenceBytes_get {plain : Bytes} (h : plain.length = 16) :
    referenceBytes (le64Get plain) (le64Get (plain.drop 8)) = plain := by
  have hlow : le64Put (le64Get plain) = plain.take 8 :=
    le64Put_le64Get (by omega)
  have hhigh : le64Put (le64Get (plain.drop 8)) = (plain.drop 8).take 8 :=
    le64Put_le64Get (by rw [List.length_drop]; omega)
  rw [referenceBytes, hlow, hhigh, List.take_of_length_le (l := plain.drop 8)
    (by rw [List.length_drop]; omega), List.take_append_drop]

/-- **FAIL CLOSED**: where authentication is required, a reference is accepted
    exactly if its frame is encrypted under an active keyring, and the package
    opens to the sixteen bytes of the offset and the sequence. -/
theorem readRef_required_iff {kr : Keyring} {b : Block} {seq refOffset refSeq : UInt64} :
    dedupReadRef P b kr true seq = .ok (refOffset, refSeq) ↔
      b.blockType = blockDedupRef ∧ b.codecId = codecStore ∧ isEncrypted b.blockFlags = true ∧
        kr.active = true ∧ decryptFrame P kr b seq = some (referenceBytes refOffset refSeq) := by
  rw [dedupReadRef]
  by_cases hshape : b.blockType ≠ blockDedupRef ∨ b.codecId ≠ codecStore
  · rw [if_pos hshape]
    constructor
    · intro h
      cases h
    · rintro ⟨htype, hcodec, -⟩
      rcases hshape with h | h
      · exact absurd htype h
      · exact absurd hcodec h
  rw [if_neg hshape, if_pos rfl]
  obtain ⟨htype, hcodec⟩ := not_or.mp hshape
  by_cases hauth : ¬ isEncrypted b.blockFlags = true ∨ ¬ kr.active = true
  · rw [if_pos hauth]
    constructor
    · intro h
      cases h
    · rintro ⟨-, -, henc, hactive, -⟩
      rcases hauth with h | h
      · exact absurd henc h
      · exact absurd hactive h
  rw [if_neg hauth]
  obtain ⟨henc, hactive⟩ := not_or.mp hauth
  cases hdec : decryptFrame P kr b seq with
  | none =>
      dsimp only
      constructor
      · intro h
        cases h
      · rintro ⟨-, -, -, -, h⟩
        cases h
  | some plain =>
      dsimp only
      by_cases hlen : plain.length ≠ 16
      · rw [if_pos hlen]
        constructor
        · intro h
          cases h
        · rintro ⟨-, -, -, -, h⟩
          obtain rfl := Option.some.inj h
          rw [referenceBytes, List.length_append, le64Put_length, le64Put_length] at hlen
          exact absurd rfl hlen
      · rw [if_neg hlen]
        constructor
        · intro h
          obtain ⟨hoff, hseq⟩ := Prod.mk.inj (Except.ok.inj h)
          refine ⟨not_not.mp htype, not_not.mp hcodec, not_not.mp henc, not_not.mp hactive, ?_⟩
          rw [← hoff, ← hseq, referenceBytes_get (not_not.mp hlen)]
        · rintro ⟨-, -, -, -, h⟩
          obtain rfl := Option.some.inj h
          have hdrop : (referenceBytes refOffset refSeq).drop 8 = le64Put refSeq ++ [] := by
            rw [referenceBytes, List.drop_left' (le64Put_length refOffset), List.append_nil]
          rw [hdrop, le64Get_le64Put, referenceBytes, le64Get_le64Put]

/-- **A SEALED REFERENCE IS READ BACK**, at the sequence it was sealed at. -/
theorem readRef_sealed {kr : Keyring} (hactive : kr.active = true) (nonce : Nonce)
    (refOffset : UInt64) (size : UInt32) (checksum seq refSeq : UInt64) :
    dedupReadRef P (wireBlock P (some kr)
      (refFrame true refOffset size checksum seq refSeq, nonce)
      (wireSize_refFrame (some kr) refOffset size checksum seq refSeq)) kr true seq
      = .ok (refOffset, refSeq) := by
  have hflag : isEncrypted bflagEncrypted = true := by decide
  refine readRef_required_iff.mpr ⟨rfl, rfl, hflag, hactive, ?_⟩
  exact decryptFrame_sealBlock P kr _ _ _ _ _ _ _
    (wireSize_refFrame (some kr) refOffset size checksum seq refSeq)

/-- **A PLAIN REFERENCE IS READ BACK**; it carries no sequence. -/
theorem readRef_plain (kr : Keyring) (nonce : Nonce) (refOffset : UInt64) (size : UInt32)
    (checksum seq refSeq current : UInt64) :
    dedupReadRef P (wireBlock P none (refFrame false refOffset size checksum seq refSeq, nonce)
      (wireSize_refFrame none refOffset size checksum seq refSeq)) kr false current
      = .ok (refOffset, 0) := by
  have hget : le64Get (le64Put refOffset) = refOffset := by
    rw [← List.append_nil (le64Put refOffset), le64Get_le64Put]
  have hsize : UInt64.ofNat (le64Put refOffset).length = 8 := by
    rw [le64Put_length]
    rfl
  have hshape : ¬ (blockDedupRef ≠ blockDedupRef ∨ codecStore ≠ codecStore) := by decide
  have hplain : ¬ ((0 : UInt16) ≠ 0 ∨ UInt64.ofNat (le64Put refOffset).length ≠ 8) := by
    rw [hsize]
    decide
  refine (if_neg hshape).trans ((if_neg Bool.false_ne_true).trans ((if_neg hplain).trans ?_))
  exact congrArg (fun off => (.ok (off, 0) : Result (UInt64 × UInt64))) hget

end Reading

/-! ## Soundness -/

open Zupt.Extract

/-- **DEDUPLICATION IS SOUND.**  Every reference either writer emits points
    back at a DATA frame of the same block, as long as no two blocks share both
    hashes; the table answers with the first entry that went in; a reference
    is read back as it was written; and where the archive asks for
    authenticated references, none is accepted that was not sealed. -/
theorem deduplication_sound (P : Primitives) (C : Codecs) (opts : WriterOptions)
    (env : WriterEnv) :
    (opts.dedup = true → ∀ (pool : Bool) (workers : Pool CompressJob (Result Written)) inputs a,
      Returns workers (compressFiles P C opts env pool inputs) (.ok a) →
      NoCollision env (fileBlocks opts inputs) →
      ReferencesSound P (fileData C opts env) (fileBlocks opts inputs) a) ∧
    (∀ source a, diskBackup P C opts env source = .ok a →
      NoCollision env (imageBlocks opts source) →
      ReferencesSound P (diskData C opts env) (imageBlocks opts source) a) ∧
    (∀ es fingerprint digest, (insertAll es).1.lookup fingerprint digest
      = (insertAll es).2.find? fun e => decide (Matches fingerprint digest e)) ∧
    (∀ (kr : Keyring) (nonce : Nonce) (refOffset : UInt64) (size : UInt32)
      (checksum seq refSeq current : UInt64),
      (kr.active = true → dedupReadRef P (wireBlock P (some kr)
        (refFrame true refOffset size checksum seq refSeq, nonce)
        (wireSize_refFrame (some kr) refOffset size checksum seq refSeq)) kr true seq
          = .ok (refOffset, refSeq)) ∧
      dedupReadRef P (wireBlock P none (refFrame false refOffset size checksum seq refSeq, nonce)
        (wireSize_refFrame none refOffset size checksum seq refSeq)) kr false current
          = .ok (refOffset, 0)) ∧
    (∀ (src : Source) (i b cur : Nat) (blk : Block) (out : Bytes),
      hasFlag src.globalFlags flagAuthDedupRefs = true →
      referencedData P C src i b cur blk = .ok out →
      isEncrypted blk.blockFlags = true ∧ src.keyring.active = true ∧
        ∃ refOffset refSeq, decryptFrame P src.keyring blk
          (archiveDataAadSeq src.globalFlags i b) = some (referenceBytes refOffset refSeq)) := by
  refine ⟨fun hdedup pool workers inputs a => compressFiles_references hdedup,
    fun source a => diskBackup_references, lookup_insertAll, ?_, ?_⟩
  · intro kr nonce refOffset size checksum seq refSeq current
    exact ⟨fun hactive => readRef_sealed hactive nonce refOffset size checksum seq refSeq,
      readRef_plain kr nonce refOffset size checksum seq refSeq current⟩
  · intro src i b cur blk out hauth hout
    rw [referencedData, hauth, if_pos rfl] at hout
    cases hread : dedupReadRef P blk src.keyring true (archiveDataAadSeq src.globalFlags i b) with
    | error err =>
        rw [hread] at hout
        cases hout
    | ok r =>
        obtain ⟨refOffset, refSeq⟩ := r
        obtain ⟨-, -, henc, hactive, hdec⟩ := readRef_required_iff.mp hread
        exact ⟨henc, hactive, refOffset, refSeq, hdec⟩

end Zupt.Dedup
