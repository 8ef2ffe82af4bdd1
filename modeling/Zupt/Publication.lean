import Zupt.ExtractPool
import Zupt.Authentication
import Zupt.Layout
import Zupt.SlotPool.Schedule

/-! # Publication and quota

    What an extraction publishes, in every interleaving: the whole entry, of
    exactly the indexed size and hash, from frames that passed their checks.
    What it writes, published or not, stays within the indexed sizes, and
    with them within the quota.

    `Outputs` follows the loops over the entries: every entry has at most one
    output, and each is as the entry allows. -/

namespace Zupt.Extract

open Zupt.Stream Zupt.Seal Zupt.Frame Zupt.Transform Zupt.Decode Zupt.Index Zupt.Open
open Zupt.Paths Zupt.SlotPool Zupt.Trailer Zupt.Layout Zupt.Authentication

variable (P : Primitives) (C : Codecs)

/-- The keyring `zpar_create` is given. -/
def workerKeyring (globalFlags : UInt32) (kr : Keyring) : Option Keyring :=
  if hasFlag globalFlags flagEncrypted then some kr else none

/-- The keyring of the workers of an extraction: they are started once the
    archive is open. -/
def readerKeyring (opts : ReaderOptions) (bytes : Bytes) : Option Keyring :=
  match ((openArchive P C opts).run bytes 0).1 with
  | .ok o => workerKeyring o.hdr.globalFlags o.keyring
  | .error _ => none

/-- The pool of an extraction. -/
def readerPool (opts : ReaderOptions) (started : Nat → Prop) (bytes : Bytes) :
    Pool DecodeJob (Result Bytes) :=
  decodePool P C opts.threads started (readerKeyring P C opts bytes)

/-! ## Frames behind an output -/

/-- The keyrings a DATA frame is opened with: that of the archive, or none
    where the archive is not encrypted. -/
def OpensWith (globalFlags : UInt32) (kr : Keyring) (k : Option Keyring) : Prop :=
  k = some kr ∨ (k = none ∧ hasFlag globalFlags flagEncrypted = false)

theorem opensWith_worker (globalFlags : UInt32) (kr : Keyring) :
    OpensWith globalFlags kr (workerKeyring globalFlags kr) := by
  rw [workerKeyring]
  cases henc : hasFlag globalFlags flagEncrypted with
  | true => exact Or.inl rfl
  | false => exact Or.inr ⟨rfl, henc⟩

/-- Block `b` of entry `i`, whose frames start at `start`, is this chunk: a
    DATA frame that passed its authentication and its checksum at its own
    sequence, or a reference to an earlier DATA frame that did. -/
inductive FrameVerified (src : Source) (i start b : Nat) (chunk : Bytes) : Prop where
  | data {pos next blk k} (hframe : FrameAt src.bytes start b pos)
      (hread : readBlock.run src.bytes pos = (.ok blk, next)) (htype : blk.blockType = blockData)
      (hkey : OpensWith src.globalFlags src.keyring k)
      (hverified : Verified P blk k (archiveDataAadSeq src.globalFlags i b) chunk)
  | ref {pos next blk off sealedSeq refBlk fin seq} (hframe : FrameAt src.bytes start b pos)
      (hread : readBlock.run src.bytes pos = (.ok blk, next))
      (htype : blk.blockType = blockDedupRef)
      (href : dedupReadRef P blk src.keyring (hasFlag src.globalFlags flagAuthDedupRefs)
        (if hasFlag src.globalFlags flagAuthDedupRefs then
          archiveDataAadSeq src.globalFlags i b else 0) = .ok (off, sealedSeq))
      (hbefore : off.toNat < next)
      (hreadRef : readBlock.run src.bytes off.toNat = (.ok refBlk, fin))
      (hrefType : refBlk.blockType = blockData)
      (hsize : refBlk.uncompressedSize = blk.uncompressedSize)
      (hchecksum : refBlk.checksum = blk.checksum)
      (hverified : Verified P refBlk (some src.keyring) seq chunk)

/-- The contents of a published entry of an archive that is not solid. -/
structure PublishedEntry (src : Source) (i : Nat) (e : IndexEntry) (data : Bytes) : Prop where
  safe : pathIsSafe e.path.bytes = true
  size : data.length = e.uncompressedSize.toNat
  frames : ∃ start chunks, data = chunks.flatten ∧ chunks.length = e.blockCount.toNat ∧
    (∀ b chunk, chunks[b]? = some chunk → FrameVerified P src i start b chunk) ∧
    (requireContentHash src.globalFlags = true → chainedHash chunks = e.contentHash)

/-- What `referencedData` lets through. -/
theorem referencedData_ok {src : Source} {i b next : Nat} {blk : Block} {out : Bytes}
    (h : referencedData P C src i b next blk = .ok out) :
    ∃ off sealedSeq refBlk fin seq,
      dedupReadRef P blk src.keyring (hasFlag src.globalFlags flagAuthDedupRefs)
        (if hasFlag src.globalFlags flagAuthDedupRefs then
          archiveDataAadSeq src.globalFlags i b else 0) = .ok (off, sealedSeq) ∧
      off.toNat < next ∧ readBlock.run src.bytes off.toNat = (.ok refBlk, fin) ∧
      refBlk.blockType = blockData ∧ refBlk.uncompressedSize = blk.uncompressedSize ∧
      refBlk.checksum = blk.checksum ∧
      decompressBlock P C refBlk (some src.keyring) seq = .ok out := by
  rw [referencedData] at h
  cases href : dedupReadRef P blk src.keyring (hasFlag src.globalFlags flagAuthDedupRefs)
      (if hasFlag src.globalFlags flagAuthDedupRefs then
        archiveDataAadSeq src.globalFlags i b else 0) with
  | error err =>
      simp only [href] at h
      exact nomatch h
  | ok r =>
      obtain ⟨off, sealedSeq⟩ := r
      simp only [href] at h
      split at h
      · exact nomatch h
      · rename_i seq hseq
        split at h
        · exact nomatch h
        · rename_i hoff
          cases hread : readBlock.run src.bytes off.toNat with
          | mk res fin =>
              rw [hread] at h
              cases res with
              | error err => exact nomatch h
              | ok refBlk =>
                  simp only at h
                  split at h
                  · exact nomatch h
                  · rename_i hrej
                    simp only [not_or, not_not] at hrej
                    exact ⟨off, sealedSeq, refBlk, fin, seq, rfl, by
                      have := (not_or.mp hoff).1
                      omega, hread, hrej.1, hrej.2.1, hrej.2.2, h⟩

/-- **ACCEPTED FRAMES ARE VERIFIED**, one behind the other. -/
theorem Accepted.verified {dec : Block → UInt64 → Result Bytes} {src : Source}
    {k : Option Keyring} (hkey : OpensWith src.globalFlags src.keyring k)
    (hdec : ∀ blk seq out, dec blk seq = .ok out → Verified P blk k seq out)
    {i start b pos fin : Nat} {chunks : List Bytes}
    (h : Accepted P C dec src i b pos chunks fin) (hframe : FrameAt src.bytes start b pos) :
    ∀ j chunk, chunks[j]? = some chunk → FrameVerified P src i start (b + j) chunk := by
  induction h with
  | done => exact fun _ _ hj => nomatch hj
  | data hread htype hok hrest ih =>
      intro j chunk hj
      cases j with
      | zero =>
          obtain rfl := Option.some.inj hj
          exact .data hframe hread htype hkey (hdec _ _ _ hok)
      | succ j =>
          have hnext := ih (hframe.succ hread) j chunk hj
          rw [Nat.add_right_comm] at hnext
          exact hnext
  | ref hread htype hok hrest ih =>
      intro j chunk hj
      cases j with
      | zero =>
          obtain rfl := Option.some.inj hj
          obtain ⟨off, sealedSeq, refBlk, fin, seq, href, hoff, hreadRef, hrefType, hsize, hck,
            hdata⟩ := referencedData_ok P C hok
          exact .ref hframe hread htype href hoff hreadRef hrefType hsize hck
            (verified_of_decompressBlock P C hdata)
      | succ j =>
          have hnext := ih (hframe.succ hread) j chunk hj
          rw [Nat.add_right_comm] at hnext
          exact hnext

/-- An entry whose loop ended well, with the indexed size and hash. -/
theorem publishedEntry_of_loop {dec : Block → UInt64 → Result Bytes} {src : Source}
    {k : Option Keyring} (hkey : OpensWith src.globalFlags src.keyring k)
    (hdec : ∀ blk seq out, dec blk seq = .ok out → Verified P blk k seq out)
    {env : OutputEnv} {i start : Nat} {e : IndexEntry} {st : FileState}
    (hsafe : pathIsSafe e.path.bytes = true) (hsound : st.progress.Sound e.uncompressedSize)
    (hst : st = blockLoop P C dec src env i e e.blockCount.toNat 0 ⟨start, .start, false⟩)
    (hgood : entryBad src.globalFlags e st = false) :
    PublishedEntry P src i e st.progress.data := by
  obtain ⟨hok, hcmp⟩ := Bool.or_eq_false_iff.mp hgood
  obtain ⟨hsize, hhash⟩ := Bool.or_eq_false_iff.mp hcmp
  have hextracted := not_not.mp (of_decide_eq_false hsize)
  have hstart : (FileState.progress ⟨start, .start, false⟩) = Progress.after [] := rfl
  obtain ⟨chunks, hacc, hlen, hprog⟩ := blockLoop_accepted hstart (hst ▸ hok)
  rw [← hst, List.nil_append] at hprog
  refine ⟨hsafe, ?_, start, chunks, by rw [hprog]; rfl, hlen, ?_, ?_⟩
  · rw [hsound.length_data, hextracted]
  · intro b chunk hb
    have hver := hacc.verified P C hkey hdec .zero b chunk hb
    rwa [Nat.zero_add] at hver
  · intro hreq
    rw [hreq, Bool.true_and] at hhash
    have hck := not_not.mp (of_decide_eq_false hhash)
    rw [hprog] at hck
    exact hck

/-! ## What a run writes -/

/-- The entry an event is about. -/
def OutputEvent.index : OutputEvent → Nat
  | .wrote i _ => i
  | .finished out => out.index

/-- What its output holds then. -/
def OutputEvent.data : OutputEvent → Bytes
  | .wrote _ data => data
  | .finished out => out.data

/-- The bytes written to the output of entry `i` so far. -/
def bytesWritten (log : List OutputEvent) (i : Nat) : Nat :=
  log.foldl (fun n ev => if ev.index = i then ev.data.length else n) 0

/-- An event is about an entry of the index and within its size; if it
    publishes an output then `published` holds of that. -/
structure EventOk (entries : List IndexEntry) (published : Nat → IndexEntry → Bytes → Prop)
    (ev : OutputEvent) : Prop where
  within : ∃ e, entries[ev.index]? = some e ∧ ev.data.length ≤ e.uncompressedSize.toNat
  published : ∀ out, ev = .finished out → out.published = true →
    ∃ e, entries[out.index]? = some e ∧ published out.index e out.data

/-- The indexed size of entry `i`, if there is one. -/
def roomOf (entries : List IndexEntry) (i : Nat) : Nat :=
  match entries[i]? with
  | some e => e.uncompressedSize.toNat
  | none => 0

theorem sum_roomOf_le (entries : List IndexEntry) (n : Nat) :
    ((List.range n).map (roomOf entries)).sum ≤ indexedSize entries := by
  induction entries generalizing n with
  | nil =>
      have hzero : (List.range n).map (roomOf []) = (List.range n).map fun _ => 0 := rfl
      rw [hzero, List.map_const', List.sum_replicate]
      exact Nat.le_of_eq (Nat.mul_zero _)
  | cons e es ih =>
      cases n with
      | zero => exact Nat.zero_le _
      | succ n =>
          rw [List.range_succ_eq_map, List.map_cons, List.map_map, List.sum_cons, indexedSize,
            List.map_cons, List.sum_cons]
          exact Nat.add_le_add_left (ih n) _

theorem bytesWritten_le {entries : List IndexEntry} {log : List OutputEvent}
    (h : ∀ ev ∈ log, ∃ e, entries[ev.index]? = some e ∧
      ev.data.length ≤ e.uncompressedSize.toNat) (i : Nat) :
    bytesWritten log i ≤ roomOf entries i := by
  rw [bytesWritten]
  have hstart : 0 ≤ roomOf entries i := Nat.zero_le _
  revert hstart
  generalize 0 = n
  induction log generalizing n with
  | nil => exact id
  | cons ev log ih =>
      intro hn
      refine ih (fun ev' hmem => h ev' (List.mem_cons_of_mem _ hmem)) _ ?_
      show (if ev.index = i then ev.data.length else n) ≤ _
      by_cases hi : ev.index = i
      · obtain ⟨e, hget, hlen⟩ := h ev List.mem_cons_self
        rw [if_pos hi, roomOf, ← hi, hget]
        exact hlen
      · rw [if_neg hi]
        exact hn

/-- **TOGETHER** the outputs have at most the indexed bytes. -/
theorem sum_bytesWritten_le {entries : List IndexEntry} {log : List OutputEvent}
    (h : ∀ ev ∈ log, ∃ e, entries[ev.index]? = some e ∧
      ev.data.length ≤ e.uncompressedSize.toNat) (n : Nat) :
    ((List.range n).map (bytesWritten log)).sum ≤ indexedSize entries :=
  (List.sum_le_sum fun i _ => bytesWritten_le h i).trans (sum_roomOf_le entries n)

variable {P C}

/-- How an entry comes out of either path. -/
structure EntryOutcome (P : Primitives) (C : Codecs) (src : Source) (env : OutputEnv) (i : Nat)
    (e : IndexEntry) (start : Nat) (st : FileState) : Prop where
  sound : st.progress.Sound e.uncompressedSize
  loop : st.berr = false → ∃ dec k, OpensWith src.globalFlags src.keyring k ∧
    (∀ blk seq out, dec blk seq = .ok out → Verified P blk k seq out) ∧
    st = blockLoop P C dec src env i e e.blockCount.toNat 0 ⟨start, .start, false⟩

/-- An entry that has not started, in front of the pool. -/
theorem MtState.start {kr : Option Keyring} {src : Source} {env : OutputEnv} {i : Nat}
    {e : IndexEntry} (start : Nat) (σ : Track DecodeJob) :
    MtState P C kr src env i e start σ.mayFail
      (blockLoop P C (workerDec P C kr) src env i e e.blockCount.toNat 0 ⟨start, .start, false⟩)
      e.blockCount.toNat 0 [] [] ⟨start, .start, false⟩ σ where
  holds := .nil σ
  sound := Progress.sound_start _
  frame := .zero
  count := Nat.zero_add _
  track := fun _ => .refl _
  bad := fun hbad => nomatch hbad
  mayFail := Or.inl

section Run

variable {threads : Nat} {started : Nat → Prop} {src : Source} {env : OutputEnv}
  {E : OutputEvent → Prop}

/-- **ONE ENTRY**, on either path and in every interleaving. -/
theorem extractBlocks_spec (mt : Bool) {i : Nat} {e : IndexEntry} (hE : AllowsWrites E i e)
    (start : Nat) (σ : Track DecodeJob) :
    wlp (decodePool P C threads started (workerKeyring src.globalFlags src.keyring)) E σ
      (extractBlocks P C src env mt threads i e ⟨start, .start, false⟩)
      fun _ st => EntryOutcome P C src env i e start st := by
  rw [extractBlocks]
  split
  · refine (mtLoop_spec hE (MtState.start start σ)).mono ?_
    intro σ' st h
    exact ⟨h.sound, fun hok => ⟨_, _, opensWith_worker _ _,
      fun blk seq out hdec => verified_of_workerDecompress P C hdec, h.eq_of_ok hok⟩⟩
  · have hsound : (serialLoop P C src env i e e.blockCount.toNat 0
        ⟨start, .start, false⟩).progress.Sound e.uncompressedSize :=
      blockLoop_sound _ _ (Progress.sound_start _)
    exact ⟨hE.of_sound hsound, hsound, fun _ => ⟨_, _, Or.inl rfl,
      fun blk seq out hdec => verified_of_decompressBlock P C hdec, rfl⟩⟩

/-- The output of an entry that was decoded. -/
theorem entryOutput_ok {entries : List IndexEntry} {i : Nat} {e : IndexEntry} {start : Nat}
    {st : FileState} (hget : entries[i]? = some e) (hsafe : pathIsSafe e.path.bytes = true)
    (h : EntryOutcome P C src env i e start st) :
    EventOk entries (PublishedEntry P src)
      (.finished (entryOutput src.globalFlags env i e st).2) := by
  have hwithin : st.progress.data.length ≤ e.uncompressedSize.toNat :=
    h.sound.length_data ▸ h.sound.le_size
  rw [entryOutput]
  cases hbad : entryBad src.globalFlags e st with
  | true =>
      refine ⟨⟨e, hget, hwithin⟩, ?_⟩
      rintro out hout hpub
      obtain rfl := OutputEvent.finished.inj hout
      exact nomatch hpub
  | false =>
      refine ⟨⟨e, hget, hwithin⟩, ?_⟩
      rintro out hout -
      obtain rfl := OutputEvent.finished.inj hout
      obtain ⟨dec, k, hkey, hdec, hst⟩ := h.loop (Bool.or_eq_false_iff.mp hbad).1
      exact ⟨e, hget, publishedEntry_of_loop P C hkey hdec hsafe h.sound hst hbad⟩

/-- **ALL ENTRIES**, on either path and in every interleaving. -/
theorem extractEntries_spec (mt : Bool) (entries es : List IndexEntry) :
    ∀ (i : Nat) (run : RunState) (σ : Track DecodeJob), (∀ j, es[j]? = entries[i + j]?) →
      wlp (decodePool P C threads started (workerKeyring src.globalFlags src.keyring))
        (EventOk entries (PublishedEntry P src)) σ
        (extractEntries P C src env mt threads i es run) fun _ _ => True := by
  induction es with
  | nil => exact fun i run σ _ => trivial
  | cons e es ih =>
      intro i run σ hes
      have hget : entries[i]? = some e := (hes 0).symm
      have hrest : ∀ j, es[j]? = entries[i + 1 + j]? := fun j => by
        rw [Nat.add_right_comm]
        exact hes (j + 1)
      rw [extractEntries]
      by_cases hskip : (!pathIsSafe e.path.bytes || !env.canOpen i) = true
      · rw [if_pos hskip]
        exact ih (i + 1) _ σ hrest
      · rw [if_neg hskip]
        have hsafe : pathIsSafe e.path.bytes = true := by
          have h := (Bool.or_eq_false_iff.mp (eq_false_of_ne_true hskip)).1
          simpa using h
        have hE : AllowsWrites (EventOk entries (PublishedEntry P src)) i e :=
          fun data hlen => ⟨⟨e, hget, hlen⟩, fun _ hout => nomatch hout⟩
        refine wlp.bind ((extractBlocks_spec mt hE _ σ).mono ?_)
        intro σ' st hst
        exact ⟨entryOutput_ok hget hsafe hst, ih (i + 1) _ σ' hrest⟩

end Run

/-! ## Solid archives -/

/-- Block `k` of the solid stream is this chunk: a DATA frame that passed its
    authentication and its checksum. -/
def SolidFrameVerified (P : Primitives) (bytes : Bytes) (kr : Keyring) (start k : Nat)
    (chunk : Bytes) : Prop :=
  ∃ pos next blk, FrameAt bytes start k pos ∧ readBlock.run bytes pos = (.ok blk, next) ∧
    blk.blockType = blockData ∧
    Verified P blk (some kr) (((1 : UInt64) <<< 32) ||| UInt64.ofNat k) chunk

/-- The contents of a published entry of a solid archive. -/
structure PublishedSolid (P : Primitives) (bytes : Bytes) (kr : Keyring) (e : IndexEntry)
    (data : Bytes) : Prop where
  safe : pathIsSafe e.path.bytes = true
  size : data.length = e.uncompressedSize.toNat
  slice : ∃ (start : Nat) (chunks : List Bytes),
    (∀ k chunk, chunks[k]? = some chunk → SolidFrameVerified P bytes kr start k chunk) ∧
    data = (chunks.flatten.drop e.firstBlockOffset.toNat).take e.uncompressedSize.toNat
  hash : (if data.length > 0 then xxh64 data 0 else 0) = e.contentHash

/-- **THE SOLID STREAM** consists of verified frames. -/
theorem solidLoop_some {bytes : Bytes} {kr : Keyring} {dataEnd totalSize start turns pos : Nat}
    {chunks : List Bytes} {stream : Bytes} {blocks : Nat}
    (h : solidLoop P C bytes kr dataEnd totalSize turns pos chunks.length chunks.flatten
      = some (stream, blocks))
    (hframe : FrameAt bytes start chunks.length pos)
    (hver : ∀ k chunk, chunks[k]? = some chunk → SolidFrameVerified P bytes kr start k chunk) :
    ∃ chunks' : List Bytes, stream = chunks'.flatten ∧
      ∀ k chunk, chunks'[k]? = some chunk → SolidFrameVerified P bytes kr start k chunk := by
  induction turns generalizing pos chunks with
  | zero => exact nomatch h
  | succ turns ih =>
      rw [solidLoop] at h
      split at h
      · obtain ⟨rfl, -⟩ := Prod.mk.inj (Option.some.inj h)
        exact ⟨chunks, rfl, hver⟩
      · split at h
        · exact nomatch h
        · cases hread : readBlock.run bytes pos with
          | mk res next =>
              rw [hread] at h
              cases res with
              | error err => exact nomatch h
              | ok blk =>
                  simp only at h
                  split at h
                  · exact nomatch h
                  · rename_i htype
                    cases hdec : decompressBlock P C blk (some kr)
                        (((1 : UInt64) <<< 32) ||| UInt64.ofNat chunks.length) with
                    | error err =>
                        rw [hdec] at h
                        exact nomatch h
                    | ok dec =>
                        rw [hdec] at h
                        simp only at h
                        split at h
                        · exact nomatch h
                        · have hflat : chunks.flatten ++ dec = (chunks ++ [dec]).flatten := by
                            rw [List.flatten_append, List.flatten_singleton]
                          have hlen : chunks.length + 1 = (chunks ++ [dec]).length := by
                            rw [List.length_append, List.length_singleton]
                          rw [hflat, hlen] at h
                          refine ih h (hlen ▸ hframe.succ hread) ?_
                          intro k chunk hk
                          rcases Nat.lt_trichotomy k chunks.length with hlt | rfl | hgt
                          · rw [List.getElem?_append_left hlt] at hk
                            exact hver k chunk hk
                          · rw [List.getElem?_concat_length] at hk
                            obtain rfl := Option.some.inj hk
                            exact ⟨pos, next, blk, hframe, hread, not_not.mp htype,
                              verified_of_decompressBlock P C hdec⟩
                          · rw [List.getElem?_eq_none (by rw [← hlen]; omega)] at hk
                            exact nomatch hk

/-- The output of an entry of a solid archive, if it has one. -/
theorem solidOutput_ok {bytes : Bytes} {kr : Keyring} {env : OutputEnv} {start : Nat}
    {chunks : List Bytes}
    (hver : ∀ k chunk, chunks[k]? = some chunk → SolidFrameVerified P bytes kr start k chunk)
    {entries : List IndexEntry} {i : Nat} {e : IndexEntry} (hget : entries[i]? = some e)
    {finish : Finish} {out : OutputFile}
    (h : solidOutput env chunks.flatten i e = some (finish, out)) :
    EventOk entries (fun _ => PublishedSolid P bytes kr) (.finished out) := by
  rw [solidOutput] at h
  by_cases hsafe : (!pathIsSafe e.path.bytes) = true
  · rw [if_pos hsafe] at h
    exact nomatch h
  rw [if_neg hsafe] at h
  by_cases hbounds : e.firstBlockOffset.toNat > chunks.flatten.length ∨
      e.uncompressedSize.toNat > chunks.flatten.length - e.firstBlockOffset.toNat
  · rw [if_pos hbounds] at h
    exact nomatch h
  rw [if_neg hbounds] at h
  have hlen : ((chunks.flatten.drop e.firstBlockOffset.toNat).take
      e.uncompressedSize.toNat).length = e.uncompressedSize.toNat := by
    rw [List.length_take, List.length_drop]
    omega
  by_cases hhash : (if e.uncompressedSize.toNat > 0 then
      xxh64 ((chunks.flatten.drop e.firstBlockOffset.toNat).take e.uncompressedSize.toNat) 0
      else 0) ≠ e.contentHash
  · rw [if_pos hhash] at h
    exact nomatch h
  rw [if_neg hhash] at h
  by_cases hopen : (!env.canOpen i) = true
  · rw [if_pos hopen] at h
    exact nomatch h
  rw [if_neg hopen] at h
  by_cases hwrite : e.uncompressedSize.toNat > 0 ∧ ¬ env.writeOk i 0
      ((chunks.flatten.drop e.firstBlockOffset.toNat).take e.uncompressedSize.toNat) = true
  · rw [if_pos hwrite] at h
    obtain ⟨-, rfl⟩ := Prod.mk.inj (Option.some.inj h)
    refine ⟨⟨e, hget, Nat.zero_le _⟩, ?_⟩
    rintro out hout hpub
    obtain rfl := OutputEvent.finished.inj hout
    exact nomatch hpub
  · rw [if_neg hwrite] at h
    obtain ⟨-, rfl⟩ := Prod.mk.inj (Option.some.inj h)
    refine ⟨⟨e, hget, hlen.le⟩, ?_⟩
    rintro out hout -
    obtain rfl := OutputEvent.finished.inj hout
    refine ⟨e, hget, by simpa using hsafe, hlen, ⟨start, chunks, hver, rfl⟩, ?_⟩
    rw [hlen]
    exact not_not.mp hhash

theorem solidEntries_spec {pool : Pool DecodeJob (Result Bytes)} {bytes : Bytes} {kr : Keyring}
    {env : OutputEnv} {start : Nat} {chunks : List Bytes}
    (hver : ∀ k chunk, chunks[k]? = some chunk → SolidFrameVerified P bytes kr start k chunk)
    (entries es : List IndexEntry) :
    ∀ (i : Nat) (run : RunState) (σ : Track DecodeJob), (∀ j, es[j]? = entries[i + j]?) →
      wlp pool (EventOk entries fun _ => PublishedSolid P bytes kr) σ
        (solidEntries env chunks.flatten i es run) fun _ _ => True := by
  induction es with
  | nil => exact fun i run σ _ => trivial
  | cons e es ih =>
      intro i run σ hes
      have hget : entries[i]? = some e := (hes 0).symm
      have hrest : ∀ j, es[j]? = entries[i + 1 + j]? := fun j => by
        rw [Nat.add_right_comm]
        exact hes (j + 1)
      rw [solidEntries]
      cases hout : solidOutput env chunks.flatten i e with
      | none => exact ih (i + 1) _ σ hrest
      | some r => exact ⟨solidOutput_ok hver hget hout, ih (i + 1) _ σ hrest⟩

/-- **A SOLID EXTRACTION** publishes slices of a verified stream. -/
theorem extractSolid_spec {pool : Pool DecodeJob (Result Bytes)} (o : Opened) (env : OutputEnv)
    (bytes : Bytes) (σ : Track DecodeJob) :
    wlp pool (EventOk o.entries fun _ => PublishedSolid P bytes o.keyring) σ
      (extractSolid P C o env bytes) fun _ _ => True := by
  rw [extractSolid]
  generalize (if o.hdr.commentOffset ≠ 0 then o.hdr.commentOffset.toNat
    else o.footer.indexOffset.toNat) = dataEnd
  generalize (if o.hdr.commentOffset ≠ 0 then 2 else 1) = metadataBlocks
  by_cases hlarge : indexedSize o.entries > 4 * 1024 * 1024 * 1024
  · rw [if_pos hlarge]
    trivial
  rw [if_neg hlarge]
  cases solidStart o.hdr.globalFlags bytes with
  | error err => trivial
  | ok start =>
      dsimp only
      cases hloop : solidLoop P C bytes o.keyring dataEnd (indexedSize o.entries)
          (bytes.length + 1) start 0 [] with
      | none => trivial
      | some r =>
          obtain ⟨stream, blocks⟩ := r
          dsimp only
          split
          · trivial
          · obtain ⟨chunks, rfl, hver⟩ := @solidLoop_some P C bytes _ _ _ start _ _ [] _ _ hloop
              .zero (fun _ _ hk => nomatch hk)
            refine wlp.bind ((solidEntries_spec hver o.entries o.entries 0 ⟨dataEnd, 0, []⟩ σ
              ?_).mono fun _ _ _ => trivial)
            exact fun j => by rw [Nat.zero_add]

/-! ## The whole extraction -/

/-- What an archive allows a published output to be. -/
def Published (P : Primitives) (bytes : Bytes) (o : Opened) (i : Nat) (e : IndexEntry)
    (data : Bytes) : Prop :=
  if hasFlag o.hdr.globalFlags flagSolid then PublishedSolid P bytes o.keyring e data
  else ∃ map, PublishedEntry P ⟨bytes, o.hdr.globalFlags, o.keyring, map⟩ i e data

theorem EventOk.mono {entries : List IndexEntry} {published published' : Nat → IndexEntry →
    Bytes → Prop} (h : ∀ i e data, published i e data → published' i e data) {ev : OutputEvent}
    (hev : EventOk entries published ev) : EventOk entries published' ev := by
  refine ⟨hev.within, fun out hout hpub => ?_⟩
  obtain ⟨e, hget, hdata⟩ := hev.published out hout hpub
  exact ⟨e, hget, h _ _ _ hdata⟩

/-- What the extraction of an open archive does, in every interleaving:
    nothing at all, or within the quota what `Published` allows. -/
theorem extractOpened_spec {started : Nat → Prop} (opts : ReaderOptions) (env : OutputEnv)
    (pool : Bool) (bytes : Bytes) (o : Opened) (pos : Nat) (σ : Track DecodeJob) :
    wlp (decodePool P C opts.threads started (workerKeyring o.hdr.globalFlags o.keyring))
      (fun ev => quotaExceeded opts.maxOutputSize o.entries = false ∧
        EventOk o.entries (Published P bytes o) ev) σ
      (extractOpened P C opts env pool bytes o pos) fun _ _ => True := by
  rw [extractOpened]
  cases hquota : quotaExceeded opts.maxOutputSize o.entries with
  | true => trivial
  | false =>
      rw [if_neg (by decide)]
      by_cases hsolid : hasFlag o.hdr.globalFlags flagSolid = true
      · rw [if_pos hsolid]
        refine (extractSolid_spec o env bytes σ).allow fun ev hev => ⟨rfl, hev.mono ?_⟩
        intro i e data hdata
        rw [Published, if_pos hsolid]
        exact hdata
      · rw [if_neg hsolid]
        cases legacyMap o bytes with
        | error err => trivial
        | ok map =>
            have hspec := @extractEntries_spec P C opts.threads started
              ⟨bytes, o.hdr.globalFlags, o.keyring, map⟩ env (pool && decide (1 < opts.threads))
              o.entries o.entries 0 ⟨pos, 0, []⟩ σ (fun j => by rw [Nat.zero_add])
            refine wlp.bind ((hspec.allow fun ev hev => ⟨rfl, hev.mono ?_⟩).mono
              fun _ _ _ => trivial)
            intro i e data hdata
            rw [Published, if_neg hsolid]
            exact ⟨map, hdata⟩

/-- What a run has done to the output directory: every published output is an
    entry of the index, whole and verified, and the bytes written so far to
    any number of outputs together do not exceed the quota. -/
structure OutputsVerified (P : Primitives) (C : Codecs) (opts : ReaderOptions) (bytes : Bytes)
    (log : List OutputEvent) : Prop where
  published : ∀ out, .finished out ∈ log → out.published = true →
    ∃ o pos e, (openArchive P C opts).run bytes 0 = (.ok o, pos) ∧
      o.entries[out.index]? = some e ∧ Published P bytes o out.index e out.data
  quota : opts.maxOutputSize ≠ 0 → ∀ n,
    ((List.range n).map (bytesWritten log)).sum ≤ opts.maxOutputSize.toNat

theorem outputsVerified_nil (opts : ReaderOptions) (bytes : Bytes) {log : List OutputEvent}
    (hnil : log = []) : OutputsVerified P C opts bytes log := by
  subst hnil
  refine ⟨fun _ hmem => (nomatch hmem), fun _ n => ?_⟩
  exact (@sum_bytesWritten_le [] [] (fun _ hmem => absurd hmem List.not_mem_nil) n).trans
    (Nat.zero_le _)

/-- A DATA frame that stores this chunk. -/
def storedFrame (chunk : Bytes) : WrittenFrame where
  blockType := blockData
  codecId := codecStore
  uncompressedSize := UInt64.ofNat chunk.length
  checksum := xxh64 chunk 0
  plain := chunk
  blockSeq := 0

/-- An entry of these chunks, under a name of one byte. -/
def smallEntry (name : UInt8) (hname : (0 : UInt8) ∉ [name]) (offset : UInt64)
    (chunks : List Bytes) : IndexEntry where
  path := ⟨[name], hname⟩
  uncompressedSize := UInt64.ofNat chunks.flatten.length
  compressedSize := UInt64.ofNat chunks.flatten.length
  modificationTime := 0
  contentHash := chainedHash chunks
  firstBlockOffset := offset
  blockCount := UInt32.ofNat chunks.length
  attributes := 0

/-- A plaintext archive of these frames. -/
def smallParts (frames : List WrittenFrame) (entries : List IndexEntry) : Parts where
  baseHeader := plainHeader
  keyring := none
  envelope := none
  frames := frames.map fun w => (w, ⟨toyNonce, toyNonce_length⟩)
  comment := none
  index := (indexFrame storeOnly id 0 entries, ⟨toyNonce, toyNonce_length⟩)

/-- Its bytes. -/
def smallArchive (frames : List WrittenFrame) (entries : List IndexEntry) : Bytes :=
  (smallParts frames entries).bytes toyPrimitives
    ⟨UInt64.ofNat ((smallParts frames entries).indexPos toyPrimitives), 0, 0⟩

theorem nul_notMem_a : (0 : UInt8) ∉ [0x61] := by decide

theorem nul_notMem_b : (0 : UInt8) ∉ [0x62] := by decide

/-- Two files of two blocks each. -/
def twoFiles : List IndexEntry :=
  [smallEntry 0x61 nul_notMem_a 64 [[1], [2]], smallEntry 0x62 nul_notMem_b 100 [[3], [4]]]

/-- The archive of the two files. -/
def twoFilesArchive : Bytes := smallArchive ([[1], [2], [3], [4]].map storedFrame) twoFiles

/-- A reader without a key, with a quota of four bytes. -/
def smallReader (threads : Nat) : ReaderOptions where
  keyring := { prefaceKeyring with active := false }
  allowLegacyNoAit := false
  threads := threads
  maxOutputSize := 4
  openEnvelope _ := .error .authFail

/-- A file system on which everything succeeds. -/
def faultless : OutputEnv where
  canOpen _ := true
  writeOk _ _ _ := true
  finish _ := .published

/-- The pool of the small reader, all of whose workers were started. -/
def smallPool (threads : Nat) (bytes : Bytes) : Pool DecodeJob (Result Bytes) :=
  readerPool toyPrimitives storeOnly (smallReader threads) (fun _ => True) bytes

/-- The extraction of an archive by the small reader. -/
def smallExtract (threads : Nat) (bytes : Bytes) :
    ReaderProg (Result Unit × List OutputFile) :=
  extractArchive toyPrimitives storeOnly (smallReader threads) faultless true bytes

/-- What it returns if every worker runs to the end at once. -/
def smallRun (threads : Nat) (bytes : Bytes) : Option (Result Unit × List OutputFile) :=
  runEager (smallPool threads bytes).nslots
    (fun job => workerDecompress toyPrimitives storeOnly job.1
      (readerKeyring toyPrimitives storeOnly (smallReader threads) bytes) job.2)
    (smallPool threads bytes).failed (smallPool threads bytes).cancelled false (fun _ => none)
    (smallExtract threads bytes)

theorem returns_of_smallRun {threads : Nat} {bytes : Bytes} {r : Result Unit × List OutputFile}
    (h : smallRun threads bytes = some r) :
    Returns (smallPool threads bytes) (smallExtract threads bytes) r :=
  returns_of_eager (eager_of_runEager (fun _ => trivial) (fun _ => rfl) h)

end Zupt.Extract
