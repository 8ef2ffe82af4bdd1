import Zupt.Index
import Zupt.VarintExact

/-! # The index is read as it was written

    `parse_index` inverts the serialisation of the writers, and accepts nothing but
    such a serialisation: each field has one encoding, and the buffer is used up. -/

namespace Zupt.Index

open Zupt.LittleEndian Zupt.Varint Zupt.Paths Zupt.PrefixOrder

/-! ## Destinations that do not collide -/

/-- Keys are built for all paths where safety is not asked for. -/
theorem buildKeys_any (paths : List CString) :
    buildKeys false paths = .ok (paths.map destinationKey) := by
  induction paths with
  | nil => rfl
  | cons p paths ih =>
      rw [buildKeys, ih]
      rfl

/-- Disjoint destinations are valid. -/
theorem validate_of_disjoint {paths : List CString} (h : DestinationsDisjoint paths) :
    validateArchiveDestinations paths false = .ok () := by
  obtain ⟨hnodup, hno⟩ := h
  rw [validateArchiveDestinations]
  by_cases hlen : paths.length < 2
  · rw [if_pos hlen]
    rfl
  rw [if_neg hlen, buildKeys_any]
  refine if_neg fun hcollide => ?_
  have hperm := sortKeys_perm (paths.map destinationKey)
  rcases (adjacent_clash_iff (sortKeys_sorted (paths.map destinationKey))).mp
    ((neighboursCollide_iff _).mp hcollide) with hdup | ⟨p, hp, ⟨q, hq, hext⟩, -⟩
  · exact hdup (hperm.nodup_iff.mpr hnodup)
  · exact hno p (hperm.mem_iff.mp hp) q (hperm.mem_iff.mp hq) hext

/-! ## The fields behind a path -/

/-- What `encodeEntry` puts behind the path. -/
def encodeFields (e : IndexEntry) : Bytes :=
  le64Put e.uncompressedSize ++ (le64Put e.compressedSize ++ (le64Put e.modificationTime
    ++ (le64Put e.contentHash ++ (le64Put e.firstBlockOffset
    ++ (encodeVarint (UInt64.ofNat e.blockCount.toNat) ++ le32Put e.attributes)))))

theorem encodeEntry_eq (e : IndexEntry) :
    encodeEntry e = encodeVarint (UInt64.ofNat e.path.bytes.length) ++
      (e.path.bytes ++ encodeFields e) := rfl

theorem encodeLoop_pos (turns v : Nat) : 0 < (encodeLoop (turns + 1) v).length := by
  rw [encodeLoop]
  split
  · exact Nat.one_pos
  · exact Nat.succ_pos _

theorem encodeVarint_pos (v : UInt64) : 0 < (encodeVarint v).length := encodeLoop_pos 9 v.toNat

theorem encodeFields_length (e : IndexEntry) : 45 ≤ (encodeFields e).length := by
  have hcount := encodeVarint_pos (UInt64.ofNat e.blockCount.toNat)
  simp only [encodeFields, List.length_append, le64Put_length, le32Put_length]
  omega

/-- A 64-bit field in front of a buffer. -/
theorem le64_field (v : UInt64) (rest : Bytes) :
    le64Get (le64Put v ++ rest) = v ∧ (le64Put v ++ rest).drop 8 = rest :=
  ⟨le64Get_le64Put v rest, List.drop_left' (le64Put_length v)⟩

/-- **THE FIELDS** are read back. -/
theorem parseFields_encodeFields (e : IndexEntry) (rest : Bytes) :
    parseFields e.path (encodeFields e ++ rest) = .ok (e, rest) := by
  have hlen := encodeFields_length e
  have hcount : (UInt64.ofNat e.blockCount.toNat).toNat = e.blockCount.toNat := by
    have hlt := e.blockCount.toNat_lt
    exact UInt64.toNat_ofNat_of_lt' (by show _ < 2 ^ 64; omega)
  rw [parseFields, if_neg (by rw [List.length_append]; omega)]
  simp only [encodeFields, List.append_assoc]
  generalize hb4 : encodeVarint (UInt64.ofNat e.blockCount.toNat) ++ (le32Put e.attributes ++ rest) = b4
  obtain ⟨g0, d0⟩ := le64_field e.uncompressedSize (le64Put e.compressedSize ++
    (le64Put e.modificationTime ++ (le64Put e.contentHash ++ (le64Put e.firstBlockOffset ++ b4))))
  obtain ⟨g1, d1⟩ := le64_field e.compressedSize
    (le64Put e.modificationTime ++ (le64Put e.contentHash ++ (le64Put e.firstBlockOffset ++ b4)))
  obtain ⟨g2, d2⟩ := le64_field e.modificationTime
    (le64Put e.contentHash ++ (le64Put e.firstBlockOffset ++ b4))
  obtain ⟨g3, d3⟩ := le64_field e.contentHash (le64Put e.firstBlockOffset ++ b4)
  obtain ⟨g4, d4⟩ := le64_field e.firstBlockOffset b4
  generalize le64Put e.uncompressedSize ++ _ = b at g0 d0 ⊢
  have d16 : b.drop 16 = le64Put e.modificationTime ++
      (le64Put e.contentHash ++ (le64Put e.firstBlockOffset ++ b4)) := by rw [show 16 = 8 + 8 from rfl, ← List.drop_drop, d0, d1]
  have d24 : b.drop 24 = le64Put e.contentHash ++ (le64Put e.firstBlockOffset ++ b4) := by rw [show 24 = 16 + 8 from rfl, ← List.drop_drop, d16, d2]
  have d32 : b.drop 32 = le64Put e.firstBlockOffset ++ b4 := by rw [show 32 = 24 + 8 from rfl, ← List.drop_drop, d24, d3]
  have d40 : b.drop 40 = b4 := by rw [show 40 = 32 + 8 from rfl, ← List.drop_drop, d32, d4]
  have dattr : b4.drop (encodeVarint (UInt64.ofNat e.blockCount.toNat)).length =
      le32Put e.attributes ++ rest := by
    rw [← hb4, List.drop_left]
  have drest : b4.drop ((encodeVarint (UInt64.ofNat e.blockCount.toNat)).length + 4) = rest := by
    rw [← List.drop_drop, dattr]
    exact List.drop_left' (le32Put_length _)
  rw [d0, d16, d24, d32, d40, g0, g1, g2, g3, g4, ← hb4, decodeVarint_encodeVarint, hb4]
  dsimp only
  rw [dattr, drest, hcount, le32Get_le32Put,
    if_neg (by have hlt := e.blockCount.toNat_lt; omega),
    if_neg (by rw [List.length_append, le32Put_length]; omega), UInt32.ofNat_toNat]

/-- A 64-bit field of a buffer is written as it stands there. -/
theorem split_le64 {b : Bytes} (h : 8 ≤ b.length) : b = le64Put (le64Get b) ++ b.drop 8 := by
  rw [le64Put_le64Get h, List.take_append_drop]

theorem split_le32 {b : Bytes} (h : 4 ≤ b.length) : b = le32Put (le32Get b) ++ b.drop 4 := by
  have hlen : (b.take 4).length = 4 := by
    rw [List.length_take]
    omega
  have hlt := leGet_lt (b.take 4)
  have hput := lePut_leGet (b.take 4)
  rw [hlen] at hlt hput
  rw [le32Put, le32Get, UInt32.toNat_ofNat_of_lt' hlt, hput, List.take_append_drop]

/-- **THE FIELDS** that are accepted are encoded by the bytes they take. -/
theorem parseFields_ok {path : CString} {buf rest : Bytes} {e : IndexEntry}
    (h : parseFields path buf = .ok (e, rest)) :
    e.path = path ∧ buf = encodeFields e ++ rest := by
  rw [parseFields] at h
  split at h
  · cases h
  rename_i hlong
  dsimp only at h
  split at h
  · cases h
  rename_i bc vn hdec
  split at h
  · cases h
  rename_i hsmall
  split at h
  · cases h
  rename_i hattr
  obtain ⟨rfl, rfl⟩ := Prod.mk.inj (Except.ok.inj h)
  refine ⟨rfl, ?_⟩
  have hcount : UInt64.ofNat (UInt32.ofNat bc.toNat).toNat = bc := by
    rw [UInt32.toNat_ofNat_of_lt' (by show _ < 2 ^ 32; omega), UInt64.ofNat_toNat]
  have s0 := split_le64 (show 8 ≤ buf.length by omega)
  have s1 := split_le64 (show 8 ≤ (buf.drop 8).length by rw [List.length_drop]; omega)
  have s2 := split_le64 (show 8 ≤ (buf.drop 16).length by rw [List.length_drop]; omega)
  have s3 := split_le64 (show 8 ≤ (buf.drop 24).length by rw [List.length_drop]; omega)
  have s4 := split_le64 (show 8 ≤ (buf.drop 32).length by rw [List.length_drop]; omega)
  rw [List.drop_drop] at s1 s2 s3 s4
  obtain ⟨s5, -⟩ := eq_of_decodeVarint hdec
  have s6 : (buf.drop 40).drop vn = le32Put (le32Get ((buf.drop 40).drop vn)) ++
      (buf.drop 40).drop (vn + 4) :=
    (split_le32 (Nat.not_lt.mp hattr)).trans (congrArg _ List.drop_drop)
  simp only [encodeFields, List.append_assoc]
  rw [hcount, ← s6, ← s5, ← s4, ← s3, ← s2, ← s1]
  exact s0

/-! ## Entries -/

/-- What the index asks of a path: it is there, short, and safe to print. -/
structure Listed (e : IndexEntry) : Prop where
  nonempty : e.path.bytes ≠ []
  short : e.path.bytes.length < maxPath
  text : pathHasUnsafeText e.path.bytes = false

/-- **AN ENTRY** is read back. -/
theorem parseEntry_encodeEntry {e : IndexEntry} (h : Listed e) (rest : Bytes) :
    parseEntry (encodeEntry e ++ rest) = .ok (e, rest) := by
  have hshort := h.short
  rw [maxPath] at hshort
  have hplen : (UInt64.ofNat e.path.bytes.length).toNat = e.path.bytes.length :=
    UInt64.toNat_ofNat_of_lt' (by show _ < 2 ^ 64; omega)
  have hbuf : encodeEntry e ++ rest = encodeVarint (UInt64.ofNat e.path.bytes.length) ++
      (e.path.bytes ++ (encodeFields e ++ rest)) := by
    simp only [encodeEntry_eq, List.append_assoc]
  generalize hvar : encodeVarint (UInt64.ofNat e.path.bytes.length) = var at hbuf
  have hdec : decodeVarint (encodeEntry e ++ rest) =
      some (UInt64.ofNat e.path.bytes.length, var.length) := by
    rw [hbuf, ← hvar]
    exact decodeVarint_encodeVarint _ _
  have hdrop : (encodeEntry e ++ rest).drop var.length = e.path.bytes ++ (encodeFields e ++ rest) := by
    rw [hbuf, List.drop_left]
  have hbehind : (encodeEntry e ++ rest).drop (var.length + e.path.bytes.length) =
      encodeFields e ++ rest := by
    rw [← List.drop_drop, hdrop, List.drop_left]
  have hroom : ¬ e.path.bytes.length > (encodeEntry e ++ rest).length - var.length := by
    rw [← List.length_drop, hdrop, List.length_append]
    omega
  have hpath : (CString.mk e.path.bytes e.path.nulFree) = e.path := rfl
  rw [parseEntry, hdec]
  dsimp only
  rw [hplen, if_neg hroom, hdrop, List.take_left, if_neg (by
    rw [maxPath]
    have hne := mt List.length_eq_zero_iff.mp h.nonempty
    omega), dif_neg e.path.nulFree, h.text, if_neg Bool.false_ne_true, hpath, hbehind]
  exact parseFields_encodeFields e rest

/-- **AN ENTRY** that is accepted is listed, and encoded by the bytes it takes. -/
theorem parseEntry_ok {buf rest : Bytes} {e : IndexEntry} (h : parseEntry buf = .ok (e, rest)) :
    Listed e ∧ buf = encodeEntry e ++ rest := by
  rw [parseEntry] at h
  split at h
  · cases h
  rename_i plen vn hdec
  split at h
  · cases h
  rename_i hroom
  dsimp only at h
  split at h
  · cases h
  rename_i hlen
  split at h
  · cases h
  rename_i hnul
  split at h
  · cases h
  rename_i htext
  obtain ⟨hpath, hfields⟩ := parseFields_ok h
  obtain ⟨hbuf, -⟩ := eq_of_decodeVarint hdec
  have hbytes : e.path.bytes = (buf.drop vn).take plen.toNat := by rw [hpath]
  have hplen : e.path.bytes.length = plen.toNat := by
    rw [hbytes, List.length_take, List.length_drop]
    omega
  refine ⟨⟨?_, ?_, ?_⟩, ?_⟩
  · intro hnil
    rw [hnil, List.length_nil] at hplen
    exact hlen (Or.inl hplen.symm)
  · rw [hplen]
    exact Nat.not_le.mp fun hlong => hlen (Or.inr hlong)
  · rw [hbytes]
    exact Bool.not_eq_true _ ▸ htext
  · rw [encodeEntry_eq, hplen, UInt64.ofNat_toNat, List.append_assoc, List.append_assoc, ← hfields,
      hbytes, ← List.drop_drop, List.take_append_drop]
    exact hbuf

theorem encodeEntry_length {e : IndexEntry} (h : Listed e) : minIndexEntryBytes ≤ (encodeEntry e).length := by
  have hvar := encodeVarint_pos (UInt64.ofNat e.path.bytes.length)
  have hpath := List.length_pos_iff.mpr h.nonempty
  have hfields := encodeFields_length e
  rw [minIndexEntryBytes, encodeEntry_eq, List.length_append, List.length_append]
  omega

/-- **ENTRIES** are read back one by one. -/
theorem parseEntries_encode {entries : List IndexEntry} (h : ∀ e ∈ entries, Listed e) (rest : Bytes) :
    parseEntries entries.length ((entries.map encodeEntry).flatten ++ rest) = .ok (entries, rest) := by
  induction entries with
  | nil => rfl
  | cons e entries ih =>
      have hrest := ih fun e' he' => h e' (List.mem_cons_of_mem e he')
      rw [List.length_cons, parseEntries, List.map_cons, List.flatten_cons, List.append_assoc,
        parseEntry_encodeEntry (h e List.mem_cons_self)]
      dsimp only
      rw [hrest]

/-- **ENTRIES** that are accepted are listed, and encoded by the bytes they take. -/
theorem parseEntries_ok {count : Nat} {buf rest : Bytes} {entries : List IndexEntry}
    (h : parseEntries count buf = .ok (entries, rest)) :
    entries.length = count ∧ (∀ e ∈ entries, Listed e) ∧
      buf = (entries.map encodeEntry).flatten ++ rest := by
  induction count generalizing buf entries with
  | zero =>
      obtain ⟨rfl, rfl⟩ := Prod.mk.inj (Except.ok.inj h)
      exact ⟨rfl, fun e he => absurd he List.not_mem_nil, rfl⟩
  | succ count ih =>
      rw [parseEntries] at h
      split at h
      · cases h
      rename_i e mid hentry
      split at h
      · cases h
      rename_i more last hmore
      obtain ⟨rfl, rfl⟩ := Prod.mk.inj (Except.ok.inj h)
      obtain ⟨hlisted, hbuf⟩ := parseEntry_ok hentry
      obtain ⟨hcount, hall, hmid⟩ := ih hmore
      refine ⟨congrArg Nat.succ hcount, ?_, ?_⟩
      · intro e' he'
        rcases List.mem_cons.mp he' with rfl | hin
        · exact hlisted
        · exact hall e' hin
      · rw [hbuf, hmid, List.map_cons, List.flatten_cons, List.append_assoc]

theorem flatten_length {entries : List IndexEntry} (h : ∀ e ∈ entries, Listed e) :
    minIndexEntryBytes * entries.length ≤ ((entries.map encodeEntry).flatten).length := by
  induction entries with
  | nil => exact Nat.zero_le _
  | cons e entries ih =>
      have hhead := encodeEntry_length (h e List.mem_cons_self)
      have htail := ih fun e' he' => h e' (List.mem_cons_of_mem e he')
      rw [List.length_cons, List.map_cons, List.flatten_cons, List.length_append, Nat.mul_succ]
      omega

/-! ## The index -/

/-- How many entries a reader takes. -/
def maxEntries : Nat := maxIndexAllocBytes / entrySize

/-- **READ AS WRITTEN**: entries within the limits come back from their serialisation. -/
theorem parseIndex_encodeIndex {entries : List IndexEntry} (hcount : entries.length ≤ maxEntries)
    (hlisted : ∀ e ∈ entries, Listed e) (hdisjoint : DestinationsDisjoint (entries.map (·.path))) :
    parseIndex (encodeIndex entries) = .ok entries := by
  have hfew : entries.length ≤ 100000 := hcount.trans (by decide)
  have htoNat : (UInt64.ofNat entries.length).toNat = entries.length :=
    UInt64.toNat_ofNat_of_lt' (by show _ < 2 ^ 64; omega)
  have hflat := flatten_length hlisted
  have hentries := parseEntries_encode hlisted []
  rw [List.append_nil] at hentries
  have hroom : ¬ entries.length > ((encodeIndex entries).length -
      (encodeVarint (UInt64.ofNat entries.length)).length) / minIndexEntryBytes := by
    rw [encodeIndex, List.length_append, Nat.add_sub_cancel_left]
    refine Nat.not_lt.mpr ((Nat.le_div_iff_mul_le (by decide)).mpr ?_)
    rw [Nat.mul_comm]
    exact hflat
  rw [parseIndex, encodeIndex, decodeVarint_encodeVarint]
  dsimp only
  rw [htoNat, if_neg (by rw [maxFiles]; omega)]
  rw [encodeIndex] at hroom
  have hlimit : ¬ entries.length > maxIndexAllocBytes / entrySize := Nat.not_lt.mpr hcount
  rw [if_neg hroom, if_neg hlimit, List.drop_left, hentries]
  dsimp only
  rw [if_neg (not_not.mpr rfl), validate_of_disjoint hdisjoint]

/-- **NOTHING ELSE IS READ**: a buffer that is accepted is the serialisation of what
    it is read as. -/
theorem encodeIndex_parseIndex {buf : Bytes} {entries : List IndexEntry}
    (h : parseIndex buf = .ok entries) : encodeIndex entries = buf := by
  rw [parseIndex] at h
  split at h
  · cases h
  rename_i count vn hdec
  split at h
  · cases h
  split at h
  · cases h
  split at h
  · cases h
  split at h
  · cases h
  rename_i parsed rest hentries
  split at h
  · cases h
  rename_i hrest
  split at h
  · cases h
  obtain rfl := Except.ok.inj h
  obtain rfl := not_not.mp hrest
  obtain ⟨hlen, -, hdrop⟩ := parseEntries_ok hentries
  obtain ⟨hbuf, -⟩ := eq_of_decodeVarint hdec
  rw [encodeIndex, hlen, UInt64.ofNat_toNat, ← List.append_nil (List.flatten _), ← hdrop]
  exact hbuf.symm

/-- **THE INDEX IS EXACT**: what is written is read back, and what is read was
    written so. -/
theorem index_exact :
    (∀ entries : List IndexEntry, entries.length ≤ maxEntries → (∀ e ∈ entries, Listed e) →
      DestinationsDisjoint (entries.map (·.path)) →
      parseIndex (encodeIndex entries) = .ok entries) ∧
    ∀ (buf : Bytes) (entries : List IndexEntry), parseIndex buf = .ok entries →
      encodeIndex entries = buf :=
  ⟨fun _ hcount hlisted hdisjoint => parseIndex_encodeIndex hcount hlisted hdisjoint,
    fun _ _ h => encodeIndex_parseIndex h⟩

/-- An index of one file. -/
def oneFile : IndexEntry := ⟨⟨[0x66], by decide⟩, 5, 5, 0, 7, 64, 1, 420⟩

theorem index_exact_run :
    parseIndex (encodeIndex [oneFile]) = .ok [oneFile] ∧
      ∃ entries, parseIndex (encodeIndex [oneFile]) = .ok entries ∧
        encodeIndex entries = encodeIndex [oneFile] := by
  have hread := index_exact.1 [oneFile] (by decide)
    (fun e he => by
      obtain rfl := List.mem_singleton.mp he
      exact ⟨by decide, by decide, by decide⟩)
    (short_disjoint (show ([oneFile].map fun e => destinationKey e.path).length < 2 by decide))
  exact ⟨hread, [oneFile], hread, index_exact.2 _ _ hread⟩

end Zupt.Index
