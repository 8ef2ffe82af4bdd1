import Zupt.Paths
import Zupt.Stream

/-! # The central index

    The list of files of an archive, as `zupt_compress_files`,
    `zupt_compress_solid` and the disk writer serialise it and as
    `parse_index` reads it back.  Indexes of disk archives up to 5.2.1 have a
    fixed-width form of their own, `parse_legacy_disk_index`. -/

namespace Zupt.Index

open Zupt.LittleEndian Zupt.Varint Zupt.Stream Zupt.Paths

/-- `zupt_index_entry_t`. -/
@[ext]
structure IndexEntry where
  path : CString
  uncompressedSize : UInt64
  compressedSize : UInt64
  modificationTime : UInt64
  contentHash : UInt64
  firstBlockOffset : UInt64
  blockCount : UInt32
  attributes : UInt32
  deriving DecidableEq

/-- `sizeof(zupt_index_entry_t)`. -/
def entrySize : Nat := 4144

/-- `ZUPT_MAX_FILES`. -/
def maxFiles : Nat := 2000000

/-- `ZUPT_MAX_INDEX_ALLOC_BYTES`. -/
def maxIndexAllocBytes : Nat := 256 * 1024 * 1024

/-- `ZUPT_MIN_INDEX_ENTRY_BYTES`. -/
def minIndexEntryBytes : Nat := 47

/-- One turn of the serialisation loop. -/
def encodeEntry (e : IndexEntry) : Bytes :=
  encodeVarint (UInt64.ofNat e.path.bytes.length) ++ (e.path.bytes
    ++ (le64Put e.uncompressedSize ++ (le64Put e.compressedSize
    ++ (le64Put e.modificationTime ++ (le64Put e.contentHash ++ (le64Put e.firstBlockOffset
    ++ (encodeVarint (UInt64.ofNat e.blockCount.toNat) ++ le32Put e.attributes)))))))

/-- The serialised index: the number of files and an entry each. -/
def encodeIndex (entries : List IndexEntry) : Bytes :=
  encodeVarint (UInt64.ofNat entries.length) ++ (entries.map encodeEntry).flatten

/-! ## Reading -/

/-- The five 64-bit fields, the block count and the attributes behind a path. -/
def parseFields (path : CString) (buf : Bytes) : Result (IndexEntry × Bytes) :=
  if buf.length < 44 then .error .corrupt
  else
    let rest := buf.drop 40
    match decodeVarint rest with
    | none => .error .corrupt
    | some (bc, vn) =>
        if bc.toNat > 0xFFFFFFFF then .error .corrupt
        else if (rest.drop vn).length < 4 then .error .corrupt
        else .ok ({
            path := path
            uncompressedSize := le64Get buf
            compressedSize := le64Get (buf.drop 8)
            modificationTime := le64Get (buf.drop 16)
            contentHash := le64Get (buf.drop 24)
            firstBlockOffset := le64Get (buf.drop 32)
            blockCount := UInt32.ofNat bc.toNat
            attributes := le32Get (rest.drop vn) }, rest.drop (vn + 4))

/-- One turn of the loop of `parse_index`, and what it leaves of the buffer. -/
def parseEntry (buf : Bytes) : Result (IndexEntry × Bytes) :=
  match decodeVarint buf with
  | none => .error .corrupt
  | some (plen, vn) =>
      if plen.toNat > buf.length - vn then .error .corrupt
      else
        let path := (buf.drop vn).take plen.toNat
        if plen.toNat = 0 ∨ plen.toNat ≥ maxPath then .error .corrupt
        else if h : (0 : UInt8) ∈ path then .error .corrupt
        else if pathHasUnsafeText path then .error .corrupt
        else parseFields ⟨path, h⟩ (buf.drop (vn + plen.toNat))

/-- The loop of `parse_index`. -/
def parseEntries : (count : Nat) → Bytes → Result (List IndexEntry × Bytes)
  | 0, buf => .ok ([], buf)
  | count + 1, buf =>
      match parseEntry buf with
      | .error e => .error e
      | .ok (entry, rest) =>
          match parseEntries count rest with
          | .error e => .error e
          | .ok (entries, last) => .ok (entry :: entries, last)

/-- `parse_index`, on a platform with 64-bit `size_t`. -/
def parseIndex (buf : Bytes) : Result (List IndexEntry) :=
  match decodeVarint buf with
  | none => .error .corrupt
  | some (count, vn) =>
      if count.toNat > maxFiles then .error .overflow
      else if count.toNat > (buf.length - vn) / minIndexEntryBytes then .error .corrupt
      else if count.toNat > maxIndexAllocBytes / entrySize then .error .overflow
      else
        match parseEntries count.toNat (buf.drop vn) with
        | .error e => .error e
        | .ok (entries, rest) =>
            if rest ≠ [] then .error .corrupt
            else
              match validateArchiveDestinations (entries.map (·.path)) false with
              | .error e => .error e
              | .ok () => .ok entries

/-- `parse_legacy_disk_index`: exactly one entry, with fixed-width counts. -/
def parseLegacyDiskIndex (buf : Bytes) : Result (List IndexEntry) :=
  if buf.length < 4 ∨ le32Get buf ≠ 1 then .error .corrupt
  else
    let rest := buf.drop 4
    match decodeVarint rest with
    | none => .error .corrupt
    | some (plen, vn) =>
        if plen.toNat = 0 ∨ plen.toNat ≥ maxPath ∨ plen.toNat > rest.length - vn then
          .error .corrupt
        else
          let path := (rest.drop vn).take plen.toNat
          let p := rest.drop (vn + plen.toNat)
          if h : (0 : UInt8) ∈ path then .error .corrupt
          else if p.length ≠ 48 then .error .corrupt
          else if pathHasUnsafeText path then .error .corrupt
          else .ok [{
            path := ⟨path, h⟩
            uncompressedSize := le64Get p
            compressedSize := le64Get (p.drop 8)
            modificationTime := le64Get (p.drop 16)
            contentHash := le64Get (p.drop 24)
            firstBlockOffset := le64Get (p.drop 32)
            blockCount := le32Get (p.drop 40)
            attributes := le32Get (p.drop 44) }]

end Zupt.Index
