import Zupt.Compress
import Zupt.Paths

/-! # Buffers of the SDK

    `zuptsdk_compress_buffer` writes the caller's bytes to a temporary file and
    archives that under the caller's name; `zuptsdk_extract_buffer` extracts an
    archive into a fresh directory and looks there for the file again.  The
    writers and the reader of archives come in as an `ArchiveLayer`, the file
    system as a `Platform`. -/

namespace Zupt.Sdk

open Zupt.Frame Zupt.Compress Zupt.Paths

/-! ## Errors and options -/

/-- The failing values of the SDK that come up here. -/
inductive SdkError where
  | invalidArg | noMemory | io | badArchive | badPassword | badVersion | badChecksum
  | unsupported | tooLarge
  deriving DecidableEq, Repr

/-- `zsdk_map_zupt_error`. -/
def mapZuptError : ZuptError → SdkError
  | .io => .io
  | .corrupt => .badArchive
  | .badMagic => .badArchive
  | .badVersion => .badVersion
  | .badChecksum => .badChecksum
  | .nomem => .noMemory
  | .overflow => .tooLarge
  | .invalid => .invalidArg
  | .notFound => .io
  | .unsupported => .unsupported
  | .authFail => .badPassword

/-- `zuptsdk_codec_t`. -/
inductive SdkCodec where
  | auto | vaptvupt | lzhp | lzh | lz | store
  deriving DecidableEq, Repr

/-- `zsdk_codec_map`. -/
def codecMap : SdkCodec → UInt16
  | .auto => codecAuto
  | .vaptvupt => codecVaptVupt
  | .lzhp => codecLzhp
  | .lzh => codecLzh
  | .lz => codecLz
  | .store => codecStore

/-- `zuptsdk_options_t`. -/
structure SdkOptions where
  codec : SdkCodec
  level : Int
  dedup : Bool
  solid : Bool
  block_size : UInt64

/-- `zuptsdk_ctx_t`. -/
structure Ctx where
  max_decompressed : UInt64
  allow_legacy_no_ait : Bool
  threads : Int

/-- The fields of `zupt_options_t` that the SDK sets. -/
structure ZuptOptions where
  codec_id : UInt16
  level : Int
  block_size : UInt32
  dedup : Bool
  solid : Bool
  threads : Int
  max_output_size : UInt64
  allow_legacy_no_ait : Bool
  kdf_legacy_pbkdf2 : Bool
  password : Bytes
  keyfile : Bytes
  pq_mode : Bool
  encrypt : Bool

/-- `ZSDK_DEFAULT_MAX_DECOMPRESSED`. -/
def defaultMaxDecompressed : UInt64 := 16 * 1024 * 1024 * 1024

/-- `zsdk_apply_options` over the defaults; `autoCodec` is
    `zupt_resolve_auto_codec`. -/
def applyOptions (autoCodec : UInt16) (opts : Option SdkOptions) (ctx : Option Ctx) :
    ZuptOptions :=
  let codec := (opts.map fun o => codecMap o.codec).getD codecAuto
  { codec_id := if codec = codecAuto then autoCodec else codec
    level := (opts.map (·.level)).getD 7
    block_size := (opts.map (·.block_size.toUInt32)).getD 0
    dedup := (opts.map (·.dedup)).getD false
    solid := (opts.map (·.solid)).getD false
    threads := (ctx.map fun c => if 0 < c.threads then c.threads else 0).getD 0
    max_output_size := (ctx.map (·.max_decompressed)).getD defaultMaxDecompressed
    allow_legacy_no_ait := (ctx.map (·.allow_legacy_no_ait)).getD false
    kdf_legacy_pbkdf2 := true
    password := []
    keyfile := []
    pq_mode := false
    encrypt := false }

/-- `zsdk_apply_password`; the field holds 255 bytes. -/
def applyPassword (z : ZuptOptions) (password : Option Bytes) : Except SdkError ZuptOptions :=
  match password with
  | none => .ok z
  | some pw =>
      if pw.length = 0 then .ok z
      else if 256 ≤ pw.length then .error .invalidArg
      else if pw.contains 0 then .error .invalidArg
      else .ok { z with password := pw, encrypt := true }

/-- `zsdk_apply_pubkey` and `zsdk_apply_privkey`, of which the first turns
    encryption on. -/
def applyKey (encrypts : Bool) (z : ZuptOptions) (key : Option CString) :
    Except SdkError ZuptOptions :=
  match key with
  | none => .ok z
  | some path =>
      if maxPath ≤ path.bytes.length then .error .invalidArg
      else .ok { z with keyfile := path.bytes, pq_mode := true, encrypt := encrypts || z.encrypt }

/-- `zsdk_apply_pubkey`. -/
def applyPubkey (z : ZuptOptions) (pk : Option CString) : Except SdkError ZuptOptions :=
  applyKey true z pk

/-- `zsdk_apply_privkey`. -/
def applyPrivkey (z : ZuptOptions) (sk : Option CString) : Except SdkError ZuptOptions :=
  applyKey false z sk

/-! ## The archive layer -/

/-- `zupt_compress_files` and `zupt_compress_solid` for one input, behind the
    validation of its name, and `zupt_extract_archive` up to the publication of
    what it decoded. -/
structure ArchiveLayer where
  autoCodec : UInt16
  compressFiles : CString → Bytes → ZuptOptions → Result Bytes
  compressSolid : CString → Bytes → ZuptOptions → Result Bytes
  extractArchive : Bytes → ZuptOptions → Result (List (CString × Bytes))
  /-- The private key file belongs to the public one. -/
  KeyPair : Bytes → Bytes → Prop

/-- One file into an archive: both writers validate its name first. -/
def ArchiveLayer.compressOne (A : ArchiveLayer) (solid : Bool) (name : CString) (data : Bytes)
    (z : ZuptOptions) : Result Bytes :=
  match validateArchiveDestinations [name] true with
  | .error e => .error e
  | .ok _ => if solid then A.compressSolid name data z else A.compressFiles name data z

/-- `zuptsdk_compress_buffer`. -/
def compressBuffer (A : ArchiveLayer) (ctx : Option Ctx) (opts : Option SdkOptions)
    (logical_name : CString) (data : Bytes) (password : Option Bytes)
    (recipient_pk : Option CString) : Except SdkError Bytes :=
  match applyPassword (applyOptions A.autoCodec opts ctx) password with
  | .error e => .error e
  | .ok z =>
      match applyPubkey z recipient_pk with
      | .error e => .error e
      | .ok z =>
          match A.compressOne ((opts.map (·.solid)).getD false) logical_name data z with
          | .error e => .error (mapZuptError e)
          | .ok archive => if archive.length = 0 then .error .io else .ok archive

/-! ## Files -/

/-- A file or a directory. -/
inductive Node where
  | file (content : Bytes)
  | dir (entries : List (Bytes × Node))

/-- What stands in a directory. -/
abbrev Entries := List (Bytes × Node)

/-- A dot. -/
def dot : UInt8 := 0x2E

/-- The walk of `zupt_safe_fopen_output`: the directories it opens and, last,
    the file it creates; `none` where no name is left at the end. -/
def walkFrom : (component : Bytes) → Bytes → Option (List Bytes)
  | component, [] => if component = [] ∨ component = [dot] then none else some [component]
  | component, c :: rest =>
      if c = slash ∨ c = backslash then
        if component = [] ∨ component = [dot] then walkFrom [] rest
        else (walkFrom [] rest).map (component :: ·)
      else walkFrom (component ++ [c]) rest

/-- A file below directories that are made on the way.  What is there already
    is not replaced. -/
def addPath (data : Bytes) : (components : List Bytes) → Entries → Option Entries
  | [], _ => none
  | [name], entries =>
      match entries.lookup name with
      | some _ => none
      | none => some (entries ++ [(name, .file data)])
  | name :: more, entries =>
      match entries.lookup name with
      | some (.file _) => none
      | some (.dir inner) =>
          (addPath data more inner).map fun inner =>
            entries.map fun e => if e.1 = name then (name, .dir inner) else e
      | none => (addPath data more []).map fun inner => entries ++ [(name, .dir inner)]

/-- The size of the `out_path` of the extraction, `ZUPT_MAX_PATH + 256`. -/
def outPathSize : Nat := maxPath + 256

/-- The files of an archive, one after another, into the directory `dir`;
    each destination is first printed into `out_path`. -/
def publishAll (dir : CString) : List (CString × Bytes) → Entries → Option Entries
  | [], entries => some entries
  | (path, data) :: more, entries =>
      if outPathSize ≤ dir.bytes.length + 1 + path.bytes.length then none
      else
        match walkFrom [] path.bytes with
        | none => none
        | some components => (addPath data components entries).bind (publishAll dir more)

/-- The file system as `zuptsdk_extract_buffer` meets it. -/
structure Platform where
  /-- The fresh directory, from `zsdk_tmp_path` into 512 bytes. -/
  tmpdir : CString
  tmpdir_fits : tmpdir.bytes.length < 512
  /-- The order of `readdir`, with `.` and `..`. -/
  readdir : List Bytes → List Bytes
  readdir_perm : ∀ names, (readdir names).Perm ([dot] :: [dot, dot] :: names)
  /-- What opening a directory as a file, measuring and reading it comes to. -/
  slurpDir : Entries → Except SdkError Bytes

/-- `fopen` of a path: a name right below the temporary directory. -/
def Platform.open (P : Platform) (entries : Entries) (fpath : Bytes) : Option Node :=
  if P.tmpdir.bytes ++ [slash] <+: fpath then
    entries.lookup (fpath.drop (P.tmpdir.bytes.length + 1))
  else none

/-- `zuptsdk_extract_to_dir` into a fresh directory. -/
def extractToDir (A : ArchiveLayer) (ctx : Option Ctx) (archive : Bytes) (dest_dir : CString)
    (password : Option Bytes) (recipient_sk : Option CString) : Except SdkError Entries :=
  if archive.length = 0 then .error .invalidArg
  else
    match applyPassword (applyOptions A.autoCodec none ctx) password with
    | .error e => .error e
    | .ok z =>
        match applyPrivkey z recipient_sk with
        | .error e => .error e
        | .ok z =>
            match A.extractArchive archive z with
            | .error e => .error (mapZuptError e)
            | .ok files =>
                match publishAll dest_dir files [] with
                | none => .error .io
                | some entries => .ok entries

/-- The scan of `zuptsdk_extract_buffer` and the reading of what it found. -/
def slurpFirst (P : Platform) (entries : Entries) : Except SdkError Bytes :=
  match (P.readdir (entries.map Prod.fst)).find? fun name => charAt name 0 ≠ dot with
  | none => .error .badArchive
  | some name =>
      -- `char fpath[1024]`
      match P.open entries ((P.tmpdir.bytes ++ [slash] ++ name).take 1023) with
      | none => .error .io
      | some (.file content) => .ok content
      | some (.dir inner) => P.slurpDir inner

/-- `zuptsdk_extract_buffer`. -/
def extractBuffer (A : ArchiveLayer) (P : Platform) (ctx : Option Ctx) (archive : Bytes)
    (password : Option Bytes) (recipient_sk : Option CString) : Except SdkError Bytes :=
  match extractToDir A ctx archive P.tmpdir password recipient_sk with
  | .error e => .error e
  | .ok entries => slurpFirst P entries

/-! ## Credentials and quotas that fit -/

/-- The options of an extraction carry the credentials of a compression. -/
structure ArchiveLayer.Unlocks (A : ArchiveLayer) (zc zx : ZuptOptions) : Prop where
  password : zx.password = zc.password
  mode : zx.pq_mode = zc.pq_mode
  key : zc.pq_mode = true → A.KeyPair zc.keyfile zx.keyfile

/-- What is assumed of the archive layer: an archive of one file gives that
    file back to whoever has the credentials and no quota below its size. -/
def ArchiveLayer.RoundTrips (A : ArchiveLayer) : Prop :=
  ∀ (solid : Bool) (name : CString) (data : Bytes) (zc zx : ZuptOptions) (archive : Bytes),
    A.compressOne solid name data zc = .ok archive → A.Unlocks zc zx →
    (zx.max_output_size = 0 ∨ data.length ≤ zx.max_output_size.toNat) →
    A.extractArchive archive zx = .ok [(name, data)]

/-- The keys of the two calls: none and none, or the two halves of a pair of
    which `zuptsdk_privkey_load` could open the private one. -/
def ArchiveLayer.KeysMatch (A : ArchiveLayer) : (pk sk : Option CString) → Prop
  | none, none => True
  | some pk, some sk => A.KeyPair pk.bytes sk.bytes ∧ sk.bytes.length < maxPath
  | _, _ => False

/-- The quota of the extracting call. -/
def quota (ctx : Option Ctx) : UInt64 := (ctx.map (·.max_decompressed)).getD defaultMaxDecompressed

/-- The names that come back: one component that does not begin with a dot,
    and short enough for the buffer of the scan. -/
def NameFits (tmpdir name : CString) : Prop :=
  (∀ c ∈ name.bytes, c ≠ slash ∧ c ≠ backslash) ∧ charAt name.bytes 0 ≠ dot ∧
    tmpdir.bytes.length + 1 + name.bytes.length ≤ 1023

/-! ## The walk over a safe name -/

/-- A safe component is no dot. -/
theorem ne_dot_of_safe {component : Bytes} (h : componentIsSafe component = true) :
    component ≠ [dot] := by
  intro hdot
  rw [hdot] at h
  revert h
  decide

/-- A walk over components that are safe ends at a file. -/
theorem walkFrom_of_scan (component rest : Bytes) (h : scanComponents component rest = true) :
    ∃ first more, walkFrom component rest = some (first :: more) := by
  induction rest generalizing component with
  | nil =>
      rw [scanComponents] at h
      by_cases hempty : component.isEmpty
      · rw [if_pos hempty] at h
        cases h
      · rw [if_neg hempty] at h
        have hne : component ≠ [] := by simpa using hempty
        refine ⟨component, [], ?_⟩
        rw [walkFrom, if_neg (by simp [hne, ne_dot_of_safe h])]
  | cons c rest ih =>
      rw [scanComponents] at h
      by_cases hsep : c = slash ∨ c = backslash
      · rw [if_pos hsep] at h
        rw [walkFrom, if_pos hsep]
        by_cases hempty : component.isEmpty
        · rw [if_pos hempty] at h
          rw [if_pos (Or.inl (by simpa using hempty))]
          exact ih [] h
        · rw [if_neg hempty, Bool.and_eq_true] at h
          have hne : component ≠ [] := by simpa using hempty
          obtain ⟨first, more, hrest⟩ := ih [] h.2
          refine ⟨component, first :: more, ?_⟩
          rw [if_neg (by simp [hne, ne_dot_of_safe h.1]), hrest]
          rfl
      · rw [if_neg hsep] at h
        rw [walkFrom, if_neg hsep]
        exact ih _ h

/-- A separator behind the start makes it more than one component. -/
theorem walkFrom_splits (component rest : Bytes) (hne : component ≠ [])
    (h : scanComponents component rest = true)
    (hsep : ∃ c ∈ rest, c = slash ∨ c = backslash) :
    ∃ first second more, walkFrom component rest = some (first :: second :: more) := by
  induction rest generalizing component with
  | nil =>
      obtain ⟨c, hc, _⟩ := hsep
      cases hc
  | cons c rest ih =>
      rw [scanComponents] at h
      by_cases hc : c = slash ∨ c = backslash
      · have hempty : ¬ component.isEmpty = true := by simpa using hne
        rw [if_pos hc, if_neg hempty, Bool.and_eq_true] at h
        obtain ⟨first, more, hrest⟩ := walkFrom_of_scan [] rest h.2
        refine ⟨component, first, more, ?_⟩
        rw [walkFrom, if_pos hc, if_neg (by simp [hne, ne_dot_of_safe h.1]), hrest]
        rfl
      · rw [if_neg hc] at h
        rw [walkFrom, if_neg hc]
        refine ih _ (by simp) h ?_
        obtain ⟨d, hd, hslash⟩ := hsep
        rcases List.mem_cons.mp hd with rfl | hrest
        · exact absurd hslash hc
        · exact ⟨d, hrest, hslash⟩

/-- Without a separator the walk only collects. -/
theorem walkFrom_plain (component rest : Bytes)
    (h : scanComponents component rest = true)
    (hplain : ∀ c ∈ rest, c ≠ slash ∧ c ≠ backslash) :
    walkFrom component rest = some [component ++ rest] := by
  induction rest generalizing component with
  | nil =>
      rw [scanComponents] at h
      by_cases hempty : component.isEmpty
      · rw [if_pos hempty] at h
        cases h
      · rw [if_neg hempty] at h
        have hne : component ≠ [] := by simpa using hempty
        rw [walkFrom, if_neg (by simp [hne, ne_dot_of_safe h]), List.append_nil]
  | cons c rest ih =>
      have hc : ¬ (c = slash ∨ c = backslash) := by
        simpa using hplain c (List.mem_cons_self ..)
      rw [scanComponents, if_neg hc] at h
      rw [walkFrom, if_neg hc, ih _ h fun d hd => hplain d (List.mem_cons_of_mem c hd),
        List.append_assoc, List.singleton_append]

/-- What a safe path begins with. -/
theorem safe_cons {path : Bytes} (h : pathIsSafe path = true) :
    ∃ c rest, path = c :: rest ∧ ¬ (c = slash ∨ c = backslash) ∧
      scanComponents [c] rest = true := by
  cases path with
  | nil => simp [pathIsSafe] at h
  | cons c rest =>
      simp only [pathIsSafe, Bool.and_eq_true] at h
      have hc : ¬ (c = slash ∨ c = backslash) := by
        have hfirst := h.1.1.2
        simpa [charAt] using hfirst
      have hscan := h.2
      rw [scanComponents, if_neg hc] at hscan
      exact ⟨c, rest, rfl, hc, hscan⟩

/-! ## One file in a fresh directory -/

/-- A path of several components leaves one directory. -/
theorem addPath_nested (data : Bytes) (first second : Bytes) (more : List Bytes) :
    ∃ inner, addPath data (first :: second :: more) [] = some [(first, .dir inner)] := by
  induction more generalizing first second with
  | nil => exact ⟨[(second, .file data)], rfl⟩
  | cons third more ih =>
      obtain ⟨inner, hinner⟩ := ih second third
      refine ⟨[(second, .dir inner)], ?_⟩
      rw [addPath, hinner]
      · rfl
      · intro h
        cases h

/-- The scan over a directory with one entry. -/
theorem readdir_find (P : Platform) (name : Bytes) :
    (P.readdir [name]).find? (fun name => charAt name 0 ≠ dot) =
      if charAt name 0 ≠ dot then some name else none := by
  have hmem (x : Bytes) : x ∈ P.readdir [name] ↔ x = [dot] ∨ x = [dot, dot] ∨ x = name := by
    rw [(P.readdir_perm [name]).mem_iff]
    simp
  by_cases hdot : charAt name 0 ≠ dot
  · rw [if_pos hdot]
    obtain ⟨x, hx⟩ : ∃ x, (P.readdir [name]).find? (fun name => charAt name 0 ≠ dot) = some x := by
      rw [← Option.isSome_iff_exists, List.find?_isSome]
      exact ⟨name, (hmem name).mpr (Or.inr (Or.inr rfl)), by simpa using hdot⟩
    have hprop := List.find?_some hx
    rcases (hmem x).mp (List.mem_of_find?_eq_some hx) with rfl | rfl | rfl
    · simp [charAt] at hprop
    · simp [charAt] at hprop
    · exact hx
  · rw [if_neg hdot, List.find?_eq_none]
    intro x hx
    rcases (hmem x).mp hx with rfl | rfl | rfl
    · simp [charAt]
    · simp [charAt]
    · simpa using hdot

/-- Opening what the scan printed: the name came out whole or not at all. -/
theorem open_entry (P : Platform) (name : Bytes) (node : Node) :
    P.open [(name, node)] ((P.tmpdir.bytes ++ [slash] ++ name).take 1023) =
      if P.tmpdir.bytes.length + 1 + name.length ≤ 1023 then some node else none := by
  have hfits := P.tmpdir_fits
  have hlen : (P.tmpdir.bytes ++ [slash]).length = P.tmpdir.bytes.length + 1 := by simp
  have htake : (P.tmpdir.bytes ++ [slash] ++ name).take 1023 =
      P.tmpdir.bytes ++ [slash] ++ name.take (1023 - (P.tmpdir.bytes.length + 1)) := by
    rw [List.take_append, hlen, List.take_of_length_le (by omega)]
  rw [Platform.open, htake, if_pos (List.prefix_append ..), ← hlen, List.drop_left, hlen]
  by_cases hroom : P.tmpdir.bytes.length + 1 + name.length ≤ 1023
  · rw [if_pos hroom, List.take_of_length_le (by omega)]
    simp
  · rw [if_neg hroom]
    have hshort : name.take (1023 - (P.tmpdir.bytes.length + 1)) ≠ name := by
      intro h
      have := congrArg List.length h
      rw [List.length_take] at this
      omega
    have hother : (name.take (1023 - (P.tmpdir.bytes.length + 1)) == name) = false := by
      simpa only [beq_eq_false_iff_ne] using hshort
    rw [List.lookup, hother, List.lookup]

/-- What `zuptsdk_extract_buffer` answers for a directory with one entry. -/
theorem slurpFirst_single (P : Platform) (name : Bytes) (node : Node) :
    slurpFirst P [(name, node)] =
      if charAt name 0 = dot then .error .badArchive
      else if P.tmpdir.bytes.length + 1 + name.length ≤ 1023 then
        match node with
        | .file content => .ok content
        | .dir inner => P.slurpDir inner
      else .error .io := by
  have hfind := readdir_find P name
  by_cases hdot : charAt name 0 = dot
  · rw [if_neg (not_not_intro hdot)] at hfind
    rw [slurpFirst, List.map_singleton, hfind, if_pos hdot]
  · rw [if_pos hdot] at hfind
    rw [slurpFirst, List.map_singleton, hfind, if_neg hdot]
    dsimp only
    rw [open_entry]
    by_cases hroom : P.tmpdir.bytes.length + 1 + name.length ≤ 1023
    · rw [if_pos hroom, if_pos hroom]
      cases node with
      | file content => rfl
      | dir inner => rfl
    · rw [if_neg hroom, if_neg hroom]

/-! ## Through the archive -/

/-- What a compression that succeeds has settled. -/
theorem compressBuffer_ok {A : ArchiveLayer} {ctx : Option Ctx} {opts : Option SdkOptions}
    {name : CString} {data : Bytes} {password : Option Bytes} {pk : Option CString}
    {archive : Bytes} (h : compressBuffer A ctx opts name data password pk = .ok archive) :
    ∃ z zc, applyPassword (applyOptions A.autoCodec opts ctx) password = .ok z ∧
      applyPubkey z pk = .ok zc ∧
      A.compressOne ((opts.map (·.solid)).getD false) name data zc = .ok archive ∧
      archive.length ≠ 0 := by
  rw [compressBuffer] at h
  cases hpw : applyPassword (applyOptions A.autoCodec opts ctx) password with
  | error e =>
      rw [hpw] at h
      cases h
  | ok z =>
      rw [hpw] at h
      dsimp only at h
      cases hpk : applyPubkey z pk with
      | error e =>
          rw [hpk] at h
          cases h
      | ok zc =>
          rw [hpk] at h
          dsimp only at h
          cases hone : A.compressOne ((opts.map (·.solid)).getD false) name data zc with
          | error e =>
              rw [hone] at h
              cases h
          | ok made =>
              rw [hone] at h
              dsimp only at h
              by_cases hempty : made.length = 0
              · rw [if_pos hempty] at h
                cases h
              · rw [if_neg hempty] at h
                cases h
                exact ⟨z, zc, rfl, hpk, hone, hempty⟩

/-- Only safe names are compressed. -/
theorem safe_of_compressOne {A : ArchiveLayer} {solid : Bool} {name : CString} {data : Bytes}
    {z : ZuptOptions} {archive : Bytes} (h : A.compressOne solid name data z = .ok archive) :
    pathIsSafe name.bytes = true := by
  by_contra hsafe
  rw [ArchiveLayer.compressOne, validateArchiveDestinations, if_pos (by simp)] at h
  rw [if_pos (by simpa using hsafe)] at h
  cases h

/-- The password of one call is taken by the other, into options that differ
    in nothing the extraction reads. -/
theorem applyPassword_pair {z z' zc : ZuptOptions} {password : Option Bytes}
    (hbase : z'.password = z.password) (h : applyPassword z password = .ok zc) :
    ∃ zx, applyPassword z' password = .ok zx ∧ zx.password = zc.password ∧
      zx.pq_mode = z'.pq_mode ∧ zc.pq_mode = z.pq_mode ∧
      zx.max_output_size = z'.max_output_size := by
  cases password with
  | none =>
      cases h
      exact ⟨z', rfl, hbase, rfl, rfl, rfl⟩
  | some pw =>
      simp only [applyPassword] at h ⊢
      by_cases hempty : pw.length = 0
      · rw [if_pos hempty] at h ⊢
        cases h
        exact ⟨z', rfl, hbase, rfl, rfl, rfl⟩
      · rw [if_neg hempty] at h ⊢
        by_cases hlong : 256 ≤ pw.length
        · rw [if_pos hlong] at h
          cases h
        · rw [if_neg hlong] at h ⊢
          by_cases hnul : pw.contains 0 = true
          · rw [if_pos hnul] at h
            cases h
          · rw [if_neg hnul] at h ⊢
            cases h
            exact ⟨_, rfl, rfl, rfl, rfl, rfl⟩

/-- The keys of the two calls, likewise. -/
theorem applyKey_pair {A : ArchiveLayer} {z z' zc : ZuptOptions} {pk sk : Option CString}
    (hpassword : z'.password = z.password) (hmode : z'.pq_mode = z.pq_mode)
    (hoff : z.pq_mode = false) (hkeys : A.KeysMatch pk sk) (h : applyPubkey z pk = .ok zc) :
    ∃ zx, applyPrivkey z' sk = .ok zx ∧ A.Unlocks zc zx ∧
      zx.max_output_size = z'.max_output_size := by
  cases pk with
  | none =>
      cases sk with
      | none =>
          cases h
          refine ⟨z', rfl, ⟨hpassword, hmode, ?_⟩, rfl⟩
          intro hon
          rw [hoff] at hon
          cases hon
      | some sk => exact hkeys.elim
  | some pk =>
      cases sk with
      | none => exact hkeys.elim
      | some sk =>
          simp only [applyPubkey, applyPrivkey, applyKey] at h ⊢
          by_cases hlong : maxPath ≤ pk.bytes.length
          · rw [if_pos hlong] at h
            cases h
          · rw [if_neg hlong] at h
            cases h
            have hshort : ¬ maxPath ≤ sk.bytes.length := Nat.not_le.mpr hkeys.2
            rw [if_neg hshort]
            exact ⟨_, rfl, ⟨hpassword, rfl, fun _ => hkeys.1⟩, rfl⟩

/-- Extraction of what the SDK compressed: what is published is the file under
    its name. -/
theorem extractToDir_compressed {A : ArchiveLayer} (hA : A.RoundTrips) {ctx ctx' : Option Ctx}
    {opts : Option SdkOptions} {name : CString} {data : Bytes} {password : Option Bytes}
    {pk sk : Option CString} {archive : Bytes}
    (h : compressBuffer A ctx opts name data password pk = .ok archive)
    (hkeys : A.KeysMatch pk sk) (hquota : quota ctx' = 0 ∨ data.length ≤ (quota ctx').toNat)
    (dest_dir : CString) :
    extractToDir A ctx' archive dest_dir password sk =
      match publishAll dest_dir [(name, data)] [] with
      | none => .error .io
      | some entries => .ok entries := by
  obtain ⟨z, zc, hpw, hpk, hone, hsome⟩ := compressBuffer_ok h
  have hbase : (applyOptions A.autoCodec none ctx').password =
      (applyOptions A.autoCodec opts ctx).password := rfl
  obtain ⟨y, hy, hypw, hymode, hzmode, hymax⟩ := applyPassword_pair hbase hpw
  obtain ⟨zx, hzx, hunlocks, hmax⟩ :=
    applyKey_pair hypw (hymode.trans hzmode.symm) hzmode hkeys hpk
  have hroom : zx.max_output_size = 0 ∨ data.length ≤ zx.max_output_size.toNat := by
    rw [hmax, hymax]
    exact hquota
  rw [extractToDir, if_neg hsome, hy]
  dsimp only
  rw [hzx]
  dsimp only
  rw [hA _ name data zc zx archive hone hunlocks hroom]

/-- Publication of a single file. -/
theorem publishAll_single (dir name : CString) (data : Bytes) :
    publishAll dir [(name, data)] [] =
      if outPathSize ≤ dir.bytes.length + 1 + name.bytes.length then none
      else (walkFrom [] name.bytes).bind fun components => addPath data components [] := by
  by_cases hbuffer : outPathSize ≤ dir.bytes.length + 1 + name.bytes.length
  · rw [publishAll, if_pos hbuffer, if_pos hbuffer]
  · rw [publishAll, if_neg hbuffer, if_neg hbuffer]
    cases hwalk : walkFrom [] name.bytes with
    | none => rfl
    | some components =>
        dsimp only
        rw [Option.bind_some]
        cases addPath data components [] with
        | none => rfl
        | some entries => rfl

/-- A name of one component leaves the file itself, if anything. -/
theorem publishAll_plain {tmpdir name : CString} (hsafe : pathIsSafe name.bytes = true)
    (hplain : ∀ c ∈ name.bytes, c ≠ slash ∧ c ≠ backslash) (data : Bytes) :
    publishAll tmpdir [(name, data)] [] =
      if outPathSize ≤ tmpdir.bytes.length + 1 + name.bytes.length then none
      else some [(name.bytes, .file data)] := by
  obtain ⟨c, rest, hname, hc, hscan⟩ := safe_cons hsafe
  have hrest : ∀ d ∈ rest, d ≠ slash ∧ d ≠ backslash := by
    intro d hd
    apply hplain
    rw [hname]
    exact List.mem_cons_of_mem c hd
  have hwalk : walkFrom [] name.bytes = some [name.bytes] := by
    rw [hname, walkFrom, if_neg hc, List.nil_append, walkFrom_plain [c] rest hscan hrest]
    rfl
  rw [publishAll_single, hwalk]
  rfl

/-- A name with a separator leaves a directory, if anything. -/
theorem publishAll_nested {tmpdir name : CString} (hsafe : pathIsSafe name.bytes = true)
    (hsep : ∃ c ∈ name.bytes, c = slash ∨ c = backslash) (data : Bytes) :
    ∃ first inner, publishAll tmpdir [(name, data)] [] =
      if outPathSize ≤ tmpdir.bytes.length + 1 + name.bytes.length then none
      else some [(first, .dir inner)] := by
  obtain ⟨c, rest, hname, hc, hscan⟩ := safe_cons hsafe
  have hrest : ∃ d ∈ rest, d = slash ∨ d = backslash := by
    obtain ⟨d, hd, hslash⟩ := hsep
    rw [hname] at hd
    rcases List.mem_cons.mp hd with rfl | hd
    · exact absurd hslash hc
    · exact ⟨d, hd, hslash⟩
  have hne : [c] ≠ [] := by simp
  obtain ⟨first, second, more, hwalk⟩ := walkFrom_splits [c] rest hne hscan hrest
  have hwalk' : walkFrom [] name.bytes = some (first :: second :: more) := by
    rw [hname, walkFrom, if_neg hc, List.nil_append, hwalk]
  obtain ⟨inner, hinner⟩ := addPath_nested data first second more
  refine ⟨first, inner, ?_⟩
  rw [publishAll_single, hwalk', Option.bind_some, hinner]

/-- **BUFFERS COME BACK** on every platform exactly under the names that fit. -/
theorem extractBuffer_iff_nameFits {A : ArchiveLayer} (hA : A.RoundTrips)
    {ctx ctx' : Option Ctx} {opts : Option SdkOptions} {name : CString} {data : Bytes}
    {password : Option Bytes} {pk sk : Option CString} {archive : Bytes}
    (h : compressBuffer A ctx opts name data password pk = .ok archive)
    (hkeys : A.KeysMatch pk sk) (hquota : quota ctx' = 0 ∨ data.length ≤ (quota ctx').toNat)
    (tmpdir : CString) (htmpdir : tmpdir.bytes.length < 512) :
    (∀ P : Platform, P.tmpdir = tmpdir → extractBuffer A P ctx' archive password sk = .ok data) ↔
      NameFits tmpdir name := by
  obtain ⟨_, _, _, _, hone, _⟩ := compressBuffer_ok h
  have hsafe := safe_of_compressOne hone
  have hdir := extractToDir_compressed hA h hkeys hquota tmpdir
  have hbuffer (hshort : tmpdir.bytes.length + 1 + name.bytes.length ≤ 1023) :
      ¬ outPathSize ≤ tmpdir.bytes.length + 1 + name.bytes.length := by
    have hsize : outPathSize = 4352 := rfl
    omega
  constructor
  · intro hall
    -- A platform on which a directory cannot be read as a file.
    let P : Platform :=
      { tmpdir := tmpdir
        tmpdir_fits := htmpdir
        readdir := fun names => [dot] :: [dot, dot] :: names
        readdir_perm := fun _ => List.Perm.refl _
        slurpDir := fun _ => .error .io }
    have hback := hall P rfl
    rw [extractBuffer, show P.tmpdir = tmpdir from rfl, hdir] at hback
    by_cases hplain : ∀ c ∈ name.bytes, c ≠ slash ∧ c ≠ backslash
    · rw [publishAll_plain hsafe hplain] at hback
      by_cases hlong : outPathSize ≤ tmpdir.bytes.length + 1 + name.bytes.length
      · rw [if_pos hlong] at hback
        cases hback
      · rw [if_neg hlong] at hback
        dsimp only at hback
        rw [slurpFirst_single] at hback
        by_cases hdot : charAt name.bytes 0 = dot
        · rw [if_pos hdot] at hback
          cases hback
        · by_cases hshort : tmpdir.bytes.length + 1 + name.bytes.length ≤ 1023
          · exact ⟨hplain, hdot, hshort⟩
          · rw [if_neg hdot, if_neg hshort] at hback
            cases hback
    · exfalso
      have hsep : ∃ c ∈ name.bytes, c = slash ∨ c = backslash := by
        by_contra hnone
        apply hplain
        intro c hc
        constructor
        · intro hslash
          exact hnone ⟨c, hc, Or.inl hslash⟩
        · intro hback
          exact hnone ⟨c, hc, Or.inr hback⟩
      obtain ⟨first, inner, hnested⟩ : ∃ first inner, publishAll tmpdir [(name, data)] [] = _ :=
        publishAll_nested hsafe hsep data
      rw [hnested] at hback
      by_cases hlong : outPathSize ≤ tmpdir.bytes.length + 1 + name.bytes.length
      · rw [if_pos hlong] at hback
        cases hback
      · rw [if_neg hlong] at hback
        dsimp only at hback
        rw [slurpFirst_single] at hback
        split at hback
        · cases hback
        · split at hback
          · cases hback
          · cases hback
  · intro hfits P hP
    obtain ⟨hplain, hdot, hshort⟩ := hfits
    rw [extractBuffer, hP, hdir, publishAll_plain hsafe hplain, if_neg (hbuffer hshort)]
    dsimp only
    rw [slurpFirst_single, if_neg hdot, hP, if_pos hshort]

/-! ## Names that do not come back -/

/-- An archive layer that stores the name and the data next to each other. -/
def storedLayer : ArchiveLayer where
  autoCodec := codecVaptVupt
  compressFiles name data _ := .ok (name.bytes ++ 0 :: data)
  compressSolid name data _ := .ok (name.bytes ++ 0 :: data)
  extractArchive archive _ :=
    .ok [(⟨archive.takeWhile (· ≠ 0), fun h => by simpa using List.mem_takeWhile_imp h⟩,
      (archive.dropWhile (· ≠ 0)).drop 1)]
  KeyPair _ _ := True

theorem storedLayer_roundTrips : storedLayer.RoundTrips := by
  intro solid name data zc zx archive h _ _
  have harchive : archive = name.bytes ++ 0 :: data := by
    rw [ArchiveLayer.compressOne] at h
    split at h
    · cases h
    · cases solid with
      | false => cases h; rfl
      | true => cases h; rfl
  have hname : ∀ c ∈ name.bytes, decide (c ≠ 0) = true := by
    intro c hc
    have hne : c ≠ 0 := by
      rintro rfl
      exact name.nulFree hc
    simpa using hne
  have htake : archive.takeWhile (· ≠ 0) = name.bytes := by
    rw [harchive, List.takeWhile_append_of_pos hname]
    simp
  have hdrop : (archive.dropWhile (· ≠ 0)).drop 1 = data := by
    rw [harchive, List.dropWhile_append_of_pos hname]
    simp
  show Except.ok _ = _
  congr

/-- `/tmp/x`, where the extraction works. -/
def workDir : CString := ⟨[0x2F, 0x74, 0x6D, 0x70, 0x2F, 0x78], by decide⟩

/-- `.env`. -/
def dotEnv : CString := ⟨[0x2E, 0x65, 0x6E, 0x76], by decide⟩

/-- `env`. -/
def plainEnv : CString := ⟨[0x65, 0x6E, 0x76], by decide⟩

/-- A platform that lists what it has in order. -/
def listing : Platform where
  tmpdir := workDir
  tmpdir_fits := by decide
  readdir names := [dot] :: [dot, dot] :: names
  readdir_perm _ := List.Perm.refl _
  slurpDir _ := .error .io

/-- **A NAME THAT BEGINS WITH A DOT** is compressed and not found again. -/
theorem extractBuffer_misses_dotEnv :
    storedLayer.RoundTrips ∧
      compressBuffer storedLayer none none dotEnv [1, 2, 3] none none =
        .ok (dotEnv.bytes ++ [0, 1, 2, 3]) ∧
      storedLayer.KeysMatch none none ∧ [1, 2, 3].length ≤ (quota none).toNat ∧
      extractBuffer storedLayer listing none (dotEnv.bytes ++ [0, 1, 2, 3]) none none =
        .error .badArchive := by
  refine ⟨storedLayer_roundTrips, by decide, trivial, by decide, by decide⟩

theorem extractBuffer_finds_plainEnv :
    compressBuffer storedLayer none none plainEnv [1, 2, 3] none none =
        .ok (plainEnv.bytes ++ [0, 1, 2, 3]) ∧
      ((∀ P : Platform, P.tmpdir = workDir →
          extractBuffer storedLayer P none (plainEnv.bytes ++ [0, 1, 2, 3]) none none =
            .ok [1, 2, 3]) ↔ NameFits workDir plainEnv) := by
  have h : compressBuffer storedLayer none none plainEnv [1, 2, 3] none none =
      .ok (plainEnv.bytes ++ [0, 1, 2, 3]) := by decide
  have hkeys : storedLayer.KeysMatch none none := trivial
  have hquota : quota none = 0 ∨ [1, 2, 3].length ≤ (quota none).toNat := by
    right
    decide
  exact ⟨h, extractBuffer_iff_nameFits storedLayer_roundTrips h hkeys hquota workDir (by decide)⟩

end Zupt.Sdk
