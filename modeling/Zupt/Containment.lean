import Zupt.Paths

/-! # Extraction stays below its root

    `zupt_path_is_safe` scans a path, and `zupt_safe_fopen_output` walks it, each
    with a loop of its own.  Both cut the path into the same names, and a name of a
    safe path stands for an entry of the directory it is looked up in: the walk
    neither stays, nor goes up, nor follows a link.

    System calls are answered by a file system that may change between any two of
    them. -/

namespace Zupt.Containment

open Zupt.Paths

/-! ## Names of a path -/

/-- A dot. -/
def dot : UInt8 := 0x2E

/-- `c == '/' || c == '\\'`. -/
def isSeparator (c : UInt8) : Bool := c = slash ∨ c = backslash

/-- The names from the cursor on, where `component` was read in front of it. -/
def namesFrom (component rest : Bytes) : List Bytes :=
  ((rest.splitOnP isSeparator).modifyHead (component ++ ·)).filter (· ≠ [])

/-- The non-empty components of a path, split on both separators. -/
def pathNames (path : Bytes) : List Bytes := (path.splitOnP isSeparator).filter (· ≠ [])

theorem namesFrom_eq (component rest : Bytes) : namesFrom component rest =
    (rest.splitOnPPrepend isSeparator component.reverse).filter (· ≠ []) := by
  rw [namesFrom, List.splitOnPPrepend_eq_modifyHead, List.reverse_reverse]

theorem pathNames_eq (path : Bytes) : pathNames path = namesFrom [] path := by
  rw [namesFrom_eq]
  rfl

theorem namesFrom_nil (component : Bytes) :
    namesFrom component [] = if component = [] then [] else [component] := by
  rw [namesFrom_eq, List.splitOnPPrepend_nil, List.reverse_reverse]
  by_cases hempty : component = []
  · simp [hempty]
  · simp [hempty]

theorem namesFrom_separator {c : UInt8} (hc : isSeparator c = true) (component rest : Bytes) :
    namesFrom component (c :: rest) =
      if component = [] then namesFrom [] rest else component :: namesFrom [] rest := by
  rw [namesFrom_eq, namesFrom_eq, List.splitOnPPrepend_cons_pos hc, List.reverse_reverse,
    List.filter_cons]
  by_cases hempty : component = []
  · rw [if_pos hempty, if_neg (by simp [hempty])]
    rfl
  · rw [if_neg hempty, if_pos (by simp [hempty])]
    rfl

theorem namesFrom_char {c : UInt8} (hc : isSeparator c = false) (component rest : Bytes) :
    namesFrom component (c :: rest) = namesFrom (component ++ [c]) rest := by
  rw [namesFrom_eq, List.splitOnPPrepend_cons_neg hc, namesFrom_eq, List.reverse_append]
  rfl

theorem isSeparator_iff {c : UInt8} : isSeparator c = true ↔ c = slash ∨ c = backslash := by
  rw [isSeparator, decide_eq_true_iff]

theorem not_isSeparator {c : UInt8} (hc : ¬ (c = slash ∨ c = backslash)) : isSeparator c = false :=
  decide_eq_false hc

/-- What every name of a path has in common. -/
theorem namesFrom_all {Q : UInt8 → Prop} {component rest : Bytes}
    (hcomponent : ∀ c ∈ component, Q c) (hrest : ∀ c ∈ rest, isSeparator c = false → Q c) :
    ∀ name ∈ namesFrom component rest, name ≠ [] ∧ ∀ c ∈ name, Q c := by
  induction rest generalizing component with
  | nil =>
      intro name hname
      rw [namesFrom_nil] at hname
      split at hname
      · cases hname
      · rename_i hempty
        rw [List.mem_singleton.mp hname]
        exact ⟨hempty, hcomponent⟩
  | cons c rest ih =>
      have hrest' : ∀ d ∈ rest, isSeparator d = false → Q d := fun d hd =>
        hrest d (List.mem_cons_of_mem c hd)
      intro name hname
      cases hc : isSeparator c with
      | true =>
          rw [namesFrom_separator hc] at hname
          split at hname
          · exact ih (fun d hd => by cases hd) hrest' name hname
          · rename_i hempty
            rcases List.mem_cons.mp hname with rfl | hmore
            · exact ⟨hempty, hcomponent⟩
            · exact ih (fun d hd => by cases hd) hrest' name hmore
      | false =>
          rw [namesFrom_char hc] at hname
          refine ih (fun d hd => ?_) hrest' name hname
          rcases List.mem_append.mp hd with hold | hnew
          · exact hcomponent d hold
          · rw [List.mem_singleton.mp hnew]
            exact hrest c List.mem_cons_self hc

/-! ## The scan of the predicate -/

/-- The scan has looked at every name, and the path ends in one. -/
theorem scan_safe {component rest : Bytes} (h : scanComponents component rest = true) :
    (∀ name ∈ namesFrom component rest, componentIsSafe name = true) ∧
      namesFrom component rest ≠ [] := by
  induction rest generalizing component with
  | nil =>
      rw [scanComponents] at h
      rw [namesFrom_nil]
      by_cases hempty : component = []
      · rw [hempty] at h
        cases h
      · rw [if_neg hempty]
        rw [if_neg (by simp [hempty])] at h
        refine ⟨fun name hname => ?_, List.cons_ne_nil _ _⟩
        rw [List.mem_singleton.mp hname]
        exact h
  | cons c rest ih =>
      rw [scanComponents] at h
      by_cases hc : c = slash ∨ c = backslash
      · rw [if_pos hc] at h
        rw [namesFrom_separator (isSeparator_iff.mpr hc)]
        by_cases hempty : component = []
        · rw [if_pos (by simp [hempty])] at h
          rw [if_pos hempty]
          exact ih h
        · rw [if_neg (by simp [hempty]), Bool.and_eq_true] at h
          rw [if_neg hempty]
          refine ⟨fun name hname => ?_, List.cons_ne_nil _ _⟩
          rcases List.mem_cons.mp hname with rfl | hmore
          · exact h.1
          · exact (ih h.2).1 name hmore
      · rw [if_neg hc] at h
        rw [namesFrom_char (not_isSeparator hc)]
        exact ih h

/-! ## Text of a name -/

/-- A scalar takes at most four bytes. -/
theorem decode_le_four {text : Bytes} {codepoint : UInt32} {n : Nat}
    (h : decodeUtf8Scalar text = some (codepoint, n)) : n ≤ 4 := by
  unfold decodeUtf8Scalar at h
  generalize charAt text 0 = a at h
  generalize charAt text 1 = b at h
  generalize charAt text 2 = c at h
  generalize charAt text 3 = d at h
  simp only at h
  repeat' split at h
  all_goals cases h
  all_goals decide

/-- A scalar that starts in a name ends in it: a separator continues none. -/
theorem decode_front {a c : UInt8} {name rest : Bytes} (hc : isSeparator c = true)
    {codepoint : UInt32} {n : Nat}
    (h : decodeUtf8Scalar (a :: (name ++ c :: rest)) = some (codepoint, n)) :
    n ≤ (a :: name).length ∧ decodeUtf8Scalar (a :: name) = some (codepoint, n) := by
  have hmark : c ≠ 0 ∧ ¬ c &&& 0xC0 = 0x80 ∧ ¬ c ≥ 128 ∧ ¬ c ≥ 144 ∧ ¬ c ≥ 160 := by
    rcases isSeparator_iff.mp hc with rfl | rfl <;> decide
  obtain ⟨hne, hcont, h128, h144, h160⟩ := hmark
  rcases name with _ | ⟨b, _ | ⟨c', _ | ⟨d, name⟩⟩⟩
  · -- one byte of the name: a longer scalar would need the separator
    simp only [decodeUtf8Scalar, charAt, List.nil_append, List.getD_cons_zero,
      List.getD_cons_succ, List.getD_nil, List.length_cons, List.length_nil, hne, hcont, h128, h144,
      h160, if_false, and_false, false_and, or_false, not_false_iff, if_true, ite_self] at h ⊢
    split_ifs at h ⊢ with ha
    obtain ⟨-, rfl⟩ := Prod.mk.inj (Option.some.inj h)
    exact ⟨Nat.le_refl _, h⟩
  · simp only [decodeUtf8Scalar, charAt, List.nil_append, List.cons_append, List.getD_cons_zero,
      List.getD_cons_succ, List.getD_nil, List.length_cons, List.length_nil, hcont, ne_eq,
      not_false_iff, if_true] at h ⊢
    split_ifs at h ⊢ with ha hb htwo
    · obtain ⟨-, rfl⟩ := Prod.mk.inj (Option.some.inj h)
      exact ⟨by omega, h⟩
    · obtain ⟨-, rfl⟩ := Prod.mk.inj (Option.some.inj h)
      exact ⟨by omega, h⟩
  · simp only [decodeUtf8Scalar, charAt, List.nil_append, List.cons_append, List.getD_cons_zero,
      List.getD_cons_succ, List.getD_nil, List.length_cons, List.length_nil, hcont, if_false, ne_eq,
      not_false_iff, if_true, hne] at h ⊢
    split_ifs at h ⊢ with ha hb htwo hc0 hc1 hthree
    · obtain ⟨-, rfl⟩ := Prod.mk.inj (Option.some.inj h)
      exact ⟨by omega, h⟩
    · obtain ⟨-, rfl⟩ := Prod.mk.inj (Option.some.inj h)
      exact ⟨by omega, h⟩
    · obtain ⟨-, rfl⟩ := Prod.mk.inj (Option.some.inj h)
      exact ⟨by omega, h⟩
  · have hsame : decodeUtf8Scalar (a :: b :: c' :: d :: name) = some (codepoint, n) := h
    refine ⟨?_, hsame⟩
    have hfour := decode_le_four hsame
    simp only [List.length_cons]
    omega

/-- What is in front of a separator has nothing to hide if the whole has not. -/
theorem text_front {c : UInt8} (hc : isSeparator c = true) {name rest : Bytes} {skip : Nat}
    (hskip : skip ≤ name.length) (h : unsafeTextFrom skip (name ++ c :: rest) = false) :
    unsafeTextFrom skip name = false ∧ unsafeTextFrom 0 rest = false := by
  induction name generalizing skip with
  | nil =>
      obtain rfl : skip = 0 := Nat.le_zero.mp hskip
      have hascii : charAt (c :: rest) 0 < 0x80 := by
        rcases isSeparator_iff.mp hc with rfl | rfl
        · exact (by decide : slash < 0x80)
        · exact (by decide : backslash < 0x80)
      rw [List.nil_append, unsafeTextFrom, decodeUtf8Scalar, if_pos hascii] at h
      exact ⟨rfl, (Bool.or_eq_false_iff.mp h).2⟩
  | cons a name ih =>
      cases skip with
      | succ skip =>
          rw [List.cons_append, unsafeTextFrom] at h
          rw [unsafeTextFrom]
          exact ih (Nat.le_of_succ_le_succ hskip) h
      | zero =>
          rw [List.cons_append, unsafeTextFrom] at h
          cases hdec : decodeUtf8Scalar (a :: (name ++ c :: rest)) with
          | none =>
              rw [hdec] at h
              cases h
          | some scalar =>
              obtain ⟨codepoint, n⟩ := scalar
              obtain ⟨hn, hsame⟩ := decode_front hc hdec
              rw [hdec] at h
              obtain ⟨hshown, hmore⟩ := Bool.or_eq_false_iff.mp h
              rw [List.length_cons] at hn
              obtain ⟨hname, hrest⟩ := ih (by omega) hmore
              refine ⟨?_, hrest⟩
              rw [unsafeTextFrom, hsame]
              exact Bool.or_eq_false_iff.mpr ⟨hshown, hname⟩

/-- **THE TEXT OF A NAME** is valid and shows what it is, if that of the path does. -/
theorem namesFrom_text {component rest : Bytes} (h : pathHasUnsafeText (component ++ rest) = false) :
    ∀ name ∈ namesFrom component rest, pathHasUnsafeText name = false := by
  induction rest generalizing component with
  | nil =>
      intro name hname
      rw [namesFrom_nil] at hname
      split at hname
      · cases hname
      · rw [List.append_nil] at h
        rw [List.mem_singleton.mp hname]
        exact h
  | cons c rest ih =>
      intro name hname
      cases hc : isSeparator c with
      | true =>
          obtain ⟨hcomponent, hrest⟩ := text_front hc (Nat.zero_le _) h
          rw [namesFrom_separator hc] at hname
          split at hname
          · exact ih (show pathHasUnsafeText ([] ++ rest) = false from hrest) name hname
          · rcases List.mem_cons.mp hname with rfl | hmore
            · exact hcomponent
            · exact ih (show pathHasUnsafeText ([] ++ rest) = false from hrest) name hmore
      | false =>
          rw [namesFrom_char hc] at hname
          refine ih ?_ name hname
          rw [List.append_assoc]
          exact h

/-- What the predicate promises of a name. -/
structure SafeName (name : Bytes) : Prop where
  nonempty : name ≠ []
  not_dot : name ≠ [dot]
  not_dotdot : name ≠ [dot, dot]
  no_separator : ∀ c ∈ name, c ≠ slash ∧ c ≠ backslash
  no_colon : ∀ c ∈ name, c ≠ 0x3A
  no_control : ∀ c ∈ name, 0x20 ≤ c ∧ c ≠ 0x7F
  text : pathHasUnsafeText name = false
  last : charAt name (name.length - 1) ≠ dot ∧ charAt name (name.length - 1) ≠ 0x20
  not_reserved : isReservedDosName name = false

/-- **EVERY NAME OF A SAFE PATH IS SAFE**. -/
theorem pathNames_safe {path : Bytes} (h : pathIsSafe path = true) :
    ∀ name ∈ pathNames path, SafeName name := by
  simp only [pathIsSafe, Bool.and_eq_true, Bool.not_eq_true'] at h
  obtain ⟨⟨⟨⟨-, htext⟩, -⟩, hcolon⟩, hscan⟩ := h
  have hno : ∀ c ∈ path, c ≠ 0x3A := by
    rintro c hc rfl
    rw [List.contains_iff_mem.mpr hc] at hcolon
    cases hcolon
  intro name hname
  rw [pathNames_eq] at hname
  have hchars := namesFrom_all (Q := fun c => isSeparator c = false ∧ c ≠ 0x3A)
    (fun c hc => by cases hc) (fun c hc hsep => ⟨hsep, hno c hc⟩) name hname
  have hsafe := (scan_safe hscan).1 name hname
  simp only [componentIsSafe, Bool.and_eq_true, Bool.not_eq_true', Bool.or_eq_false_iff,
    List.all_eq_true, beq_eq_false_iff_ne] at hsafe
  obtain ⟨⟨⟨hdot, hdotdot⟩, ⟨hlast, hspace⟩, hreserved⟩, hcontrol⟩ := hsafe
  refine ⟨hchars.1, hdot, hdotdot, ?_, fun c hc => (hchars.2 c hc).2, ?_, ?_, ⟨hlast, hspace⟩,
    hreserved⟩
  · intro c hc
    have hsep := of_decide_eq_false (hchars.2 c hc).1
    exact ⟨fun hslash => hsep (Or.inl hslash), fun hback => hsep (Or.inr hback)⟩
  · intro c hc
    obtain ⟨hlow, hdel⟩ := hcontrol c hc
    exact ⟨UInt8.not_lt.mp (of_decide_eq_false hlow), hdel⟩
  · exact namesFrom_text (show pathHasUnsafeText ([] ++ path) = false from htext) name hname

/-! ## Keys -/

/-- What `zupt_normalize_archive_path` makes of a byte of a name. -/
def foldByte (foldAscii : Bool) (c : UInt8) : UInt8 :=
  if foldAscii = true ∧ c ≥ 0x41 ∧ c ≤ 0x5A then c + 0x20 else c

/-- Names with one separator between them. -/
def joinNames (foldAscii : Bool) : List Bytes → Bytes
  | [] => []
  | [name] => name.map (foldByte foldAscii)
  | name :: next :: more =>
      name.map (foldByte foldAscii) ++ slash :: joinNames foldAscii (next :: more)

theorem normalizeFrom_separator {foldAscii : Bool} {c : UInt8} (hc : c = slash ∨ c = backslash)
    (rest : Bytes) :
    normalizeFrom foldAscii true (c :: rest) = normalizeFrom foldAscii true rest ∧
      normalizeFrom foldAscii false (c :: rest) = slash :: normalizeFrom foldAscii true rest := by
  constructor
  · rw [normalizeFrom, if_pos hc, if_pos rfl]
  · rw [normalizeFrom, if_pos hc, if_neg Bool.false_ne_true]

theorem normalizeFrom_char {foldAscii previous : Bool} {c : UInt8}
    (hc : ¬ (c = slash ∨ c = backslash)) (rest : Bytes) :
    normalizeFrom foldAscii previous (c :: rest) =
      foldByte foldAscii c :: normalizeFrom foldAscii false rest := by
  rw [normalizeFrom, if_neg hc, foldByte]
  split
  · rfl
  · rfl

/-- The key of what is behind the cursor: `component` has gone into the key, or a
    separator has. -/
theorem normalizeFrom_join {foldAscii : Bool} {component rest : Bytes}
    (h : scanComponents component rest = true) :
    (component ≠ [] → component.map (foldByte foldAscii) ++ normalizeFrom foldAscii false rest =
        joinNames foldAscii (namesFrom component rest)) ∧
      (component = [] → normalizeFrom foldAscii true rest =
        joinNames foldAscii (namesFrom component rest)) := by
  induction rest generalizing component with
  | nil =>
      rw [scanComponents] at h
      constructor
      · intro hne
        rw [namesFrom_nil, if_neg hne, normalizeFrom, List.append_nil, joinNames]
      · rintro rfl
        cases h
  | cons c rest ih =>
      rw [scanComponents] at h
      by_cases hc : c = slash ∨ c = backslash
      · rw [if_pos hc] at h
        rw [namesFrom_separator (isSeparator_iff.mpr hc), (normalizeFrom_separator hc rest).1,
          (normalizeFrom_separator hc rest).2]
        constructor
        · intro hne
          rw [if_neg (by simp [hne]), Bool.and_eq_true] at h
          rw [if_neg hne, (ih h.2).2 rfl]
          obtain ⟨next, more, hmore⟩ := List.exists_cons_of_ne_nil (scan_safe h.2).2
          rw [hmore, joinNames]
        · rintro rfl
          rw [if_pos List.isEmpty_nil] at h
          rw [if_pos rfl]
          exact (ih h).2 rfl
      · rw [if_neg hc] at h
        have hkey := (ih h).1 (by simp)
        rw [List.map_append, List.append_assoc] at hkey
        rw [namesFrom_char (not_isSeparator hc), normalizeFrom_char hc, normalizeFrom_char hc]
        constructor
        · intro hne
          exact hkey
        · rintro rfl
          exact hkey

/-- **THE KEY OF A SAFE PATH** is its names. -/
theorem normalize_eq_join {path : Bytes} (h : pathIsSafe path = true) (foldAscii : Bool) :
    normalizeArchivePath path foldAscii = joinNames foldAscii (pathNames path) := by
  simp only [pathIsSafe, Bool.and_eq_true, Bool.not_eq_true', Bool.or_eq_false_iff,
    beq_eq_false_iff_ne] at h
  obtain ⟨⟨⟨-, hslash, hback⟩, -⟩, hscan⟩ := h
  rw [pathNames_eq, ← (normalizeFrom_join hscan).2 rfl, normalizeArchivePath]
  cases path with
  | nil => rfl
  | cons c rest =>
      -- the first byte is no separator
      have hc : ¬ (c = slash ∨ c = backslash) := not_or.mpr ⟨hslash, hback⟩
      rw [normalizeFrom_char hc, normalizeFrom_char hc]

/-! ## System calls -/

/-- What a directory has under a name. -/
inductive Entry (ν : Type) where
  | dir (node : ν)
  | file (node : ν)
  | symlink (target : Bytes)

/-- A file system at the time of a system call. -/
structure FileSystem (ν : Type) where
  entry : ν → Bytes → Option (Entry ν)
  parent : ν → ν
  /-- The directory `/`. -/
  top : ν
  /-- Where a link leads that is met on the way. -/
  follow : ν → Bytes → Option ν
  /-- Whether a directory can be made, or is there already. -/
  makes : ν → Bytes → Bool
  /-- The new file under a name that was free. -/
  create : ν → Bytes → Option ν

namespace FileSystem

variable {ν : Type} (fs : FileSystem ν)

/-- One name of a path.  A link is followed on the way, and refused at the end. -/
def step (last : Bool) (d : ν) (name : Bytes) : Option ν :=
  if name = [] ∨ name = [dot] then some d
  else if name = [dot, dot] then some (fs.parent d)
  else
    match fs.entry d name with
    | some (.dir node) => some node
    | some (.symlink target) => if last then none else fs.follow d target
    | some (.file _) => none
    | none => none

/-- The directory in which the last name of a path is looked up. -/
def walkTo : (d : ν) → List Bytes → Option ν
  | d, [] => some d
  | d, [_] => some d
  | d, name :: next :: more => (fs.step false d name).bind fun d => walkTo d (next :: more)

/-- Where a path starts. -/
def start (d : ν) (path : Bytes) : ν := if charAt path 0 = slash then fs.top else d

/-- The names of a path for the system: only `/` separates them. -/
def systemNames (path : Bytes) : List Bytes := path.splitOnP (· = slash)

/-- `openat` with `O_DIRECTORY | O_NOFOLLOW`. -/
def openDirectory (d : ν) (path : Bytes) : Option ν :=
  if path = [] then none
  else (fs.walkTo (fs.start d path) (systemNames path)).bind fun d =>
    fs.step true d ((systemNames path).getLastD [])

/-- `mkdirat`, where a directory that is there is as good as a new one. -/
def mkdirat (d : ν) (path : Bytes) : Bool :=
  if path = [] then false
  else (fs.walkTo (fs.start d path) (systemNames path)).any fun d =>
    fs.makes d ((systemNames path).getLastD [])

/-- `openat` with `O_CREAT | O_EXCL | O_NOFOLLOW`. -/
def createFile (d : ν) (path : Bytes) : Option ν :=
  if path = [] then none
  else (fs.walkTo (fs.start d path) (systemNames path)).bind fun d =>
    fs.create d ((systemNames path).getLastD [])

/-- A name that is no path. -/
structure PlainName (name : Bytes) : Prop where
  nonempty : name ≠ []
  not_dot : name ≠ [dot]
  not_dotdot : name ≠ [dot, dot]
  no_slash : ∀ c ∈ name, c ≠ slash

variable {fs} {d node : ν} {name : Bytes}

theorem PlainName.walkTo (h : PlainName name) :
    fs.walkTo (fs.start d name) (systemNames name) = some d ∧ (systemNames name).getLastD [] = name := by
  have hnames : systemNames name = [name] :=
    List.splitOnP_eq_singleton fun c hc => decide_eq_false (h.no_slash c hc)
  have hstart : fs.start d name = d := by
    rw [start]
    refine if_neg fun hslash => ?_
    cases hname : name with
    | nil => exact h.nonempty hname
    | cons c rest =>
        rw [hname] at hslash
        exact h.no_slash c (by rw [hname]; exact List.mem_cons_self) hslash
  rw [hnames, hstart]
  exact ⟨rfl, rfl⟩

/-- **A PLAIN NAME** is opened as the entry it names. -/
theorem PlainName.openDirectory (h : PlainName name) (hopen : fs.openDirectory d name = some node) :
    fs.entry d name = some (.dir node) := by
  obtain ⟨hwalk, hlast⟩ : fs.walkTo (fs.start d name) (systemNames name) = some d ∧
      (systemNames name).getLastD [] = name := h.walkTo
  rw [FileSystem.openDirectory, if_neg h.nonempty, hwalk, hlast, Option.bind_some, step,
    if_neg (not_or.mpr ⟨h.nonempty, h.not_dot⟩), if_neg h.not_dotdot] at hopen
  cases hentry : fs.entry d name with
  | none =>
      rw [hentry] at hopen
      cases hopen
  | some e =>
      rw [hentry] at hopen
      cases e with
      | dir n =>
          obtain rfl := Option.some.inj hopen
          rfl
      | file n => cases hopen
      | symlink t => cases hopen

theorem PlainName.createFile (h : PlainName name) (hcreate : fs.createFile d name = some node) :
    fs.create d name = some node := by
  obtain ⟨hwalk, hlast⟩ : fs.walkTo (fs.start d name) (systemNames name) = some d ∧
      (systemNames name).getLastD [] = name := h.walkTo
  rw [FileSystem.createFile, if_neg h.nonempty, hwalk, hlast] at hcreate
  exact hcreate

/-- The name `.` is the directory it is looked up in. -/
theorem openDirectory_dot (fs : FileSystem ν) (d : ν) : fs.openDirectory d [dot] = some d := rfl

end FileSystem

/-! ## The walk -/

section Walk

variable {ν : Type}

/-- Why `zupt_safe_fopen_output` answers 0. -/
inductive Refusal where
  | inval
  | nameTooLong
  | system
  deriving DecidableEq

/-- `zupt_output_file_t`, with the node of the file behind `stream`. -/
structure Output (ν : Type) where
  parent : ν
  finalName : Bytes
  tempName : Bytes
  file : ν

/-- A directory that was entered: where, under which name, and which it is. -/
structure Entered (ν : Type) where
  parent : ν
  name : Bytes
  node : ν

/-- What a walk did and how it ended. -/
structure Walk (ν : Type) where
  entered : List (Entered ν)
  result : Except Refusal (Output ν)

/-- A digit of `%02x`. -/
def hexDigit (n : Nat) : UInt8 := if n < 10 then UInt8.ofNat (0x30 + n) else UInt8.ofNat (0x57 + n)

/-- `".zupt-tmp-%s"` with the bytes of the nonce as `%02x`. -/
def tempName (nonce : Bytes) : Bytes :=
  [0x2E, 0x7A, 0x75, 0x70, 0x74, 0x2D, 0x74, 0x6D, 0x70, 0x2D] ++
    nonce.flatMap fun b => [hexDigit (b.toNat / 16), hexDigit (b.toNat % 16)]

/-- The end of the walk in `d`, with `component` in front of the terminator. -/
def publish (os : Nat → FileSystem ν) (nonce : Bytes) (call : Nat) (component : Bytes) (d : ν) :
    Except Refusal (Output ν) :=
  if maxPath ≤ component.length then .error .nameTooLong
  else
    -- `zupt_publication_directory`
    match (os call).openDirectory d [dot] with
    | none => .error .system
    | some parent =>
        match (os (call + 1)).createFile parent (tempName nonce) with
        | none => .error .system
        | some file => .ok ⟨parent, component, tempName nonce, file⟩

/-- The loop of `zupt_safe_fopen_output`; `call` counts the system calls. -/
def walk (os : Nat → FileSystem ν) (nonce : Bytes) :
    (call : Nat) → (component rest : Bytes) → (d : ν) → Walk ν
  | call, component, [], d =>
      if component = [] ∨ component = [dot] then ⟨[], .error .inval⟩
      else ⟨[], publish os nonce call component d⟩
  | call, component, c :: rest, d =>
      if c = slash ∨ c = backslash then
        if component = [] ∨ component = [dot] then walk os nonce call [] rest d
        else if (os call).mkdirat d component then
          match (os (call + 1)).openDirectory d component with
          | none => ⟨[], .error .system⟩
          | some next =>
              let w := walk os nonce (call + 2) [] rest next
              ⟨⟨d, component, next⟩ :: w.entered, w.result⟩
        else ⟨[], .error .system⟩
      else walk os nonce call (component ++ [c]) rest d

/-- `for (char *p = relative; *p; p++) if (*p == '\\') *p = '/';` -/
def relative (entry : Bytes) : Bytes := entry.map fun c => if c = backslash then slash else c

/-- `zupt_safe_fopen_output`: `root` is the directory that `zupt_open_output_root`
    opens, and `call` the number of the next system call. -/
def safeFopenOutput (os : Nat → FileSystem ν) (nonce : Bytes) (dir : Option CString) (entry : Bytes)
    (displaySize : Nat) (root : Option ν) (call : Nat) : Walk ν :=
  if entry = [] ∨ displaySize = 0 then ⟨[], .error .inval⟩
  else if displaySize ≤ (dir.map fun d => d.bytes.length + 1).getD 0 + entry.length then
    ⟨[], .error .nameTooLong⟩
  else if entry.length = 0 ∨ maxPath ≤ entry.length then ⟨[], .error .nameTooLong⟩
  else
    match root with
    | none => ⟨[], .error .system⟩
    | some root => walk os nonce call [] (relative entry) root

/-- The components a walk has visited. -/
def Walk.names (w : Walk ν) : List Bytes :=
  w.entered.map Entered.name ++
    match w.result with
    | .ok out => [out.finalName]
    | .error _ => []

/-- The root, or a directory that was an entry of one when it was looked up. -/
inductive Reached (os : Nat → FileSystem ν) (root : ν) : ν → Prop where
  | root : Reached os root root
  | entry {d node : ν} {call : Nat} {name : Bytes} (hd : Reached os root d)
      (hentry : (os call).entry d name = some (.dir node)) : Reached os root node

/-- An entry of the root or of a directory below it, or a file made there. -/
def StrictlyBeneath (os : Nat → FileSystem ν) (root node : ν) : Prop :=
  ∃ d call name, Reached os root d ∧ FileSystem.PlainName name ∧
    ((os call).entry d name = some (.dir node) ∨ (os call).create d name = some node)

theorem SafeName.plain {name : Bytes} (h : SafeName name) : FileSystem.PlainName name :=
  ⟨h.nonempty, h.not_dot, h.not_dotdot, fun c hc => (h.no_separator c hc).1⟩

theorem hexDigit_ne_slash {n : Nat} (hn : n < 16) : hexDigit n ≠ slash := by
  have hall : ∀ n < 16, hexDigit n ≠ slash := by decide
  exact hall n hn

/-- The name of the temporary file is no path. -/
theorem tempName_plain (nonce : Bytes) : FileSystem.PlainName (tempName nonce) where
  nonempty := by
    rw [tempName]
    exact List.cons_ne_nil _ _
  not_dot := by
    intro h
    rw [tempName] at h
    cases h
  not_dotdot := by
    intro h
    rw [tempName] at h
    cases h
  no_slash := by
    intro c hc
    rw [tempName] at hc
    rcases List.mem_append.mp hc with hfixed | hhex
    · have hall : ∀ c ∈ ([0x2E, 0x7A, 0x75, 0x70, 0x74, 0x2D, 0x74, 0x6D, 0x70, 0x2D] : Bytes),
          c ≠ slash := by decide +kernel
      exact hall c hfixed
    · obtain ⟨b, -, hb⟩ := List.mem_flatMap.mp hhex
      have hlt := b.toNat_lt
      rcases List.mem_cons.mp hb with rfl | hlow
      · exact hexDigit_ne_slash (by omega)
      · rw [List.mem_singleton.mp hlow]
        exact hexDigit_ne_slash (by omega)

variable {os : Nat → FileSystem ν} {nonce : Bytes} {root : ν}

/-- What is published stands in the directory the walk has reached. -/
theorem publish_spec {call : Nat} {component : Bytes} {d : ν} (hd : Reached os root d)
    {out : Output ν} (h : publish os nonce call component d = .ok out) :
    out.finalName = component ∧ out.parent = d ∧ StrictlyBeneath os root out.file := by
  rw [publish] at h
  split at h
  · cases h
  rw [FileSystem.openDirectory_dot] at h
  dsimp only at h
  cases hfile : (os (call + 1)).createFile d (tempName nonce) with
  | none =>
      rw [hfile] at h
      cases h
  | some file =>
      rw [hfile] at h
      obtain rfl := Except.ok.inj h
      exact ⟨rfl, rfl, d, call + 1, tempName nonce, hd, tempName_plain nonce,
        Or.inr ((tempName_plain nonce).createFile hfile)⟩

/-- What a walk from `d` on has done, where `names` are the names in front of it. -/
structure Contained (os : Nat → FileSystem ν) (root : ν) (names : List Bytes) (w : Walk ν) : Prop where
  visits : w.names <+: names
  beneath : ∀ e ∈ w.entered, StrictlyBeneath os root e.node
  ends : ∀ out, w.result = .ok out →
    w.names = names ∧ Reached os root out.parent ∧ StrictlyBeneath os root out.file

theorem contained_error {names : List Bytes} (e : Refusal) :
    Contained os root names ⟨[], .error e⟩ where
  visits := List.nil_prefix
  beneath := fun _ h => by cases h
  ends := fun _ h => by cases h

/-- One directory more in front of a walk. -/
theorem Contained.enter {names : List Bytes} {w : Walk ν} (h : Contained os root names w)
    {e : Entered ν} (he : StrictlyBeneath os root e.node) :
    Contained os root (e.name :: names) ⟨e :: w.entered, w.result⟩ where
  visits := List.cons_prefix_cons.mpr ⟨rfl, h.visits⟩
  beneath := by
    intro e' he'
    rcases List.mem_cons.mp he' with rfl | hmore
    · exact he
    · exact h.beneath e' hmore
  ends := by
    intro out hout
    obtain ⟨hnames, hrest⟩ := h.ends out hout
    exact ⟨congrArg (e.name :: ·) hnames, hrest⟩

/-- **THE WALK** goes through the names of the path, down from the root. -/
theorem walk_contained {call : Nat} {component rest : Bytes} {d : ν}
    (hplain : ∀ name ∈ namesFrom component rest, FileSystem.PlainName name)
    (hd : Reached os root d) :
    Contained os root (namesFrom component rest) (walk os nonce call component rest d) := by
  induction rest generalizing call component d with
  | nil =>
      rw [namesFrom_nil] at hplain ⊢
      rw [walk]
      by_cases hempty : component = []
      · rw [if_pos (Or.inl hempty)]
        exact contained_error _
      rw [if_neg hempty] at hplain ⊢
      have hname := hplain component (List.mem_singleton_self _)
      rw [if_neg (not_or.mpr ⟨hempty, hname.not_dot⟩)]
      cases hpublish : publish os nonce call component d with
      | error e => exact contained_error e
      | ok out =>
          obtain ⟨hfinal, hparent, hfile⟩ := publish_spec hd hpublish
          have hnames : (⟨[], .ok out⟩ : Walk ν).names = [component] := by
            rw [← hfinal]
            rfl
          refine ⟨by rw [hnames], fun _ hmem => (by cases hmem), fun out' hout => ?_⟩
          obtain rfl := Except.ok.inj hout
          rw [hparent]
          exact ⟨hnames, hd, hfile⟩
  | cons c rest ih =>
      rw [walk]
      by_cases hc : c = slash ∨ c = backslash
      · rw [if_pos hc]
        rw [namesFrom_separator (isSeparator_iff.mpr hc)] at hplain ⊢
        by_cases hempty : component = []
        · rw [if_pos hempty] at hplain ⊢
          rw [if_pos (Or.inl hempty)]
          exact ih hplain hd
        rw [if_neg hempty] at hplain ⊢
        have hname := hplain component List.mem_cons_self
        rw [if_neg (not_or.mpr ⟨hempty, hname.not_dot⟩)]
        split
        · cases hopen : (os (call + 1)).openDirectory d component with
          | none => exact contained_error _
          | some next =>
              have hentry := hname.openDirectory hopen
              have hrest := @ih (call + 2) [] next
                (fun name hmem => hplain name (List.mem_cons_of_mem _ hmem)) (.entry hd hentry)
              exact hrest.enter (e := ⟨d, component, next⟩) ⟨d, call + 1, component, hd, hname, Or.inl hentry⟩
        · exact contained_error _
      · rw [if_neg hc]
        rw [namesFrom_char (not_isSeparator hc)] at hplain ⊢
        exact ih hplain hd

/-- One separator for both cuts the path the same way. -/
theorem namesFrom_relative (component rest : Bytes) :
    namesFrom component (relative rest) = namesFrom component rest := by
  induction rest generalizing component with
  | nil => rfl
  | cons c rest ih =>
      rw [relative, List.map_cons, ← relative]
      by_cases hback : c = backslash
      · rw [if_pos hback, namesFrom_separator (isSeparator_iff.mpr (Or.inl rfl)),
          namesFrom_separator (isSeparator_iff.mpr (Or.inr hback)), ih]
      rw [if_neg hback]
      cases hc : isSeparator c with
      | true => rw [namesFrom_separator hc, namesFrom_separator hc, ih]
      | false => rw [namesFrom_char hc, namesFrom_char hc, ih]

theorem safeFopenOutput_contained {path : Bytes} (hsafe : pathIsSafe path = true)
    (dir : Option CString) (displaySize call : Nat) :
    Contained os root (pathNames path)
      (safeFopenOutput os nonce dir path displaySize (some root) call) := by
  rw [safeFopenOutput]
  split
  · exact contained_error _
  split
  · exact contained_error _
  split
  · exact contained_error _
  · rw [pathNames_eq, ← namesFrom_relative]
    refine walk_contained (fun name hname => ?_) .root
    rw [namesFrom_relative, ← pathNames_eq] at hname
    exact (pathNames_safe hsafe name hname).plain

end Walk

/-- **CONTAINMENT**: every name of a safe path is safe; the walk visits these names and no
    others, and what it opens is below the root, whatever happens to the file system
    in the meantime; and paths with different keys have different names. -/
theorem path_containment (p : CString) (hsafe : pathIsSafe p.bytes = true) :
    (∀ name ∈ pathNames p.bytes, SafeName name) ∧
    (∀ (ν : Type) (os : Nat → FileSystem ν) (nonce : Bytes) (dir : Option CString)
      (displaySize call : Nat) (root : ν),
      Contained os root (pathNames p.bytes)
        (safeFopenOutput os nonce dir p.bytes displaySize (some root) call)) ∧
    ∀ (q : CString) (foldAscii : Bool), pathIsSafe q.bytes = true →
      normalizeArchivePath p.bytes foldAscii ≠ normalizeArchivePath q.bytes foldAscii →
      pathNames p.bytes ≠ pathNames q.bytes := by
  refine ⟨pathNames_safe hsafe, ?_, ?_⟩
  · intro ν os nonce dir displaySize call root
    exact safeFopenOutput_contained hsafe dir displaySize call
  · intro q foldAscii hq hkeys hnames
    rw [normalize_eq_join hsafe, normalize_eq_join hq, hnames] at hkeys
    exact hkeys rfl

/-- Directories are where they are asked for; a node is the way to it. -/
def everywhere : FileSystem (List Bytes) where
  entry d name := some (.dir (d ++ [name]))
  parent := List.dropLast
  top := []
  follow _ _ := none
  makes _ _ := true
  create d name := some (d ++ [name])

theorem twoNames_nulFree : (0 : UInt8) ∉ ([0x61, 0x2F, 0x62] : Bytes) := by decide

/-- The path `a/b`. -/
def twoNames : CString := ⟨[0x61, 0x2F, 0x62], twoNames_nulFree⟩

/-- The walk of `a/b` visits `a` and `b`, and the file is below the root. -/
theorem path_containment_run :
    pathNames twoNames.bytes = [[0x61], [0x62]] ∧
    (safeFopenOutput (fun _ => everywhere) [] none twoNames.bytes maxPath (some [[0x72]]) 0).names =
      [[0x61], [0x62]] ∧
    StrictlyBeneath (fun _ => everywhere) [[0x72]] [[0x72], [0x61], tempName []] := by
  have hall := (path_containment twoNames (by decide)).2.1 _ (fun _ => everywhere) [] none
    maxPath 0 [[0x72]]
  have hnames : pathNames twoNames.bytes = [[0x61], [0x62]] := by decide
  obtain ⟨hvisits, -, hfile⟩ := hall.ends ⟨[[0x72], [0x61]], [0x62], tempName [],
    [[0x72], [0x61], tempName []]⟩ (by rfl)
  exact ⟨hnames, hvisits.trans hnames, hfile⟩

end Zupt.Containment
