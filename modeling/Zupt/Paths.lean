import Zupt.Basic
import Zupt.PrefixOrder

/-! # Archive paths: safety, normalisation, destination validation

    The path half of `zupt_format.c`.  `pathIsSafe` is the gate every writer
    and the extractor put in front of an archive path; `normalizeArchivePath`
    makes the key under which two paths name one destination; and
    `validateArchiveDestinations` sorts the keys and looks for equal keys, or
    a key that is an ancestor of another, between neighbours of the sorted
    list.  The order theory of that neighbour search is `Zupt.PrefixOrder`.

    Strings are NUL-free byte lists; `charAt` reads the terminating NUL. -/

namespace Zupt.Paths

open Zupt.PrefixOrder

/-- `ZUPT_MAX_PATH`. -/
def maxPath : Nat := 4096

/-- The byte `'/'`. -/
def slash : UInt8 := 0x2F

/-- The byte `'\\'`. -/
def backslash : UInt8 := 0x5C

/-! ## Text -/

/-- `zupt_decode_utf8_scalar`: the scalar at the front of the text and the
    number of bytes it takes; `none` for the C function's length zero. -/
def decodeUtf8Scalar (text : Bytes) : Option (UInt32 × Nat) :=
  let a := charAt text 0
  if a < 0x80 then some (a.toUInt32, 1)
  else if charAt text 1 = 0 then none
  else
    let b := charAt text 1
    if a ≥ 0xC2 ∧ a ≤ 0xDF ∧ b &&& 0xC0 = 0x80 then
      some (((a &&& 0x1F).toUInt32 <<< 6) ||| (b &&& 0x3F).toUInt32, 2)
    else if charAt text 2 = 0 then none
    else
      let c := charAt text 2
      if c &&& 0xC0 ≠ 0x80 then none
      else if (a = 0xE0 ∧ b ≥ 0xA0 ∧ b ≤ 0xBF) ∨
          ((a ≥ 0xE1 ∧ a ≤ 0xEC) ∧ b &&& 0xC0 = 0x80) ∨
          (a = 0xED ∧ b ≥ 0x80 ∧ b ≤ 0x9F) ∨
          ((a ≥ 0xEE ∧ a ≤ 0xEF) ∧ b &&& 0xC0 = 0x80) then
        some (((a &&& 0x0F).toUInt32 <<< 12) ||| ((b &&& 0x3F).toUInt32 <<< 6)
          ||| (c &&& 0x3F).toUInt32, 3)
      else if charAt text 3 = 0 then none
      else
        let d := charAt text 3
        if d &&& 0xC0 ≠ 0x80 then none
        else if ¬ ((a = 0xF0 ∧ b ≥ 0x90 ∧ b ≤ 0xBF) ∨
            ((a ≥ 0xF1 ∧ a ≤ 0xF3) ∧ b &&& 0xC0 = 0x80) ∨
            (a = 0xF4 ∧ b ≥ 0x80 ∧ b ≤ 0x8F)) then none
        else
          some (((a &&& 0x07).toUInt32 <<< 18) ||| ((b &&& 0x3F).toUInt32 <<< 12)
            ||| ((c &&& 0x3F).toUInt32 <<< 6) ||| (d &&& 0x3F).toUInt32, 4)

/-- `zupt_codepoint_is_display_control`. -/
def codepointIsDisplayControl (codepoint : UInt32) : Bool :=
  codepoint < 0x20 ||
  (codepoint ≥ 0x7F && codepoint ≤ 0x9F) ||
  codepoint == 0x061C ||
  (codepoint ≥ 0x200B && codepoint ≤ 0x200F) ||
  (codepoint ≥ 0x2028 && codepoint ≤ 0x202E) ||
  (codepoint ≥ 0x2060 && codepoint ≤ 0x206F) ||
  codepoint == 0xFEFF ||
  (codepoint ≥ 0xFFF9 && codepoint ≤ 0xFFFB)

/-- The loop of `zupt_path_has_unsafe_text`.  `skip` counts the bytes of the
    current scalar the cursor still has to step over. -/
def unsafeTextFrom : (skip : Nat) → Bytes → Bool
  | _, [] => false
  | skip + 1, _ :: rest => unsafeTextFrom skip rest
  | 0, a :: rest =>
      match decodeUtf8Scalar (a :: rest) with
      | none => true
      | some (codepoint, length) =>
          codepointIsDisplayControl codepoint || unsafeTextFrom (length - 1) rest

/-- `zupt_path_has_unsafe_text`. -/
def pathHasUnsafeText (path : Bytes) : Bool := unsafeTextFrom 0 path

/-! ## Safe paths -/

/-- ASCII upper case, as `zupt_ascii_equal_ci` folds it. -/
def asciiUpper (a : UInt8) : UInt8 := if a ≥ 0x61 ∧ a ≤ 0x7A then a - 0x20 else a

/-- `zupt_ascii_equal_ci`. -/
def asciiEqualCi (value literal : Bytes) : Bool :=
  value.length == literal.length && value.map asciiUpper == literal.map asciiUpper

/-- `zupt_is_reserved_dos_name`: the part before the first dot is `CON`,
    `PRN`, `AUX`, `NUL`, `COM1`..`COM9` or `LPT1`..`LPT9`. -/
def isReservedDosName (component : Bytes) : Bool :=
  let base := component.takeWhile (· ≠ 0x2E)
  asciiEqualCi base [0x43, 0x4F, 0x4E] ||
  asciiEqualCi base [0x50, 0x52, 0x4E] ||
  asciiEqualCi base [0x41, 0x55, 0x58] ||
  asciiEqualCi base [0x4E, 0x55, 0x4C] ||
  (base.length == 4 &&
    asciiUpper (charAt component 0) == 0x43 &&
    asciiUpper (charAt component 1) == 0x4F &&
    asciiUpper (charAt component 2) == 0x4D &&
    charAt component 3 ≥ 0x31 && charAt component 3 ≤ 0x39) ||
  (base.length == 4 &&
    asciiUpper (charAt component 0) == 0x4C &&
    asciiUpper (charAt component 1) == 0x50 &&
    asciiUpper (charAt component 2) == 0x54 &&
    charAt component 3 ≥ 0x31 && charAt component 3 ≤ 0x39)

/-- The checks `zupt_path_is_safe` makes on one non-empty component. -/
def componentIsSafe (component : Bytes) : Bool :=
  !(component == [0x2E] || component == [0x2E, 0x2E]) &&
  !(charAt component (component.length - 1) == 0x2E ||
    charAt component (component.length - 1) == 0x20 ||
    isReservedDosName component) &&
  component.all (fun c => !(c < 0x20 || c == 0x7F))

/-- The component scan of `zupt_path_is_safe`.  `component` holds the bytes
    from `start` up to the cursor; a repeated separator is skipped, a
    trailing one fails. -/
def scanComponents : (component : Bytes) → Bytes → Bool
  | component, [] =>
      if component.isEmpty then false else componentIsSafe component
  | component, c :: rest =>
      if c = slash ∨ c = backslash then
        if component.isEmpty then scanComponents [] rest
        else componentIsSafe component && scanComponents [] rest
      else scanComponents (component ++ [c]) rest

/-- `zupt_path_is_safe`. -/
def pathIsSafe (path : Bytes) : Bool :=
  !path.isEmpty &&
  path.length < maxPath &&
  !pathHasUnsafeText path &&
  !(charAt path 0 == slash || charAt path 0 == backslash) &&
  !path.contains 0x3A &&
  scanComponents [] path

/-! ## Keys -/

/-- The loop of `zupt_normalize_archive_path`. -/
def normalizeFrom (foldAscii : Bool) : (previousSeparator : Bool) → Bytes → Bytes
  | _, [] => []
  | previousSeparator, c :: rest =>
      if c = slash ∨ c = backslash then
        if previousSeparator then normalizeFrom foldAscii true rest
        else slash :: normalizeFrom foldAscii true rest
      else if foldAscii = true ∧ c ≥ 0x41 ∧ c ≤ 0x5A then
        (c + 0x20) :: normalizeFrom foldAscii false rest
      else c :: normalizeFrom foldAscii false rest

/-- `zupt_normalize_archive_path`. -/
def normalizeArchivePath (path : Bytes) (foldAscii : Bool) : Bytes :=
  normalizeFrom foldAscii false path

/-- `strcmp`: bytes compare as unsigned characters, a string that ends first
    is the smaller one. -/
def strcmp : Bytes → Bytes → Ordering
  | [], [] => .eq
  | [], _ :: _ => .lt
  | _ :: _, [] => .gt
  | a :: as, b :: bs =>
      if a < b then .lt else if b < a then .gt else strcmp as bs

/-- `strncmp`: `strcmp` over at most `n` bytes. -/
def strncmp : Nat → Bytes → Bytes → Ordering
  | 0, _, _ => .eq
  | _ + 1, [], [] => .eq
  | _ + 1, [], _ :: _ => .lt
  | _ + 1, _ :: _, [] => .gt
  | n + 1, a :: as, b :: bs =>
      if a < b then .lt else if b < a then .gt else strncmp n as bs

/-- The comparator `zupt_compare_path_keys` that `qsort` is called with. -/
def comparePathKeys (left right : Bytes) : Ordering := strcmp left right

/-- `qsort` with `zupt_compare_path_keys`.  Keys that compare equal are equal
    strings, so every correct sort gives this list. -/
def sortKeys (keys : List Bytes) : List Bytes :=
  keys.insertionSort fun a b => comparePathKeys a b ≠ .gt

/-- The test the validation makes on two neighbouring keys. -/
def keysCollide (previous current : Bytes) : Bool :=
  strcmp previous current == .eq ||
  (strncmp previous.length previous current == .eq &&
    charAt current previous.length == slash)

/-- The loop over neighbours: is there an `i` at which keys `i - 1` and `i`
    collide? -/
def neighboursCollide : List Bytes → Bool
  | a :: b :: rest => keysCollide a b || neighboursCollide (b :: rest)
  | _ => false

/-- The loop that checks the paths and builds their keys. -/
def buildKeys (requireSafePaths : Bool) : List CString → Result (List Bytes)
  | [] => .ok []
  | path :: rest =>
      if requireSafePaths && !pathIsSafe path.bytes then .error .invalid
      else
        match buildKeys requireSafePaths rest with
        | .error e => .error e
        | .ok keys => .ok (normalizeArchivePath path.bytes true :: keys)

/-- `zupt_validate_archive_destinations`, outside Windows and with every
    allocation granted. -/
def validateArchiveDestinations (archivePaths : List CString)
    (requireSafePaths : Bool) : Result Unit :=
  if archivePaths.length < 2 then
    if requireSafePaths && archivePaths.any (fun p => !pathIsSafe p.bytes) then
      .error .invalid
    else .ok ()
  else
    match buildKeys requireSafePaths archivePaths with
    | .error e => .error e
    | .ok keys => if neighboursCollide (sortKeys keys) then .error .invalid else .ok ()

/-! ## The comparator is the lexicographic order -/

/-- `strcmp` answers greater exactly for lexicographically larger strings. -/
theorem strcmp_gt_iff (a b : Bytes) : strcmp a b = .gt ↔ b < a := by
  induction a generalizing b with
  | nil => cases b <;> simp [strcmp]
  | cons x a ih =>
      cases b with
      | nil => simp [strcmp]
      | cons y b =>
          rw [strcmp, List.cons_lt_cons_iff]
          rcases lt_trichotomy x y with h | h | h
          · simp [h, h.ne', lt_asymm h]
          · subst h
            simp [ih]
          · simp [h, h.le]

theorem strcmp_eq_iff (a b : Bytes) : strcmp a b = .eq ↔ a = b := by
  induction a generalizing b with
  | nil => cases b <;> simp [strcmp]
  | cons x a ih =>
      cases b with
      | nil => simp [strcmp]
      | cons y b =>
          rw [strcmp]
          rcases lt_trichotomy x y with h | h | h
          · simp [h, h.ne]
          · subst h
            simp [ih]
          · simp [h, h.ne', lt_asymm h]

/-- The order `qsort` sorts by. -/
theorem comparePathKeys_le_iff (a b : Bytes) : comparePathKeys a b ≠ .gt ↔ a ≤ b := by
  rw [comparePathKeys, ne_eq, strcmp_gt_iff, not_lt]

/-- `strncmp` over the whole of `p` tests for a prefix. -/
theorem strncmp_length_eq_iff (p q : Bytes) :
    strncmp p.length p q = .eq ↔ p <+: q := by
  induction p generalizing q with
  | nil => simp [strncmp]
  | cons x p ih =>
      cases q with
      | nil => simp [strncmp]
      | cons y q =>
          rw [List.length_cons, strncmp, List.cons_prefix_cons]
          rcases lt_trichotomy x y with h | h | h
          · simp [h, h.ne]
          · subst h
            simp [ih]
          · simp [h, h.ne', lt_asymm h]

/-- The neighbour test is the abstract clash. -/
theorem keysCollide_iff (p q : Bytes) :
    keysCollide p q = true ↔ Clash slash p q := by
  rw [keysCollide, Bool.or_eq_true, Bool.and_eq_true, beq_iff_eq, beq_iff_eq,
    beq_iff_eq, strcmp_eq_iff, strncmp_length_eq_iff]
  unfold Clash Extends
  constructor
  · rintro (h | ⟨⟨t, rfl⟩, hc⟩)
    · exact Or.inl h
    · refine Or.inr ?_
      cases t with
      | nil =>
          have h0 : charAt (p ++ []) p.length = 0 := by simp [charAt]
          rw [h0] at hc
          exact absurd hc (by decide)
      | cons c t =>
          have h0 : charAt (p ++ c :: t) p.length = c := by simp [charAt]
          rw [h0] at hc
          exact ⟨t, by rw [hc]⟩
  · rintro (h | ⟨r, rfl⟩)
    · exact Or.inl h
    · exact Or.inr ⟨List.prefix_append _ _, by simp [charAt]⟩

theorem neighboursCollide_iff (L : List Bytes) :
    neighboursCollide L = true ↔ ∃ a b, Adjacent L a b ∧ Clash slash a b := by
  induction L with
  | nil =>
      simp only [neighboursCollide, Bool.false_eq_true, false_iff]
      rintro ⟨a, b, hadj, -⟩
      exact absurd hadj.mem_left (by simp)
  | cons x L ih =>
      cases L with
      | nil =>
          simp only [neighboursCollide, Bool.false_eq_true, false_iff]
          rintro ⟨a, b, ⟨l₁, l₂, h⟩, -⟩
          have hlen := congrArg List.length h
          simp only [List.length_cons, List.length_nil, List.length_append] at hlen
          omega
      | cons y L =>
          rw [neighboursCollide, Bool.or_eq_true, keysCollide_iff, ih]
          constructor
          · rintro (h | ⟨a, b, hadj, h⟩)
            · exact ⟨x, y, ⟨[], L, rfl⟩, h⟩
            · exact ⟨a, b, hadj.cons x, h⟩
          · rintro ⟨a, b, ⟨l₁, l₂, heq⟩, h⟩
            cases l₁ with
            | nil =>
                rw [List.nil_append, List.cons.injEq, List.cons.injEq] at heq
                obtain ⟨rfl, rfl, -⟩ := heq
                exact Or.inl h
            | cons z l₁ =>
                rw [List.cons_append, List.cons.injEq] at heq
                exact Or.inr ⟨a, b, ⟨l₁, l₂, heq.2⟩, h⟩

theorem sortKeys_perm (keys : List Bytes) : (sortKeys keys).Perm keys :=
  List.perm_insertionSort _ keys

theorem sortKeys_sorted (keys : List Bytes) : (sortKeys keys).Pairwise (· ≤ ·) := by
  have hrel : (fun a b : Bytes => comparePathKeys a b ≠ .gt) = (· ≤ ·) := by
    funext a b
    rw [← comparePathKeys_le_iff]
  have hsort : sortKeys keys = keys.insertionSort (· ≤ ·) := by
    rw [sortKeys]
    congr
  rw [hsort]
  exact List.pairwise_insertionSort (· ≤ ·) keys

/-! ## What the validation decides -/

/-- The key of an archive path: separators normalised, ASCII case folded. -/
def destinationKey (path : CString) : Bytes := normalizeArchivePath path.bytes true

/-- The purpose of the validation: no two destinations are the same, and no
    destination is a directory on the way to another. -/
def DestinationsDisjoint (paths : List CString) : Prop :=
  (paths.map destinationKey).Nodup ∧
    ∀ p ∈ paths.map destinationKey, ∀ q ∈ paths.map destinationKey,
      ¬ Extends slash p q

/-- Destinations that only collide out of each other's sight: no key is
    repeated, some key is an ancestor of another, and every such ancestor `p`
    comes with a key that goes on from `p` with a byte below `'/'`. -/
def AncestorsShadowed (paths : List CString) : Prop :=
  (paths.map destinationKey).Nodup ∧
    (∃ p ∈ paths.map destinationKey, ∃ q ∈ paths.map destinationKey,
      Extends slash p q) ∧
    ∀ p ∈ paths.map destinationKey,
      (∃ q ∈ paths.map destinationKey, Extends slash p q) →
      ∃ k ∈ paths.map destinationKey, Blocks slash p k

/-- With safe paths the first loop only builds the keys. -/
theorem buildKeys_of_safe (requireSafePaths : Bool) (paths : List CString)
    (hsafe : ∀ p ∈ paths, pathIsSafe p.bytes = true) :
    buildKeys requireSafePaths paths = .ok (paths.map destinationKey) := by
  induction paths with
  | nil => rfl
  | cons p paths ih =>
      have hp := hsafe p (by simp)
      have hrest := ih (fun q hq => hsafe q (by simp [hq]))
      simp only [buildKeys, hp, hrest, Bool.not_true, Bool.and_false,
        Bool.false_eq_true, if_false, List.map_cons, destinationKey]

/-- A list of fewer than two words has no repetition and no extension. -/
theorem short_disjoint {L : List Bytes} (h : L.length < 2) :
    L.Nodup ∧ ∀ p ∈ L, ∀ q ∈ L, ¬ Extends slash p q := by
  match L, h with
  | [], _ => simp
  | [x], _ =>
      refine ⟨List.nodup_singleton x, ?_⟩
      intro p hp q hq hext
      rw [List.mem_singleton] at hp hq
      subst hp hq
      exact absurd hext.lt (lt_irrefl _)

/-- **THE CODE'S VERDICT** on safe paths: accepted exactly when no key is
    repeated and every ancestor among the keys is blocked. -/
theorem validate_ok_iff (paths : List CString) (requireSafePaths : Bool)
    (hsafe : ∀ p ∈ paths, pathIsSafe p.bytes = true) :
    validateArchiveDestinations paths requireSafePaths = .ok () ↔
      (paths.map destinationKey).Nodup ∧
        ¬ Unblocked slash (paths.map destinationKey) := by
  unfold validateArchiveDestinations
  by_cases hlen : paths.length < 2
  · have hany : (paths.any fun p => !pathIsSafe p.bytes) = false := by
      rw [List.any_eq_false]
      intro p hp
      simp [hsafe p hp]
    obtain ⟨hnd, hno⟩ := short_disjoint (L := paths.map destinationKey)
      (by rw [List.length_map]; exact hlen)
    rw [if_pos hlen, hany, Bool.and_false, if_neg (by simp)]
    simp only [hnd, true_and, true_iff]
    rintro ⟨p, hp, ⟨q, hq, hext⟩, -⟩
    exact hno p hp q hq hext
  · rw [if_neg hlen, buildKeys_of_safe _ _ hsafe]
    have hperm := sortKeys_perm (paths.map destinationKey)
    have hiff := (neighboursCollide_iff (sortKeys (paths.map destinationKey))).trans
      (adjacent_clash_iff (sortKeys_sorted (paths.map destinationKey)))
    rw [hperm.nodup_iff, unblocked_congr (fun w => hperm.mem_iff)] at hiff
    show (if neighboursCollide (sortKeys (paths.map destinationKey)) = true
      then Except.error ZuptError.invalid else .ok ()) = Except.ok () ↔ _
    by_cases hc : neighboursCollide (sortKeys (paths.map destinationKey)) = true
    · rw [if_pos hc]
      have h := hiff.mp hc
      simp only [reduceCtorEq, false_iff, not_and, not_not]
      intro hnd
      exact h.resolve_left (fun hn => hn hnd)
    · rw [if_neg hc]
      have h := fun hx => hc (hiff.mpr hx)
      simp only [true_iff]
      exact ⟨by_contra (fun hn => h (Or.inl hn)), fun hu => h (Or.inr hu)⟩

/-- The accepted lists that are not disjoint are the shadowed ones. -/
theorem nodup_and_blocked_iff (paths : List CString) :
    (((paths.map destinationKey).Nodup ∧
        ¬ Unblocked slash (paths.map destinationKey)) ↔
      DestinationsDisjoint paths) ↔ ¬ AncestorsShadowed paths := by
  unfold DestinationsDisjoint AncestorsShadowed Unblocked
  constructor
  · rintro h ⟨hnd, ⟨p, hp, q, hq, hext⟩, hall⟩
    refine (h.mp ⟨hnd, ?_⟩).2 p hp q hq hext
    rintro ⟨p', hp', hq', hfree⟩
    obtain ⟨k, hk, hblk⟩ := hall p' hp' hq'
    exact hfree k hk hblk
  · intro h
    constructor
    · rintro ⟨hnd, hblocked⟩
      refine ⟨hnd, fun p hp q hq hext => h ⟨hnd, ⟨p, hp, q, hq, hext⟩, ?_⟩⟩
      intro p' hp' hq'
      by_contra hno
      exact hblocked ⟨p', hp', hq', fun k hk hb => hno ⟨k, hk, hb⟩⟩
    · rintro ⟨hnd, hno⟩
      refine ⟨hnd, ?_⟩
      rintro ⟨p, hp, ⟨q, hq, hext⟩, -⟩
      exact hno p hp q hq hext

/-- The validation is exact on a list of paths: in whatever order they are
    given, it accepts them exactly when the destinations are disjoint. -/
def ValidationExact (paths : List CString) (requireSafePaths : Bool) : Prop :=
  ∀ given, given.Perm paths →
    (validateArchiveDestinations given requireSafePaths = .ok () ↔
      DestinationsDisjoint paths)

/-- The verdict does not see the order of the list. -/
theorem validate_perm {paths given : List CString} (requireSafePaths : Bool)
    (hsafe : ∀ p ∈ paths, pathIsSafe p.bytes = true) (hperm : given.Perm paths) :
    validateArchiveDestinations given requireSafePaths = .ok () ↔
      validateArchiveDestinations paths requireSafePaths = .ok () := by
  have hkeys := hperm.map destinationKey
  rw [validate_ok_iff given requireSafePaths
      (fun p hp => hsafe p (hperm.mem_iff.mp hp)),
    validate_ok_iff paths requireSafePaths hsafe, hkeys.nodup_iff,
    unblocked_congr (fun w => hkeys.mem_iff)]

/-- **EXACTNESS**: destination validation is exact on a list of safe paths
    if and only if the list is not shadowed. -/
theorem validationExact_iff (paths : List CString) (requireSafePaths : Bool)
    (hsafe : ∀ p ∈ paths, pathIsSafe p.bytes = true) :
    ValidationExact paths requireSafePaths ↔ ¬ AncestorsShadowed paths := by
  rw [← nodup_and_blocked_iff, ← validate_ok_iff paths requireSafePaths hsafe]
  constructor
  · intro h
    exact h paths (List.Perm.refl _)
  · intro h given hperm
    rw [validate_perm requireSafePaths hsafe hperm]
    exact h

/-- The paths `a`, `a!b` and `a/b`: sorted in this order, the ancestor `a`
    and its extension `a/b` are not neighbours. -/
def shadowedPaths : List CString :=
  [⟨[0x61], by decide⟩, ⟨[0x61, 0x21, 0x62], by decide⟩,
    ⟨[0x61, 0x2F, 0x62], by decide⟩]

/-- The instance of `validationExact_iff` at two disjoint paths. -/
theorem validationExact_disjoint_pair :
    (∀ p ∈ shadowedPaths.take 2, pathIsSafe p.bytes = true) ∧
      (ValidationExact (shadowedPaths.take 2) true ↔
        ¬ AncestorsShadowed (shadowedPaths.take 2)) :=
  ⟨by decide, validationExact_iff (shadowedPaths.take 2) true (by decide)⟩

/-- **COUNTEREXAMPLE**: three safe paths are accepted although `a` is an
    ancestor of `a/b`. -/
theorem validate_accepts_shadowed :
    (∀ p ∈ shadowedPaths, pathIsSafe p.bytes = true) ∧
      validateArchiveDestinations shadowedPaths true = .ok () ∧
      ¬ DestinationsDisjoint shadowedPaths := by
  refine ⟨by decide, rfl, ?_⟩
  rintro ⟨-, hno⟩
  exact hno [0x61] (by decide) [0x61, 0x2F, 0x62] (by decide) ⟨[0x62], rfl⟩

end Zupt.Paths
