import Zupt.LittleEndian

/-! # Encrypt-then-MAC packages

    `zupt_encrypt_buffer_aad` and `zupt_decrypt_buffer_aad` of
    `zupt_crypto.c`.  A package is `nonce ‖ ciphertext ‖ tag`; the tag is
    taken over `aad ‖ nonce ‖ ciphertext ‖ sequence`.  With an empty `aad`
    the reader also accepts a tag over `nonce ‖ ciphertext` alone, the
    transcript of the oldest archives.

    HMAC-SHA256 and AES-256-CTR enter as a `Primitives` record, so that the
    results hold for the real functions and for any idealisation of them. -/

namespace Zupt.Seal

open Zupt.LittleEndian

/-- `ZUPT_NONCE_SIZE`. -/
def nonceSize : Nat := 16

/-- `ZUPT_HMAC_SIZE`. -/
def hmacSize : Nat := 32

/-- The two primitives the package format is built from. -/
structure Primitives where
  /-- `zupt_hmac_sha256 key data`; streaming the data in segments is the same
      as passing it whole. -/
  hmacSha256 : (key data : Bytes) → Bytes
  hmac_length : ∀ key data, (hmacSha256 key data).length = hmacSize
  /-- `zupt_aes256_ctr key nonce input`. -/
  aes256Ctr : (key nonce input : Bytes) → Bytes
  ctr_length : ∀ key nonce input, (aes256Ctr key nonce input).length = input.length
  ctr_ctr : ∀ key nonce input, aes256Ctr key nonce (aes256Ctr key nonce input) = input

/-- The part of `zupt_keyring_t` that sealing and opening read. -/
structure Keyring where
  encKey : Bytes
  macKey : Bytes
  active : Bool
  usePrefaceAad : Bool
  deriving DecidableEq, Repr

variable (P : Primitives) (kr : Keyring)

/-- `zupt_encrypt_buffer_aad`; `nonce` is what `zupt_random_bytes` filled in. -/
def encryptBufferAad (plain : Bytes) (blockSeq : UInt64) (aadExtra nonce : Bytes) : Bytes :=
  let body := nonce ++ P.aes256Ctr kr.encKey nonce plain
  body ++ P.hmacSha256 kr.macKey (aadExtra ++ body ++ le64Put blockSeq)

/-- `zupt_encrypt_buffer`. -/
def encryptBuffer (plain : Bytes) (blockSeq : UInt64) (nonce : Bytes) : Bytes :=
  encryptBufferAad P kr plain blockSeq [] nonce

/-- What precedes the tag of a package: `pkg[0 .. 16 + clen)`. -/
def packageBody (pkg : Bytes) : Bytes := pkg.take (pkg.length - hmacSize)

/-- `stored_mac` of a package. -/
def packageTag (pkg : Bytes) : Bytes := pkg.drop (pkg.length - hmacSize)

/-- `zupt_decrypt_buffer_aad`.  The tags are compared whole, as the constant
    time comparison does, and the plaintext is released only on a match. -/
def decryptBufferAad (pkg : Bytes) (blockSeq : UInt64) (aadExtra : Bytes) : Option Bytes :=
  if pkg.length < nonceSize + hmacSize then none
  else
    let body := packageBody pkg
    let plain := P.aes256Ctr kr.encKey (body.take nonceSize) (body.drop nonceSize)
    if aadExtra.length > 0 then
      -- preface mode: one candidate only
      if P.hmacSha256 kr.macKey (aadExtra ++ body ++ le64Put blockSeq) = packageTag pkg then
        some plain
      else none
    else
      -- legacy mode: the tag with the sequence, or the tag without it
      if P.hmacSha256 kr.macKey (body ++ le64Put blockSeq) = packageTag pkg ∨
          P.hmacSha256 kr.macKey body = packageTag pkg then
        some plain
      else none

/-- `zupt_decrypt_buffer`. -/
def decryptBuffer (pkg : Bytes) (blockSeq : UInt64) : Option Bytes :=
  decryptBufferAad P kr pkg blockSeq []

/-! ## Packages -/

theorem packageBody_append_tag (pkg : Bytes) : packageBody pkg ++ packageTag pkg = pkg :=
  List.take_append_drop _ pkg

/-- The body of what was sealed is the nonce and the ciphertext. -/
theorem packageBody_encrypt (plain : Bytes) (seq : UInt64) (aad nonce : Bytes) :
    packageBody (encryptBufferAad P kr plain seq aad nonce)
      = nonce ++ P.aes256Ctr kr.encKey nonce plain := by
  show (_ ++ P.hmacSha256 _ _).take ((_ ++ P.hmacSha256 _ _).length - hmacSize) = _
  rw [List.length_append, P.hmac_length, Nat.add_sub_cancel, List.take_left]

/-- The tag of what was sealed is taken over the whole transcript. -/
theorem packageTag_encrypt (plain : Bytes) (seq : UInt64) (aad nonce : Bytes) :
    packageTag (encryptBufferAad P kr plain seq aad nonce)
      = P.hmacSha256 kr.macKey
          (aad ++ (nonce ++ P.aes256Ctr kr.encKey nonce plain) ++ le64Put seq) := by
  show (_ ++ P.hmacSha256 _ _).drop ((_ ++ P.hmacSha256 _ _).length - hmacSize) = _
  rw [List.length_append, P.hmac_length, Nat.add_sub_cancel, List.drop_left]

theorem encrypt_length (plain : Bytes) (seq : UInt64) (aad nonce : Bytes)
    (hnonce : nonce.length = nonceSize) :
    (encryptBufferAad P kr plain seq aad nonce).length
      = nonceSize + plain.length + hmacSize := by
  show ((nonce ++ P.aes256Ctr kr.encKey nonce plain) ++ P.hmacSha256 _ _).length = _
  rw [List.length_append, List.length_append, P.hmac_length, P.ctr_length, hnonce]

/-- **ROUND TRIP**: what was sealed under some AAD and sequence opens under
    them. -/
theorem decrypt_encrypt (plain : Bytes) (seq : UInt64) (aad nonce : Bytes)
    (hnonce : nonce.length = nonceSize) :
    decryptBufferAad P kr (encryptBufferAad P kr plain seq aad nonce) seq aad
      = some plain := by
  have hbody := packageBody_encrypt P kr plain seq aad nonce
  have htag := packageTag_encrypt P kr plain seq aad nonce
  have hlen := encrypt_length P kr plain seq aad nonce hnonce
  have hplain : P.aes256Ctr kr.encKey
      ((nonce ++ P.aes256Ctr kr.encKey nonce plain).take nonceSize)
      ((nonce ++ P.aes256Ctr kr.encKey nonce plain).drop nonceSize) = plain := by
    rw [List.take_left' hnonce, List.drop_left' hnonce, P.ctr_ctr]
  unfold decryptBufferAad
  rw [if_neg (by omega)]
  simp only [hbody, htag, hplain]
  by_cases haad : aad.length > 0
  · rw [if_pos haad]
    exact if_pos trivial
  · have haad' : aad = [] := List.eq_nil_of_length_eq_zero (by omega)
    rw [if_neg haad, if_pos (Or.inl (by rw [haad', List.nil_append]))]

/-! ## What acceptance says about the tag -/

/-- **PREFACE MODE**: an accepted package carries the tag of the one
    transcript the reader computed. -/
theorem decrypt_some_preface {pkg : Bytes} {seq : UInt64} {aad plain : Bytes}
    (haad : 0 < aad.length) (h : decryptBufferAad P kr pkg seq aad = some plain) :
    nonceSize + hmacSize ≤ pkg.length ∧
      P.hmacSha256 kr.macKey (aad ++ packageBody pkg ++ le64Put seq) = packageTag pkg ∧
      plain = P.aes256Ctr kr.encKey ((packageBody pkg).take nonceSize)
        ((packageBody pkg).drop nonceSize) := by
  unfold decryptBufferAad at h
  by_cases hlen : pkg.length < nonceSize + hmacSize
  · rw [if_pos hlen] at h
    exact nomatch h
  · rw [if_neg hlen] at h
    simp only [if_pos haad] at h
    by_cases htag : P.hmacSha256 kr.macKey (aad ++ packageBody pkg ++ le64Put seq)
        = packageTag pkg
    · rw [if_pos htag] at h
      exact ⟨by omega, htag, (Option.some.inj h).symm⟩
    · rw [if_neg htag] at h
      exact nomatch h

/-- **LEGACY MODE**: acceptance is a match of one of the two candidates. -/
theorem decrypt_isSome_legacy (pkg : Bytes) (seq : UInt64) :
    (decryptBuffer P kr pkg seq).isSome = true ↔
      nonceSize + hmacSize ≤ pkg.length ∧
        (P.hmacSha256 kr.macKey (packageBody pkg ++ le64Put seq) = packageTag pkg ∨
          P.hmacSha256 kr.macKey (packageBody pkg) = packageTag pkg) := by
  unfold decryptBuffer decryptBufferAad
  by_cases hlen : pkg.length < nonceSize + hmacSize
  · rw [if_pos hlen]
    simp only [Option.isSome_none, Bool.false_eq_true, false_iff]
    rintro ⟨h, -⟩
    omega
  · rw [if_neg hlen]
    simp only [List.length_nil, gt_iff_lt, lt_irrefl, if_false]
    by_cases hc : P.hmacSha256 kr.macKey (packageBody pkg ++ le64Put seq) = packageTag pkg ∨
        P.hmacSha256 kr.macKey (packageBody pkg) = packageTag pkg
    · simp only [if_pos hc, Option.isSome_some, true_iff]
      exact ⟨by omega, hc⟩
    · simp only [if_neg hc, Option.isSome_none, Bool.false_eq_true, false_iff]
      rintro ⟨-, h⟩
      exact hc h

/-! ## Sequence binding without a preface

    The transcript `nonce ‖ ciphertext ‖ sequence` of one package is also the
    sequence-free transcript of a package with eight more ciphertext bytes.
    Both shapes are tried on every package, so this is the one confusion
    there is. -/

/-- The transcripts in play when a package `pkg` that carries the tag of a
    sealed one is opened at `seq'`. -/
def transcriptsInPlay (plain : Bytes) (seq : UInt64) (nonce pkg : Bytes)
    (seq' : UInt64) : Set Bytes :=
  {nonce ++ P.aes256Ctr kr.encKey nonce plain ++ le64Put seq,
    packageBody pkg ++ le64Put seq', packageBody pkg}

/-- The sequence moved into the ciphertext: accepted wherever it is read. -/
theorem decrypt_absorbed (plain : Bytes) (seq seq' : UInt64) (nonce pkg : Bytes)
    (hnonce : nonce.length = nonceSize)
    (htag : packageTag pkg = packageTag (encryptBuffer P kr plain seq nonce))
    (hbody : packageBody pkg
      = nonce ++ P.aes256Ctr kr.encKey nonce plain ++ le64Put seq) :
    (decryptBuffer P kr pkg seq').isSome = true := by
  have hsealed := packageTag_encrypt P kr plain seq [] nonce
  rw [List.nil_append] at hsealed
  have hpkg := congrArg List.length (packageBody_append_tag pkg)
  rw [htag, hbody, encryptBuffer, hsealed] at hpkg
  simp only [List.length_append, P.hmac_length, le64Put_length, hnonce] at hpkg
  rw [decrypt_isSome_legacy]
  refine ⟨by omega, Or.inr ?_⟩
  rw [hbody, htag, encryptBuffer, hsealed]

/-- **SEQUENCE BINDING, EXACTLY**: let a package carry the tag that sealing
    `plain` at `seq` produced.  If it is accepted at `seq'` then `seq'` is
    `seq` and the package carries the sealed nonce and ciphertext, if and
    only if it does not carry them with `seq` appended to the ciphertext. -/
theorem sequence_bound_iff (plain : Bytes) (seq seq' : UInt64) (nonce pkg : Bytes)
    (hnonce : nonce.length = nonceSize)
    (htag : packageTag pkg = packageTag (encryptBuffer P kr plain seq nonce))
    (hinj : Set.InjOn (P.hmacSha256 kr.macKey)
      (transcriptsInPlay P kr plain seq nonce pkg seq')) :
    ((decryptBuffer P kr pkg seq').isSome = true →
        seq' = seq ∧ packageBody pkg = nonce ++ P.aes256Ctr kr.encKey nonce plain) ↔
      packageBody pkg ≠ nonce ++ P.aes256Ctr kr.encKey nonce plain ++ le64Put seq := by
  have hsealed := packageTag_encrypt P kr plain seq [] nonce
  rw [List.nil_append] at hsealed
  constructor
  · intro h hbody
    have hsome := decrypt_absorbed P kr plain seq seq' nonce pkg hnonce htag hbody
    have hlen := congrArg List.length ((h hsome).2.symm.trans hbody)
    simp only [List.length_append, le64Put_length] at hlen
    omega
  · intro hne hsome
    obtain ⟨-, htwo⟩ := (decrypt_isSome_legacy P kr pkg seq').mp hsome
    rw [htag, encryptBuffer, hsealed] at htwo
    rcases htwo with h | h
    · -- the tag with the sequence: both transcripts end in eight bytes
      have heq := hinj (by simp [transcriptsInPlay]) (by simp [transcriptsInPlay]) h
      obtain ⟨hbody, hseq⟩ := append_inj_of_length heq (by simp)
      exact ⟨le64Put_injective hseq, hbody⟩
    · -- the tag without it: the body would be the sealed transcript
      have heq := hinj (by simp [transcriptsInPlay]) (by simp [transcriptsInPlay]) h
      exact absurd heq hne

/-- Primitives small enough to compute with: the tag is the length and the
    first bytes of the data, the cipher adds a key byte to each byte. -/
def toyPrimitives : Primitives where
  hmacSha256 _ data := ((UInt8.ofNat data.length :: data) ++ List.replicate 32 0).take 32
  hmac_length key data := by
    simp only [List.length_take, List.length_append, List.length_cons,
      List.length_replicate, hmacSize]
    omega
  aes256Ctr key _ input := input.map (fun b => b ^^^ key.headD 0)
  ctr_length key nonce input := List.length_map _
  ctr_ctr key nonce input := by
    rw [List.map_map]
    have h : ((fun b : UInt8 => b ^^^ key.headD 0) ∘ fun b => b ^^^ key.headD 0) = id := by
      funext b
      show b ^^^ key.headD 0 ^^^ key.headD 0 = b
      rw [UInt8.xor_assoc, UInt8.xor_self, UInt8.xor_zero]
    rw [h, List.map_id]

/-- A keyring without preface AAD. -/
def toyKeyring : Keyring := ⟨[0x21], [0x42], true, false⟩

/-- A nonce. -/
def toyNonce : Bytes := List.replicate 16 0x11

theorem toyNonce_length : toyNonce.length = nonceSize := rfl

/-- The package of one byte sealed at sequence 7, and the one with the
    sequence moved into the ciphertext. -/
def toySealed : Bytes := encryptBuffer toyPrimitives toyKeyring [0x5A] 7 toyNonce

def toyAbsorbed : Bytes :=
  packageBody toySealed ++ le64Put 7 ++ packageTag toySealed

/-- The instance of `sequence_bound_iff` at the sealed package itself. -/
theorem sequence_bound_sealed :
    ((decryptBuffer toyPrimitives toyKeyring toySealed 9).isSome = true →
        (9 : UInt64) = 7 ∧ packageBody toySealed
          = toyNonce ++ toyPrimitives.aes256Ctr toyKeyring.encKey toyNonce [0x5A]) ↔
      packageBody toySealed
        ≠ toyNonce ++ toyPrimitives.aes256Ctr toyKeyring.encKey toyNonce [0x5A]
          ++ le64Put 7 :=
  sequence_bound_iff toyPrimitives toyKeyring [0x5A] 7 9 toyNonce toySealed (by decide)
    (by decide) (by
      intro a ha b hb
      simp only [transcriptsInPlay, Set.mem_insert_iff, Set.mem_singleton_iff] at ha hb
      rcases ha with rfl | rfl | rfl <;> rcases hb with rfl | rfl | rfl <;> decide)

/-- **COUNTEREXAMPLE**: the tag made at sequence 7 opens another package at
    sequence 9, with no two transcripts sharing a tag. -/
theorem absorbed_sequence_accepted :
    packageTag toyAbsorbed = packageTag toySealed ∧
      Set.InjOn (toyPrimitives.hmacSha256 toyKeyring.macKey)
        (transcriptsInPlay toyPrimitives toyKeyring [0x5A] 7 toyNonce toyAbsorbed 9) ∧
      (decryptBuffer toyPrimitives toyKeyring toyAbsorbed 9).isSome = true ∧
      packageBody toyAbsorbed ≠ packageBody toySealed := by
  refine ⟨by decide, ?_, by decide, by decide⟩
  intro a ha b hb
  simp only [transcriptsInPlay, Set.mem_insert_iff, Set.mem_singleton_iff] at ha hb
  rcases ha with rfl | rfl | rfl <;> rcases hb with rfl | rfl | rfl <;> decide

end Zupt.Seal
