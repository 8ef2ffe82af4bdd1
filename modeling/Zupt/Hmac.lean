import Zupt.Seal
import Zupt.Sha256

/-! # HMAC-SHA256

    The incremental HMAC of `zupt_crypto.c` runs two contexts that are seeded with the
    key, one for the message and one for its digest.  Both are contexts of SHA-256, so a
    message may come in any pieces: the MAC of a package, which is streamed over its
    parts, is the MAC of the parts one behind the other. -/

namespace Zupt.Hmac

open Zupt.LittleEndian Zupt.Sha256

/-- `zupt_hmac_ctx`. -/
structure HmacCtx where
  inner : Sha256Ctx
  outer : Sha256Ctx

/-- `k_pad`: 64 bytes of `v`, to which the key was added. -/
def kPad (v : UInt8) (key : Bytes) : Bytes :=
  (List.range 64).map fun i => if i < key.length then v ^^^ charAt key i else v

variable (cpu : Cpu)

/-- `zupt_hmac_sha256_init`; `stack` is the context that a long key is hashed in. -/
def hmacInit (c : HmacCtx) (stack : Sha256Ctx) (key : Bytes) : HmacCtx :=
  let key := if 64 < key.length then sha256 cpu stack key else key
  ⟨sha256Update cpu (sha256Init c.inner) (kPad 0x36 key),
    sha256Update cpu (sha256Init c.outer) (kPad 0x5c key)⟩

/-- `zupt_hmac_sha256_update`. -/
def hmacUpdate (c : HmacCtx) (data : Bytes) : HmacCtx :=
  { c with inner := sha256Update cpu c.inner data }

/-- `zupt_hmac_sha256_final`. -/
def hmacFinal (c : HmacCtx) : Bytes :=
  sha256Final cpu (sha256Update cpu c.outer (sha256Final cpu c.inner))

/-- `zupt_hmac_sha256`. -/
def hmacSha256 (junk : HmacCtx) (stack : Sha256Ctx) (key data : Bytes) : Bytes :=
  hmacFinal cpu (hmacUpdate cpu (hmacInit cpu junk stack key) data)

/-- The MAC of `zupt_encrypt_buffer_aad`, streamed over its parts; `body` is the nonce
    and the ciphertext. -/
def streamTag (junk : HmacCtx) (stack : Sha256Ctx) (macKey aadExtra body : Bytes)
    (blockSeq : UInt64) : Bytes :=
  let c := hmacInit cpu junk stack macKey
  let c := if aadExtra.length ≠ 0 then hmacUpdate cpu c aadExtra else c
  let c := hmacUpdate cpu c body
  let c := hmacUpdate cpu c (le64Put blockSeq)
  hmacFinal cpu c

/-- `zupt_encrypt_buffer_aad` with the cipher `ctr`; `nonce` is what `zupt_random_bytes`
    filled in. -/
def encryptBufferAad (junk : HmacCtx) (stack : Sha256Ctx) (ctr : (key nonce input : Bytes) → Bytes)
    (kr : Seal.Keyring) (plain : Bytes) (blockSeq : UInt64) (aadExtra nonce : Bytes) : Bytes :=
  let body := nonce ++ ctr kr.encKey nonce plain
  body ++ streamTag cpu junk stack kr.macKey aadExtra body blockSeq

/-! ## What is computed -/

/-- The key of RFC 2104: one that is longer than a block is hashed. -/
def blockKey (key : Bytes) : Bytes := if 64 < key.length then hash cpu key else key

/-- HMAC: the hash of the message behind the key, hashed behind the key once more. -/
def hmac (key m : Bytes) : Bytes :=
  hash cpu (kPad 0x5c (blockKey cpu key) ++ hash cpu (kPad 0x36 (blockKey cpu key) ++ m))

theorem hash_length (m : Bytes) : (hash cpu m).length = 32 := digest_length _

theorem hmac_length (key m : Bytes) : (hmac cpu key m).length = Seal.hmacSize := hash_length cpu _

/-- The contexts of an HMAC that was fed `data`. -/
structure Macs (key : Bytes) (c : HmacCtx) (data : Bytes) : Prop where
  inner : Hashes cpu c.inner (kPad 0x36 (blockKey cpu key) ++ data)
  outer : Hashes cpu c.outer (kPad 0x5c (blockKey cpu key))

section Macs

variable {cpu} {key : Bytes} {c : HmacCtx} {data : Bytes}

theorem macs_init (junk : HmacCtx) (stack : Sha256Ctx) (key : Bytes) :
    Macs cpu key (hmacInit cpu junk stack key) [] := by
  have hkey : (if 64 < key.length then sha256 cpu stack key else key) = blockKey cpu key := by
    rw [sha256_eq_hash, blockKey]
  rw [hmacInit, hkey]
  constructor
  · rw [List.append_nil]
    exact (hashes_init cpu junk.inner).update _
  · exact (hashes_init cpu junk.outer).update _

theorem Macs.update (h : Macs cpu key c data) (d : Bytes) :
    Macs cpu key (hmacUpdate cpu c d) (data ++ d) := by
  refine ⟨?_, h.outer⟩
  rw [← List.append_assoc]
  exact h.inner.update d

theorem Macs.updates (h : Macs cpu key c data) (pieces : List Bytes) :
    Macs cpu key (pieces.foldl (hmacUpdate cpu) c) (data ++ pieces.flatten) := by
  induction pieces generalizing c data with
  | nil =>
      rw [List.flatten_nil, List.append_nil]
      exact h
  | cons d pieces ih =>
      rw [List.foldl_cons, List.flatten_cons, ← List.append_assoc]
      exact ih (h.update d)

/-- **THE END** of an HMAC that was fed a message is its MAC. -/
theorem Macs.final (h : Macs cpu key c data) : hmacFinal cpu c = hmac cpu key data := by
  rw [hmacFinal, h.inner.final]
  exact (h.outer.update _).final

end Macs

theorem hmacSha256_eq_hmac (junk : HmacCtx) (stack : Sha256Ctx) (key data : Bytes) :
    hmacSha256 cpu junk stack key data = hmac cpu key data :=
  ((macs_init junk stack key).update data).final

/-- A part that is empty is left out, or fed: both are the same. -/
theorem streamTag_eq_hmac (junk : HmacCtx) (stack : Sha256Ctx) (macKey aadExtra body : Bytes)
    (blockSeq : UInt64) :
    streamTag cpu junk stack macKey aadExtra body blockSeq =
      hmac cpu macKey (aadExtra ++ body ++ le64Put blockSeq) := by
  have hstart : Macs cpu macKey (hmacInit cpu junk stack macKey) [] := macs_init junk stack macKey
  rw [streamTag]
  by_cases haad : aadExtra.length ≠ 0
  · rw [if_pos haad]
    exact (((hstart.update aadExtra).update body).update (le64Put blockSeq)).final
  · obtain rfl := List.eq_nil_of_length_eq_zero (not_not.mp haad)
    rw [if_neg haad]
    exact ((hstart.update body).update (le64Put blockSeq)).final

/-- The primitives of the package format, with this HMAC. -/
def withHmac (P : Seal.Primitives) : Seal.Primitives :=
  { P with hmacSha256 := hmac cpu, hmac_length := hmac_length cpu }

/-- **THE STREAMED PACKAGE** is the package over the whole transcript. -/
theorem encryptBufferAad_eq_seal (P : Seal.Primitives) (junk : HmacCtx) (stack : Sha256Ctx)
    (kr : Seal.Keyring) (plain : Bytes) (blockSeq : UInt64) (aadExtra nonce : Bytes) :
    encryptBufferAad cpu junk stack P.aes256Ctr kr plain blockSeq aadExtra nonce =
      Seal.encryptBufferAad (withHmac cpu P) kr plain blockSeq aadExtra nonce := by
  rw [encryptBufferAad, streamTag_eq_hmac]
  rfl

/-- **INCREMENTAL HASHING DOES NOT SEE THE PIECES**: whatever the contexts held before,
    for every message and every partition of it into updates the digest is that of one
    call, which is the hash of the padded message for every length; the same holds of
    HMAC-SHA256, and so the MAC that is streamed over the parts of a package is that of
    one call over all of them. -/
theorem incremental_hashing_exact :
    (∀ (junk junk' : Sha256Ctx) (pieces : List Bytes),
      sha256Final cpu (pieces.foldl (sha256Update cpu) (sha256Init junk)) =
        sha256 cpu junk' pieces.flatten) ∧
      (∀ (junk : Sha256Ctx) (m : Bytes), sha256 cpu junk m = hash cpu m ∧
        (padded m).length % 64 = 0 ∧ zeros m.length < 64 ∧
        (m.length < 2 ^ 61 → (lenBytes (UInt64.ofNat (8 * m.length))).foldl
          (fun n b => n * 256 + b.toNat) 0 = 8 * m.length)) ∧
      (∀ (junk junk' : HmacCtx) (stack stack' : Sha256Ctx) (key : Bytes) (pieces : List Bytes),
        hmacFinal cpu (pieces.foldl (hmacUpdate cpu) (hmacInit cpu junk stack key)) =
          hmacSha256 cpu junk' stack' key pieces.flatten) ∧
      (∀ (junk : HmacCtx) (stack : Sha256Ctx) (key m : Bytes),
        hmacSha256 cpu junk stack key m = hmac cpu key m) ∧
      ∀ (junk junk' : HmacCtx) (stack stack' : Sha256Ctx)
        (ctr : (key nonce input : Bytes) → Bytes) (kr : Seal.Keyring) (plain : Bytes)
        (blockSeq : UInt64) (aadExtra nonce : Bytes),
        encryptBufferAad cpu junk stack ctr kr plain blockSeq aadExtra nonce =
          nonce ++ ctr kr.encKey nonce plain ++ hmacSha256 cpu junk' stack' kr.macKey
            (aadExtra ++ (nonce ++ ctr kr.encKey nonce plain) ++ le64Put blockSeq) := by
  refine ⟨?_, ?_, ?_, hmacSha256_eq_hmac cpu, ?_⟩
  · intro junk junk' pieces
    rw [sha256_pieces, sha256_eq_hash]
  · intro junk m
    refine ⟨sha256_eq_hash cpu junk m, padded_length m, Nat.mod_lt _ (Nat.succ_pos 63), ?_⟩
    intro hlen
    rw [lenBytes_value, UInt64.toNat_ofNat_of_lt' (by show _ < 2 ^ 64; omega)]
  · intro junk junk' stack stack' key pieces
    rw [hmacSha256_eq_hmac]
    exact ((macs_init junk stack key).updates pieces).final
  · intro junk junk' stack stack' ctr kr plain blockSeq aadExtra nonce
    rw [hmacSha256_eq_hmac, encryptBufferAad, streamTag_eq_hmac]

/-- Three bytes in two pieces, without the instructions of the processor. -/
theorem incremental_hashing_exact_abc :
    sha256Final ⟨false, fun s _ => s⟩ (([[97], [98, 99]] : List Bytes).foldl
        (sha256Update ⟨false, fun s _ => s⟩) (sha256Init ⟨startWords, 5, fun _ => 9⟩)) =
        sha256 ⟨false, fun s _ => s⟩ ⟨startWords, 0, fun _ => 0⟩ [97, 98, 99] ∧
      (lenBytes (UInt64.ofNat (8 * ([97, 98, 99] : Bytes).length))).foldl
        (fun n b => n * 256 + b.toNat) 0 = 8 * ([97, 98, 99] : Bytes).length :=
  ⟨(incremental_hashing_exact ⟨false, fun s _ => s⟩).1 ⟨startWords, 5, fun _ => 9⟩
      ⟨startWords, 0, fun _ => 0⟩ [[97], [98, 99]],
    ((incremental_hashing_exact ⟨false, fun s _ => s⟩).2.1 ⟨startWords, 0, fun _ => 0⟩
      [97, 98, 99]).2.2.2 (by decide)⟩

end Zupt.Hmac
