import Zupt.Mlkem.Noise

/-! # ML-KEM-768

    Encapsulation and decapsulation around K-PKE.  An honest ciphertext is decapsulated to
    the shared secret it was made with, as long as the noise is below a quarter of `q`;
    where a ciphertext differs from its re-encryption in any byte, the shared secret is a
    hash of the ciphertext and a part of the key that nothing else reads. -/

namespace Zupt.Mlkem

open Zupt.NttTree

/-! ## The code -/

/-- The loop of `zupt_ct_memeq`. -/
def ctDiff (a b : Bytes) : (n : Nat) → UInt8
  | 0 => 0
  | n + 1 => ctDiff a b n ||| (a.getD n 0 ^^^ b.getD n 0)

/-- `zupt_ct_memeq`: its result is 1 or 0. -/
def ctMemeq (a b : Bytes) (n : Nat) : UInt8 := (((ctDiff a b n).toUInt32 - 1) >>> 8).toUInt8 &&& 1

/-- `cmov`. -/
def cmov (r x : Bytes) (b : UInt8) : Bytes :=
  List.zipWith (fun r x => r ^^^ ((0 - (b &&& 1)) &&& (r ^^^ x))) r x

/-- `zupt_mlkem768_check_ek`. -/
def checkEk (ek : Bytes) : Bool :=
  ek.length == 1184 && (List.range (mlkemK * 384 / 3)).all fun i => (unpack12 ek i).all (· < 3329)

/-- `zupt_mlkem768_keygen`, with `d` and `z` as they have been drawn. -/
def mlkemKeygen (K : Keccak) (turns : Nat) (d z : Bytes) : Checked (Bytes × Bytes) := do
  let keys ← kpkeKeygen K turns d
  return (keys.1, keys.2 ++ (keys.1 ++ (squeeze (K.sha3_256 keys.1) 0 32 ++ z.take 32)))

/-- `(K, r) = G(m ‖ H(pk))`. -/
def encapsKr (K : Keccak) (pk m : Bytes) : Nat → UInt8 :=
  K.sha3_512 (m.take 32 ++ squeeze (K.sha3_256 pk) 0 32)

/-- `zupt_mlkem768_encaps`, with `m` as it has been drawn; `none` is the result -1. -/
def mlkemEncaps (K : Keccak) (turns : Nat) (pk m : Bytes) : Checked (Option (Bytes × Bytes)) :=
  if checkEk pk = true then do
    let ct ← kpkeEncrypt K turns pk m (squeeze (encapsKr K pk m) 32 32)
    return some (ct, squeeze (encapsKr K pk m) 0 32)
  else return none

/-- The parts of a secret key: `sk_pke ‖ pk ‖ h ‖ z`. -/
def skPkeOf (sk : Bytes) : Bytes := sk.take 1152

def pkOf (sk : Bytes) : Bytes := (sk.drop 1152).take 1184

def hOf (sk : Bytes) : Bytes := (sk.drop (1152 + 1184)).take 32

def zOf (sk : Bytes) : Bytes := (sk.drop (1152 + 1184 + 32)).take 32

/-- `(K', r') = G(m' ‖ h)`. -/
def krOf (K : Keccak) (sk m' : Bytes) : Nat → UInt8 := K.sha3_512 (m' ++ hOf sk)

/-- `ss_reject`. -/
def ssReject (K : Keccak) (ct sk : Bytes) : Bytes :=
  squeeze (K.shake256 (zOf sk ++ ct.take 1088)) 0 32

/-- `zupt_mlkem768_decaps`. -/
def mlkemDecaps (K : Keccak) (turns : Nat) (ct sk : Bytes) : Checked Bytes := do
  let m' ← kpkeDecrypt ct (skPkeOf sk)
  let ct' ← kpkeEncrypt K turns (pkOf sk) m' (squeeze (krOf K sk m') 32 32)
  let ctEqual := ctMemeq ct ct' 1088
  let ssSuccess := squeeze (krOf K sk m') 0 32
  let fail := 1 - ctEqual
  return cmov (ssReject K ct sk) ssSuccess (1 - fail)

/-! ## The selection -/

/-- The first `n` bytes are the same. -/
def SameBytes (a b : Bytes) (n : Nat) : Prop := ∀ i < n, a.getD i 0 = b.getD i 0

instance sameBytesDecidable (a b : Bytes) (n : Nat) : Decidable (SameBytes a b n) :=
  inferInstanceAs (Decidable (∀ i < n, a.getD i 0 = b.getD i 0))

theorem ctDiff_eq_zero {a b : Bytes} {n : Nat} : ctDiff a b n = 0 ↔ SameBytes a b n := by
  induction n with
  | zero => exact ⟨fun _ i hi => absurd hi (Nat.not_lt_zero i), fun _ => rfl⟩
  | succ n ih =>
      rw [ctDiff, UInt8.or_eq_zero_iff, ih, UInt8.xor_eq_zero_iff]
      constructor
      · rintro ⟨hbefore, hlast⟩ i hi
        by_cases hn : i = n
        · rw [hn, hlast]
        · exact hbefore i (by omega)
      · intro hall
        exact ⟨fun i hi => hall i (Nat.lt_succ_of_lt hi), hall n (Nat.lt_succ_self n)⟩

/-- The subtraction borrows from 0 only. -/
theorem memeq_bit : ∀ d : UInt8, ((d.toUInt32 - 1) >>> 8).toUInt8 &&& 1 = if d = 0 then 1 else 0 := by
  decide +kernel

/-- **THE COMPARISON** sees every byte. -/
theorem ctMemeq_eq (a b : Bytes) (n : Nat) :
    ctMemeq a b n = if SameBytes a b n then 1 else 0 := by
  rw [ctMemeq, memeq_bit]
  by_cases hall : SameBytes a b n
  · rw [if_pos hall, if_pos (ctDiff_eq_zero.mpr hall)]
  · rw [if_neg hall, if_neg fun h => hall (ctDiff_eq_zero.mp h)]

theorem zipWith_left {f : UInt8 → UInt8 → UInt8} (hf : ∀ r x, f r x = r) {r x : Bytes}
    (hlen : r.length = x.length) : List.zipWith f r x = r := by
  induction r generalizing x with
  | nil => rfl
  | cons b r ih =>
      cases x with
      | nil => cases hlen
      | cons c x => rw [List.zipWith_cons_cons, hf, ih (Nat.succ.inj hlen)]

theorem zipWith_right {f : UInt8 → UInt8 → UInt8} (hf : ∀ r x, f r x = x) {r x : Bytes}
    (hlen : r.length = x.length) : List.zipWith f r x = x := by
  induction r generalizing x with
  | nil =>
      cases x with
      | nil => rfl
      | cons c x => cases hlen
  | cons b r ih =>
      cases x with
      | nil => cases hlen
      | cons c x => rw [List.zipWith_cons_cons, hf, ih (Nat.succ.inj hlen)]

/-- **THE SELECTION** by a bit, without a branch. -/
theorem cmov_zero {r x : Bytes} (hlen : r.length = x.length) : cmov r x (1 - (1 - 0)) = r := by
  refine zipWith_left (fun r x => ?_) hlen
  have hmask : (0 - ((1 - (1 - 0)) &&& 1) : UInt8) = 0 := by decide
  rw [hmask, UInt8.zero_and, UInt8.xor_zero]

theorem cmov_one {r x : Bytes} (hlen : r.length = x.length) : cmov r x (1 - (1 - 1)) = x := by
  refine zipWith_right (fun r x => ?_) hlen
  have hmask : (0 - ((1 - (1 - 1)) &&& 1) : UInt8) = -1 := by decide
  rw [hmask, UInt8.neg_one_and, ← UInt8.xor_assoc, UInt8.xor_self, UInt8.zero_xor]

/-! ## Keys and ciphertexts -/

/-- The matrix of a key pair. -/
def keyMatrix (K : Keccak) (turns : Nat) (d : Bytes) : Nat → Nat → Nat → Zq :=
  match sampleMatrix K turns (squeeze (seeds K d) 0 32) fun i j => (j, i) with
  | .ok a => matrixClasses a
  | .error _ => fun _ _ _ => 0

/-- The decryption noise of a key, a message and the coins of an encryption. -/
noncomputable def decryptionNoise (K : Keccak) (turns : Nat) (d m r : Bytes) : Polynomial Zq :=
  let a := keyMatrix K turns d
  let sigma := squeeze (seeds K d) 32 32
  let s := noiseExact K sigma 0
  let e := noiseExact K sigma mlkemK
  let rVec := noiseExact K r 0
  let e1 := noiseExact K r mlkemK
  let e2 := polyNoiseExact K r (2 * mlkemK)
  noisePoly s e rVec e1 (fun j => roundError 10 (uExact (fun i j => a j i) rVec e1 j)) e2
    (roundError 4 (vExact (publicExact a s e) rVec e2 (messagePolyExact m)))

/-- **BOTH MATRICES** are sampled from the same streams: one is the other transposed. -/
theorem sampleMatrix_transpose {K : Keccak} {turns : Nat} {rho : Bytes} {a : Nat → Polyvec}
    (h : sampleMatrix K turns rho (fun i j => (j, i)) = .ok a) :
    ∃ aT, sampleMatrix K turns rho (fun i j => (i, j)) = .ok aT ∧
      ∀ i < mlkemK, ∀ j < mlkemK, aT i j = a j i :=
  fillLoop_all (P := fun i (v : Polyvec) => ∀ j < mlkemK, v j = a j i) fun i hi =>
    fillLoop_all (P := fun j (p : Poly) => p = a j i) fun j hj =>
      ⟨a j i, fillLoop_ok (fillLoop_ok h j hj) i hi, rfl⟩

theorem accExact_congr {f f' g : Nat → Nat → Zq} (h : ∀ j < mlkemK, Agree 256 (f j) (f' j)) :
    Agree 256 (accExact f g) (accExact f' g) := by
  intro i hi
  refine Finset.sum_congr rfl fun j hj => ?_
  rw [basemulExact, basemulExact, baseProduct_congr (n := 256) rfl (h j (Finset.mem_range.mp hj))
    (fun k _ => rfl) i hi]

theorem uExact_congr {a a' : Nat → Nat → Nat → Zq} {r e1 : Nat → Nat → Zq} {i : Nat}
    (h : ∀ j < mlkemK, Agree 256 (a i j) (a' i j)) : Agree 256 (uExact a r e1 i) (uExact a' r e1 i) := by
  intro k hk
  rw [uExact, uExact, invNttExact_congr (accExact_congr h) k hk]

theorem vExact_congr {t t' r : Nat → Nat → Zq} {e2 mp : Nat → Zq}
    (h : ∀ j < mlkemK, Agree 256 (t j) (t' j)) : Agree 256 (vExact t r e2 mp) (vExact t' r e2 mp) := by
  intro k hk
  rw [vExact, vExact, invNttExact_congr (accExact_congr h) k hk]

theorem rhoOf_append {t rho : Bytes} (ht : t.length = 1152) (hrho : rho.length = 32) :
    rhoOf (t ++ rho) = rho := by
  rw [rhoOf, List.drop_left' (by rw [ht]; rfl), List.take_of_length_le (by rw [hrho])]

/-- **A KEY PAIR** that has been generated, with its matrix. -/
theorem kpkeKeygen_parts {K : Keccak} {turns : Nat} {d pk skPke : Bytes}
    (h : kpkeKeygen K turns d = .ok (pk, skPke)) :
    ∃ a, sampleMatrix K turns (squeeze (seeds K d) 0 32) (fun i j => (j, i)) = .ok a ∧
      keyMatrix K turns d = matrixClasses a ∧ (pk, skPke) = keygenExact K d (matrixClasses a) := by
  rw [kpkeKeygen_eq] at h
  rw [keyMatrix]
  cases hmatrix : sampleMatrix K turns (squeeze (seeds K d) 0 32) fun i j => (j, i) with
  | error x =>
      rw [hmatrix] at h
      cases h
  | ok a =>
      rw [hmatrix] at h
      cases h
      exact ⟨a, rfl, rfl, rfl⟩

section Honest

variable {K : Keccak} {turns : Nat} {d pk skPke : Bytes}

/-- **ENCRYPTION** under a key that has been generated returns. -/
theorem kpkeEncrypt_returns (h : kpkeKeygen K turns d = .ok (pk, skPke)) (m r : Bytes) :
    ∃ aT : Nat → Polyvec, kpkeEncrypt K turns pk m r = .ok (encryptExact K pk m r (matrixClasses aT)) ∧
      ∀ i < mlkemK, ∀ j < mlkemK, matrixClasses aT i j = keyMatrix K turns d j i := by
  obtain ⟨a, hmatrix, hkey, hparts⟩ := kpkeKeygen_parts h
  obtain ⟨aT, htranspose, hentry⟩ := sampleMatrix_transpose hmatrix
  have hpk : pk = _ := congrArg Prod.fst hparts
  have hrho : rhoOf pk = squeeze (seeds K d) 0 32 := by
    rw [hpk]
    exact rhoOf_append (polyvecTobytesExact_length _) (squeeze_length _ _ _)
  refine ⟨aT, ?_, fun i hi j hj => ?_⟩
  · rw [kpkeEncrypt_eq, hrho, htranspose]
    rfl
  · rw [hkey, matrixClasses, hentry i hi j hj]
    rfl

/-- **K-PKE**: a ciphertext decrypts to its message, as long as the noise is below a
    quarter of `q`. -/
theorem kpkeDecrypt_honest (h : kpkeKeygen K turns d = .ok (pk, skPke)) {m r ct : Bytes}
    (hm : m.length = 32) (hct : kpkeEncrypt K turns pk m r = .ok ct) {η : Nat → Zq}
    (hη : Congruent (polyOf η) (decryptionNoise K turns d m r))
    (hsmall : ∀ i < 256, distance (η i) < q / 4) : kpkeDecrypt ct skPke = .ok m := by
  obtain ⟨a, hmatrix, hkey, hparts⟩ := kpkeKeygen_parts h
  obtain ⟨aT, hencrypt, hentry⟩ := kpkeEncrypt_returns h m r
  rw [hencrypt] at hct
  cases hct
  have hpk : pk = _ := congrArg Prod.fst hparts
  have hsk : skPke = _ := congrArg Prod.snd hparts
  rw [decryptionNoise] at hη
  rw [hkey] at hη hentry
  rw [kpkeDecrypt_eq, decryptExact]
  refine congrArg Except.ok (messageBytes_noise hm (wExact_noise ?_ ?_ ?_ hη) hsmall)
  · -- the secret key holds the transforms
    intro j hj i hi
    have hdecode := polyvecFrombytes_polyvecTobytes
      (vecNttExact (noiseExact K (squeeze (seeds K d) 32 32) 0)) [] hj i hi
    rw [List.append_nil] at hdecode
    rw [hsk]
    exact hdecode
  · -- the first part of the ciphertext
    intro j hj i hi
    rw [encryptExact, polyvecDecompress_polyvecCompress _ _ hj i hi,
      uExact_congr (fun k hk l _ => by rw [hentry j hj k hk]) i hi]
  · -- the second part, under the public key as it has been decoded
    intro i hi
    have hfirst : (polyvecCompressExact (uExact (matrixClasses aT) (noiseExact K r 0)
        (noiseExact K r mlkemK))).length = mlkemK * 320 := polyvecCompressExact_length _
    have hpublic : ∀ j < mlkemK, Agree 256 (polyvecFrombytesExact pk j) (publicExact (matrixClasses a)
        (noiseExact K (squeeze (seeds K d) 32 32) 0)
        (noiseExact K (squeeze (seeds K d) 32 32) mlkemK) j) := fun j hj k hk => by
      rw [hpk]
      exact polyvecFrombytes_polyvecTobytes _ _ hj k hk
    rw [encryptExact, List.drop_left' hfirst, polyDecompress4_polyCompress4 _ (fun k _ => rfl) i hi,
      vExact_congr hpublic i hi]

/-- The coefficients of a generated public key are reduced. -/
theorem checkEk_honest (h : kpkeKeygen K turns d = .ok (pk, skPke)) : checkEk pk = true := by
  obtain ⟨a, -, -, hparts⟩ := kpkeKeygen_parts h
  have hpk : pk = polyvecTobytesExact (publicExact (matrixClasses a)
      (noiseExact K (squeeze (seeds K d) 32 32) 0)
      (noiseExact K (squeeze (seeds K d) 32 32) mlkemK)) ++ squeeze (seeds K d) 0 32 :=
    congrArg Prod.fst hparts
  generalize publicExact (matrixClasses a) (noiseExact K (squeeze (seeds K d) 32 32) 0)
    (noiseExact K (squeeze (seeds K d) 32 32) mlkemK) = t at hpk
  have hlen : pk.length = 1184 := by
    rw [hpk, List.length_append, polyvecTobytesExact_length, squeeze_length]
  rw [checkEk, hlen, beq_self_eq_true, Bool.true_and, List.all_eq_true]
  intro i hi
  have hlt : i < 384 := List.mem_range.mp hi
  -- row `i` is row `i % 128` of polynomial `i / 128`
  have hrow : unpack12 pk i = [(t (i / 128) (2 * (i % 128))).val, (t (i / 128) (2 * (i % 128) + 1)).val] := by
    refine unpack12_pack12 ((val_lt _).trans (by decide)) ((val_lt _).trans (by decide)) fun k hk => ?_
    have hplace : 3 * i + k = 384 * (i / 128) + (3 * (i % 128) + k) := by omega
    have hj : i / 128 < mlkemK := by
      show i / 128 < 3
      omega
    have hcell := byteAt_rows (w := 3) (h := fun l => pack12 (t (i / 128) (2 * l)).val
      (t (i / 128) (2 * l + 1)).val) (fun _ => rfl) (show i % 128 < 128 by omega) hk []
    rw [List.append_nil] at hcell
    rw [hpk, hplace, polyvecTobytesExact, byteAt_rows (w := 384)
      (fun j => polyTobytesExact_length (t j)) hj (by omega)]
    exact hcell
  rw [hrow]
  simp only [List.all_cons, List.all_nil, Bool.and_true, Bool.and_eq_true, decide_eq_true_eq]
  exact ⟨val_lt _, val_lt _⟩

theorem kpkeKeygen_lengths (h : kpkeKeygen K turns d = .ok (pk, skPke)) :
    pk.length = 1184 ∧ skPke.length = 1152 := by
  obtain ⟨a, -, -, hparts⟩ := kpkeKeygen_parts h
  have hpk : pk = _ := congrArg Prod.fst hparts
  have hsk : skPke = _ := congrArg Prod.snd hparts
  rw [hpk, hsk]
  refine ⟨?_, polyvecTobytesExact_length _⟩
  rw [keygenExact, List.length_append, polyvecTobytesExact_length, squeeze_length]

end Honest

/-! ## Encapsulation and decapsulation -/

/-- The parts of a secret key, from their lengths. -/
theorem parts_of_append {skPke pk h z : Bytes} (hsk : skPke.length = 1152) (hpk : pk.length = 1184)
    (hh : h.length = 32) :
    skPkeOf (skPke ++ (pk ++ (h ++ z))) = skPke ∧ pkOf (skPke ++ (pk ++ (h ++ z))) = pk ∧
      hOf (skPke ++ (pk ++ (h ++ z))) = h := by
  refine ⟨List.take_left' hsk, ?_, ?_⟩
  · rw [pkOf, List.drop_left' hsk, List.take_left' hpk]
  · rw [hOf, ← List.drop_drop, List.drop_left' hsk, List.drop_left' hpk, List.take_left' hh]

theorem encryptExact_length (K : Keccak) (pk m r : Bytes) (a : Nat → Nat → Nat → Zq) :
    (encryptExact K pk m r a).length = 1088 := by
  rw [encryptExact, List.length_append, polyvecCompressExact_length, polyCompress4Exact_length]

theorem kpkeEncrypt_length {K : Keccak} {turns : Nat} {pk m r ct : Bytes}
    (h : kpkeEncrypt K turns pk m r = .ok ct) : ct.length = 1088 := by
  rw [kpkeEncrypt_eq] at h
  cases hmatrix : sampleMatrix K turns (rhoOf pk) fun i j => (i, j) with
  | error x =>
      rw [hmatrix] at h
      cases h
  | ok a =>
      rw [hmatrix] at h
      cases h
      exact encryptExact_length K pk m r _

/-- The re-encryption that `zupt_mlkem768_decaps` compares with. -/
def reencrypt (K : Keccak) (turns : Nat) (ct sk : Bytes) : Checked Bytes := do
  let m' ← kpkeDecrypt ct (skPkeOf sk)
  kpkeEncrypt K turns (pkOf sk) m' (squeeze (krOf K sk m') 32 32)

/-- **DECAPSULATION** selects by the comparison of the ciphertexts. -/
theorem mlkemDecaps_eq {K : Keccak} {turns : Nat} {ct ct' sk d : Bytes}
    (hm : kpkeDecrypt ct (skPkeOf sk) = .ok d)
    (hct : kpkeEncrypt K turns (pkOf sk) d (squeeze (krOf K sk d) 32 32) = .ok ct') :
    mlkemDecaps K turns ct sk = .ok (if SameBytes ct ct' 1088
      then squeeze (krOf K sk d) 0 32 else ssReject K ct sk) := by
  have hlen : (ssReject K ct sk).length = (squeeze (krOf K sk d) 0 32).length := by
    rw [ssReject, squeeze_length, squeeze_length]
  rw [mlkemDecaps, hm, ok_bind, hct, ok_bind, ctMemeq_eq]
  by_cases hall : SameBytes ct ct' 1088
  · rw [if_pos hall, if_pos hall]
    exact congrArg Except.ok (cmov_one hlen)
  · rw [if_neg hall, if_neg hall]
    exact congrArg Except.ok (cmov_zero hlen)

/-- **IMPLICIT REJECTION**, for every secret key and every ciphertext. -/
theorem mlkemDecaps_reject {K : Keccak} {turns : Nat} {ct ct' sk : Bytes} (hlen : ct.length = 1088)
    (hct : reencrypt K turns ct sk = .ok ct') (hne : ct' ≠ ct) :
    mlkemDecaps K turns ct sk = .ok (squeeze (K.shake256 (zOf sk ++ ct)) 0 32) := by
  rw [reencrypt, kpkeDecrypt_eq, ok_bind] at hct
  have hlen' := kpkeEncrypt_length hct
  have hdiffer : ¬ SameBytes ct ct' 1088 := fun hall => by
    refine hne (List.ext_getElem (by rw [hlen, hlen']) fun i h1 h2 => ?_)
    have hi := hall i (by rw [← hlen']; exact h1)
    rw [List.getD_eq_getElem _ _ h2, List.getD_eq_getElem _ _ h1] at hi
    exact hi.symm
  rw [mlkemDecaps_eq (kpkeDecrypt_eq _ _) hct, if_neg hdiffer, ssReject,
    List.take_of_length_le (by rw [hlen])]

theorem mlkemKeygen_parts {K : Keccak} {turns : Nat} {d z pk sk : Bytes}
    (h : mlkemKeygen K turns d z = .ok (pk, sk)) :
    ∃ skPke, kpkeKeygen K turns d = .ok (pk, skPke) ∧
      sk = skPke ++ (pk ++ (squeeze (K.sha3_256 pk) 0 32 ++ z.take 32)) := by
  rw [mlkemKeygen] at h
  cases hkpke : kpkeKeygen K turns d with
  | error x =>
      rw [hkpke] at h
      cases h
  | ok keys =>
      rw [hkpke] at h
      cases h
      exact ⟨keys.2, rfl, rfl⟩

/-- **THE SHARED SECRET** of an honest encapsulation. -/
theorem mlkemDecaps_honest {K : Keccak} {turns : Nat} {d z pk sk m : Bytes}
    (hkeys : mlkemKeygen K turns d z = .ok (pk, sk)) (hm : m.length = 32) :
    ∃ ct ss, mlkemEncaps K turns pk m = .ok (some (ct, ss)) ∧
      ∀ η, Congruent (polyOf η) (decryptionNoise K turns d m (squeeze (encapsKr K pk m) 32 32)) →
        (∀ i < 256, distance (η i) < q / 4) → mlkemDecaps K turns ct sk = .ok ss := by
  obtain ⟨skPke, hkpke, rfl⟩ := mlkemKeygen_parts hkeys
  obtain ⟨hpk, hskPke⟩ := kpkeKeygen_lengths hkpke
  obtain ⟨ct, hencrypt⟩ : ∃ ct, kpkeEncrypt K turns pk m (squeeze (encapsKr K pk m) 32 32) = .ok ct := by
    obtain ⟨aT, hencrypt, -⟩ := kpkeEncrypt_returns hkpke m _
    exact ⟨_, hencrypt⟩
  obtain ⟨hsk, hpkOf, hhOf⟩ := parts_of_append (z := z.take 32) hskPke hpk
    (squeeze_length (K.sha3_256 pk) 0 32)
  have hkr : krOf K (skPke ++ (pk ++ (squeeze (K.sha3_256 pk) 0 32 ++ z.take 32))) m = encapsKr K pk m := by
    rw [krOf, hhOf, encapsKr, List.take_of_length_le (by rw [hm])]
  refine ⟨ct, squeeze (encapsKr K pk m) 0 32, ?_, fun η hη hsmall => ?_⟩
  · rw [mlkemEncaps, if_pos (checkEk_honest hkpke), hencrypt]
    rfl
  · have hdecrypt := kpkeDecrypt_honest hkpke hm hencrypt hη hsmall
    have hsame : SameBytes ct ct 1088 := fun i _ => rfl
    rw [mlkemDecaps_eq (d := m) (by rw [hsk]; exact hdecrypt) (by rw [hpkOf, hkr]; exact hencrypt),
      if_pos hsame, hkr]

/-- **CORRECTNESS AND IMPLICIT REJECTION**: whatever the hash functions return, encryption
    and encapsulation under a generated key return, and while the noise is below `q / 4`,
    decryption returns the message and decapsulation the encapsulated secret; for every
    secret key and every ciphertext that its re-encryption differs from, decapsulation
    returns the hash of `z` and the ciphertext. -/
theorem mlkem_correct_and_rejecting (K : Keccak) (turns : Nat) :
    (∀ d pk skPke m r : Bytes, kpkeKeygen K turns d = .ok (pk, skPke) → m.length = 32 →
        ∃ ct, kpkeEncrypt K turns pk m r = .ok ct ∧
          ∀ η, Congruent (polyOf η) (decryptionNoise K turns d m r) →
            (∀ i < 256, distance (η i) < q / 4) → kpkeDecrypt ct skPke = .ok m) ∧
      (∀ d z pk sk m : Bytes, mlkemKeygen K turns d z = .ok (pk, sk) → m.length = 32 →
        ∃ ct ss, mlkemEncaps K turns pk m = .ok (some (ct, ss)) ∧
          ∀ η, Congruent (polyOf η) (decryptionNoise K turns d m (squeeze (encapsKr K pk m) 32 32)) →
            (∀ i < 256, distance (η i) < q / 4) → mlkemDecaps K turns ct sk = .ok ss) ∧
      ∀ ct ct' sk : Bytes, ct.length = 1088 → reencrypt K turns ct sk = .ok ct' → ct' ≠ ct →
        mlkemDecaps K turns ct sk = .ok (squeeze (K.shake256 (zOf sk ++ ct)) 0 32) := by
  refine ⟨fun d pk skPke m r hkeys hm => ?_, fun d z pk sk m hkeys hm => mlkemDecaps_honest hkeys hm,
    fun ct ct' sk hlen hct hne => mlkemDecaps_reject hlen hct hne⟩
  obtain ⟨aT, hencrypt, -⟩ := kpkeEncrypt_returns hkeys m r
  exact ⟨_, hencrypt, fun η hη hsmall => kpkeDecrypt_honest hkeys hm hencrypt hη hsmall⟩

/-! ## A run without noise -/

section Silent

/-- Hash functions that return nothing but zero bytes. -/
def silent : Keccak := ⟨fun _ _ => 0, fun _ _ => 0, fun _ _ => 0, fun _ _ => 0⟩

theorem byteAt_silent (n i : Nat) : byteAt (squeeze (fun _ => 0) 0 n) i = 0 := by
  have hall : squeeze (fun _ => 0) 0 n = List.replicate n 0 := by
    rw [squeeze, List.map_const', List.length_range]
  rw [byteAt, hall, List.getD_eq_getElem?_getD, List.getElem?_getD_replicate_default_eq]
  rfl

theorem polyNoise_silent (seed : Bytes) (nonce : Nat) : polyNoiseExact silent seed nonce = fun _ => 0 := by
  funext i
  have hword : cbdWord (squeeze (fun _ => 0) 0 128) (i / 8) = 0 := by
    simp only [cbdWord, byteAt_silent]
    rfl
  have hterm : cbdTerm (cbdSums 0) (i % 8) = 0 := by
    show ((0 >>> (4 * (i % 8)) &&& 3 : Nat) : Int) - (0 >>> (4 * (i % 8) + 2) &&& 3 : Nat) = 0
    rw [Nat.zero_shiftRight, Nat.zero_shiftRight]
    rfl
  show ((cbdTerm (cbdSums (cbdWord (squeeze (fun _ => 0) 0 128) (i / 8))) (i % 8) : Int) : Zq) = 0
  rw [hword, hterm, Int.cast_zero]

theorem noise_silent (seed : Bytes) (nonce : Nat) : noiseExact silent seed nonce = fun _ _ => 0 :=
  funext fun i => polyNoise_silent seed (nonce + i)

theorem acc_silent (f : Nat → Nat → Zq) : accExact f (vecNttExact fun _ _ => 0) = fun _ => 0 := by
  funext i
  refine Finset.sum_eq_zero fun j _ => ?_
  rw [basemulExact, vecNttExact, nttExact_zero, baseProduct]
  simp only [mul_zero, add_zero, ite_self]

theorem uExact_silent (a : Nat → Nat → Nat → Zq) (i : Nat) :
    uExact a (fun _ _ => 0) (fun _ _ => 0) i = fun _ => 0 := by
  funext k
  rw [uExact, acc_silent, invNttExact_zero, add_zero]

theorem vExact_silent (t : Nat → Nat → Zq) (mp : Nat → Zq) :
    vExact t (fun _ _ => 0) (fun _ => 0) mp = mp := by
  funext k
  rw [vExact, acc_silent, invNttExact_zero, add_zero, zero_add]

theorem polyOf_zero : polyOf (fun _ => 0) = 0 := by
  have hzero := blockPoly_smul (0 : Zq) (fun _ => 0) 0 256
  simp only [zero_mul, map_zero] at hzero
  rw [polyOf, hzero]

/-- A message is not rounded at all. -/
theorem rounded_message : ∀ b < 2, rounded 4 ((b : Nat) * 1665) = (b : Nat) * 1665 := by decide

theorem decryptionNoise_silent (d m r : Bytes) : decryptionNoise silent 128 d m r = 0 := by
  have hu : roundError 10 (fun _ => 0) = fun _ => 0 := by
    funext i
    rw [roundError, show rounded 10 0 = 0 by decide, sub_zero]
  have hv : roundError 4 (messagePolyExact m) = fun _ => 0 := by
    funext i
    rw [roundError, messagePolyExact, rounded_message _ (messageBit_lt m i), sub_self]
  rw [decryptionNoise]
  simp only [noise_silent, polyNoise_silent, uExact_silent, vExact_silent, hu, hv]
  rw [noisePoly, noiseIn]
  simp only [polyOf_zero, mul_zero, add_zero, Finset.sum_const_zero, sub_zero]

theorem uniform_silent (seed : Bytes) (i j : Nat) : ∃ r, polyUniform silent 128 seed i j = some r := by
  have hsome : (uniformLoop (fun _ => 0) 128 0 (fun _ => 0, 0)).isSome = true := by decide
  exact Option.isSome_iff_exists.mp hsome

theorem sampleMatrix_silent (rho : Bytes) (index : Nat → Nat → Nat × Nat) :
    ∃ a, sampleMatrix silent 128 rho index = .ok a := by
  obtain ⟨a, ha, -⟩ := fillLoop_all (P := fun _ (_ : Polyvec) => True) (n := mlkemK)
    (g := fun i => fillLoop (fun j =>
      sampled (polyUniform silent 128 rho (index i j).1 (index i j).2)) mlkemK) fun i _ => by
      obtain ⟨v, hv, -⟩ := fillLoop_all (P := fun _ (_ : Poly) => True) (n := mlkemK)
        (g := fun j => sampled (polyUniform silent 128 rho (index i j).1 (index i j).2)) fun j _ => by
          obtain ⟨r, hr⟩ := uniform_silent rho (index i j).1 (index i j).2
          rw [hr]
          exact ⟨r, rfl, trivial⟩
      exact ⟨v, hv, trivial⟩
  exact ⟨a, ha⟩

/-- The first byte of every ciphertext. -/
theorem encrypt_silent (pk m r : Bytes) :
    ∃ ct, kpkeEncrypt silent 128 pk m r = .ok ct ∧ ct.getD 0 0 = 0 := by
  obtain ⟨a, ha⟩ := sampleMatrix_silent (rhoOf pk) fun i j => (i, j)
  refine ⟨encryptExact silent pk m r (matrixClasses a), by rw [kpkeEncrypt_eq, ha]; rfl, ?_⟩
  have hfirst : encryptExact silent pk m r (matrixClasses a) =
      polyvecCompressExact (fun _ _ => 0) ++ polyCompress4Exact
        (vExact (polyvecFrombytesExact pk) (fun _ _ => 0) (fun _ => 0) (messagePolyExact m)) := by
    rw [encryptExact]
    simp only [noise_silent, polyNoise_silent]
    rw [show uExact (matrixClasses a) (fun _ _ => 0) (fun _ _ => 0) = fun _ _ => 0 from
      funext fun i => uExact_silent _ i]
  rw [hfirst]
  rfl

/-- The theorem, run: the message and the secret come back, and a ciphertext with another
    first byte is rejected. -/
theorem mlkem_correct_and_rejecting_run :
    (∃ pk skPke ct, kpkeKeygen silent 128 [] = .ok (pk, skPke) ∧
        kpkeEncrypt silent 128 pk (List.replicate 32 5) [] = .ok ct ∧
        kpkeDecrypt ct skPke = .ok (List.replicate 32 5)) ∧
      (∃ pk sk ct ss, mlkemKeygen silent 128 [] [] = .ok (pk, sk) ∧
        mlkemEncaps silent 128 pk (List.replicate 32 5) = .ok (some (ct, ss)) ∧
        mlkemDecaps silent 128 ct sk = .ok ss) ∧
      mlkemDecaps silent 128 (1 :: List.replicate 1087 0) [] =
        .ok (squeeze (silent.shake256 (zOf [] ++ 1 :: List.replicate 1087 0)) 0 32) := by
  obtain ⟨hpke, hkem, hreject⟩ := mlkem_correct_and_rejecting silent 128
  obtain ⟨a, ha⟩ := sampleMatrix_silent (squeeze (seeds silent []) 0 32) fun i j => (j, i)
  have hkeys : kpkeKeygen silent 128 [] = .ok (keygenExact silent [] (matrixClasses a)) := by
    rw [kpkeKeygen_eq, ha]
    rfl
  have hzero : ∀ m r : Bytes, Congruent (polyOf fun _ => 0) (decryptionNoise silent 128 [] m r) :=
    fun m r => by
      rw [decryptionNoise_silent, polyOf_zero, Congruent, sub_zero]
      exact dvd_zero _
  have hsmall : ∀ i < 256, distance ((fun _ => 0 : Nat → Zq) i) < q / 4 := fun i _ => by
    show |(0 : Zq).valMinAbs| < q / 4
    rw [ZMod.valMinAbs_zero]
    decide
  refine ⟨?_, ?_, ?_⟩
  · obtain ⟨ct, hct, hdecrypt⟩ := hpke [] _ _ (List.replicate 32 5) [] hkeys List.length_replicate
    exact ⟨_, _, ct, hkeys, hct, hdecrypt _ (hzero _ _) hsmall⟩
  · have hpair : ∃ pk sk, mlkemKeygen silent 128 [] [] = .ok (pk, sk) := by
      rw [mlkemKeygen, hkeys]
      exact ⟨_, _, rfl⟩
    obtain ⟨pk, sk, hpair⟩ := hpair
    obtain ⟨ct, ss, hct, hdecaps⟩ := hkem [] [] pk sk (List.replicate 32 5) hpair List.length_replicate
    exact ⟨pk, sk, ct, ss, hpair, hct, hdecaps _ (hzero _ _) hsmall⟩
  · have hre : ∃ ct', reencrypt silent 128 (1 :: List.replicate 1087 0) [] = .ok ct' ∧
        ct'.getD 0 0 = 0 := by
      rw [reencrypt, kpkeDecrypt_eq, ok_bind]
      exact encrypt_silent _ _ _
    obtain ⟨ct', hct, hbyte⟩ := hre
    refine hreject _ ct' [] (by rw [List.length_cons, List.length_replicate]) hct fun hsame => ?_
    rw [hsame] at hbyte
    cases hbyte

end Silent

end Zupt.Mlkem
