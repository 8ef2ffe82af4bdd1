import Zupt.Mlkem.Sample

/-! # K-PKE

    Key generation, encryption and decryption, with every integer checked, and the same
    three on the integers modulo `q`.  They agree on all byte strings: the coefficients
    of a key are below 4096 and no more is known of them. -/

namespace Zupt.Mlkem

/-! ## The code -/

/-- The loops that call `poly_uniform`, on the seed with two index bytes. -/
def sampleMatrix (K : Keccak) (turns : Nat) (rho : Bytes) (index : Nat → Nat → Nat × Nat) :
    Checked (Nat → Polyvec) :=
  fillLoop (fun i => fillLoop (fun j =>
    sampled (polyUniform K turns rho (index i j).1 (index i j).2)) mlkemK) mlkemK

/-- The loop over `poly_noise` from a nonce on. -/
def sampleNoise (K : Keccak) (seed : Bytes) (nonce : Nat) : Checked Polyvec :=
  fillLoop (fun i => polyNoise K seed (nonce + i)) mlkemK

/-- `G(d ‖ k)`. -/
def seeds (K : Keccak) (d : Bytes) : Nat → UInt8 := K.sha3_512 (d.take 32 ++ [UInt8.ofNat mlkemK])

/-- `kpke_keygen`, with `pk` and `sk_pke`. -/
def kpkeKeygen (K : Keccak) (turns : Nat) (d : Bytes) : Checked (Bytes × Bytes) := do
  let rho := squeeze (seeds K d) 0 32
  let sigma := squeeze (seeds K d) 32 32
  let aHat ← sampleMatrix K turns rho fun i j => (j, i)
  let s ← sampleNoise K sigma 0
  let e ← sampleNoise K sigma mlkemK
  let s ← polyvecNtt s
  let e ← polyvecNtt e
  let tHat ← fillLoop (fun i => do
    let t ← polyvecPointwiseAcc (aHat i) s
    let t ← polyTomont t
    let t ← polyAdd t (e i)
    polyReduce t) mlkemK
  let t ← polyvecTobytes tHat
  let sk ← polyvecTobytes s
  return (t ++ rho, sk)

/-- `rho` of a public key. -/
def rhoOf (pk : Bytes) : Bytes := (pk.drop (mlkemK * 384)).take 32

/-- `kpke_encrypt`. -/
def kpkeEncrypt (K : Keccak) (turns : Nat) (pk m r : Bytes) : Checked Bytes := do
  let tHat ← polyvecFrombytes pk
  let aT ← sampleMatrix K turns (rhoOf pk) fun i j => (i, j)
  let rVec ← sampleNoise K r 0
  let e1 ← sampleNoise K r mlkemK
  let e2 ← polyNoise K r (2 * mlkemK)
  let rVec ← polyvecNtt rVec
  let u ← fillLoop (fun i => polyvecPointwiseAcc (aT i) rVec) mlkemK
  let u ← polyvecInvntt u
  let u ← fillLoop (fun i => polyAdd (u i) (e1 i)) mlkemK
  let v ← polyvecPointwiseAcc tHat rVec
  let v ← invNtt v
  let v ← polyAdd v e2
  let mp ← messagePoly m
  let v ← polyAdd v mp
  let u ← fillLoop (fun i => polyReduce (u i)) mlkemK
  let v ← polyReduce v
  let c1 ← polyvecCompress u
  let c2 ← polyCompress4 v
  return c1 ++ c2

/-- `kpke_decrypt`. -/
def kpkeDecrypt (ct skPke : Bytes) : Checked Bytes := do
  let u ← polyvecDecompress ct
  let v ← polyDecompress4 (ct.drop (mlkemK * 320))
  let sHat ← polyvecFrombytes skPke
  let u ← polyvecNtt u
  let w ← polyvecPointwiseAcc sHat u
  let w ← invNtt w
  let w ← polySub v w
  let w ← polyReduce w
  messageBytes w

/-! ## The same modulo `q` -/

/-- What a matrix stands for. -/
def matrixClasses (a : Nat → Polyvec) (i j : Nat) : Nat → Zq := classes (a i j)

def noiseExact (K : Keccak) (seed : Bytes) (nonce i : Nat) : Nat → Zq := polyNoiseExact K seed (nonce + i)

/-- The transforms of the polynomials of a vector. -/
def vecNttExact (f : Nat → Nat → Zq) (j : Nat) : Nat → Zq := nttExact (f j)

/-- The second part of a public key, on a matrix. -/
def publicExact (a : Nat → Nat → Nat → Zq) (s e : Nat → Nat → Zq) (i k : Nat) : Zq :=
  mont * accExact (a i) (vecNttExact s) k + nttExact (e i) k

/-- The first part of a ciphertext, before it is compressed. -/
def uExact (aT : Nat → Nat → Nat → Zq) (r e1 : Nat → Nat → Zq) (i k : Nat) : Zq :=
  invNttExact (accExact (aT i) (vecNttExact r)) k + e1 i k

/-- The second part. -/
def vExact (tHat r : Nat → Nat → Zq) (e2 mp : Nat → Zq) (k : Nat) : Zq :=
  invNttExact (accExact tHat (vecNttExact r)) k + e2 k + mp k

/-- What is decoded. -/
def wExact (sHat u : Nat → Nat → Zq) (v : Nat → Zq) (k : Nat) : Zq :=
  v k - invNttExact (accExact sHat (vecNttExact u)) k

/-- `kpke_keygen` on the integers modulo `q`. -/
def keygenExact (K : Keccak) (d : Bytes) (a : Nat → Nat → Nat → Zq) : Bytes × Bytes :=
  let sigma := squeeze (seeds K d) 32 32
  let s := noiseExact K sigma 0
  (polyvecTobytesExact (publicExact a s (noiseExact K sigma mlkemK)) ++ squeeze (seeds K d) 0 32,
    polyvecTobytesExact (vecNttExact s))

/-- `kpke_encrypt` on the integers modulo `q`. -/
def encryptExact (K : Keccak) (pk m r : Bytes) (aT : Nat → Nat → Nat → Zq) : Bytes :=
  let rVec := noiseExact K r 0
  polyvecCompressExact (uExact aT rVec (noiseExact K r mlkemK)) ++
    polyCompress4Exact (vExact (polyvecFrombytesExact pk) rVec (polyNoiseExact K r (2 * mlkemK))
      (messagePolyExact m))

/-- `kpke_decrypt` on the integers modulo `q`. -/
def decryptExact (ct skPke : Bytes) : Bytes :=
  messageBytesExact (wExact (polyvecFrombytesExact skPke) (polyvecDecompressExact ct)
    (polyDecompress4Exact (ct.drop (mlkemK * 320))))

/-! ## They agree -/

theorem sampleNoise_rep (K : Keccak) (seed : Bytes) (nonce : Nat) :
    ∃ v, sampleNoise K seed nonce = .ok v ∧ VecRep 3 v (noiseExact K seed nonce) :=
  fillLoop_vecRep fun j _ => polyNoise_rep K seed (nonce + j)

theorem VecRep.mono {B B' : Int} {v : Polyvec} {f : Nat → Nat → Zq} (h : VecRep B v f) (hB : B ≤ B') :
    VecRep B' v f := fun j hj => (h j hj).mono hB

/-- **THE MATRIX** that has been sampled is in range; what else can happen is that the
    sampling has not ended. -/
theorem sampleMatrix_rep {K : Keccak} {turns : Nat} {rho : Bytes} {index : Nat → Nat → Nat × Nat}
    {a : Nat → Polyvec} (h : sampleMatrix K turns rho index = .ok a) :
    ∀ i < mlkemK, VecRep 4095 (a i) (matrixClasses a i) := by
  intro i hi j hj
  have hentry := fillLoop_ok (fillLoop_ok h i hi) j hj
  cases hsample : polyUniform K turns rho (index i j).1 (index i j).2 with
  | none =>
      rw [hsample] at hentry
      cases hentry
  | some r =>
      rw [hsample] at hentry
      cases hentry
      exact polyUniform_rep hsample

theorem sampleMatrix_fault {K : Keccak} {turns : Nat} {rho : Bytes} {index : Nat → Nat → Nat × Nat}
    {x : Fault} (h : sampleMatrix K turns rho index = .error x) : x = .unfinished := by
  obtain ⟨i, -, hrow⟩ := fillLoop_error h
  obtain ⟨j, -, hentry⟩ := fillLoop_error hrow
  cases hsample : polyUniform K turns rho (index i j).1 (index i j).2 with
  | none =>
      rw [hsample] at hentry
      cases hentry
      rfl
  | some r =>
      rw [hsample] at hentry
      cases hentry

section Agree

variable {K : Keccak} {a : Nat → Polyvec}

/-- **KEY GENERATION**: the second part of the public key. -/
theorem publicLoop_rep (ha : ∀ i < mlkemK, VecRep 4095 (a i) (matrixClasses a i)) {s e : Polyvec}
    {f g : Nat → Nat → Zq} (hs : VecRep 18283 s (vecNttExact f)) (he : VecRep 18283 e (vecNttExact g)) :
    ∃ tHat, fillLoop (fun i => do
      let t ← polyvecPointwiseAcc (a i) s
      let t ← polyTomont t
      let t ← polyAdd t (e i)
      polyReduce t) mlkemK = .ok tHat ∧ VecRep 1664 tHat (publicExact (matrixClasses a) f g) := by
  refine fillLoop_vecRep fun i hi => ?_
  obtain ⟨t₁, e₁, h₁⟩ := polyvecPointwiseAcc_rep (ha i hi) hs
  obtain ⟨t₂, e₂, h₂⟩ := polyTomont_rep h₁
  obtain ⟨t₃, e₃, h₃⟩ := polyAdd_rep h₂ (he i hi) (by decide)
  obtain ⟨t₄, e₄, h₄⟩ := polyReduce_rep (h₃.mono (by decide))
  refine ⟨t₄, ?_, h₄⟩
  rw [e₁, ok_bind, e₂, ok_bind, e₃, ok_bind, e₄]

/-- Both parts of a ciphertext, before they are compressed. -/
theorem ciphertextLoop_rep (ha : ∀ i < mlkemK, VecRep 4095 (a i) (matrixClasses a i)) {r e1 : Polyvec}
    {f g : Nat → Nat → Zq} (hr : VecRep 18283 r (vecNttExact f)) (he : VecRep 3 e1 g) :
    ∃ u₁ u₂ u₃ u, fillLoop (fun i => polyvecPointwiseAcc (a i) r) mlkemK = .ok u₁ ∧
      polyvecInvntt u₁ = .ok u₂ ∧ fillLoop (fun i => polyAdd (u₂ i) (e1 i)) mlkemK = .ok u₃ ∧
      fillLoop (fun i => polyReduce (u₃ i)) mlkemK = .ok u ∧
      VecRep 1664 u (uExact (matrixClasses a) f g) := by
  obtain ⟨u₁, e₁, h₁⟩ := fillLoop_vecRep fun i hi => polyvecPointwiseAcc_rep (ha i hi) hr
  obtain ⟨u₂, e₂, h₂⟩ := polyvecInvntt_rep h₁
  obtain ⟨u₃, e₃, h₃⟩ := fillLoop_vecRep fun i hi => polyAdd_rep (h₂ i hi) (he i hi) (by decide)
  obtain ⟨u, e₄, h₄⟩ := fillLoop_vecRep fun i hi => polyReduce_rep ((h₃ i hi).mono (by decide))
  exact ⟨u₁, u₂, u₃, u, e₁, e₂, e₃, e₄, h₄⟩

/-- **KEY GENERATION** is exact. -/
theorem kpkeKeygen_eq (K : Keccak) (turns : Nat) (d : Bytes) :
    kpkeKeygen K turns d = (sampleMatrix K turns (squeeze (seeds K d) 0 32) fun i j => (j, i)).map
      fun a => keygenExact K d (matrixClasses a) := by
  rw [kpkeKeygen]
  cases hmatrix : sampleMatrix K turns (squeeze (seeds K d) 0 32) fun i j => (j, i) with
  | error x => rfl
  | ok a =>
      have ha := sampleMatrix_rep hmatrix
      obtain ⟨s, es, hs⟩ := sampleNoise_rep K (squeeze (seeds K d) 32 32) 0
      obtain ⟨e, ee, he⟩ := sampleNoise_rep K (squeeze (seeds K d) 32 32) mlkemK
      obtain ⟨sHat, esHat, hsHat⟩ := polyvecNtt_rep (hs.mono (by decide))
      obtain ⟨eHat, eeHat, heHat⟩ := polyvecNtt_rep (he.mono (by decide))
      obtain ⟨tHat, et, ht⟩ := publicLoop_rep ha hsHat heHat
      rw [ok_bind, es, ok_bind, ee, ok_bind, esHat, ok_bind, eeHat, ok_bind, et, ok_bind,
        polyvecTobytes_eq ht, ok_bind, polyvecTobytes_eq hsHat, ok_bind]
      rfl

/-- **ENCRYPTION** is exact, for every public key. -/
theorem kpkeEncrypt_eq (K : Keccak) (turns : Nat) (pk m r : Bytes) :
    kpkeEncrypt K turns pk m r = (sampleMatrix K turns (rhoOf pk) fun i j => (i, j)).map
      fun a => encryptExact K pk m r (matrixClasses a) := by
  obtain ⟨tHat, et, ht⟩ := polyvecFrombytes_rep pk
  rw [kpkeEncrypt, et, ok_bind]
  cases hmatrix : sampleMatrix K turns (rhoOf pk) fun i j => (i, j) with
  | error x => rfl
  | ok a =>
      obtain ⟨rVec, er, hr⟩ := sampleNoise_rep K r 0
      obtain ⟨e1, ee1, he1⟩ := sampleNoise_rep K r mlkemK
      obtain ⟨e2, ee2, he2⟩ := polyNoise_rep K r (2 * mlkemK)
      obtain ⟨rHat, erHat, hrHat⟩ := polyvecNtt_rep (hr.mono (by decide))
      obtain ⟨u₁, u₂, u₃, u, eu₁, eu₂, eu₃, eu, hu⟩ :=
        ciphertextLoop_rep (sampleMatrix_rep hmatrix) hrHat he1
      obtain ⟨v₁, ev₁, hv₁⟩ := polyvecPointwiseAcc_rep ht hrHat
      obtain ⟨v₂, ev₂, hv₂⟩ := invNtt_rep (hv₁.mono (by decide))
      obtain ⟨v₃, ev₃, hv₃⟩ := polyAdd_rep hv₂ he2 (by decide)
      obtain ⟨mp, emp, hmp⟩ := messagePoly_rep m
      obtain ⟨v₄, ev₄, hv₄⟩ := polyAdd_rep hv₃ hmp (by decide)
      obtain ⟨v, ev, hv⟩ := polyReduce_rep (hv₄.mono (by decide))
      rw [ok_bind, er, ok_bind, ee1, ok_bind, ee2, ok_bind, erHat, ok_bind, eu₁, ok_bind, eu₂,
        ok_bind, eu₃, ok_bind, ev₁, ok_bind, ev₂, ok_bind, ev₃, ok_bind, emp, ok_bind, ev₄, ok_bind,
        eu, ok_bind, ev, ok_bind, polyvecCompress_eq hu, ok_bind, polyCompress4_eq hv, ok_bind]
      rfl

/-- **DECRYPTION** is exact, for every ciphertext and every secret key. -/
theorem kpkeDecrypt_eq (ct skPke : Bytes) : kpkeDecrypt ct skPke = .ok (decryptExact ct skPke) := by
  obtain ⟨u, eu, hu⟩ := polyvecDecompress_rep ct
  obtain ⟨v, ev, hv⟩ := polyDecompress4_rep (ct.drop (mlkemK * 320))
  obtain ⟨sHat, es, hs⟩ := polyvecFrombytes_rep skPke
  obtain ⟨uHat, euHat, huHat⟩ := polyvecNtt_rep hu
  obtain ⟨w₁, ew₁, hw₁⟩ := polyvecPointwiseAcc_rep hs huHat
  obtain ⟨w₂, ew₂, hw₂⟩ := invNtt_rep (hw₁.mono (by decide))
  obtain ⟨w₃, ew₃, hw₃⟩ := polySub_rep hv hw₂ (by decide)
  obtain ⟨w, ew, hw⟩ := polyReduce_rep (hw₃.mono (by decide))
  rw [kpkeDecrypt, eu, ok_bind, ev, ok_bind, es, ok_bind, euHat, ok_bind, ew₁, ok_bind, ew₂, ok_bind,
    ew₃, ok_bind, ew, ok_bind, messageBytes_eq hw]
  rfl

end Agree

/-- **NO OVERFLOW, EXACT RESULTS**: on all byte strings and for all hash functions, no
    operation of key generation, encryption and decryption leaves its integer type, and
    the bytes are those of the computation modulo `q`.  All else that can happen is that
    the rejection sampling needs more turns. -/
theorem mlkem_arithmetic_exact (K : Keccak) (turns : Nat) :
    (∀ d, kpkeKeygen K turns d = (sampleMatrix K turns (squeeze (seeds K d) 0 32)
        fun i j => (j, i)).map fun a => keygenExact K d (matrixClasses a)) ∧
      (∀ pk m r, kpkeEncrypt K turns pk m r = (sampleMatrix K turns (rhoOf pk)
        fun i j => (i, j)).map fun a => encryptExact K pk m r (matrixClasses a)) ∧
      (∀ ct skPke, kpkeDecrypt ct skPke = .ok (decryptExact ct skPke)) ∧
      (∀ d, kpkeKeygen K turns d ≠ .error .overflow) ∧
      ∀ pk m r, kpkeEncrypt K turns pk m r ≠ .error .overflow := by
  refine ⟨kpkeKeygen_eq K turns, kpkeEncrypt_eq K turns, kpkeDecrypt_eq, fun d hfault => ?_,
    fun pk m r hfault => ?_⟩
  · rw [kpkeKeygen_eq] at hfault
    cases hmatrix : sampleMatrix K turns (squeeze (seeds K d) 0 32) fun i j => (j, i) with
    | error x =>
        rw [hmatrix, sampleMatrix_fault hmatrix] at hfault
        cases hfault
    | ok a =>
        rw [hmatrix] at hfault
        cases hfault
  · rw [kpkeEncrypt_eq] at hfault
    cases hmatrix : sampleMatrix K turns (rhoOf pk) fun i j => (i, j) with
    | error x =>
        rw [hmatrix, sampleMatrix_fault hmatrix] at hfault
        cases hfault
    | ok a =>
        rw [hmatrix] at hfault
        cases hfault

end Zupt.Mlkem
