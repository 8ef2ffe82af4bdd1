import Zupt.Lz

/-! # The Zupt-LZ round trip

    What `zupt_lz_compress` writes, `zupt_lz_decompress` expands to the source.
    The loop keeps that its output so far expands to the source up to the anchor;
    a match was compared before it counts, and the test of the capacity covers
    all that is written behind it. -/

namespace Zupt.Lz

open Zupt.LittleEndian Zupt.Window Zupt.VaptVupt

/-! ## Extended lengths -/

/-- With room for it the whole of an extension is written. -/
theorem lzWriteExtra_length {cap len : Nat} (h : len / 255 < cap) :
    (lzWriteExtra cap len).length = len / 255 + 1 := by
  induction cap generalizing len with
  | zero => omega
  | succ cap ih =>
      rw [lzWriteExtra]
      by_cases hbig : 255 ≤ len
      · rw [if_pos hbig, List.length_cons, ih (by omega)]
        omega
      · rw [if_neg hbig, List.length_singleton]
        omega

/-- An extension is read back, up to the ceiling of the reader. -/
theorem lzReadExtra_lzWriteExtra {cap len t : Nat} (rest : Bytes) (h : len / 255 < cap)
    (hceil : t + len ≤ 0xFFFFFFFF - 255) :
    lzReadExtra t (lzWriteExtra cap len ++ rest) = some (t + len, rest) := by
  induction cap generalizing len t with
  | zero => omega
  | succ cap ih =>
      have hroom : ¬ 0xFFFFFFFF - 255 < t := by omega
      rw [lzWriteExtra]
      by_cases hbig : 255 ≤ len
      · have hsum : t + 255 + (len - 255) = t + len := by omega
        rw [if_pos hbig, List.cons_append, lzReadExtra, if_neg hroom, if_neg (by decide)]
        show lzReadExtra (t + 255) _ = _
        rw [ih (by omega) (by omega), hsum]
      · have hbyte : (UInt8.ofNat len).toNat = len := UInt8.toNat_ofNat_of_lt' (by show len < 256; omega)
        have hlast : UInt8.ofNat len < 255 := by
          rw [UInt8.lt_iff_toNat_lt, hbyte]
          show len < 255
          omega
        rw [if_neg hbig, List.singleton_append, lzReadExtra, if_neg hroom, if_pos hlast, hbyte]

/-- What a length writes behind its nibble. -/
def extension (cap n : Nat) : Bytes := if 15 ≤ n then lzWriteExtra cap (n - 15) else []

theorem extension_length {cap n : Nat} (h : n / 255 < cap) :
    (extension cap n).length ≤ n / 255 + 1 := by
  rw [extension]
  by_cases hlong : 15 ≤ n
  · rw [if_pos hlong, lzWriteExtra_length (by omega)]
    omega
  · rw [if_neg hlong]
    exact Nat.zero_le _

theorem ite_extension (out : Bytes) (cap n : Nat) :
    (if 15 ≤ n then out ++ lzWriteExtra cap (n - 15) else out) = out ++ extension cap n := by
  rw [extension]
  by_cases hlong : 15 ≤ n
  · rw [if_pos hlong, if_pos hlong]
  · rw [if_neg hlong, if_neg hlong, List.append_nil]

/-- **A LENGTH** is read back from its nibble and its extension. -/
theorem lzReadLen_extension {cap n init : Nat} (rest : Bytes) (h : n / 255 < cap)
    (hceil : n + init ≤ 0xFFFFFFFF - 255) :
    lzReadLen (min n 15) init (extension cap n ++ rest) = some (n + init, rest) := by
  rw [lzReadLen, extension]
  by_cases hlong : 15 ≤ n
  · have hsum : 15 + init + (n - 15) = n + init := by omega
    rw [if_pos hlong, if_pos (Nat.min_eq_right hlong),
      lzReadExtra_lzWriteExtra rest (by omega) (by omega), hsum]
  · rw [if_neg hlong, if_neg (by omega), List.nil_append, Nat.min_eq_left (by omega)]

/-! ## What a search reports -/

/-- Nothing, or a match of at least three bytes that is there. -/
def Good (src : Bytes) (ip : Nat) (m : Best) : Prop :=
  m.len = 0 ∨ (IsMatch src ip m.off m.len ∧ minMatch ≤ m.len ∧ ip + m.len ≤ src.length ∧
    m.off ≤ maxOffset)

/-- What the walk keeps: no match yet, or one that is there. -/
def Walked (src : Bytes) (ip : Nat) (best : Best) : Prop :=
  minMatch ≤ best.len →
    IsMatch src ip best.off best.len ∧ ip + best.len ≤ src.length ∧ best.off ≤ maxOffset

/-- Bytes that agree from the front are a match. -/
theorem isMatch_agree {src : Bytes} {ip ref : Nat} (href : ref < ip) (n : Nat) :
    IsMatch src ip (ip - ref) (agree src ref ip n) := by
  refine ⟨by omega, by omega, ?_⟩
  intro i hi
  have hback : ip + i - (ip - ref) = ref + i := by omega
  rw [hback]
  exact ((agree_spec src ref ip n).2 i hi).symm

theorem lzLook_walked {src : Bytes} {ip ref : Nat} {best : Best} (hend : ip ≤ src.length)
    (hnear : ip - maxOffset ≤ ref) (href : ref < ip) (h : Walked src ip best) :
    Walked src ip (lzLook src ip ref best).1 := by
  rw [lzLook]
  split
  · dsimp only
    split
    · have hlen := (agree_spec src ref ip (min (src.length - ip) 65535)).1
      intro _
      refine ⟨isMatch_agree href _, ?_, ?_⟩
      · show ip + agree src ref ip _ ≤ src.length
        omega
      · show ip - ref ≤ maxOffset
        omega
    · exact h
  · exact h

/-- **A SEARCH** reports nothing or a match that is there, whatever the tables
    hold. -/
theorem lzFindMatch_good (src : Bytes) (ip : Nat) (t : Tables) (max_chain : Nat) :
    Good src ip (lzFindMatch src ip t max_chain) := by
  rw [lzFindMatch]
  by_cases hshort : src.length < ip + 4
  · rw [if_pos hshort]
    exact Or.inl rfl
  · rw [if_neg hshort]
    dsimp only
    have hstart : Walked src ip ⟨minMatch - 1, 0⟩ := by
      intro hlen
      exact absurd hlen (by decide)
    have hwalk : Walked src ip (walk (ip - maxOffset) ip (fun ref => t.chain (ref % windowSize))
        (lzLook src ip) max_chain (t.hash_table (lzHash4 src ip)) ⟨minMatch - 1, 0⟩) :=
      walk_keeps (fun ref best hnear href h => lzLook_walked (by omega) hnear href h) _ _ _ hstart
    split
    · rename_i hlen
      obtain ⟨hmatch, hroom, hoff⟩ := hwalk hlen
      exact Or.inr ⟨hmatch, hlen, hroom, hoff⟩
    · exact Or.inl rfl

theorem lzChoose_spec {src : Bytes} {max_chain : Nat} {lazy : Bool} {ip : Nat} {t : Tables}
    {m : Best} (h : Good src ip m) (hlen : m.len ≠ 0) {ip' : Nat} {m' : Best} {t' : Tables}
    (hc : lzChoose src max_chain lazy ip t m = (ip', m', t')) :
    ip ≤ ip' ∧ Good src ip' m' ∧ m'.len ≠ 0 := by
  rw [lzChoose] at hc
  split at hc
  · dsimp only at hc
    split at hc
    · obtain ⟨rfl, rfl, rfl⟩ := hc
      exact ⟨Nat.le_succ _, lzFindMatch_good _ _ _ _, by omega⟩
    · obtain ⟨rfl, rfl, rfl⟩ := hc
      exact ⟨Nat.le_refl _, h, hlen⟩
  · obtain ⟨rfl, rfl, rfl⟩ := hc
    exact ⟨Nat.le_refl _, h, hlen⟩

/-! ## What is written is read back -/

theorem token_nibbles (hi lo : Nat) (hhi : hi < 16) (hlo : lo < 16) :
    (UInt8.ofNat (hi * 16 + lo)).toNat / 16 = hi ∧ (UInt8.ofNat (hi * 16 + lo)).toNat % 16 = lo := by
  have hbyte : (UInt8.ofNat (hi * 16 + lo)).toNat = hi * 16 + lo :=
    UInt8.toNat_ofNat_of_lt' (by show _ < 256; omega)
  rw [hbyte]
  omega

/-- The literals of the source are appended to what was produced of it. -/
theorem takeLits_bytesAt {src rest : Bytes} {dst_len anchor n : Nat} (hroom : anchor + n ≤ src.length)
    (hdst : src.length ≤ dst_len) :
    takeLits dst_len n (bytesAt src anchor n ++ rest) (src.take anchor) =
      some (rest, src.take (anchor + n)) := by
  have hlen := bytesAt_length hroom
  rw [takeLits]
  by_cases hn : 0 < n
  · have hfits : ¬ ((bytesAt src anchor n ++ rest).length < n ∨
        dst_len < (src.take anchor).length + n) := by
      rw [List.length_append, hlen, List.length_take]
      omega
    rw [if_pos hn, if_neg hfits, List.drop_left' hlen, List.take_left' hlen, bytesAt, List.take_add]
  · obtain rfl : n = 0 := by omega
    rw [if_neg hn, bytesAt, List.take_zero, List.nil_append, Nat.add_zero]

/-- The two bytes of an offset. -/
theorem leGet_offset {off : Nat} (h : off ≤ maxOffset) (rest : Bytes) :
    leGet ((lePut 2 off ++ rest).take 2) = off := by
  have hlt : off < 256 ^ 2 := Nat.lt_succ_of_le h
  rw [List.take_left' (lePut_length 2 off), leGet_lePut, Nat.mod_eq_of_lt hlt]

/-- A match that is there extends what was produced of the source. -/
theorem takeMatch_spec {src rest : Bytes} {dst_len ip cap : Nat} {m : Best}
    (hgood : IsMatch src ip m.off m.len) (hmin : minMatch ≤ m.len) (hroom : ip + m.len ≤ src.length)
    (hoff : m.off ≤ maxOffset) (hcap : (m.len - minMatch) / 255 < cap) (hdst : src.length ≤ dst_len)
    (hsize : src.length < 2 ^ 31) :
    takeMatch dst_len (min (m.len - minMatch) 15)
        (lePut 2 m.off ++
          (extension cap (m.len - minMatch) ++ rest)) (src.take ip) =
      some (rest, src.take (ip + m.len)) := by
  have hlen : (src.take ip).length = ip := by
    rw [List.length_take]
    omega
  have hfar := hgood.far
  have hback := hgood.back
  have hread : lzReadLen (min (m.len - minMatch) 15) minMatch
      (extension cap (m.len - minMatch) ++ rest) = some (m.len - minMatch + minMatch, rest) := by
    refine lzReadLen_extension rest hcap ?_
    omega
  have hshort : ¬ (lePut 2 m.off ++
      (extension cap (m.len - minMatch) ++ rest)).length < 2 := by
    rw [List.length_append, lePut_length]
    omega
  rw [takeMatch, if_neg hshort]
  dsimp only
  rw [leGet_offset hoff, hlen, if_neg (by omega), List.drop_left' (lePut_length 2 m.off), hread]
  dsimp only
  rw [Nat.sub_add_cancel hmin, if_neg (by omega), hgood.extend hroom]

/-! ## The output so far -/

/-- The output expands to the source up to the anchor, with any input behind it. -/
def Expands (src : Bytes) (dst_len : Nat) (out : Bytes) (anchor : Nat) : Prop :=
  ∃ k, k ≤ out.length ∧ ∀ turns rest,
    lzUnpack dst_len (k + turns) (out ++ rest) [] = lzUnpack dst_len turns rest (src.take anchor)

theorem expands_nil (src : Bytes) (dst_len : Nat) : Expands src dst_len [] 0 := by
  refine ⟨0, Nat.le_refl _, ?_⟩
  intro turns rest
  rw [Nat.zero_add, List.nil_append, List.take_zero]

theorem putLits_eq (src : Bytes) (dst_cap : Nat) (out : Bytes) (anchor lit_len tm : Nat) :
    putLits src dst_cap out anchor lit_len tm =
      out ++ (UInt8.ofNat (min lit_len 15 * 16 + tm) ::
        (extension (dst_cap - (out.length + 1)) lit_len ++ bytesAt src anchor lit_len)) := by
  rw [putLits, ite_extension, List.length_append, List.length_singleton, List.append_assoc,
    List.append_assoc, List.singleton_append]

/-- **A SEQUENCE FITS**, and the output with it expands up to the end of its match. -/
theorem putSeq_spec {src : Bytes} {dst_cap dst_len anchor ip : Nat} {out out' : Bytes} {m : Best}
    (hout : Expands src dst_len out anchor) (hanchor : anchor ≤ ip)
    (hgood : IsMatch src ip m.off m.len) (hmin : minMatch ≤ m.len) (hroom : ip + m.len ≤ src.length)
    (hoff : m.off ≤ maxOffset) (hdst : src.length ≤ dst_len) (hsize : src.length < 2 ^ 31)
    (h : putSeq src dst_cap out anchor ip m = some out') :
    Expands src dst_len out' (ip + m.len) := by
  rw [putSeq] at h
  dsimp only at h
  by_cases hcap : dst_cap < out.length + 1 + (ip - anchor) / 255 + 1 + (ip - anchor) + 2 +
      (m.len - minMatch) / 255 + 1
  · rw [if_pos hcap] at h
    cases h
  rw [if_neg hcap, ite_extension, putLits_eq] at h
  have hlits : (bytesAt src anchor (ip - anchor)).length = ip - anchor :=
    bytesAt_length (by omega)
  generalize hroom1 : dst_cap - (out.length + 1) = cap1 at h
  have hcap1 : (ip - anchor) / 255 < cap1 := by omega
  have hext := extension_length hcap1
  generalize hroom2 : dst_cap - List.length _ = cap2 at h
  have hcap2 : (m.len - minMatch) / 255 < cap2 := by
    rw [← hroom2, List.length_append, List.length_append, List.length_cons, List.length_append,
      hlits, lePut_length]
    omega
  obtain rfl := Option.some.inj h
  obtain ⟨k, hk, hrun⟩ := hout
  refine ⟨k + 1, ?_, ?_⟩
  · rw [List.length_append, List.length_append, List.length_append, List.length_cons]
    omega
  intro turns rest
  obtain ⟨hhi, hlo⟩ := token_nibbles (min (ip - anchor) 15) (min (m.len - minMatch) 15) (by omega)
    (by omega)
  have hmore : ¬ (lePut 2 m.off ++ (extension cap2 (m.len - minMatch) ++ rest)).length = 0 := by
    rw [List.length_append, lePut_length]
    omega
  have hturn : k + 1 + turns = k + (turns + 1) := by omega
  have hend : anchor + (ip - anchor) = ip := by omega
  rw [hturn, List.append_assoc, List.append_assoc, List.append_assoc, hrun]
  simp only [List.cons_append, List.append_assoc]
  rw [lzUnpack, hhi, hlo, lzReadLen_extension _ hcap1 (by omega)]
  dsimp only
  rw [Nat.add_zero, takeLits_bytesAt (by omega) hdst]
  dsimp only
  rw [if_neg hmore, hend, takeMatch_spec hgood hmin hroom hoff hcap2 hdst hsize]

/-- The final literals fit, and the output with them expands to the source. -/
theorem putLast_spec {src : Bytes} {dst_cap dst_len : Nat} {s : State} {out : Bytes}
    (hout : Expands src dst_len s.out s.anchor) (hanchor : s.anchor ≤ src.length)
    (hdst : src.length ≤ dst_len) (hsize : src.length < 2 ^ 31)
    (h : putLast src dst_cap s = some out) :
    out.length ≤ dst_cap ∧ lzUnpack dst_len out.length out [] = some src := by
  rw [putLast] at h
  by_cases hcap : dst_cap < s.out.length + 1 + (src.length - s.anchor) / 255 + 1 +
      (src.length - s.anchor)
  · rw [if_pos hcap] at h
    cases h
  rw [if_neg hcap, putLits_eq, Nat.add_zero] at h
  have hlits : (bytesAt src s.anchor (src.length - s.anchor)).length = src.length - s.anchor :=
    bytesAt_length (by omega)
  generalize hroom1 : dst_cap - (s.out.length + 1) = cap1 at h
  have hcap1 : (src.length - s.anchor) / 255 < cap1 := by omega
  have hext := extension_length hcap1
  obtain rfl := Option.some.inj h
  have hlen : (s.out ++ UInt8.ofNat (min (src.length - s.anchor) 15 * 16) ::
      (extension cap1 (src.length - s.anchor) ++
        bytesAt src s.anchor (src.length - s.anchor))).length =
      s.out.length + (1 + (extension cap1 (src.length - s.anchor)).length +
        (src.length - s.anchor)) := by
    rw [List.length_append, List.length_cons, List.length_append, hlits]
    omega
  obtain ⟨k, hk, hrun⟩ := hout
  constructor
  · rw [hlen]
    omega
  obtain ⟨turns, hturns⟩ := Nat.exists_eq_add_of_le (show k + 1 ≤ s.out.length +
    (1 + (extension cap1 (src.length - s.anchor)).length + (src.length - s.anchor)) by omega)
  have hfuel : k + 1 + turns = k + (turns + 1) := by omega
  obtain ⟨hhi, -⟩ := token_nibbles (min (src.length - s.anchor) 15) 0 (by omega) (by omega)
  rw [Nat.add_zero] at hhi
  have hread : lzReadLen (min (src.length - s.anchor) 15) 0
      (extension cap1 (src.length - s.anchor) ++ bytesAt src s.anchor (src.length - s.anchor)) =
        some (src.length - s.anchor + 0, bytesAt src s.anchor (src.length - s.anchor)) :=
    lzReadLen_extension _ hcap1 (by omega)
  have hcopy : takeLits dst_len (src.length - s.anchor)
      (bytesAt src s.anchor (src.length - s.anchor) ++ []) (src.take s.anchor) =
        some ([], src.take (s.anchor + (src.length - s.anchor))) :=
    takeLits_bytesAt (by omega) hdst
  have hend : s.anchor + (src.length - s.anchor) = src.length := by omega
  rw [List.append_nil] at hcopy
  rw [hlen, hturns, hfuel, hrun, lzUnpack, hhi, hread]
  dsimp only
  rw [Nat.add_zero, hcopy, hend, List.take_length]
  rfl

/-! ## The loop -/

/-- What the loop keeps. -/
structure Inv (src : Bytes) (dst_len : Nat) (s : State) : Prop where
  behind : s.anchor ≤ s.ip
  inside : s.anchor ≤ src.length
  expands : Expands src dst_len s.out s.anchor

variable {src : Bytes} {dst_cap dst_len max_chain : Nat} {lazy : Bool}

/-- **ONE TURN** keeps the invariant and moves on. -/
theorem lzTurn_keeps {s s' : State} (hdst : src.length ≤ dst_len) (hsize : src.length < 2 ^ 31)
    (h : Inv src dst_len s) (hturn : lzTurn src dst_cap max_chain lazy s = some s') :
    Inv src dst_len s' ∧ s.ip < s'.ip := by
  obtain ⟨hbehind, hinside, hout⟩ := h
  rw [lzTurn] at hturn
  dsimp only at hturn
  by_cases hnone : (lzFindMatch src s.ip s.tables max_chain).len = 0
  · rw [if_pos hnone] at hturn
    obtain rfl := Option.some.inj hturn
    exact ⟨⟨Nat.le_succ_of_le hbehind, hinside, hout⟩, Nat.lt_succ_self _⟩
  rw [if_neg hnone] at hturn
  rcases hchoose : lzChoose src max_chain lazy s.ip s.tables
    (lzFindMatch src s.ip s.tables max_chain) with ⟨ip, m, t⟩
  rw [hchoose] at hturn
  dsimp only at hturn
  obtain ⟨hip, hgood, hlen⟩ := lzChoose_spec (lzFindMatch_good _ _ _ _) hnone hchoose
  obtain ⟨hmatch, hmin, hroom, hoff⟩ := hgood.resolve_left hlen
  cases hput : putSeq src dst_cap s.out s.anchor ip m with
  | none =>
      rw [hput] at hturn
      cases hturn
  | some out =>
      rw [hput] at hturn
      obtain rfl := Option.some.inj hturn
      refine ⟨⟨Nat.le_refl _, hroom, ?_⟩, ?_⟩
      · exact putSeq_spec hout (by omega) hmatch hmin hroom hoff hdst hsize hput
      · show s.ip < ip + m.len
        omega

/-- **A WHOLE RUN** keeps the invariant and comes to the end of the source. -/
theorem lzLoop_keeps {s s' : State} (hdst : src.length ≤ dst_len) (hsize : src.length < 2 ^ 31)
    (turns : Nat) (h : Inv src dst_len s) (hturns : src.length ≤ s.ip + turns)
    (hrun : lzLoop src dst_cap max_chain lazy turns s = some s') :
    Inv src dst_len s' ∧ src.length < s'.ip + minMatch := by
  induction turns generalizing s with
  | zero =>
      obtain rfl := Option.some.inj hrun
      refine ⟨h, ?_⟩
      show src.length < s.ip + 3
      omega
  | succ turns ih =>
      rw [lzLoop] at hrun
      by_cases hmore : s.ip + minMatch ≤ src.length
      · rw [if_pos hmore] at hrun
        cases hturn : lzTurn src dst_cap max_chain lazy s with
        | none =>
            rw [hturn] at hrun
            cases hrun
        | some s1 =>
            rw [hturn] at hrun
            obtain ⟨hnext, hmove⟩ := lzTurn_keeps hdst hsize h hturn
            exact ih hnext (by omega) hrun
      · rw [if_neg hmore] at hrun
        obtain rfl := Option.some.inj hrun
        exact ⟨h, Nat.not_le.mp hmore⟩

/-- **THE ROUND TRIP.** Whatever the level and the capacity, what the compressor
    returns fits into the capacity and expands to the source.  Positions are
    `int32_t`: the callers pass blocks of at most `ZUPT_MAX_BLOCK_SZ`, far below
    their range. -/
theorem zuptLz_round_trip (src : Bytes) (dst_cap : Nat) (level : Int) (allocated : Bool)
    (hsize : src.length < 2 ^ 31) {out : Bytes}
    (h : zuptLzCompress src dst_cap level allocated = some out) :
    out.length ≤ dst_cap ∧ zuptLzDecompress out src.length = some src := by
  rw [zuptLzCompress] at h
  by_cases hempty : src.length = 0
  · rw [if_pos hempty] at h
    cases h
  rw [if_neg hempty] at h
  dsimp only at h
  cases allocated with
  | false => cases h
  | true =>
      rw [if_pos rfl] at h
      generalize (max 1 (min level 9)).toNat = l at h
      have hstart : Inv src src.length ⟨0, 0, [], .fresh⟩ :=
        ⟨Nat.le_refl _, Nat.zero_le _, expands_nil _ _⟩
      cases hloop : lzLoop src dst_cap (4 + l * l * 3) (decide (3 ≤ l)) src.length
          ⟨0, 0, [], .fresh⟩ with
      | none =>
          rw [hloop] at h
          cases h
      | some s =>
          rw [hloop] at h
          obtain ⟨hinv, -⟩ := lzLoop_keeps (Nat.le_refl _) hsize src.length hstart
            (Nat.le_add_left _ _) hloop
          exact putLast_spec hinv.expands hinv.inside (Nat.le_refl _) hsize h

/-- At level 1: a literal, a match of seven at distance one, and a literal. -/
theorem zuptLz_round_trip_run :
    zuptLzDecompress [20, 7, 1, 0, 16, 9] 9 = some [7, 7, 7, 7, 7, 7, 7, 7, 9] :=
  (zuptLz_round_trip [7, 7, 7, 7, 7, 7, 7, 7, 9] 64 1 true (by decide)
    (show zuptLzCompress [7, 7, 7, 7, 7, 7, 7, 7, 9] 64 1 true = some [20, 7, 1, 0, 16, 9] by
      decide)).2

end Zupt.Lz
