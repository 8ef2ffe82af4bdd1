import Zupt.LzBounds
import Zupt.LzhTables

/-! # Zupt-LZH within bounds

    `zupt_lzh_decompress` on indices, where every access and every shift is checked.
    Behind the end of its input the reader goes on with bits of zero and a count below
    zero: it follows the decompressor, whatever the count is then. -/

namespace Zupt.Lzh

open Zupt.LittleEndian Zupt.Memory Zupt.Window

/-! ## Bits -/

/-- `nb -= n` on an `int`: the difference where it fits.  What is left where it does not
    is up to the machine, and nothing depends on it. -/
structure IntSub where
  sub : Int → Nat → Int
  exact : ∀ (a : Int) (n : Nat), -2 ^ 31 ≤ a - (n : Int) → sub a n = a - n

/-- `bitrd_t`. -/
structure RdCursor where
  pos : Nat
  acc : Nat
  nb : Int

/-- A turn of the loop of `br_peek`. -/
def refillTurn (buf : Bytes) (n : Nat) (r : RdCursor) : Checked (Turn RdCursor RdCursor) := do
  if r.nb < n ∧ r.pos < buf.length then
    let b ← cellAt buf r.pos
    let d ← shiftBy r.nb
    return .next ⟨r.pos + 1, r.acc ||| b.toNat <<< d % 2 ^ 64, r.nb + 8⟩
  else return .done r

/-- `br_peek`: the bits, and the reader behind the loop. -/
def brPeekAt (buf : Bytes) (n : Nat) (r : RdCursor) : Checked (Nat × RdCursor) := do
  let r ← loop (refillTurn buf n) (buf.length - r.pos + 1) r
  return (r.acc &&& (1 <<< n - 1), r)

/-- `br_skip`. -/
def brSkipAt (σ : IntSub) (n : Nat) (r : RdCursor) : RdCursor := ⟨r.pos, r.acc >>> n, σ.sub r.nb n⟩

/-- `br_get`. -/
def brGetAt (σ : IntSub) (buf : Bytes) (n : Nat) (r : RdCursor) : Checked (Nat × RdCursor) := do
  let (v, r) ← brPeekAt buf n r
  return (v, brSkipAt σ n r)

/-- `huff_dec`; `none` is -1. -/
def huffDecAt (σ : IntSub) (buf : Bytes) (lut : Cells LutCell) (r : RdCursor) :
    Checked (Option (Nat × RdCursor)) := do
  let (bits, r) ← brPeekAt buf maxCodelen r
  let e ← lut.get (bits &&& (1 <<< maxCodelen - 1))
  if e.sym < 0 then return none else return some (e.sym.toNat, brSkipAt σ e.len r)

/-! ## The decoder -/

/-- The extra bits of a code, if it has some. -/
def extraAt (σ : IntSub) (buf : Bytes) (extra : Nat) (r : RdCursor) : Checked (Nat × RdCursor) :=
  if 0 < extra then brGetAt σ buf extra r else .ok (0, r)

/-- A match of the decoder: the reader behind it, its length and its distance. -/
def readMatchAt (σ : IntSub) (buf : Bytes) (d_lut : Cells LutCell) (li : Nat) (r : RdCursor) :
    Checked (Option (RdCursor × Nat × Nat)) := do
  let base ← cellAt lenBase li
  let extra ← cellAt lenExtra li
  let (more, r) ← extraAt σ buf extra r
  match ← huffDecAt σ buf d_lut r with
  | none => return none
  | some (dsym, r) =>
      if maxDist ≤ dsym then return none
      else
        let dbase ← cellAt distBase dsym
        let dextra ← cellAt distExtra dsym
        let (dmore, r) ← extraAt σ buf dextra r
        return some (r, base + more, dbase + dmore)

/-- What the loop of the decoder changes. -/
structure UnpackCursor where
  r : RdCursor
  op : Nat
  out : Mem UInt8

/-- A turn of the decoder; `none` is a `break`. -/
def unpackTurnAt (σ : IntSub) (buf : Bytes) (ll_lut d_lut : Cells LutCell) (out_cap : Nat)
    (c : UnpackCursor) : Checked (Option UnpackCursor) := do
  match ← huffDecAt σ buf ll_lut c.r with
  | none => return none
  | some (sym, r) =>
      if maxLitlen ≤ sym then return none
      else if sym < 256 then
        if out_cap ≤ c.op then return none
        else
          let out ← inside (store ⟨0, out_cap⟩ c.out c.op [UInt8.ofNat sym])
          return some ⟨r, c.op + 1, out⟩
      else if sym = 256 then return none
      else if lenCodes ≤ sym - 257 then return none
      else
        match ← readMatchAt σ buf d_lut (sym - 257) r with
        | none => return none
        | some (r, length, distance) =>
            if distance = 0 ∨ c.op < distance ∨ out_cap < c.op + length then return none
            else
              let out ← inside (copyCells ⟨0, out_cap⟩ c.out c.op distance length)
              return some ⟨r, c.op + length, out⟩

/-- The loop of the decoder into a buffer of `out_cap`: what it has put out, and where. -/
def unpackLoopAt (σ : IntSub) (buf : Bytes) (ll_lut d_lut : Cells LutCell) (out_cap : Nat)
    (out : Mem UInt8) : Checked (Nat × Mem UInt8) :=
  loop (fun c => do return Turn.orElse (c.op, c.out) (← unpackTurnAt σ buf ll_lut d_lut out_cap c))
    (out_cap + 1) ⟨⟨0, 0, 0⟩, 0, out⟩

/-! ## Runs of zeros -/

/-- `s[i]` in a buffer of `size`. -/
def loadCell (size : Nat) (m : Mem UInt8) (i : Nat) : Checked UInt8 :=
  if i < size then .ok (m i) else .error .outside

/-- What the loop of `rle_decode` changes. -/
structure RleCursor where
  ip : Nat
  op : Nat
  d : Mem UInt8

/-- A turn of the loop of `rle_decode`, from a buffer of `size` of which `n` bytes count;
    it is left with the number it returns. -/
def rleTurnAt (size : Nat) (s : Mem UInt8) (n dc : Nat) (c : RleCursor) :
    Checked (Turn RleCursor (Nat × Mem UInt8)) := do
  if c.ip < n ∧ c.op < dc then
    let x ← loadCell size s c.ip
    if x = 0 ∧ c.ip + 1 < n then
      let run ← loadCell size s (c.ip + 1)
      if run = 0 then
        let d ← inside (store ⟨0, dc⟩ c.d c.op [0])
        return .next ⟨c.ip + 2, c.op + 1, d⟩
      else if dc < c.op + run.toNat then return .done (0, c.d)
      else
        let d ← inside (store ⟨0, dc⟩ c.d c.op (List.replicate run.toNat 0))
        return .next ⟨c.ip + 2, c.op + run.toNat, d⟩
    else
      let d ← inside (store ⟨0, dc⟩ c.d c.op [x])
      return .next ⟨c.ip + 1, c.op + 1, d⟩
  else return .done (c.op, c.d)

/-- `rle_decode`. -/
def rleDecodeAt (size : Nat) (s : Mem UInt8) (n : Nat) (d : Mem UInt8) (dc : Nat) :
    Checked (Nat × Mem UInt8) :=
  loop (rleTurnAt size s n dc) (n + 1) ⟨0, 0, d⟩

/-! ## `zupt_lzh_decompress` -/

/-- What the allocated buffers happen to hold. -/
structure Storage where
  ll_lut : Mem LutCell
  d_lut : Mem LutCell
  rle_tmp : Mem UInt8

/-- `zupt_lzh_decompress` behind its flags. -/
def unpackBodyAt (σ : IntSub) (a : UnpackAlloc) (h : Storage) (src : Bytes) (ip : Nat) (rle_on : Bool)
    (dst : Mem UInt8) (dlen : Nat) : Checked (Nat × Mem UInt8) := do
  if src.length < ip + 4 then return (0, dst)
  else
    let ll_cnt ← wordAt src ip
    let d_cnt ← wordAt src (ip + 2)
    if maxLitlen < ll_cnt ∨ maxDist < d_cnt then return (0, dst)
    else
      match ← readLensAt src (ip + 4) ll_cnt maxLitlen with
      | none => return (0, dst)
      | some (ll_lens, ip) =>
          match ← readLensAt src ip d_cnt maxDist with
          | none => return (0, dst)
          | some (d_lens, ip) =>
              if a.ll_lut && a.d_lut && (!rle_on || a.rle_tmp) then
                let ll_lut ← huffLutAt ll_lens ll_cnt ⟨1 <<< maxCodelen, h.ll_lut⟩
                let d_lut ← huffLutAt d_lens d_cnt ⟨1 <<< maxCodelen, h.d_lut⟩
                if rle_on then
                  let (op, tmp) ← unpackLoopAt σ (src.drop ip) ll_lut d_lut dlen h.rle_tmp
                  rleDecodeAt dlen tmp op dst dlen
                else unpackLoopAt σ (src.drop ip) ll_lut d_lut dlen dst
              else return (0, dst)

/-- `zupt_lzh_decompress` into `dst`: the number it returns, and what it leaves. -/
def lzhDecompressAt (σ : IntSub) (a : UnpackAlloc) (h : Storage) (src : Bytes) (dst : Mem UInt8)
    (dlen : Nat) : Checked (Nat × Mem UInt8) := do
  if src.length < 5 then return (0, dst)
  else
    let flags ← cellAt src 0
    if flags.toNat &&& 1 = 1 then
      let _rle_orig ← cellsAt src 1 4
      unpackBodyAt σ a h src 5 true dst dlen
    else unpackBodyAt σ a h src 1 false dst dlen

/-! ## The reader -/

/-- The reader stands where `f` does.  The counts agree while there is input left; behind
    it nothing is asked of them. -/
structure SameReader (buf : Bytes) (r : RdCursor) (f : BitRd) : Prop where
  unread : buf.drop r.pos = f.s
  acc_eq : r.acc = f.acc
  nb_eq : r.pos < buf.length → r.nb = f.nb ∧ 0 ≤ r.nb

section Reader

variable {buf : Bytes} {r : RdCursor} {f : BitRd} {σ : IntSub}

/-- **REFILLING** shifts by less than it wants, and never without input. -/
theorem refillLoop_rel {n : Nat} (hn : n ≤ 56) {s : Bytes} {acc : Nat} {nb : Int}
    (h : SameReader buf r ⟨acc, nb, s⟩) {m : Nat} (hm : s.length < m) :
    ∃ r', loop (refillTurn buf n) m r = .ok r' ∧ SameReader buf r' (fillBits n s acc nb) ∧
      (r'.pos < buf.length → n ≤ r'.nb) := by
  -- by what is left of the input; a turn takes a byte of it
  induction m generalizing s acc nb r with
  | zero => omega
  | succ m ih =>
      have hunread : buf.drop r.pos = s := h.unread
      cases s with
      | nil =>
          have hend : buf.length ≤ r.pos := List.drop_eq_nil_iff.mp hunread
          have hturn : refillTurn buf n r = .ok (.done r) := if_neg (by omega)
          exact ⟨r, loop_done hturn, h, fun hlt => absurd hlt (by omega)⟩
      | cons b s =>
          obtain ⟨hcell, hlt, hrest⟩ := cellAt_drop hunread
          obtain ⟨hnb, hpos⟩ := h.nb_eq hlt
          have hsame : r.nb = nb := hnb
          rw [fillBits]
          by_cases hwant : nb < n
          · have hdistance : shiftBy r.nb = .ok nb.toNat := by
              rw [hsame]
              exact if_pos ⟨by omega, by omega⟩
            have hshift : b.toNat <<< nb.toNat % 2 ^ 64 = b.toNat <<< nb.toNat := by
              refine Nat.mod_eq_of_lt ?_
              have hb : b.toNat < 2 ^ 8 := b.toNat_lt
              have hpow : 2 ^ nb.toNat ≤ 2 ^ 56 := Nat.pow_le_pow_right (by decide) (by omega)
              rw [Nat.shiftLeft_eq]
              exact lt_of_lt_of_le (Nat.mul_lt_mul_of_lt_of_le hb hpow (Nat.two_pow_pos _)) (by decide)
            have hturn : refillTurn buf n r =
                .ok (.next ⟨r.pos + 1, acc ||| b.toNat <<< nb.toNat, nb + 8⟩) := by
              rw [refillTurn, if_pos ⟨by omega, hlt⟩, hcell, ok_bind, hdistance, ok_bind, hshift, h.acc_eq,
                hsame]
              rfl
            rw [if_pos hwant, loop_next hturn]
            rw [List.length_cons] at hm
            refine ih ⟨hrest, rfl, fun _ => ⟨rfl, ?_⟩⟩ (by omega)
            show 0 ≤ nb + 8
            omega
          · have hturn : refillTurn buf n r = .ok (.done r) := if_neg (by omega)
            rw [if_neg hwant]
            exact ⟨r, loop_done hturn, h, fun _ => by omega⟩

theorem brPeekAt_rel {n : Nat} (hn : n ≤ 56) (h : SameReader buf r f) :
    ∃ r', brPeekAt buf n r = .ok ((f.peek n).1, r') ∧ SameReader buf r' (f.peek n).2 ∧
      (r'.pos < buf.length → n ≤ r'.nb) := by
  have hlen : f.s.length = buf.length - r.pos := by rw [← h.unread, List.length_drop]
  obtain ⟨r', hloop, h', hnb⟩ := refillLoop_rel hn (s := f.s) h
    (m := buf.length - r.pos + 1) (by omega)
  refine ⟨r', ?_, h', hnb⟩
  rw [brPeekAt, hloop, ok_bind, Nat.one_shiftLeft, Nat.and_two_pow_sub_one_eq_mod, h'.acc_eq]
  rfl

/-- Bits that were looked at are skipped. -/
theorem brSkipAt_rel {k : Nat} (h : SameReader buf r f) (hk : r.pos < buf.length → k ≤ r.nb) :
    SameReader buf (brSkipAt σ k r) (f.skip k) := by
  refine ⟨h.unread, ?_, fun hlt => ?_⟩
  · show r.acc >>> k = f.acc / 2 ^ k
    rw [h.acc_eq, Nat.shiftRight_eq_div_pow]
  · obtain ⟨hnb, hpos⟩ := h.nb_eq hlt
    have hroom := hk hlt
    have hsub : σ.sub r.nb k = r.nb - k := σ.exact _ _ (by omega)
    refine ⟨?_, ?_⟩
    · show σ.sub r.nb k = f.nb - k
      rw [hsub, hnb]
    · show 0 ≤ σ.sub r.nb k
      rw [hsub]
      omega

theorem brGetAt_rel {n : Nat} (hn : n ≤ 56) (h : SameReader buf r f) :
    ∃ r', brGetAt σ buf n r = .ok ((f.get n).1, r') ∧ SameReader buf r' (f.get n).2 := by
  obtain ⟨r', hpeek, h', hnb⟩ := brPeekAt_rel hn h
  exact ⟨brSkipAt σ n r', by rw [brGetAt, hpeek]; rfl, brSkipAt_rel h' hnb⟩

theorem extraAt_rel {extra : Nat} (hn : extra ≤ 56) (h : SameReader buf r f) :
    ∃ r', extraAt σ buf extra r = .ok ((if 0 < extra then f.get extra else (0, f)).1, r') ∧
      SameReader buf r' (if 0 < extra then f.get extra else (0, f)).2 := by
  rw [extraAt]
  by_cases hpos : 0 < extra
  · rw [if_pos hpos, if_pos hpos]
    exact brGetAt_rel hn h
  · rw [if_neg hpos, if_neg hpos]
    exact ⟨r, rfl, h⟩

/-- A symbol and the readers behind it. -/
def SameSym (buf : Bytes) (p : Nat × RdCursor) (q : Nat × BitRd) : Prop := p.1 = q.1 ∧ SameReader buf p.2 q.2

/-- **A SYMBOL** is looked up within the table. -/
theorem huffDecAt_rel {lut : Cells LutCell} {g : Nat → Option (Nat × Nat)}
    (hlut : CellsRep (2 ^ maxCodelen) lut fun x => lutCell (g x))
    (hshort : ∀ x sym len, g x = some (sym, len) → len ≤ maxCodelen) (h : SameReader buf r f) :
    ∃ x, huffDecAt σ buf lut r = .ok x ∧ Option.Rel (SameSym buf) x (huffDec f g) := by
  obtain ⟨r', hpeek, h', hnb⟩ := brPeekAt_rel (n := maxCodelen) (by decide) h
  have hlt : (f.peek maxCodelen).1 < 2 ^ maxCodelen := Nat.mod_lt _ (Nat.two_pow_pos _)
  have hmask : (f.peek maxCodelen).1 &&& (1 <<< maxCodelen - 1) = (f.peek maxCodelen).1 := by
    rw [Nat.one_shiftLeft, Nat.and_two_pow_sub_one_eq_mod, Nat.mod_eq_of_lt hlt]
  have hdec : huffDec f g = (g (f.peek maxCodelen).1).map fun e => (e.1, (f.peek maxCodelen).2.skip e.2) := by
    rw [huffDec]
    dsimp only
    cases hg : g (f.peek maxCodelen).1 with
    | none => rfl
    | some e => rfl
  rw [huffDecAt, hpeek, ok_bind, hdec]
  dsimp only
  rw [hmask, hlut.get hlt, ok_bind]
  cases hg : g (f.peek maxCodelen).1 with
  | none => exact ⟨_, rfl, .none⟩
  | some e =>
      have hle := hshort _ e.1 e.2 hg
      have hsign : ¬(lutCell (some e)).sym < 0 := Int.not_lt.mpr (Int.natCast_nonneg e.1)
      rw [if_neg hsign]
      refine ⟨_, rfl, .some ⟨Int.toNat_natCast e.1, brSkipAt_rel h' fun hlt => ?_⟩⟩
      have hroom := hnb hlt
      show (e.2 : Int) ≤ r'.nb
      omega

end Reader

/-! ## The decoder -/

/-- A table of the decoder, and what it stands for. -/
structure LutRep (lut : Cells LutCell) (g : Nat → Option (Nat × Nat)) : Prop where
  cells : CellsRep (2 ^ maxCodelen) lut fun x => lutCell (g x)
  short : ∀ x sym len, g x = some (sym, len) → len ≤ maxCodelen

/-- The extra bits of a code are few. -/
theorem extra_le (table : List Nat) (hall : ∀ x ∈ table, x ≤ 56) (i : Nat) : table.getD i 0 ≤ 56 := by
  rw [List.getD_eq_getElem?_getD]
  cases hi : table[i]? with
  | none => exact Nat.zero_le _
  | some x => exact hall x (List.mem_of_getElem? hi)

section Decoder

variable {buf : Bytes} {σ : IntSub} {ll_lut d_lut : Cells LutCell} {gl gd : Nat → Option (Nat × Nat)}

/-- Matches of at least a byte, and the readers behind them. -/
def SameMatch (buf : Bytes) (p : RdCursor × Nat × Nat) (q : BitRd × Nat × Nat) : Prop :=
  p.2 = q.2 ∧ 0 < p.2.1 ∧ SameReader buf p.1 q.1

theorem lenBase_pos {li : Nat} (hli : li < lenCodes) : 0 < lenBase.getD li 0 := by
  have hall : ∀ i < lenCodes, 0 < lenBase.getD i 0 := by decide
  exact hall li hli

/-- **A MATCH** is read within the tables of bases and extra bits. -/
theorem readMatchAt_rel {r : RdCursor} {f : BitRd} {li : Nat} (hd : LutRep d_lut gd) (hli : li < lenCodes)
    (h : SameReader buf r f) :
    ∃ x, readMatchAt σ buf d_lut li r = .ok x ∧ Option.Rel (SameMatch buf) x (readMatch gd li f) := by
  have hbase : cellAt lenBase li = .ok (lenBase.getD li 0) := cellAt_getD 0 hli
  have hextra : cellAt lenExtra li = .ok (lenExtra.getD li 0) := cellAt_getD 0 hli
  obtain ⟨r₁, hmore, h₁⟩ := extraAt_rel (σ := σ) (extra_le lenExtra (by decide) li) h
  obtain ⟨x, hdec, hrel⟩ := huffDecAt_rel (σ := σ) hd.cells hd.short h₁
  rw [readMatchAt, hbase, ok_bind, hextra, ok_bind, hmore, ok_bind]
  dsimp only
  rw [hdec, ok_bind, readMatch]
  dsimp only
  generalize (if 0 < lenExtra.getD li 0 then f.get (lenExtra.getD li 0) else (0, f)) = more at hrel ⊢
  obtain ⟨v, f₁⟩ := more
  dsimp only at hrel ⊢
  generalize huffDec f₁ gd = dec at hrel ⊢
  cases hrel with
  | none => exact ⟨_, rfl, .none⟩
  | @some p q hsame =>
      obtain ⟨dsym, r₂⟩ := p
      obtain ⟨dsym', f₂⟩ := q
      obtain ⟨hsym, h₂⟩ := hsame
      obtain rfl : dsym = dsym' := hsym
      dsimp only
      by_cases hover : maxDist ≤ dsym
      · rw [if_pos hover, if_pos hover]
        exact ⟨_, rfl, .none⟩
      · have hdbase : cellAt distBase dsym = .ok (distBase.getD dsym 0) := cellAt_getD 0 (not_le.mp hover)
        have hdextra : cellAt distExtra dsym = .ok (distExtra.getD dsym 0) := cellAt_getD 0 (not_le.mp hover)
        obtain ⟨r₃, hdmore, h₃⟩ := extraAt_rel (σ := σ) (extra_le distExtra (by decide) dsym) h₂
        rw [if_neg hover, if_neg hover, hdbase, ok_bind, hdextra, ok_bind, hdmore, ok_bind]
        exact ⟨_, rfl, .some ⟨rfl, Nat.add_pos_left (lenBase_pos hli) _, h₃⟩⟩

/-- The decoder stands where the reader does and `out` has been put out. -/
structure UnpackFollows (buf : Bytes) (out_cap : Nat) (m0 : Mem UInt8) (c : UnpackCursor)
    (p : BitRd × Bytes) : Prop where
  reads : SameReader buf c.r p.1
  op_eq : c.op = p.2.length
  holds : Holds ⟨0, out_cap⟩ m0 c.out p.2

/-- **A TURN** of the decoder goes on behind at least one more byte. -/
theorem unpackTurnAt_rel {out_cap : Nat} {m0 : Mem UInt8} {c : UnpackCursor} {f : BitRd} {out : Bytes}
    (hl : LutRep ll_lut gl) (hd : LutRep d_lut gd) (h : UnpackFollows buf out_cap m0 c (f, out)) :
    ∃ x, unpackTurnAt σ buf ll_lut d_lut out_cap c = .ok x ∧
      Option.Rel (fun c' p => UnpackFollows buf out_cap m0 c' p ∧ out.length < p.2.length) x
        (unpackTurn gl gd out_cap f out) := by
  obtain ⟨x, hdec, hrel⟩ := huffDecAt_rel (σ := σ) hl.cells hl.short h.reads
  have hop : c.op = out.length := h.op_eq
  rw [unpackTurnAt, hdec, ok_bind, unpackTurn]
  dsimp only at hrel
  generalize huffDec f gl = dec at hrel ⊢
  cases hrel with
  | none => exact ⟨_, rfl, .none⟩
  | @some p q hsame =>
      obtain ⟨sym, r₁⟩ := p
      obtain ⟨sym', f₁⟩ := q
      obtain ⟨hsym, h₁⟩ := hsame
      obtain rfl : sym = sym' := hsym
      dsimp only
      by_cases hlarge : maxLitlen ≤ sym
      · rw [if_pos hlarge, if_pos hlarge]
        exact ⟨_, rfl, .none⟩
      rw [if_neg hlarge, if_neg hlarge]
      by_cases hlit : sym < 256
      · rw [if_pos hlit, if_pos hlit, hop]
        by_cases hfull : out_cap ≤ out.length
        · rw [if_pos hfull, if_pos hfull]
          exact ⟨_, rfl, .none⟩
        · obtain ⟨m, hm, hholds⟩ := (h.holds.store_all (show out.length = 0 + out.length from (Nat.zero_add _).symm)
            [UInt8.ofNat sym] (show out.length + 1 ≤ out_cap by omega)).inside
          rw [if_neg hfull, if_neg hfull, hm, ok_bind]
          have hlonger : (out ++ [UInt8.ofNat sym]).length = out.length + 1 := List.length_append
          exact ⟨_, rfl, .some ⟨⟨h₁, hlonger.symm, hholds⟩, by dsimp only; omega⟩⟩
      rw [if_neg hlit, if_neg hlit]
      by_cases heob : sym = 256
      · rw [if_pos heob, if_pos heob]
        exact ⟨_, rfl, .none⟩
      rw [if_neg heob, if_neg heob]
      by_cases hcode : lenCodes ≤ sym - 257
      · rw [if_pos hcode, if_pos hcode]
        exact ⟨_, rfl, .none⟩
      rw [if_neg hcode, if_neg hcode]
      obtain ⟨y, hy, hmatch⟩ := readMatchAt_rel (σ := σ) hd (not_le.mp hcode) h₁
      rw [hy, ok_bind]
      generalize readMatch gd (sym - 257) f₁ = found at hmatch ⊢
      cases hmatch with
      | none => exact ⟨_, rfl, .none⟩
      | @some p q hsame =>
          obtain ⟨r₂, length, distance⟩ := p
          obtain ⟨f₂, length', distance'⟩ := q
          obtain ⟨hvalues, hpos, h₂⟩ := hsame
          obtain ⟨rfl, rfl⟩ := Prod.mk.inj hvalues
          dsimp only
          rw [hop]
          by_cases hbad : distance = 0 ∨ out.length < distance ∨ out_cap < out.length + length
          · rw [if_pos hbad, if_pos hbad]
            exact ⟨_, rfl, .none⟩
          · obtain ⟨m, hm, hholds⟩ := (h.holds.copyCells (show out.length = 0 + out.length from (Nat.zero_add _).symm)
              (show 0 < distance by omega) (show distance ≤ out.length by omega)
              (show out.length + length ≤ out_cap by omega)).inside
            have hlonger : (extend out distance length).length = out.length + length :=
              length_extend (by omega) (by omega) _
            dsimp only at hpos
            rw [if_neg hbad, if_neg hbad, hm, ok_bind]
            exact ⟨_, rfl, .some ⟨⟨h₂, hlonger.symm, hholds⟩, by dsimp only; omega⟩⟩

/-- **THE LOOP** of the decoder is left within the output. -/
theorem unpackLoopAt_rel {out_cap n : Nat} {m0 : Mem UInt8} {c : UnpackCursor} {f : BitRd} {out : Bytes}
    (hl : LutRep ll_lut gl) (hd : LutRep d_lut gd) (h : UnpackFollows buf out_cap m0 c (f, out))
    (hn : out_cap < out.length + n) :
    ∃ r, loop (fun c => do
        return Turn.orElse (c.op, c.out) (← unpackTurnAt σ buf ll_lut d_lut out_cap c)) n c = .ok r ∧
      r.1 = (unpackLoop gl gd out_cap n f out).length ∧
        Holds ⟨0, out_cap⟩ m0 r.2 (unpackLoop gl gd out_cap n f out) := by
  -- by the room that is left; a turn that goes on puts something out
  induction n generalizing c f out with
  | zero =>
      have hfits := h.holds.fits
      dsimp only at hfits
      omega
  | succ n ih =>
      obtain ⟨x, hturn, hrel⟩ := unpackTurnAt_rel (σ := σ) hl hd h
      have hgo : (do return Turn.orElse (c.op, c.out) (← unpackTurnAt σ buf ll_lut d_lut out_cap c)) =
          Except.ok (ε := Fault) (Turn.orElse (c.op, c.out) x) := by
        rw [hturn]
        rfl
      rw [unpackLoop]
      cases hstep : unpackTurn gl gd out_cap f out with
      | none =>
          rw [hstep] at hrel
          cases hrel
          exact ⟨_, loop_done hgo, h.op_eq, h.holds⟩
      | some p =>
          rw [hstep] at hrel
          cases hrel with
          | @some c' p' hfollows =>
              obtain ⟨hfollows, hlonger⟩ := hfollows
              rw [loop_next hgo]
              exact ih hfollows (by omega)

end Decoder

/-! ## Runs of zeros -/

/-- The cells that count are what was put out before. -/
theorem loadCell_drop {size : Nat} {m : Mem UInt8} {l rest : Bytes} {i : Nat} {x : UInt8}
    (hread : read m 0 l.length = l) (hle : l.length ≤ size) (h : l.drop i = x :: rest) :
    loadCell size m i = .ok x ∧ i < l.length ∧ l.drop (i + 1) = rest := by
  obtain ⟨-, hlt, hrest⟩ := cellAt_drop h
  have hcell : read m (0 + i) 1 = [x] := by
    rw [← read_take _ _ (l.length - i) 1 (by omega), ← read_drop _ _ _ _ (by omega), hread, h]
    rfl
  rw [Nat.zero_add] at hcell
  have hx : m i = x := List.head_eq_of_cons_eq hcell
  exact ⟨by rw [loadCell, if_pos (by omega), hx], hlt, hrest⟩

section Rle

variable {size dc : Nat} {s d0 : Mem UInt8} {l : Bytes}

/-- **RUNS** are undone within both buffers. -/
theorem rleLoop_rel (hread : read s 0 l.length = l) (hle : l.length ≤ size) {n : Nat} {c : RleCursor}
    {rest out : Bytes} (hrest : l.drop c.ip = rest) (hop : c.op = out.length)
    (hholds : Holds ⟨0, dc⟩ d0 c.d out) (hn : rest.length < n) :
    ∃ r, loop (rleTurnAt size s l.length dc) n c = .ok r ∧
      r.1 = ((rleDecode dc rest out).getD []).length ∧
        Holds ⟨0, dc⟩ d0 r.2 ((rleDecode dc rest out).getD []) := by
  -- by what is left of the runs
  induction n generalizing c rest out with
  | zero => omega
  | succ n ih =>
      by_cases hroom : out.length < dc
      swap
      · have hturn : rleTurnAt size s l.length dc c = .ok (.done (c.op, c.d)) :=
          if_neg fun hgo => hroom (by rw [← hop]; exact hgo.2)
        have hdone : rleDecode dc rest out = some out := by
          cases rest with
          | nil => rfl
          | cons b rest =>
              cases rest with
              | nil => exact if_neg hroom
              | cons run rest => exact if_neg hroom
        rw [hdone]
        exact ⟨_, loop_done hturn, hop, hholds⟩
      have hput : ∀ xs : Bytes, out.length + xs.length ≤ dc →
          ∃ m, inside (store ⟨0, dc⟩ c.d out.length xs) = .ok m ∧ Holds ⟨0, dc⟩ d0 m (out ++ xs) :=
        fun xs hxs => (hholds.store_all (show out.length = 0 + out.length from (Nat.zero_add _).symm) xs hxs).inside
      cases rest with
      | nil =>
          have hend : l.length ≤ c.ip := List.drop_eq_nil_iff.mp hrest
          have hturn : rleTurnAt size s l.length dc c = .ok (.done (c.op, c.d)) := if_neg (by omega)
          exact ⟨_, loop_done hturn, hop, hholds⟩
      | cons b rest =>
          obtain ⟨hcell, hlt, hdrop⟩ := loadCell_drop hread hle hrest
          rw [List.length_cons] at hn
          obtain ⟨m₁, hm₁, hholds₁⟩ := hput [b] (by rw [List.length_singleton]; omega)
          -- a byte that stands for itself
          have hsingle : ¬(b = 0 ∧ c.ip + 1 < l.length) →
              ∃ r, loop (rleTurnAt size s l.length dc) (n + 1) c = .ok r ∧
                r.1 = ((rleDecode dc rest (out ++ [b])).getD []).length ∧
                  Holds ⟨0, dc⟩ d0 r.2 ((rleDecode dc rest (out ++ [b])).getD []) := by
            intro hself
            have hturn : rleTurnAt size s l.length dc c = .ok (.next ⟨c.ip + 1, c.op + 1, m₁⟩) := by
              rw [rleTurnAt, if_pos ⟨hlt, by omega⟩, hcell, ok_bind, if_neg hself, hop, hm₁]
              rfl
            rw [loop_next hturn]
            refine ih hdrop ?_ hholds₁ (by omega)
            show c.op + 1 = _
            rw [hop, List.length_append, List.length_singleton]
          cases rest with
          | nil =>
              have hend : l.length ≤ c.ip + 1 := List.drop_eq_nil_iff.mp hdrop
              rw [rleDecode, if_pos hroom]
              exact hsingle (by omega)
          | cons run rest =>
              obtain ⟨hrun, hlt', hdrop'⟩ := loadCell_drop hread hle hdrop
              rw [rleDecode, if_pos hroom]
              by_cases hzero : b = 0
              swap
              · rw [if_neg hzero]
                exact hsingle fun hboth => hzero hboth.1
              rw [if_pos hzero]
              rw [List.length_cons] at hn
              by_cases hone : run = 0
              · obtain ⟨m, hm, hholds'⟩ := hput [0] (by rw [List.length_singleton]; omega)
                have hturn : rleTurnAt size s l.length dc c = .ok (.next ⟨c.ip + 2, c.op + 1, m⟩) := by
                  rw [rleTurnAt, if_pos ⟨hlt, by omega⟩, hcell, ok_bind, if_pos ⟨hzero, hlt'⟩, hrun, ok_bind,
                    if_pos hone, hop, hm]
                  rfl
                rw [if_pos hone, loop_next hturn]
                refine ih hdrop' ?_ hholds' (by omega)
                show c.op + 1 = _
                rw [hop, List.length_append, List.length_singleton]
              rw [if_neg hone]
              by_cases hover : dc < out.length + run.toNat
              · have hturn : rleTurnAt size s l.length dc c = .ok (.done (0, c.d)) := by
                  rw [rleTurnAt, if_pos ⟨hlt, by omega⟩, hcell, ok_bind, if_pos ⟨hzero, hlt'⟩, hrun, ok_bind,
                    if_neg hone, if_pos (by omega)]
                  rfl
                rw [if_pos hover]
                exact ⟨_, loop_done hturn, rfl, hholds.nil⟩
              · obtain ⟨m, hm, hholds'⟩ := hput (List.replicate run.toNat 0)
                  (by rw [List.length_replicate]; omega)
                have hturn : rleTurnAt size s l.length dc c =
                    .ok (.next ⟨c.ip + 2, c.op + run.toNat, m⟩) := by
                  rw [rleTurnAt, if_pos ⟨hlt, by omega⟩, hcell, ok_bind, if_pos ⟨hzero, hlt'⟩, hrun, ok_bind,
                    if_neg hone, if_neg (by omega), hop, hm]
                  rfl
                rw [if_neg hover, loop_next hturn]
                refine ih hdrop' ?_ hholds' (by omega)
                show c.op + run.toNat = _
                rw [hop, List.length_append, List.length_replicate]

end Rle

/-! ## The decompressor -/

/-- What the code leaves when it returns `out`. -/
def Returns (dst : Mem UInt8) (dlen : Nat) (x : Checked (Nat × Mem UInt8)) (out : Bytes) : Prop :=
  ∃ r, x = .ok r ∧ r.1 = out.length ∧ Holds ⟨0, dlen⟩ dst r.2 out

/-- It returns 0 before it has written anything. -/
theorem returns_zero (dst : Mem UInt8) (dlen : Nat) : Returns dst dlen (.ok (0, dst)) [] :=
  ⟨_, rfl, rfl, ⟨Nat.zero_le _, rfl, fun _ _ => rfl⟩⟩

/-- The table of lengths that were read. -/
theorem lutRep_of_lengths {lens : Cells Nat} {f : Nat → Nat} {cnt most : Nat} (hsize : lens.size = most)
    (hcells : ∀ i, lens.cell i = f i) (hcnt : cnt ≤ most) (m : Mem LutCell) :
    ∃ lut, huffLutAt lens cnt ⟨1 <<< maxCodelen, m⟩ = .ok lut ∧ LutRep lut (huffLut f cnt) := by
  obtain ⟨lut, hbuild, hrep⟩ := huffLutAt_rep (show cnt ≤ lens.size by omega)
    (show (⟨1 <<< maxCodelen, m⟩ : Cells LutCell).size = 2 ^ maxCodelen from rfl)
  rw [funext hcells] at hrep
  exact ⟨lut, hbuild, hrep, fun x sym len h => lutOf_short f cnt h⟩

theorem unpackBodyAt_rel (σ : IntSub) (a : UnpackAlloc) (h : Storage) {src s : Bytes} {ip : Nat}
    (rle_on : Bool) (dst : Mem UInt8) (dlen : Nat) (hs : src.drop ip = s) (hip : ip ≤ src.length) :
    Returns dst dlen (unpackBodyAt σ a h src ip rle_on dst dlen) (unpackBody a rle_on s dlen) := by
  have hlen : ip + s.length = src.length := by
    rw [← hs, List.length_drop]
    omega
  rw [unpackBodyAt, unpackBody]
  by_cases hshort : s.length < 4
  · rw [if_pos (by omega), if_pos hshort]
    exact returns_zero dst dlen
  have hbehind : ∀ k, src.drop (ip + k) = s.drop k := fun k => by rw [← hs, List.drop_drop]
  rw [if_neg (by omega), if_neg hshort, wordAt_eq hs (by omega), ok_bind,
    wordAt_eq (hbehind 2) (by rw [List.length_drop]; omega), ok_bind]
  dsimp only
  generalize leGet (s.take 2) = ll_cnt
  generalize leGet ((s.drop 2).take 2) = d_cnt
  by_cases hmany : maxLitlen < ll_cnt ∨ maxDist < d_cnt
  · rw [if_pos hmany, if_pos hmany]
    exact returns_zero dst dlen
  rw [if_neg hmany, if_neg hmany]
  obtain ⟨x, hx, hrel⟩ := readLensAt_rel (hbehind 4) (show ip + 4 ≤ src.length by omega)
    (show ll_cnt ≤ maxLitlen by omega)
  rw [hx, ok_bind]
  generalize readLens ll_cnt maxLitlen (s.drop 4) = ll at hrel ⊢
  cases hrel with
  | none => exact returns_zero dst dlen
  | @some p q hll =>
      obtain ⟨ll_lens, ip₁⟩ := p
      obtain ⟨f_ll, s₁⟩ := q
      obtain ⟨hsize, hcells, hs₁, hip₁⟩ := hll
      dsimp only at hsize hcells hs₁ hip₁ ⊢
      obtain ⟨y, hy, hrel'⟩ := readLensAt_rel hs₁ hip₁ (show d_cnt ≤ maxDist by omega)
      rw [hy, ok_bind]
      generalize readLens d_cnt maxDist s₁ = d at hrel' ⊢
      cases hrel' with
      | none => exact returns_zero dst dlen
      | @some p q hd =>
          obtain ⟨d_lens, ip₂⟩ := p
          obtain ⟨f_d, s₂⟩ := q
          obtain ⟨hsize', hcells', hs₂, -⟩ := hd
          dsimp only at hsize' hcells' hs₂ ⊢
          by_cases halloc : a.ll_lut && a.d_lut && (!rle_on || a.rle_tmp)
          swap
          · rw [if_neg halloc, if_neg halloc]
            exact returns_zero dst dlen
          rw [if_pos halloc, if_pos halloc]
          obtain ⟨ll_lut, hll, hllRep⟩ := lutRep_of_lengths hsize hcells
            (show ll_cnt ≤ maxLitlen by omega) h.ll_lut
          obtain ⟨d_lut, hd, hdRep⟩ := lutRep_of_lengths hsize' hcells'
            (show d_cnt ≤ maxDist by omega) h.d_lut
          -- the decoder into a buffer of its own, or into the output
          have hdecode : ∀ m0 : Mem UInt8, ∃ r, unpackLoopAt σ (src.drop ip₂) ll_lut d_lut dlen m0 = .ok r ∧
              r.1 = (unpackLoop (huffLut f_ll ll_cnt) (huffLut f_d d_cnt) dlen (dlen + 1)
                (.init s₂) []).length ∧
                Holds ⟨0, dlen⟩ m0 r.2 (unpackLoop (huffLut f_ll ll_cnt) (huffLut f_d d_cnt) dlen (dlen + 1)
                  (.init s₂) []) := fun m0 =>
            unpackLoopAt_rel hllRep hdRep
              ⟨⟨hs₂, rfl, fun _ => ⟨rfl, Int.le_refl 0⟩⟩, rfl, ⟨Nat.zero_le _, rfl, fun _ _ => rfl⟩⟩
              (by rw [List.length_nil]; omega)
          rw [hll, ok_bind, hd, ok_bind]
          generalize unpackLoop (huffLut f_ll ll_cnt) (huffLut f_d d_cnt) dlen (dlen + 1) (.init s₂) [] =
            out at hdecode ⊢
          cases rle_on with
          | false => exact hdecode dst
          | true =>
              obtain ⟨r, hr, hop, hholds⟩ := hdecode h.rle_tmp
              have hread : read r.2 0 out.length = out := hholds.reads
              have hfits : 0 + out.length ≤ dlen := hholds.fits
              obtain ⟨t, ht, hcount, hout⟩ := rleLoop_rel (c := ⟨0, 0, dst⟩)
                (n := out.length + 1) hread (show out.length ≤ dlen by omega) rfl
                (show 0 = ([] : Bytes).length from rfl)
                ⟨Nat.zero_le _, rfl, fun _ _ => rfl⟩ (Nat.lt_succ_self _)
              refine ⟨t, ?_, hcount, hout⟩
              rw [if_pos rfl, hr, ok_bind]
              show rleDecodeAt dlen r.2 r.1 dst dlen = _
              rw [rleDecodeAt, hop, ht]

/-- **THE DECOMPRESSOR** stays within all of its buffers, and returns what it has put
    out. -/
theorem lzhDecompressAt_rel (σ : IntSub) (a : UnpackAlloc) (h : Storage) (src : Bytes) (dst : Mem UInt8)
    (dlen : Nat) : Returns dst dlen (lzhDecompressAt σ a h src dst dlen) (lzhDecompress a src dlen) := by
  rw [lzhDecompressAt, lzhDecompress]
  by_cases hshort : src.length < 5
  · rw [if_pos hshort, if_pos hshort]
    exact returns_zero dst dlen
  rw [if_neg hshort, if_neg hshort, cellAt_getD 0 (by omega), ok_bind, Nat.and_one_is_mod]
  show Returns dst dlen (if (charAt src 0).toNat % 2 = 1 then _ else _) _
  dsimp only
  by_cases hrle : (charAt src 0).toNat % 2 = 1
  · rw [if_pos hrle, cellsAt_ok (by omega), ok_bind, decide_eq_true hrle]
    exact unpackBodyAt_rel σ a h true dst dlen rfl (by omega)
  · rw [if_neg hrle, decide_eq_false hrle]
    exact unpackBodyAt_rel σ a h false dst dlen rfl (by omega)

/-- What decoding within bounds is: the code comes to an end without a fault, returns at
    most `dlen`, and leaves what is behind the output alone. -/
def WithinBounds (dst : Mem UInt8) (dlen : Nat) (x : Checked (Nat × Mem UInt8)) : Prop :=
  ∃ n dst', x = .ok (n, dst') ∧ n ≤ dlen ∧ ∀ i, dlen ≤ i → dst' i = dst i

theorem Returns.withinBounds {dst : Mem UInt8} {dlen : Nat} {x : Checked (Nat × Mem UInt8)} {out : Bytes}
    (h : Returns dst dlen x out) : WithinBounds dst dlen x := by
  obtain ⟨r, hr, hn, hholds⟩ := h
  have hfits : 0 + out.length ≤ dlen := hholds.fits
  exact ⟨r.1, r.2, hr, by omega, fun i hi => hholds.frame i (Or.inr hi)⟩

/-- **BOTH LEGACY DECODERS** decode within bounds, whatever they are given. -/
theorem legacy_decoders_within_bounds (src : Bytes) (dst : Mem UInt8) (dlen : Nat) :
    (∀ σ a h, WithinBounds dst dlen (lzhDecompressAt σ a h src dst dlen)) ∧
      WithinBounds dst dlen (Lz.zuptLzDecompressAt src dst dlen) :=
  ⟨fun σ a h => (lzhDecompressAt_rel σ a h src dst dlen).withinBounds,
    Returns.withinBounds (Lz.zuptLzDecompressAt_eq src dst dlen)⟩

end Zupt.Lzh
