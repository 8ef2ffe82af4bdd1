import Zupt.Resumable
import Zupt.VaptVupt.Frame

/-! # A frame as a resumable parser

    The block parser of `vv_dstream_decompress_chunk`, which waits where the
    decoder of a whole buffer gives up, and the machine that reads a frame with
    it: a header, blocks, a footer.  On a whole frame the machine ends as
    `decodeFrame` does (`decodeFrame_eq_settle`), and being a resumable parser
    it does so whichever pieces the frame comes in. -/

namespace Zupt.VaptVupt

open Zupt.LittleEndian Zupt.Resumable

/-! ## The block parser of the stream -/

/-- What the stream makes of the buffered input at a block. -/
inductive BlockOutcome where
  | needMore
  | fail (e : VvError)
  | done (out : Bytes) (last : Bool) (taken : Nat)
  deriving DecidableEq, Repr

/-- `if (err != VV_OK || actual != dsz) { .. }`. -/
def sizedOutcome (dsz : Nat) (r : Except VvError Bytes) (last : Bool) (taken : Nat) :
    BlockOutcome :=
  match r with
  | .error e => .fail e
  | .ok out => if out.length ≠ dsz then .fail .corrupt else .done out last taken

/-- The size of a block behind its header, where enough of it is there to
    tell. -/
def blockDataSize (b : Bytes) : Option Nat :=
  match bhType (le32Get b) with
  | .raw => some (bhSize (le32Get b))
  | .rle => some 1
  | .compressed | .entropy => if b.length < 4 + 3 then none else some (3 + cszGet (b.drop 4))

/-- The decoding of a block that is wholly there. -/
def decodeWhole (D : BlockDecoders) (offBytes maxOffset : Nat) (history b : Bytes) (taken : Nat) :
    BlockOutcome :=
  let h := le32Get b
  let dsz := bhSize h
  let p := b.drop 4
  let csz := cszGet p
  match bhType h with
  | .raw => .done (p.take dsz) (bhLast h) taken
  | .rle => .done (List.replicate dsz (charAt p 0)) (bhLast h) taken
  | .compressed =>
      sizedOutcome dsz (D.tokens ((p.drop 3).take csz) history dsz offBytes maxOffset) (bhLast h)
        taken
  | .entropy =>
      if csz < 1 then .fail .corrupt
      else
        sizedOutcome dsz (decodeEntropy D (charAt (p.drop 3) 0) (((p.drop 3).take csz).drop 1)
          history dsz offBytes maxOffset) (bhLast h) taken

/-- The block state of `vv_dstream_decompress_chunk`, over the unread part of
    the input buffer. -/
def streamBlock (D : BlockDecoders) (offBytes maxOffset room : Nat) (history b : Bytes) :
    BlockOutcome :=
  if b.length < 4 then .needMore
  else
    let dsz := bhSize (le32Get b)
    if maxBlockSize < dsz then .fail .overflow
    else if room < dsz then .fail .overflow
    else
      match blockDataSize b with
      | none => .needMore
      | some size =>
          if b.length < 4 + size then .needMore
          else decodeWhole D offBytes maxOffset history b (4 + size)

section Block

variable {D : BlockDecoders} {offBytes maxOffset room : Nat} {history b : Bytes}

/-- The stream's view of a block, told by the decoder of a whole buffer: it
    fails where the stream waits. -/
def BlockOutcome.atEnd (o : BlockOutcome) (b : Bytes) : Except VvError Decoded :=
  match o with
  | .needMore => .error .corrupt
  | .fail e => .error e
  | .done out last taken => .ok ⟨out, last, b.drop taken⟩

theorem sized_eq_atEnd (dsz : Nat) (r : Except VvError Bytes) (last : Bool) (taken : Nat)
    (rest : Bytes) (h : b.drop taken = rest) :
    sized dsz r last rest = (sizedOutcome dsz r last taken).atEnd b := by
  cases r with
  | error e => rfl
  | ok out =>
      rw [sized, sizedOutcome]
      by_cases hlen : out.length ≠ dsz
      · rw [if_pos hlen, if_pos hlen]
        rfl
      · rw [if_neg hlen, if_neg hlen, ← h]
        rfl

/-- **THE TWO BLOCK PARSERS AGREE**, in their errors as well. -/
theorem decodeBlock_eq :
    decodeBlock D offBytes maxOffset room history b =
      (streamBlock D offBytes maxOffset room history b).atEnd b := by
  rw [decodeBlock, streamBlock]
  by_cases h4 : b.length < 4
  · rw [if_pos h4, if_pos h4]
    rfl
  rw [if_neg h4, if_neg h4]
  dsimp only
  by_cases hmax : maxBlockSize < bhSize (le32Get b)
  · rw [if_pos hmax, if_pos hmax]
    rfl
  rw [if_neg hmax, if_neg hmax]
  by_cases hroom : room < bhSize (le32Get b)
  · rw [if_pos hroom, if_pos hroom]
    rfl
  rw [if_neg hroom, if_neg hroom, blockDataSize]
  have hdrop (k l : Nat) : (b.drop k).drop l = b.drop (k + l) := List.drop_drop
  have hlen (k : Nat) : (b.drop k).length = b.length - k := List.length_drop
  cases htype : bhType (le32Get b) with
  | raw =>
      dsimp only
      by_cases hsize : (b.drop 4).length < bhSize (le32Get b)
      · rw [if_pos hsize, if_pos (by rw [hlen] at hsize; omega)]
        rfl
      · rw [if_neg hsize, if_neg (by rw [hlen] at hsize; omega), hdrop, decodeWhole, htype]
        rfl
  | rle =>
      dsimp only
      by_cases hsize : (b.drop 4).length = 0
      · rw [if_pos hsize, if_pos (by rw [hlen] at hsize; omega)]
        rfl
      · rw [if_neg hsize, if_neg (by rw [hlen] at hsize; omega), hdrop, decodeWhole, htype]
        rfl
  | compressed =>
      dsimp only
      by_cases h3 : (b.drop 4).length < 3
      · rw [if_pos h3, if_pos (by rw [hlen] at h3; omega)]
        rfl
      have h7 : ¬ b.length < 4 + 3 := by
        rw [hlen] at h3
        omega
      rw [if_neg h3, if_neg h7]
      dsimp only
      by_cases hsize : ((b.drop 4).drop 3).length < cszGet (b.drop 4)
      · rw [if_pos hsize, if_pos (by rw [hdrop, hlen] at hsize; omega)]
        rfl
      · rw [if_neg hsize, if_neg (by rw [hdrop, hlen] at hsize; omega), decodeWhole, htype]
        exact sized_eq_atEnd _ _ _ _ _ (by rw [hdrop, hdrop, Nat.add_assoc])
  | entropy =>
      dsimp only
      by_cases h3 : (b.drop 4).length < 3
      · rw [if_pos h3, if_pos (by rw [hlen] at h3; omega)]
        rfl
      have h7 : ¬ b.length < 4 + 3 := by
        rw [hlen] at h3
        omega
      rw [if_neg h3, if_neg h7]
      dsimp only
      by_cases hcsz : cszGet (b.drop 4) < 1
      · -- an empty entropy payload is refused by both, once its size is there
        have hthere : ¬ b.length < 4 + (3 + cszGet (b.drop 4)) := by omega
        rw [if_pos (Or.inl hcsz), if_neg hthere, decodeWhole, htype]
        dsimp only
        rw [if_pos hcsz]
        rfl
      by_cases hsize : ((b.drop 4).drop 3).length < cszGet (b.drop 4)
      · rw [if_pos (Or.inr hsize), if_pos (by rw [hdrop, hlen] at hsize; omega)]
        rfl
      · have hboth : ¬ (cszGet (b.drop 4) < 1 ∨ ((b.drop 4).drop 3).length < cszGet (b.drop 4)) := by
          omega
        rw [if_neg hboth, if_neg (by rw [hdrop, hlen] at hsize; omega), decodeWhole, htype]
        dsimp only
        rw [if_neg hcsz]
        exact sized_eq_atEnd _ _ _ _ _ (by rw [hdrop, hdrop, Nat.add_assoc])

theorem sizedOutcome_done {dsz taken taken' : Nat} {r : Except VvError Bytes} {out : Bytes}
    {last last' : Bool} (h : sizedOutcome dsz r last taken = .done out last' taken') :
    taken' = taken ∧ last' = last ∧ out.length = dsz := by
  cases r with
  | error e => cases h
  | ok bytes =>
      rw [sizedOutcome] at h
      by_cases hlen : bytes.length ≠ dsz
      · rw [if_pos hlen] at h
        cases h
      · rw [if_neg hlen] at h
        cases h
        exact ⟨rfl, rfl, by omega⟩

/-- What a whole block takes and gives. -/
theorem decodeWhole_done {taken taken' : Nat} {out : Bytes} {last : Bool}
    (hraw : bhType (le32Get b) = .raw → 4 + bhSize (le32Get b) ≤ b.length)
    (h : decodeWhole D offBytes maxOffset history b taken = .done out last taken') :
    taken' = taken ∧ last = bhLast (le32Get b) ∧ out.length = bhSize (le32Get b) := by
  rw [decodeWhole] at h
  cases htype : bhType (le32Get b) with
  | raw =>
      rw [htype] at h
      cases h
      have := hraw htype
      refine ⟨rfl, rfl, ?_⟩
      rw [List.length_take, List.length_drop]
      omega
  | rle =>
      rw [htype] at h
      cases h
      exact ⟨rfl, rfl, List.length_replicate⟩
  | compressed =>
      rw [htype] at h
      exact sizedOutcome_done h
  | entropy =>
      rw [htype] at h
      dsimp only at h
      by_cases hcsz : cszGet (b.drop 4) < 1
      · rw [if_pos hcsz] at h
        cases h
      · rw [if_neg hcsz] at h
        exact sizedOutcome_done h

/-- A decoded block lies within the input, and its bytes fit into the room. -/
theorem streamBlock_done {out : Bytes} {last : Bool} {taken : Nat}
    (h : streamBlock D offBytes maxOffset room history b = .done out last taken) :
    blockDataSize b = some (taken - 4) ∧ 4 ≤ taken ∧ taken ≤ b.length ∧
      last = bhLast (le32Get b) ∧ out.length ≤ room := by
  rw [streamBlock] at h
  by_cases h4 : b.length < 4
  · rw [if_pos h4] at h
    cases h
  rw [if_neg h4] at h
  dsimp only at h
  by_cases hmax : maxBlockSize < bhSize (le32Get b)
  · rw [if_pos hmax] at h
    cases h
  rw [if_neg hmax] at h
  by_cases hroom : room < bhSize (le32Get b)
  · rw [if_pos hroom] at h
    cases h
  rw [if_neg hroom] at h
  cases hsize : blockDataSize b with
  | none =>
      rw [hsize] at h
      cases h
  | some size =>
      rw [hsize] at h
      dsimp only at h
      by_cases hlen : b.length < 4 + size
      · rw [if_pos hlen] at h
        cases h
      rw [if_neg hlen] at h
      have hraw : bhType (le32Get b) = .raw → 4 + bhSize (le32Get b) ≤ b.length := by
        intro htype
        rw [blockDataSize, htype] at hsize
        obtain rfl := Option.some.inj hsize
        omega
      obtain ⟨rfl, hlast, hout⟩ := decodeWhole_done hraw h
      refine ⟨?_, by omega, by omega, hlast, by omega⟩
      rw [Nat.add_sub_cancel_left]

end Block

/-! ## More input changes no decision -/

section Extend

variable {b : Bytes} (c : Bytes)

theorem le32Get_append (h : 4 ≤ b.length) : le32Get (b ++ c) = le32Get b := by
  rw [le32Get, le32Get, List.take_append_of_le_length h]

theorem cszGet_append (h : 3 ≤ b.length) : cszGet (b ++ c) = cszGet b := by
  rw [cszGet, cszGet, List.take_append_of_le_length h]

theorem charAt_append {i : Nat} (h : i < b.length) : charAt (b ++ c) i = charAt b i := by
  rw [charAt, charAt, List.getD_append _ _ _ _ h]

theorem take_drop_append {k n : Nat} (h : k + n ≤ b.length) :
    ((b ++ c).drop k).take n = (b.drop k).take n := by
  rw [List.drop_append_of_le_length (by omega),
    List.take_append_of_le_length (by rw [List.length_drop]; omega)]

/-- A block size that can be told is told of longer input as well. -/
theorem blockDataSize_append {size : Nat} (h4 : 4 ≤ b.length) (h : blockDataSize b = some size) :
    blockDataSize (b ++ c) = some size := by
  rw [blockDataSize, le32Get_append c h4]
  rw [blockDataSize] at h
  have hcsz : ¬ b.length < 4 + 3 → cszGet ((b ++ c).drop 4) = cszGet (b.drop 4) := by
    intro h7
    rw [List.drop_append_of_le_length h4, cszGet_append c (by rw [List.length_drop]; omega)]
  cases htype : bhType (le32Get b) with
  | raw =>
      rw [htype] at h
      exact h
  | rle =>
      rw [htype] at h
      exact h
  | compressed =>
      rw [htype] at h
      dsimp only at h ⊢
      by_cases h7 : b.length < 4 + 3
      · rw [if_pos h7] at h
        cases h
      · rw [if_neg h7] at h
        rw [if_neg (by rw [List.length_append]; omega), hcsz h7]
        exact h
  | entropy =>
      rw [htype] at h
      dsimp only at h ⊢
      by_cases h7 : b.length < 4 + 3
      · rw [if_pos h7] at h
        cases h
      · rw [if_neg h7] at h
        rw [if_neg (by rw [List.length_append]; omega), hcsz h7]
        exact h

/-- A whole block is decoded alike with input behind it. -/
theorem decodeWhole_append {D : BlockDecoders} {offBytes maxOffset size : Nat} {history : Bytes}
    (h4 : 4 ≤ b.length) (hsize : blockDataSize b = some size) (hlen : 4 + size ≤ b.length)
    (taken : Nat) :
    decodeWhole D offBytes maxOffset history (b ++ c) taken =
      decodeWhole D offBytes maxOffset history b taken := by
  rw [decodeWhole, decodeWhole, le32Get_append c h4]
  rw [blockDataSize] at hsize
  have hdrop : (b ++ c).drop 4 = b.drop 4 ++ c := List.drop_append_of_le_length h4
  have hdroplen : (b.drop 4).length = b.length - 4 := List.length_drop
  rw [hdrop]
  cases htype : bhType (le32Get b) with
  | raw =>
      rw [htype] at hsize
      obtain rfl := Option.some.inj hsize
      dsimp only
      rw [List.take_append_of_le_length (by omega)]
  | rle =>
      rw [htype] at hsize
      obtain rfl := Option.some.inj hsize
      dsimp only
      rw [charAt_append c (by omega)]
  | compressed =>
      rw [htype] at hsize
      dsimp only at hsize ⊢
      by_cases h7 : b.length < 4 + 3
      · rw [if_pos h7] at hsize
        cases hsize
      rw [if_neg h7] at hsize
      obtain rfl := Option.some.inj hsize
      rw [cszGet_append c (by omega), take_drop_append c (by omega)]
  | entropy =>
      rw [htype] at hsize
      dsimp only at hsize ⊢
      by_cases h7 : b.length < 4 + 3
      · rw [if_pos h7] at hsize
        cases hsize
      rw [if_neg h7] at hsize
      obtain rfl := Option.some.inj hsize
      rw [cszGet_append c (by omega)]
      by_cases hcsz : cszGet (b.drop 4) < 1
      · rw [if_pos hcsz, if_pos hcsz]
      · rw [if_neg hcsz, if_neg hcsz, take_drop_append c (by omega),
          List.drop_append_of_le_length (by omega),
          charAt_append c (by rw [List.length_drop]; omega)]

/-- **A DECIDED BLOCK STAYS DECIDED**, whatever input follows. -/
theorem streamBlock_append {D : BlockDecoders} {offBytes maxOffset room : Nat} {history : Bytes}
    (h : streamBlock D offBytes maxOffset room history b ≠ .needMore) :
    streamBlock D offBytes maxOffset room history (b ++ c) =
      streamBlock D offBytes maxOffset room history b := by
  rw [streamBlock] at h
  rw [streamBlock, streamBlock]
  by_cases h4 : b.length < 4
  · rw [if_pos h4] at h
    exact absurd rfl h
  rw [if_neg h4] at h ⊢
  rw [if_neg (by rw [List.length_append]; omega), le32Get_append c (by omega)]
  dsimp only at h ⊢
  by_cases hmax : maxBlockSize < bhSize (le32Get b)
  · rw [if_pos hmax, if_pos hmax]
  rw [if_neg hmax] at h
  rw [if_neg hmax, if_neg hmax]
  by_cases hroom : room < bhSize (le32Get b)
  · rw [if_pos hroom, if_pos hroom]
  rw [if_neg hroom] at h
  rw [if_neg hroom, if_neg hroom]
  cases hsize : blockDataSize b with
  | none =>
      rw [hsize] at h
      exact absurd rfl h
  | some size =>
      rw [hsize] at h
      rw [blockDataSize_append c (by omega) hsize]
      dsimp only at h ⊢
      by_cases hlen : b.length < 4 + size
      · rw [if_pos hlen] at h
        exact absurd rfl h
      · rw [if_neg (by rw [List.length_append]; omega), if_neg hlen]
        exact decodeWhole_append c (by omega) hsize (by omega) _

end Extend

end Zupt.VaptVupt
