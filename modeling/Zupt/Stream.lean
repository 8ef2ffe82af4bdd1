import Zupt.Varint
import Zupt.LittleEndian

/-! # Reading a stream

    A `FILE *` opened for reading is its bytes and a position.  A call answers
    with a result and the position it leaves behind; a failing call leaves the
    position where it stopped, which the callers that carry on can observe.

    The position may lie behind the end of the file (`fseeko` allows it), and
    an offset that does not fit a signed 64-bit integer makes `fseeko` fail
    and leave the position alone. -/

namespace Zupt.Stream

open Zupt.LittleEndian Zupt.Varint

/-- A computation that reads the file `f` from a position on. -/
structure ReadM (α : Type) where
  run : (f : Bytes) → (pos : Nat) → Result α × Nat

namespace ReadM

variable {α β : Type}

/-- Stop with an error where we are. -/
def fail (e : ZuptError) : ReadM α := ⟨fun _ pos => (.error e, pos)⟩

/-- One computation after the other; an error stops both. -/
def bind (x : ReadM α) (g : α → ReadM β) : ReadM β := ⟨fun f pos =>
  match x.run f pos with
  | (.ok a, pos') => (g a).run f pos'
  | (.error e, pos') => (.error e, pos')⟩

instance readMonad : Monad ReadM where
  pure a := ⟨fun _ pos => (.ok a, pos)⟩
  bind := ReadM.bind

/-- `if (!ok) return e;` -/
def require (c : Prop) [Decidable c] (e : ZuptError) : ReadM Unit :=
  if c then Pure.pure () else ReadM.fail e

theorem run_pure (a : α) (f : Bytes) (pos : Nat) :
    (Pure.pure a : ReadM α).run f pos = (.ok a, pos) := rfl

/-- **BIND**: a sequence runs its second part where the first one ended. -/
theorem run_bind (x : ReadM α) (g : α → ReadM β) (f : Bytes) (pos : Nat) :
    (x >>= g).run f pos = match x.run f pos with
      | (.ok a, pos') => (g a).run f pos'
      | (.error e, pos') => (.error e, pos') := rfl

theorem bind_of_ok {x : ReadM α} {g : α → ReadM β} {f : Bytes} {pos pos' : Nat} {a : α}
    (h : x.run f pos = (.ok a, pos')) : (x >>= g).run f pos = (g a).run f pos' := by
  rw [run_bind, h]

/-- A sequence that ended well had two parts that did. -/
theorem bind_ok {x : ReadM α} {g : α → ReadM β} {f : Bytes} {pos pos' : Nat} {b : β}
    (h : (x >>= g).run f pos = (.ok b, pos')) :
    ∃ a mid, x.run f pos = (.ok a, mid) ∧ (g a).run f mid = (.ok b, pos') := by
  rw [run_bind] at h
  cases hx : x.run f pos with
  | mk r mid =>
      rw [hx] at h
      cases r with
      | error e => exact nomatch congrArg Prod.fst h
      | ok a => exact ⟨a, mid, rfl, h⟩

theorem require_of {c : Prop} [Decidable c] (h : c) (e : ZuptError) (f : Bytes) (pos : Nat) :
    (require c e).run f pos = (.ok (), pos) := by
  rw [require, if_pos h]
  rfl

theorem of_require {c : Prop} [Decidable c] {e : ZuptError} {f : Bytes} {pos pos' : Nat} {u : Unit}
    (h : (require c e).run f pos = (.ok u, pos')) : c := by
  by_contra hc
  rw [require, if_neg hc] at h
  exact nomatch congrArg Prod.fst h

end ReadM

/-- `fread` of exactly `n` bytes; a short read is an I/O error. -/
def fread (n : Nat) : ReadM {b : Bytes // b.length = n} := ⟨fun f pos =>
  let got := (f.drop pos).take n
  if h : got.length = n then (.ok ⟨got, h⟩, pos + n)
  else (.error .io, pos + got.length)⟩

/-- One byte: `fread(&b, 1, 1, f)`. -/
def r8 : ReadM UInt8 := do
  let b ← fread 1
  return b.val.headD 0

/-- `r16le`. -/
def r16le : ReadM UInt16 := do
  let b ← fread 2
  return le16Get b.val

/-- `r64le`. -/
def r64le : ReadM UInt64 := do
  let b ← fread 8
  return le64Get b.val

/-- The bytes `zupt_read_varint` takes from the stream before it stops, with
    `n` of them already taken. -/
def varintScan : (n : Nat) → Bytes → Nat
  | _, [] => 0
  | n, byte :: rest =>
      if n ≥ 10 then 0
      else if n = 9 ∧ byte &&& 0xFE ≠ 0 then 1
      else if byte &&& 0x80 = 0 then 1
      else 1 + varintScan (n + 1) rest

/-- `zupt_read_varint`: the loop of `zupt_decode_varint` over `fgetc`. -/
def readVarint : ReadM UInt64 := ⟨fun f pos =>
  match decodeVarint (f.drop pos) with
  | some (v, n) => (.ok v, pos + n)
  | none => (.error .io, pos + varintScan 0 (f.drop pos))⟩

/-- `fseeko(f, (int64_t)offset, SEEK_SET)`: whether it succeeds, and where
    the stream stands then. -/
def fseeko (offset : UInt64) (pos : Nat) : Bool × Nat :=
  if offset.toNat < 2 ^ 63 then (true, offset.toNat) else (false, pos)

/-- `fseeko(f, (int64_t)offset, SEEK_SET)` where the result is not looked at. -/
def seekSet (offset : UInt64) : ReadM Unit := ⟨fun _ pos => (.ok (), (fseeko offset pos).2)⟩

/-- `ftello`. -/
def ftello : ReadM Nat := ⟨fun _ pos => (.ok pos, pos)⟩

/-- Back to a position `ftello` answered. -/
def seekBack (saved : Nat) : ReadM Unit := ⟨fun _ _ => (.ok (), saved)⟩

/-- The size of the file, found by seeking to its end and back. -/
def fileSize : ReadM Nat := ⟨fun f pos => (.ok f.length, pos)⟩

/-- A computation in memory. -/
def inMemory {α : Type} (r : Result α) : ReadM α := ⟨fun _ pos => (r, pos)⟩

/-! ## Reading what is there -/

/-- At `pos` the file continues with `b`. -/
def At (f : Bytes) (pos : Nat) (b : Bytes) : Prop := ∃ rest, f.drop pos = b ++ rest

theorem At.append_left {f : Bytes} {pos : Nat} {a b : Bytes} (h : At f pos (a ++ b)) :
    At f pos a := by
  obtain ⟨rest, h⟩ := h
  exact ⟨b ++ rest, by rw [h, List.append_assoc]⟩

theorem At.append_right {f : Bytes} {pos n : Nat} {a b : Bytes} (h : At f pos (a ++ b))
    (hn : a.length = n) : At f (pos + n) b := by
  obtain ⟨rest, h⟩ := h
  subst hn
  refine ⟨rest, ?_⟩
  rw [← List.drop_drop, h, List.append_assoc, List.drop_left]

theorem at_append (pre b post : Bytes) : At (pre ++ (b ++ post)) pre.length b :=
  ⟨post, List.drop_left⟩

theorem fread_at {f : Bytes} {pos n : Nat} {b : Bytes} (h : At f pos b)
    (hlen : b.length = n) : (fread n).run f pos = (.ok ⟨b, hlen⟩, pos + n) := by
  obtain ⟨rest, h⟩ := h
  have hgot : (f.drop pos).take n = b := by
    rw [h, List.take_left' hlen]
  show (if h : ((f.drop pos).take n).length = n then _ else _) = _
  rw [dif_pos (by rw [hgot, hlen])]
  congr 2
  exact Subtype.ext hgot

/-- What was read is part of the file. -/
theorem fread_ok {f : Bytes} {pos n pos' : Nat} {b : {b : Bytes // b.length = n}}
    (h : (fread n).run f pos = (.ok b, pos')) : At f pos b.val ∧ pos' = pos + n := by
  change (if h : ((f.drop pos).take n).length = n then _ else _) = _ at h
  by_cases hlen : ((f.drop pos).take n).length = n
  · rw [dif_pos hlen] at h
    obtain ⟨hb, rfl⟩ := Prod.mk.inj h
    obtain rfl := Except.ok.inj hb
    exact ⟨⟨(f.drop pos).drop n, (List.take_append_drop n _).symm⟩, rfl⟩
  · rw [dif_neg hlen] at h
    exact nomatch congrArg Prod.fst h

theorem At.length_le {f b : Bytes} {pos : Nat} (h : At f pos b) :
    pos + b.length ≤ max pos f.length := by
  obtain ⟨rest, h⟩ := h
  have hlen := congrArg List.length h
  rw [List.length_drop, List.length_append] at hlen
  omega

theorem r8_at {f : Bytes} {pos : Nat} {b : UInt8} (h : At f pos [b]) :
    r8.run f pos = (.ok b, pos + 1) :=
  ReadM.bind_of_ok (fread_at h rfl)

theorem r16le_at {f : Bytes} {pos : Nat} {v : UInt16} (h : At f pos (le16Put v)) :
    r16le.run f pos = (.ok v, pos + 2) := by
  have hread := ReadM.bind_of_ok (g := fun b => Pure.pure (le16Get b.val))
    (fread_at h (le16Put_length v))
  have hget := le16Get_le16Put v []
  rw [List.append_nil] at hget
  rw [hget] at hread
  exact hread

theorem r64le_at {f : Bytes} {pos : Nat} {v : UInt64} (h : At f pos (le64Put v)) :
    r64le.run f pos = (.ok v, pos + 8) := by
  have hread := ReadM.bind_of_ok (g := fun b => Pure.pure (le64Get b.val))
    (fread_at h (le64Put_length v))
  have hget := le64Get_le64Put v []
  rw [List.append_nil] at hget
  rw [hget] at hread
  exact hread

theorem readVarint_at {f : Bytes} {pos : Nat} {v : UInt64} (h : At f pos (encodeVarint v)) :
    readVarint.run f pos = (.ok v, pos + (encodeVarint v).length) := by
  obtain ⟨rest, h⟩ := h
  simp only [readVarint, h, decodeVarint_encodeVarint]

/-! ## Moving forward -/

/-- A computation that succeeds moves forward, and not out of the file. -/
def ReadM.Forward {α : Type} (x : ReadM α) : Prop :=
  ∀ f pos a pos', x.run f pos = (.ok a, pos') → pos ≤ pos' ∧ pos' ≤ max pos f.length

namespace ReadM.Forward

variable {α β : Type}

theorem pure (a : α) : (Pure.pure a : ReadM α).Forward := by
  intro f pos b pos' h
  obtain ⟨-, rfl⟩ := Prod.mk.inj h
  omega

/-- Two computations that move forward do so one after the other. -/
theorem bind {x : ReadM α} {g : α → ReadM β} (hx : x.Forward) (hg : ∀ a, (g a).Forward) :
    (x >>= g).Forward := by
  intro f pos b pos' h
  obtain ⟨a, mid, hrun, h⟩ := ReadM.bind_ok h
  have h1 := hx f pos a mid hrun
  have h2 := hg a f mid b pos' h
  omega

theorem require (c : Prop) [Decidable c] (err : ZuptError) :
    (ReadM.require c err).Forward := by
  rw [ReadM.require]
  by_cases hc : c
  · rw [if_pos hc]
    exact pure ()
  · rw [if_neg hc]
    exact fun f pos a pos' h => nomatch congrArg Prod.fst h

theorem fread (n : Nat) : (Stream.fread n).Forward := by
  intro f pos b pos' h
  obtain ⟨hat, rfl⟩ := fread_ok h
  have := hat.length_le
  rw [b.property] at this
  omega

theorem r8 : Stream.r8.Forward := bind (fread 1) fun _ => pure _

theorem r16le : Stream.r16le.Forward := bind (fread 2) fun _ => pure _

theorem r64le : Stream.r64le.Forward := bind (fread 8) fun _ => pure _

theorem readVarint : Stream.readVarint.Forward := by
  intro f pos v pos' h
  rw [Stream.readVarint] at h
  dsimp only at h
  cases hdec : decodeVarint (f.drop pos) with
  | none =>
      rw [hdec] at h
      exact nomatch congrArg Prod.fst h
  | some r =>
      obtain ⟨w, n⟩ := r
      rw [hdec] at h
      obtain ⟨-, rfl⟩ := Prod.mk.inj h
      have := decodeLoop_length hdec
      rw [List.length_drop] at this
      omega

end ReadM.Forward

end Zupt.Stream
