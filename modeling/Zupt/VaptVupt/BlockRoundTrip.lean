import Zupt.VaptVupt.EncoderBound
import Zupt.VaptVupt.HeapExact
import Zupt.VaptVupt.OptimalSound
import Zupt.VaptVupt.SequencesRoundTrip
import Zupt.VaptVupt.InsertTrace

/-! # Blocks round trip

    What `emit_block` writes for a block, `vv_decompress_flags` decodes to it, with
    whatever history the encoder saw and more in front of it: as tokens, stored, as coded
    sequences or as coded literals with stripped tokens.  The fields of the last are two
    bytes wide, so there the literals have to be few. -/

namespace Zupt.VaptVupt

open Zupt.LittleEndian Zupt.Memory Zupt.Window

/-! ## Block headers -/

section Header

variable {type : BlockType} {last : Bool} {size : Nat}

/-- The fields of a header lie side by side. -/
theorem bhWord_toNat (type : BlockType) (last : Bool) (hsize : size < 2 ^ 29) :
    (type.bits ||| ((if last then (1 : UInt32) else 0) <<< 2) ||| (UInt32.ofNat size <<< 3)).toNat =
      2 ^ 3 * size + (2 ^ 2 * last.toNat + type.bits.toNat) := by
  have hbits : type.bits.toNat < 2 ^ 2 := by
    cases type <;> decide
  have hflag : ((if last then (1 : UInt32) else 0) <<< 2).toNat = 2 ^ 2 * last.toNat := by
    cases last <;> rfl
  have hfield : (UInt32.ofNat size <<< 3).toNat = 2 ^ 3 * size := by
    have hthree : (3 : UInt32).toNat % 32 = 3 := rfl
    rw [UInt32.toNat_shiftLeft, hthree, UInt32.toNat_ofNat', Nat.shiftLeft_eq]
    omega
  have hlow : 2 ^ 2 * last.toNat + type.bits.toNat < 2 ^ 3 := by
    have hone : last.toNat ≤ 1 := Bool.toNat_le last
    omega
  rw [UInt32.toNat_or, UInt32.toNat_or, hflag, hfield, Nat.lor_comm type.bits.toNat,
    ← Nat.two_pow_add_eq_or_of_lt hbits, Nat.lor_comm, ← Nat.two_pow_add_eq_or_of_lt hlow]

theorem bhPut_get (rest : Bytes) : le32Get (bhPut type last size ++ rest) =
    type.bits ||| ((if last then (1 : UInt32) else 0) <<< 2) ||| (UInt32.ofNat size <<< 3) :=
  le32Get_le32Put _ rest

theorem bhType_put (hsize : size < 2 ^ 29) (rest : Bytes) :
    bhType (le32Get (bhPut type last size ++ rest)) = type := by
  have hword := bhWord_toNat type last hsize
  rw [bhPut_get]
  generalize type.bits ||| ((if last then (1 : UInt32) else 0) <<< 2) |||
    (UInt32.ofNat size <<< 3) = h at hword
  have hlow : (h &&& 3).toNat = type.bits.toNat := by
    have hbits : type.bits.toNat < 4 := by
      cases type <;> decide
    have hthree : (3 : UInt32).toNat = 2 ^ 2 - 1 := rfl
    rw [UInt32.toNat_and, hthree, Nat.and_two_pow_sub_one_eq_mod, hword]
    omega
  have hfield : h &&& 3 = type.bits := UInt32.toNat_inj.mp hlow
  rw [bhType, hfield]
  cases type <;> rfl

theorem bhLast_put (hsize : size < 2 ^ 29) (rest : Bytes) :
    bhLast (le32Get (bhPut type last size ++ rest)) = last := by
  have hword := bhWord_toNat type last hsize
  rw [bhPut_get]
  generalize type.bits ||| ((if last then (1 : UInt32) else 0) <<< 2) |||
    (UInt32.ofNat size <<< 3) = h at hword
  have hflag : (h >>> 2 &&& 1).toNat = last.toNat := by
    have hbits : type.bits.toNat < 4 := by
      cases type <;> decide
    have hone : last.toNat ≤ 1 := Bool.toNat_le last
    have htwo : (2 : UInt32).toNat % 32 = 2 := rfl
    have hmask : (1 : UInt32).toNat = 2 ^ 1 - 1 := rfl
    rw [UInt32.toNat_and, hmask, Nat.and_two_pow_sub_one_eq_mod, UInt32.toNat_shiftRight, htwo,
      Nat.shiftRight_eq_div_pow, hword]
    omega
  rw [bhLast]
  cases last with
  | false =>
      have hzero : h >>> 2 &&& 1 = 0 := UInt32.toNat_inj.mp hflag
      rw [hzero]
      rfl
  | true =>
      have hset : h >>> 2 &&& 1 = 1 := UInt32.toNat_inj.mp hflag
      rw [hset]
      rfl

theorem bhSize_put (hsize : size < 2 ^ 21) (rest : Bytes) :
    bhSize (le32Get (bhPut type last size ++ rest)) = size := by
  have hword := bhWord_toNat type last (show size < 2 ^ 29 by omega)
  have hbits : type.bits.toNat < 4 := by
    cases type <;> decide
  have hone : last.toNat ≤ 1 := Bool.toNat_le last
  have hthree : (3 : UInt32).toNat % 32 = 3 := rfl
  have hmask : (0x1FFFFF : UInt32).toNat = 2 ^ 21 - 1 := rfl
  rw [bhPut_get, bhSize, UInt32.toNat_and, hmask, Nat.and_two_pow_sub_one_eq_mod,
    UInt32.toNat_shiftRight, hthree, Nat.shiftRight_eq_div_pow, hword]
  omega

variable {D : BlockDecoders} {offBytes maxOffset room : Nat} {history : Bytes}

/-- A stored block is taken as it is. -/
theorem decodeBlock_raw (hsize : size ≤ maxBlockSize) (hroom : size ≤ room) {raw : Bytes}
    (hraw : raw.length = size) (rest : Bytes) :
    decodeBlock D offBytes maxOffset room history (bhPut .raw last size ++ raw ++ rest) =
      .ok ⟨raw, last, rest⟩ := by
  have hmax : maxBlockSize = 2 ^ 20 := rfl
  rw [List.append_assoc, decodeBlock, if_neg (by rw [List.length_append, bhPut_length]; omega)]
  dsimp only
  rw [bhSize_put (by omega), bhType_put (by omega), bhLast_put (by omega),
    List.drop_left' (bhPut_length _ _ _), if_neg (by omega), if_neg (by omega)]
  dsimp only
  rw [if_neg (by rw [List.length_append]; omega), ← hraw, List.take_left, List.drop_left]

/-- The empty last block, which closes a frame whose last call had no source. -/
theorem decodeBlock_empty (D : BlockDecoders) (offBytes maxOffset room : Nat)
    (history rest : Bytes) :
    decodeBlock D offBytes maxOffset room history (bhPut .raw true 0 ++ rest) =
      .ok ⟨[], true, rest⟩ := by
  have hraw : decodeBlock D offBytes maxOffset room history (bhPut .raw true 0 ++ [] ++ rest) =
      .ok ⟨[], true, rest⟩ := decodeBlock_raw (Nat.zero_le _) (Nat.zero_le room) rfl rest
  rw [List.append_nil] at hraw
  exact hraw

/-- A block of tokens is what the decoder of tokens makes of them. -/
theorem decodeBlock_tokens (hsize : size ≤ maxBlockSize) (hroom : size ≤ room) {payload out : Bytes}
    (hpayload : payload.length < 2 ^ 24) (hout : out.length = size)
    (hdec : D.tokens payload history size offBytes maxOffset = .ok out) (rest : Bytes) :
    decodeBlock D offBytes maxOffset room history
      (bhPut .compressed last size ++ (lePut 3 payload.length ++ payload) ++ rest) =
        .ok ⟨out, last, rest⟩ := by
  have hmax : maxBlockSize = 2 ^ 20 := rfl
  have hcsz : cszGet (lePut 3 payload.length ++ payload ++ rest) = payload.length := by
    rw [cszGet, List.append_assoc, List.take_left' (lePut_length _ _), leGet_lePut]
    exact Nat.mod_eq_of_lt hpayload
  rw [List.append_assoc, decodeBlock, if_neg (by rw [List.length_append, bhPut_length]; omega)]
  dsimp only
  rw [bhSize_put (by omega), bhType_put (by omega), bhLast_put (by omega),
    List.drop_left' (bhPut_length _ _ _), if_neg (by omega), if_neg (by omega)]
  dsimp only
  rw [if_neg (by simp only [List.length_append, lePut_length]; omega), hcsz, List.append_assoc,
    List.drop_left' (lePut_length _ _), if_neg (by rw [List.length_append]; omega), List.take_left,
    List.drop_left, hdec, sized, if_neg (by omega)]

/-- An entropy block is what the decoder of its tag makes of it. -/
theorem decodeBlock_entropy (hsize : size ≤ maxBlockSize) (hroom : size ≤ room) {tag : UInt8}
    {body out : Bytes} (hbody : 1 + body.length < 2 ^ 24) (hout : out.length = size)
    (hdec : decodeEntropy D tag body history size offBytes maxOffset = .ok out) (rest : Bytes) :
    decodeBlock D offBytes maxOffset room history
      (bhPut .entropy last size ++ (lePut 3 (1 + body.length) ++ tag :: body) ++ rest) =
        .ok ⟨out, last, rest⟩ := by
  have hmax : maxBlockSize = 2 ^ 20 := rfl
  have hlen : (tag :: body).length = 1 + body.length := Nat.add_comm _ _
  have hcsz : cszGet (lePut 3 (1 + body.length) ++ tag :: body ++ rest) = 1 + body.length := by
    rw [cszGet, List.append_assoc, List.take_left' (lePut_length _ _), leGet_lePut]
    exact Nat.mod_eq_of_lt hbody
  rw [List.append_assoc, decodeBlock, if_neg (by rw [List.length_append, bhPut_length]; omega)]
  dsimp only
  rw [bhSize_put (by omega), bhType_put (by omega), bhLast_put (by omega),
    List.drop_left' (bhPut_length _ _ _), if_neg (by omega), if_neg (by omega)]
  dsimp only
  rw [if_neg (by simp only [List.length_append, lePut_length]; omega), hcsz, List.append_assoc,
    List.drop_left' (lePut_length _ _), if_neg (by rw [List.length_append]; omega),
    List.take_left' hlen, List.drop_left' hlen]
  show sized size (decodeEntropy D tag body history size offBytes maxOffset) last rest = _
  rw [hdec, sized, if_neg (by omega)]

end Header

/-! ## Sequences behind more history -/

/-- What is further in front than an offset reaches plays no part in a match. -/
theorem extend_behind (pre : Bytes) {out : Bytes} {off : Nat} (hpos : 0 < off)
    (hreach : off ≤ out.length) (n : Nat) : extend (pre ++ out) off n = pre ++ extend out off n := by
  induction n with
  | zero => rfl
  | succ n ih =>
      have hlen := length_extend hpos hreach n
      have hsplit : pre.length + (extend out off n).length - off =
          pre.length + ((extend out off n).length - off) := by omega
      rw [extend_succ, extend_succ, ih, List.append_assoc, List.length_append, hsplit, ← List.drop_drop, List.drop_left]

theorem Seq.expand_behind (pre : Bytes) {out : Bytes} {q : Seq} (hpos : 0 < q.off)
    (hreach : q.off ≤ (out ++ q.lits).length) : q.expand (pre ++ out) = pre ++ q.expand out := by
  rw [Seq.expand, Seq.expand, List.append_assoc, extend_behind pre hpos hreach]

theorem Reaches.behind (pre : Bytes) {out : Bytes} {qs : List Seq} (h : Reaches out qs) :
    Reaches (pre ++ out) qs := by
  induction qs generalizing out with
  | nil => trivial
  | cons q qs ih =>
      obtain ⟨hpos, hreach, hrest⟩ := h
      refine ⟨hpos, ?_, ?_⟩
      · rw [List.append_assoc, List.length_append]
        omega
      · rw [Seq.expand_behind pre hpos hreach]
        exact ih hrest

/-- **THE HISTORY OF THE ENCODER** may be the end of that of the decoder. -/
theorem expandSeqs_behind (pre : Bytes) {out : Bytes} {qs : List Seq} (h : Reaches out qs)
    (tail : Bytes) : expandSeqs (pre ++ out) qs tail = pre ++ expandSeqs out qs tail := by
  induction qs generalizing out with
  | nil => exact List.append_assoc pre out tail
  | cons q qs ih =>
      obtain ⟨hpos, hreach, hrest⟩ := h
      rw [expandSeqs, List.foldl_cons, Seq.expand_behind pre hpos hreach, ← expandSeqs, ih hrest,
        expandSeqs, expandSeqs, List.foldl_cons]

/-! ## Tokens -/

section Tokens

variable {P : NaiveTokens}

/-- A match that reaches what is there and fits is copied. -/
theorem NaiveTokens.match_some {mc ml : Nat} {ip rest out : Bytes}
    (hoff : ¬ ip.length < P.offBytes) (hml : readLen mc (ip.drop P.offBytes) = some (ml, rest))
    (hgood : ¬ (offsetGet P.offBytes ip = 0 ∨ P.maxOffset < offsetGet P.offBytes ip ∨
      out.length < offsetGet P.offBytes ip)) (hroom : ¬ P.cap < out.length + (ml + minMatch)) :
    P.match mc ip out = .ok (rest, extend out (offsetGet P.offBytes ip) (ml + minMatch)) := by
  rw [NaiveTokens.match, if_neg hoff]
  dsimp only
  rw [hml]
  dsimp only
  rw [if_neg hgood, if_neg hroom]

/-- **A STREAM THAT IS READ** as sequences which reach back no further than the window is
    expanded. -/
theorem NaiveTokens.run_readSeqs {n turns : Nat} {tokens out tail : Bytes} {qs : List Seq}
    (hread : readSeqs P.offBytes minMatch n tokens = some (qs, tail)) (hturns : n ≤ turns)
    (hreach : Reaches out qs) (hwindow : ∀ q ∈ qs, q.off ≤ P.maxOffset)
    (hroom : (expandSeqs out qs tail).length ≤ P.cap) :
    P.run turns tokens out = .ok (expandSeqs out qs tail) := by
  induction n generalizing turns tokens out qs with
  | zero => cases hread
  | succ n ih =>
      obtain ⟨turns, rfl⟩ : ∃ k, turns = k + 1 := ⟨turns - 1, by omega⟩
      cases tokens with
      | nil => cases hread
      | cons token ip =>
          rw [NaiveTokens.run]
          cases readSeqs_first hread with
          | last hll =>
              have hlen : (expandSeqs out [] tail).length = out.length + tail.length :=
                List.length_append
              rw [NaiveTokens.turn, hll]
              dsimp only
              rw [if_neg (Nat.lt_irrefl _), if_neg (by omega), List.drop_length, List.take_length,
                if_pos List.length_nil]
              dsimp only
              rw [NaiveTokens.run_nil]
              rfl
          | @more ll ml ip' rest _ qs' hll hfits hend hoff hml hmore =>
              obtain ⟨hpos, hback, hrest⟩ := hreach
              have hwin := hwindow _ List.mem_cons_self
              have hexpand := Seq.expand_length hpos hback
              have hlast : (Seq.expand out ⟨ip'.take ll, offsetGet P.offBytes (ip'.drop ll),
                  ml + minMatch⟩).length ≤ (expandSeqs (Seq.expand out ⟨ip'.take ll,
                    offsetGet P.offBytes (ip'.drop ll), ml + minMatch⟩) qs' tail).length :=
                length_le_expandSeqs
              have htake : (ip'.take ll).length = ll := List.length_take_of_le (Nat.not_lt.mp hfits)
              rw [expandSeqs, List.foldl_cons, ← expandSeqs] at hroom ⊢
              dsimp only at hpos hback hwin hexpand
              rw [List.length_append, htake] at hback
              rw [htake] at hexpand
              rw [NaiveTokens.turn, hll]
              dsimp only
              rw [if_neg hfits, if_neg (by omega), if_neg hend,
                P.match_some hoff hml (by rw [List.length_append, htake]; omega)
                  (by rw [List.length_append, htake]; omega)]
              exact ih hmore (Nat.le_of_succ_le_succ hturns) hrest
                (fun q hq => hwindow q (List.mem_cons_of_mem _ hq)) hroom

end Tokens

/-! ## What the parsers write -/

/-- A stream of sequences that the matcher may find, which expand to the block behind what is
    in front of it. -/
def Matcher.Writes (m : Matcher) (A : BlockArgs) (tokens : Bytes) : Prop :=
  ∃ qs tail, tokens = emitSeqs m.offBytes A.min_match qs tail ∧
    (∀ q ∈ qs, q.Within m.wlog m.max_match A.min_match) ∧
    Reaches (A.src.take A.start_pos) qs ∧
    expandSeqs (A.src.take A.start_pos) qs tail = A.src.take A.end

section Parsers

variable {A : BlockArgs} {m m' : Matcher}

theorem Parse.Sound.writes {s : Parse} {qs : List Seq} (h : s.Sound A m qs) {tokens : Bytes}
    (hout : A.finish s = some tokens) : m.Writes A tokens := by
  have hbytes : s.m.offBytes = m.offBytes := by
    rw [Matcher.offBytes, Matcher.offBytes, h.wlog]
  refine ⟨qs, A.lits s.lit_start A.end, ?_, h.within, h.reach, ?_⟩
  · rw [BlockArgs.finish] at hout
    split at hout
    · cases hout
    · cases hout
      rw [h.out, hbytes, emitSeqs]
  · rw [expandSeqs, h.expands]
    exact take_append_lits h.lit_end

theorem Parse.Emitted.writes {s : Parse} {qs : List Seq} (h : s.Emitted A m qs)
    (hpos : s.pos = A.end) {tokens : Bytes} (hout : A.finish s = some tokens) :
    m.Writes A tokens := by
  have hlit := h.lit_le
  rw [hpos] at hlit
  have hbytes : s.m.offBytes = m.offBytes := by
    rw [Matcher.offBytes, Matcher.offBytes, h.wlog]
  refine ⟨qs, A.lits s.lit_start A.end, ?_, h.within, h.reach, ?_⟩
  · rw [BlockArgs.finish] at hout
    split at hout
    · cases hout
    · cases hout
      rw [h.out, hbytes, emitSeqs]
  · rw [expandSeqs, h.expands]
    exact take_append_lits hlit

/-- The greedy parser, and the offsets it leaves. -/
theorem compressBlock_writes (hA : A.Fits m) {r : Option Bytes}
    (h : compressBlock A m = some (m', r)) :
    m'.wlog = m.wlog ∧ m'.RepBound ∧ ∀ tokens, r = some tokens → m.Writes A tokens := by
  have hfuel : A.end - (A.start m).pos < A.block_len + 1 := by
    have hend : A.end = A.start_pos + A.block_len := rfl
    have hstart : (A.start m).pos = A.start_pos := rfl
    omega
  obtain ⟨r', hloop, hr⟩ := loop_sound hA (A.block_len + 1) (A.start m) [] (start_sound hA) hfuel
  rw [compressBlock, hloop] at h
  cases r' with
  | error m'' =>
      cases h
      exact ⟨hr.1, hr.2, fun tokens htokens => by cases htokens⟩
  | ok s =>
      obtain ⟨qs, hs⟩ := hr
      cases h
      exact ⟨hs.wlog, hs.rep, fun tokens htokens => hs.writes htokens⟩

/-- The optimal parser. -/
theorem compressBlockOptimal_writes (fresh : FreshTables) (hA : A.Placed m) {tokens : Bytes}
    (h : (compressBlockOptimal fresh A m).2 = some tokens) : m.Writes A tokens := by
  rw [compressBlockOptimal] at h
  split at h
  · cases h
  · obtain ⟨s, qs, hemitted, hpos, hfinish⟩ :=
      optimalWith_emitted hA (blockPrices_fair fresh A m) h
    exact hemitted.writes hpos hfinish

/-- Insertions keep the window and the limit of the matcher. -/
theorem Matcher.insertAll_same (m : Matcher) (src : Bytes) («end» : Nat) (ps : List Nat) :
    m.SameSettings (m.insertAll src «end» ps) := by
  induction ps generalizing m with
  | nil => exact Matcher.SameSettings.refl m
  | cons p ps ih => exact (m.insert_same src p «end»).trans (ih (m.insert src p «end»))

theorem Inserted.settings {src : Bytes} {«end» lo hi : Nat} (h : Inserted src «end» lo hi m m') :
    m'.wlog = m.wlog ∧ m'.max_match = m.max_match := by
  obtain ⟨ps, rep, rfl, -⟩ := h
  have hsame := m.insertAll_same src «end» ps
  exact ⟨hsame.wlog, hsame.max_match⟩

end Parsers

/-! ## Blocks -/

/-- The encoders of the library, whatever the allocator grants them but for the codes of the
    Huffman coder. -/
structure EntropyCoders.Library (C : EntropyCoders) : Prop where
  sequences : ∀ {v2 dis_huf4 : Bool} {tokens out : Bytes} {cap off_bytes : Nat},
    C.encodeSequences v2 dis_huf4 tokens cap off_bytes = some out →
      ∃ alloc : SeqAlloc, alloc.lits.huf.all = true ∧
        vvaEncodeSequences alloc (seqBase v2) dis_huf4 tokens cap off_bytes = .ok out
  encode4 : ∀ {lits out : Bytes} {cap : Nat}, C.encode4 lits cap = some out →
    ∃ mem, vvaEncode4 mem lits cap = .ok out
  encode : ∀ {lits out : Bytes} {cap : Nat}, C.encode lits cap = some out →
    ∃ mem, vvaEncode mem lits cap = .ok out

/-- `use_v2`. -/
def EmitArgs.v2 (a : EmitArgs) : Bool := a.min_match < minMatch

/-- The arguments of the parser. -/
def EmitArgs.blockArgs (a : EmitArgs) : BlockArgs :=
  ⟨a.src, a.block_start, a.braw, a.tcap, a.mode, a.min_match⟩

/-- The optimal parser is for the first format. -/
def EmitArgs.Optimal (a : EmitArgs) : Prop := a.mode = .extreme ∧ ¬ a.min_match < minMatch

instance (a : EmitArgs) : Decidable a.Optimal := inferInstanceAs (Decidable (_ ∧ _))

/-- What the callers of `emit_block` see to. -/
structure EmitArgs.Ready (a : EmitArgs) (m : Matcher) : Prop where
  inside : a.block_start + a.braw ≤ a.src.length
  size : a.braw ≤ maxBlockSize
  low : 10 ≤ a.wlog
  high : a.wlog ≤ 24
  min_match : a.min_match = seqMin a.v2
  entropy : a.v2 = true → a.mode.entropy = true
  wlog : m.wlog = a.wlog
  max_match : m.max_match = seqMax a.v2
  rep : a.Optimal ∨ m.RepBound

section Ready

variable {a : EmitArgs} {m : Matcher}

theorem EmitArgs.raw_length (h : a.block_start + a.braw ≤ a.src.length) : a.raw.length = a.braw :=
  bytesAt_length h

/-- What is in front of a block, and the block. -/
theorem EmitArgs.take_raw (a : EmitArgs) :
    a.src.take a.block_start ++ a.raw = a.src.take (a.block_start + a.braw) := by
  rw [EmitArgs.raw, bytesAt, List.take_add]

theorem EmitArgs.Ready.min_cases (h : a.Ready m) : a.min_match = 3 ∨ a.min_match = 4 := by
  rw [h.min_match]
  cases a.v2 with
  | false => exact Or.inr rfl
  | true => exact Or.inl rfl

theorem EmitArgs.Ready.four_le (h : a.Ready m) : 4 ≤ m.max_match := by
  rw [h.max_match]
  cases a.v2 <;> decide

theorem EmitArgs.Ready.placed (h : a.Ready m) : a.blockArgs.Placed m where
  inside := h.inside
  min_match := h.min_cases
  max_match := h.four_le
  wlog := by
    rw [h.wlog]
    exact h.high
  small := h.size

theorem EmitArgs.Ready.offBytes (h : a.Ready m) : m.offBytes = windowBytes a.wlog := by
  rw [Matcher.offBytes, windowBytes, h.wlog]

/-- **THE PARSER OF A BLOCK** writes the block, and keeps the matcher ready. -/
theorem EmitArgs.Ready.parse (h : a.Ready m) (fresh : FreshTables) :
    (a.Optimal ∨ (a.parse fresh m).1.RepBound) ∧
      ∀ tokens, (a.parse fresh m).2 = some tokens → m.Writes a.blockArgs tokens := by
  rw [EmitArgs.parse]
  by_cases hopt : a.mode = .extreme ∧ ¬ a.min_match < minMatch
  · rw [if_pos hopt]
    exact ⟨Or.inl hopt, fun tokens htokens => compressBlockOptimal_writes fresh h.placed htokens⟩
  · rw [if_neg hopt]
    have hrep : m.RepBound := h.rep.resolve_left hopt
    have hfits : a.blockArgs.Fits m := ⟨h.inside, h.min_cases, h.four_le, hrep⟩
    cases hparse : compressBlock ⟨a.src, a.block_start, a.braw, a.tcap, a.mode, a.min_match⟩ m with
    | none => exact ⟨Or.inr hrep, fun tokens htokens => by cases htokens⟩
    | some r =>
        obtain ⟨m', r⟩ := r
        obtain ⟨-, hkept, hwrites⟩ := compressBlock_writes hfits hparse
        exact ⟨Or.inr hkept, hwrites⟩

end Ready

section Paths

variable {a : EmitArgs} {m : Matcher} {max_offset : Nat}

/-- A block that decodes, behind what the encoder saw of the history and more. -/
def EmitArgs.Decodes (a : EmitArgs) (D : BlockDecoders) (max_offset : Nat) (pre : Bytes)
    (r : Option Bytes) : Prop :=
  ∀ block, r = some block → ∀ room rest, a.braw ≤ room →
    decodeBlock D (windowBytes a.wlog) max_offset room (pre ++ a.src.take a.block_start)
      (block ++ rest) = .ok ⟨a.raw, a.last, rest⟩

/-- What was put is a header and its rest. -/
theorem EmitArgs.put_eq {type : BlockType} {rest block : Bytes} (h : a.put type rest = some block) :
    block = bhPut type a.last a.braw ++ rest := by
  rw [EmitArgs.put] at h
  split at h
  · cases h
  · exact (Option.some.inj h).symm

theorem EmitArgs.Ready.putRaw (h : a.Ready m) (D : BlockDecoders) (pre : Bytes) :
    a.Decodes D max_offset pre a.putRaw := by
  intro block hblock room rest hroom
  rw [EmitArgs.put_eq hblock]
  exact decodeBlock_raw h.size hroom (EmitArgs.raw_length h.inside) rest

/-- What tokens stand for, behind more history. -/
theorem EmitArgs.expand_raw {qs : List Seq} {tail : Bytes} (pre : Bytes)
    (hreach : Reaches (a.src.take a.block_start) qs)
    (hexpand : expandSeqs (a.src.take a.block_start) qs tail =
      a.src.take (a.block_start + a.braw)) :
    expandSeqs (pre ++ a.src.take a.block_start) qs tail =
      pre ++ a.src.take a.block_start ++ a.raw := by
  rw [expandSeqs_behind pre hreach, hexpand, List.append_assoc, EmitArgs.take_raw]

/-- The tokens of the first format, byte by byte. -/
theorem EmitArgs.Ready.run (h : a.Ready m) (hv1 : a.v2 = false) {tokens : Bytes}
    (hw : m.Writes a.blockArgs tokens)
    (hmax : frameMaxOffset (UInt8.ofNat a.wlog) = some max_offset) (pre : Bytes) :
    NaiveTokens.run ⟨windowBytes a.wlog, max_offset,
        (pre ++ a.src.take a.block_start).length + a.braw⟩ tokens.length tokens
      (pre ++ a.src.take a.block_start) = .ok (pre ++ a.src.take a.block_start ++ a.raw) := by
  obtain ⟨qs, tail, htokens, hqs, hreach, hexpand⟩ := hw
  obtain ⟨max_offset', hmax', hwindow, -, -, hbytes⟩ := frameMaxOffset_window h.low h.high
  obtain rfl : max_offset' = max_offset := Option.some.inj (hmax'.symm.trans hmax)
  have hmin : a.blockArgs.min_match = minMatch := by
    show a.min_match = minMatch
    rw [h.min_match, hv1]
    rfl
  rw [h.offBytes, hmin] at htokens
  rw [h.wlog] at hqs
  have hraw := EmitArgs.raw_length h.inside
  have hencodable : ∀ q ∈ qs, q.Encodable (windowBytes a.wlog) minMatch := by
    intro q hq
    have hlen := (hqs q hq).min_match
    rw [hmin] at hlen
    exact ⟨(hqs q hq).window.trans_lt hbytes, Nat.lt_of_lt_of_le (by decide) hlen, hlen⟩
  have hread := readSeqs_emitSeqs (windowBytes_either a.wlog) hencodable tail tokens.length
    (by rw [htokens]; exact length_lt_emitSeqs _ _ _ _)
  rw [← htokens] at hread
  have hall := EmitArgs.expand_raw pre hreach hexpand
  have hfits : (expandSeqs (pre ++ a.src.take a.block_start) qs tail).length ≤
      (pre ++ a.src.take a.block_start).length + a.braw := by
    rw [hall, List.length_append, hraw]
  rw [← hall]
  exact NaiveTokens.run_readSeqs hread (Nat.le_refl _) (hreach.behind pre)
    (fun q hq => (hqs q hq).window.trans hwindow) hfits

/-- Plain tokens. -/
theorem EmitArgs.Ready.putTokens (h : a.Ready m) (hv1 : a.v2 = false) {tokens : Bytes}
    (hw : m.Writes a.blockArgs tokens) (hlen : tokens.length < 2 ^ 24)
    (hmax : frameMaxOffset (UInt8.ofNat a.wlog) = some max_offset) (st : Scratch) (pre : Bytes) :
    a.Decodes (naiveDecoders st) max_offset pre (a.putTokens tokens) := by
  intro block hblock room rest hroom
  rw [EmitArgs.put_eq hblock]
  refine decodeBlock_tokens h.size hroom hlen (EmitArgs.raw_length h.inside) ?_ rest
  show naiveTokens tokens (pre ++ a.src.take a.block_start) a.braw (windowBytes a.wlog) max_offset = _
  rw [naiveTokens, h.run hv1 hw hmax pre, behind, List.drop_left]

/-- Coded sequences. -/
theorem EmitArgs.Ready.putSequences (h : a.Ready m) {C : EntropyCoders} (hC : C.Library)
    {tokens seq : Bytes} (hw : m.Writes a.blockArgs tokens) {dis_huf4 : Bool} {cap : Nat}
    (hseq : C.encodeSequences a.v2 dis_huf4 tokens cap (windowBytes a.wlog) = some seq)
    (hlen : 1 + seq.length < 2 ^ 24)
    (hmax : frameMaxOffset (UInt8.ofNat a.wlog) = some max_offset) (st : Scratch) (pre : Bytes) :
    a.Decodes (naiveDecoders st) max_offset pre (a.putSequences a.v2 seq) := by
  intro block hblock room rest hroom
  obtain ⟨qs, tail, htokens, hqs, hreach, hexpand⟩ := hw
  obtain ⟨alloc, halloc, henc⟩ := hC.sequences hseq
  have hmin : a.blockArgs.min_match = seqMin a.v2 := h.min_match
  have hraw := EmitArgs.raw_length h.inside
  have hall := EmitArgs.expand_raw pre hreach hexpand
  rw [htokens, h.offBytes, hmin] at henc
  rw [h.wlog, h.max_match, hmin] at hqs
  have hfits : (expandSeqs (pre ++ a.src.take a.block_start) qs tail).length ≤
      (pre ++ a.src.take a.block_start).length + a.braw := by
    rw [hall, List.length_append, hraw]
  have hnaive : naiveSequences st.seq (seqBase a.v2) max_offset seq
      (pre ++ a.src.take a.block_start) a.braw = .ok (pre ++ a.src.take a.block_start ++ a.raw) := by
    rw [← hall]
    exact naiveSequences_tokens h.low h.high hqs (hreach.behind pre) halloc henc hmax st.seq hfits
  have hblocks : naiveSequenceBlock st.seq (seqBase a.v2) seq (pre ++ a.src.take a.block_start)
      a.braw max_offset = .ok a.raw := by
    rw [naiveSequenceBlock, hnaive]
    dsimp only
    rw [List.drop_left]
  rw [EmitArgs.put_eq hblock]
  refine decodeBlock_entropy h.size hroom hlen hraw ?_ rest
  cases hv2 : a.v2 with
  | false =>
      rw [hv2] at hblocks
      exact congrArg orCorrupt hblocks
  | true =>
      rw [hv2] at hblocks
      exact congrArg orCorrupt hblocks

/-- A stream is as long as its two parts. -/
theorem Strips.length {off_bytes : Nat} {tokens lits stripped : Bytes}
    (h : Strips off_bytes tokens lits stripped) :
    tokens.length = lits.length + stripped.length := by
  induction h with
  | nil => rfl
  | last hlen =>
      simp only [List.length_cons, List.length_append]
      omega
  | cut hlen hoff hcut =>
      simp only [List.length_cons, List.length_append]
      omega
  | more hlen hoff hmatch _ ih =>
      simp only [List.length_cons, List.length_append]
      omega

/-- Two fields of two bytes each. -/
theorem u16At_fields {x y : Nat} (hx : x < 2 ^ 16) (hy : y < 2 ^ 16) (rest : Bytes) :
    u16At (lePut 2 x ++ lePut 2 y ++ rest) 0 = x ∧ u16At (lePut 2 x ++ lePut 2 y ++ rest) 2 = y := by
  constructor
  · rw [u16At, List.drop_zero, List.append_assoc, List.take_left' (lePut_length 2 x), leGet_lePut]
    exact Nat.mod_eq_of_lt hx
  · rw [u16At, List.append_assoc, List.drop_left' (lePut_length 2 x),
      List.take_left' (lePut_length 2 y), leGet_lePut]
    exact Nat.mod_eq_of_lt hy

/-- **STRIPPED TOKENS** with their literals in front of them, where both counts fit. -/
theorem naiveLits_stripped (decode : Bytes → (dst_cap n : Nat) → Except VvError (Bytes × Nat))
    {off_bytes : Nat} (hoff : off_bytes = 2 ∨ off_bytes = 3) {tokens lits stripped ent : Bytes}
    (hstrips : Strips off_bytes tokens lits stripped) (hlits : lits.length < 2 ^ 16)
    (hent : ent.length < 2 ^ 16)
    (hdec : decode ent lits.length lits.length = .ok (lits, ent.length)) {history raw : Bytes}
    {dsz : Nat} (hrun : NaiveTokens.run ⟨off_bytes, max_offset, history.length + dsz⟩ tokens.length
      tokens history = .ok (history ++ raw)) :
    naiveLits decode (lePut 2 lits.length ++ lePut 2 ent.length ++ (ent ++ stripped)) history dsz
      off_bytes max_offset = .ok raw := by
  have hfour : (lePut 2 lits.length ++ lePut 2 ent.length).length = 4 := by
    rw [List.length_append, lePut_length, lePut_length]
  obtain ⟨hcount, hsec⟩ := u16At_fields hlits hent (ent ++ stripped)
  have hbody : (lePut 2 lits.length ++ lePut 2 ent.length ++ (ent ++ stripped)).drop 4 =
      ent ++ stripped := List.drop_left' hfour
  have hbehind : (lePut 2 lits.length ++ lePut 2 ent.length ++ (ent ++ stripped)).drop
      (4 + ent.length) = stripped := by
    rw [← List.drop_drop, hbody, List.drop_left]
  have hlen : (lePut 2 lits.length ++ lePut 2 ent.length ++ (ent ++ stripped)).length =
      4 + (ent.length + stripped.length) := by
    rw [List.length_append, hfour, List.length_append]
  rw [naiveLits, if_neg (by omega)]
  dsimp only
  rw [hcount, hsec, if_neg (by omega), hbody, List.take_left, hdec]
  dsimp only
  rw [hbehind, hstrips.decode rfl hoff (Nat.le_refl _) (Nat.le_refl _), hrun, behind, List.drop_left]

/-- Coded literals of a block whose literals are few, where they save. -/
theorem EmitArgs.Ready.putLiterals (h : a.Ready m) (hv1 : a.v2 = false) {C : EntropyCoders}
    (hC : C.Library) {tokens : Bytes} (hw : m.Writes a.blockArgs tokens) {c : CodedLiterals}
    (hc : a.codeLiterals C (windowBytes a.wlog) tokens = some c) (hfew : c.lit_count < 2 ^ 16)
    (hsaves : c.blockSize < a.rawBlockSize tokens)
    (hmax : frameMaxOffset (UInt8.ofNat a.wlog) = some max_offset) (st : Scratch) (pre : Bytes) :
    a.Decodes (naiveDecoders st) max_offset pre (a.putLiterals c) := by
  intro block hblock room rest hroom
  have hrun := h.run hv1 hw hmax pre
  have hraw := EmitArgs.raw_length h.inside
  have hsize := h.size
  have hmaxsize : maxBlockSize = 2 ^ 20 := rfl
  rw [CodedLiterals.blockSize, EmitArgs.rawBlockSize] at hsaves
  rw [EmitArgs.codeLiterals, extractLiterals] at hc
  cases hloop : extractLoop a.lit_cap (windowBytes a.wlog) tokens.length tokens [] [] with
  | none =>
      rw [hloop] at hc
      cases hc
  | some p =>
      obtain ⟨lits, stripped⟩ := p
      rw [hloop] at hc
      dsimp only at hc
      obtain ⟨lits', stripped', hl, hs, hstrips⟩ := extractLoop_strips (Nat.le_refl _) hloop
      rw [List.nil_append] at hl hs
      subst hl hs
      have htokens := hstrips.length
      by_cases hnone : lits.length = 0
      · rw [if_pos hnone] at hc
        cases hc
      rw [if_neg hnone] at hc
      dsimp only at hc
      have hbody : ∀ c : CodedLiterals, lePut 2 c.lit_count ++ lePut 2 c.ent.length ++ c.ent ++
          c.stripped = lePut 2 c.lit_count ++ lePut 2 c.ent.length ++ (c.ent ++ c.stripped) := by
        intro c
        simp only [List.append_assoc]
      have hlen : 5 + c.ent.length + c.stripped.length =
          1 + (lePut 2 c.lit_count ++ lePut 2 c.ent.length ++ (c.ent ++ c.stripped)).length := by
        simp only [List.length_append, lePut_length]
        omega
      rw [EmitArgs.put_eq hblock, hbody c, hlen]
      refine decodeBlock_entropy h.size hroom (by omega) hraw ?_ rest
      cases henc4 : C.encode4 lits (a.ent_cap / 2) with
      | some ent =>
          rw [henc4] at hc
          obtain rfl := Option.some.inj hc
          dsimp only at hfew hsaves ⊢
          obtain ⟨mem, hmem⟩ := hC.encode4 henc4
          exact naiveLits_stripped (vvaDecode4 st.seq.ansWork) (windowBytes_either a.wlog)
            hstrips hfew (by omega)
            (vvaDecode4_vvaEncode4 (by omega) hmem st.seq.ansWork (Nat.le_refl _)) hrun
      | none =>
          rw [henc4] at hc
          dsimp only at hc
          cases henc : C.encode lits (a.ent_cap / 2) with
          | none =>
              rw [henc] at hc
              cases hc
          | some ent =>
              rw [henc] at hc
              obtain rfl := Option.some.inj hc
              dsimp only at hfew hsaves ⊢
              obtain ⟨mem, hmem⟩ := hC.encode henc
              exact naiveLits_stripped (vvaDecode st.seq.ansWork)
                (windowBytes_either a.wlog) hstrips hfew (by omega)
                (vvaDecode_vvaEncode (by omega) hmem st.seq.ansWork (Nat.le_refl _)) hrun

/-- What path B makes of the tokens, where it runs. -/
def EmitArgs.coded (C : EntropyCoders) (a : EmitArgs) (tokens : Bytes) : Option CodedLiterals :=
  a.pathB C a.v2 (windowBytes a.wlog) tokens
    (C.encodeSequences a.v2 a.compat_v246_5 tokens a.ent_cap (windowBytes a.wlog))

/-- Path B, where it runs, has a number of literals that fits its field. -/
def EmitArgs.Narrow (C : EntropyCoders) (a : EmitArgs) (tokens : Option Bytes) : Prop :=
  a.mode.entropy = true → ∀ tmp, tokens = some tmp → ∀ c, a.coded C tmp = some c → c.lit_count < 2 ^ 16

theorem pathB_some {C : EntropyCoders} {v2 : Bool} {off_bytes : Nat} {tokens : Bytes}
    {seq : Option Bytes} {c : CodedLiterals} (h : a.pathB C v2 off_bytes tokens seq = some c) :
    v2 = false ∧ a.codeLiterals C off_bytes tokens = some c := by
  unfold EmitArgs.pathB at h
  cases v2 with
  | true => simp at h
  | false =>
      cases seq with
      | none => exact ⟨rfl, by simpa using h⟩
      | some seq =>
          by_cases hweak : a.braw * 7 / 8 ≤ seqBlockSize seq
          · exact ⟨rfl, by simpa [hweak] using h⟩
          · simp [hweak] at h

theorem EmitArgs.Ready.putPlain (h : a.Ready m) {tokens : Bytes} (hw : m.Writes a.blockArgs tokens)
    (hmax : frameMaxOffset (UInt8.ofNat a.wlog) = some max_offset) (st : Scratch) (pre : Bytes) :
    a.Decodes (naiveDecoders st) max_offset pre (a.putPlain a.v2 tokens) := by
  have hsize := h.size
  have hmaxsize : maxBlockSize = 2 ^ 20 := rfl
  rw [EmitArgs.putPlain]
  by_cases hplain : (!a.v2) = true ∧ tokens.length < a.braw
  · rw [if_pos hplain]
    have hv1 : a.v2 = false := by simpa using hplain.1
    exact h.putTokens hv1 hw (by omega) hmax st pre
  · rw [if_neg hplain]
    exact h.putRaw _ pre

theorem EmitArgs.Ready.putSecond (h : a.Ready m) {C : EntropyCoders} (hC : C.Library)
    {tokens : Bytes} (hw : m.Writes a.blockArgs tokens)
    (hnarrow : ∀ c, a.coded C tokens = some c → c.lit_count < 2 ^ 16)
    (hmax : frameMaxOffset (UInt8.ofNat a.wlog) = some max_offset) (st : Scratch) (pre : Bytes) :
    a.Decodes (naiveDecoders st) max_offset pre (a.putSecond a.v2 tokens (a.coded C tokens)) := by
  cases hcoded : a.coded C tokens with
  | none => exact h.putPlain hw hmax st pre
  | some c =>
      obtain ⟨hv1, hc⟩ := pathB_some hcoded
      rw [EmitArgs.putSecond]
      by_cases hsaves : c.blockSize < a.rawBlockSize tokens
      · rw [if_pos hsaves]
        exact h.putLiterals hv1 hC hw hc (hnarrow c hcoded) hsaves hmax st pre
      · rw [if_neg hsaves]
        exact h.putPlain hw hmax st pre

/-- The race decodes, whoever wins it. -/
theorem EmitArgs.Ready.race (h : a.Ready m) {C : EntropyCoders} (hC : C.Library)
    {tokens : Bytes} (hw : m.Writes a.blockArgs tokens)
    (hnarrow : ∀ c, a.coded C tokens = some c → c.lit_count < 2 ^ 16)
    (hmax : frameMaxOffset (UInt8.ofNat a.wlog) = some max_offset) (st : Scratch) (pre : Bytes) :
    a.Decodes (naiveDecoders st) max_offset pre (a.race C tokens) := by
  have hsize := h.size
  have hmaxsize : maxBlockSize = 2 ^ 20 := rfl
  have hsecond := h.putSecond hC hw hnarrow hmax st pre
  rw [EmitArgs.race, ← EmitArgs.v2, ← windowBytes]
  cases hseq : C.encodeSequences a.v2 a.compat_v246_5 tokens a.ent_cap (windowBytes a.wlog) with
  | none =>
      rw [EmitArgs.coded, hseq] at hsecond
      exact hsecond
  | some seq =>
      have hcoded : a.pathB C a.v2 (windowBytes a.wlog) tokens (some seq) = a.coded C tokens := by
        rw [EmitArgs.coded, hseq]
      dsimp only
      rw [hcoded]
      by_cases hwins : seqBeats seq (a.coded C tokens) ∧ seqBlockSize seq < a.rawBlockSize tokens
      · rw [if_pos hwins]
        have hless := hwins.2
        rw [seqBlockSize, EmitArgs.rawBlockSize] at hless
        exact h.putSequences hC hw hseq (by omega) hmax st pre
      · rw [if_neg hwins]
        exact hsecond

/-- **WHAT IS WRITTEN FOR THE TOKENS OF A BLOCK** decodes to the block. -/
theorem EmitArgs.Ready.write (h : a.Ready m) {C : EntropyCoders} (hC : C.Library)
    {tokens : Option Bytes} (hw : ∀ tmp, tokens = some tmp → m.Writes a.blockArgs tmp)
    (hnarrow : a.Narrow C tokens)
    (hmax : frameMaxOffset (UInt8.ofNat a.wlog) = some max_offset) (st : Scratch) (pre : Bytes) :
    a.Decodes (naiveDecoders st) max_offset pre (a.write C tokens) := by
  have hsize := h.size
  have hmaxsize : maxBlockSize = 2 ^ 20 := rfl
  cases tokens with
  | none => exact h.putRaw _ pre
  | some tmp =>
      rw [EmitArgs.write]
      by_cases hgate : a.rawGate ≤ tmp.length
      · rw [if_pos hgate]
        exact h.putRaw _ pre
      rw [if_neg hgate]
      by_cases hmode : a.mode.entropy
      · rw [if_pos hmode]
        exact h.race hC (hw tmp rfl) (hnarrow hmode tmp rfl) hmax st pre
      · rw [if_neg hmode]
        rw [EmitArgs.rawGate, if_neg hmode] at hgate
        have hv1 : a.v2 = false := by
          cases hv2 : a.v2 with
          | false => rfl
          | true => exact absurd (h.entropy hv2) hmode
        exact h.putTokens hv1 (hw tmp rfl) (by omega) hmax st pre

/-- **WHAT `emit_block` WRITES** decodes to the block, behind what the encoder saw of the
    history and more. -/
theorem emitBlock_decodes (h : a.Ready m) {C : EntropyCoders} (hC : C.Library)
    (fresh : FreshTables) (hnarrow : a.Narrow C (a.parse fresh m).2)
    (hmax : frameMaxOffset (UInt8.ofNat a.wlog) = some max_offset) (st : Scratch) (pre : Bytes) :
    a.Decodes (naiveDecoders st) max_offset pre (emitBlock C fresh a m).2 :=
  h.write hC (h.parse fresh).2 hnarrow hmax st pre

/-- The matcher is left as the next block needs it. -/
theorem emitBlock_ready (h : a.Ready m) (C : EntropyCoders) (fresh : FreshTables) :
    (emitBlock C fresh a m).1.wlog = a.wlog ∧ (emitBlock C fresh a m).1.max_match = seqMax a.v2 ∧
      (a.Optimal ∨ (emitBlock C fresh a m).1.RepBound) := by
  have hone : 1 ≤ a.min_match := by
    rcases h.min_cases with h3 | h4
    · omega
    · omega
  obtain ⟨hi, hins⟩ := emitBlock_inserted C fresh a m hone
  obtain ⟨hwlog, hmax⟩ := hins.settings
  exact ⟨hwlog.trans h.wlog, hmax.trans h.max_match, (h.parse fresh).1⟩

end Paths

end Zupt.VaptVupt
