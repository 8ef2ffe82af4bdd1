import Zupt.VaptVupt.EncoderBound
import Zupt.VaptVupt.InsertTrace

/-! # The tables of a stream under compaction

    A stream bases its tables anew whenever it moves its source buffer.  Roots
    and links of the first table move; the cells stay where they are, and the
    third table is not touched at all.  The tables therefore hold what was
    inserted as long as the buffer moves by whole windows and the third table is
    empty when it does. -/

namespace Zupt.VaptVupt

open Zupt.HashChain

/-! ## The tables as chains -/

/-- The first table of a matcher. -/
def Matcher.primary (m : Matcher) : Chains Nat := ⟨m.table, m.chain⟩

/-- The table for binary input. -/
def Matcher.second (m : Matcher) : Chains Nat := ⟨m.table4, m.hash4_chain⟩

/-- The table for matches of three bytes. -/
def Matcher.third (m : Matcher) : Chains Nat := ⟨m.table3, m.hash3_chain⟩

/-- A position of the stream, with the hashes it was inserted with. -/
structure Insertion where
  pos : Nat
  hash : Nat
  hash4 : Nat
  hash3 : Nat
  deriving DecidableEq, Repr

/-- What `matcher_insert` inserts at a position of a buffer that starts at
    `base`. -/
def insertion (src : Bytes) («end» base pos : Nat) : Insertion where
  pos := base + pos
  hash := hashSafe src pos («end» - pos)
  hash4 := hash4Short src pos
  hash3 := hash3Short src pos

/-- What the first table should know. -/
def byHash (log : List Insertion) : Log Nat := log.map fun e => (e.pos, e.hash)

/-- What the table for binary input should know. -/
def byHash4 (log : List Insertion) : Log Nat := log.map fun e => (e.pos, e.hash4)

/-- What the third table should know. -/
def byHash3 (log : List Insertion) : Log Nat := log.map fun e => (e.pos, e.hash3)

/-- The matcher of a stream, with tables that are sound for a log. -/
structure Matcher.Indexes (m : Matcher) (base front : Nat) (log : List Insertion) : Prop where
  plain : m.roots16 = none
  mask : m.chain_mask = 2 ^ m.wlog - 1
  no_hash4 : m.use_hash4 = false
  primary : Sound (2 ^ m.wlog) base front (byHash log) m.primary
  third : m.use_hash3 = true → Sound (2 ^ m.wlog) base front (byHash3 log) m.third

/-! ## Insertions -/

section Insert

variable {m : Matcher} {src : Bytes} {«end» base front pos : Nat} {log : List Insertion}

/-- With no 16-bit tables, an insertion into the first table is one into a
    chain. -/
theorem Matcher.insert_primary (hplain : m.roots16 = none) (hmask : m.chain_mask = 2 ^ m.wlog - 1)
    (hfour : pos + 4 ≤ «end») : (m.insert src pos «end»).primary =
      m.primary.insert (2 ^ m.wlog) (hashSafe src pos («end» - pos)) pos := by
  rw [Matcher.insert, if_neg (by omega), Matcher.insertHashed, hplain, hmask,
    Nat.and_two_pow_sub_one_eq_mod]
  rfl

theorem Matcher.insert_third (hplain : m.roots16 = none) (hmask : m.chain_mask = 2 ^ m.wlog - 1)
    (hfour : pos + 4 ≤ «end») (huse : m.use_hash3 = true) : (m.insert src pos «end»).third =
      m.third.insert (2 ^ m.wlog) (hash3Short src pos) pos := by
  rw [Matcher.insert, if_neg (by omega), Matcher.insertHashed, hplain, hmask,
    Nat.and_two_pow_sub_one_eq_mod]
  simp only [Matcher.third, if_pos huse]
  rfl

theorem Matcher.insert_plain (m : Matcher) (src : Bytes) (pos «end» : Nat)
    (hplain : m.roots16 = none) : (m.insert src pos «end»).roots16 = none := by
  rw [Matcher.insert]
  split
  · exact hplain
  · rw [Matcher.insertHashed, hplain]

/-- The next position is inserted. -/
theorem Matcher.Indexes.insert (h : m.Indexes base front log) (src : Bytes)
    (hfront : front ≤ base + pos)
    (hfour : pos + 4 ≤ «end») : (m.insert src pos «end»).Indexes base (base + pos + 1)
      (log ++ [insertion src «end» base pos]) := by
  have hsame := m.insert_same src pos «end»
  have hindex : base + pos - base = pos := by omega
  constructor
  · exact m.insert_plain src pos «end» h.plain
  · rw [hsame.chain_mask, hsame.wlog]
    exact h.mask
  · rw [hsame.use_hash4]
    exact h.no_hash4
  · have hnext := h.primary.insert hfront (Nat.le_add_right base pos)
      (hashSafe src pos («end» - pos))
    rw [hindex] at hnext
    rw [hsame.wlog, Matcher.insert_primary h.plain h.mask hfour, byHash, List.map_append]
    exact hnext
  · intro huse
    rw [hsame.use_hash3] at huse
    have hnext := (h.third huse).insert hfront (Nat.le_add_right base pos) (hash3Short src pos)
    rw [hindex] at hnext
    rw [hsame.wlog, Matcher.insert_third h.plain h.mask hfour huse, byHash3, List.map_append]
    exact hnext

/-- Positions pass. -/
theorem Matcher.Indexes.advance (h : m.Indexes base front log) {front' : Nat}
    (hle : front ≤ front') : m.Indexes base front' log where
  plain := h.plain
  mask := h.mask
  no_hash4 := h.no_hash4
  primary := h.primary.advance hle
  third huse := (h.third huse).advance hle

/-- The positions of a block are inserted in order. -/
theorem Matcher.Indexes.insertAll (h : m.Indexes base front log) (src : Bytes) {ps : List Nat}
    {lo : Nat}
    (hfront : front ≤ base + lo) (hle : lo ≤ «end») (hps : Ordered «end» lo «end» ps) :
    (m.insertAll src «end» ps).Indexes base (base + «end»)
      (log ++ ps.map (insertion src «end» base)) := by
  induction ps generalizing m front log lo with
  | nil =>
      rw [List.map_nil, List.append_nil]
      exact h.advance (by omega)
  | cons p ps ih =>
      obtain ⟨hsorted, hin⟩ := hps
      obtain ⟨hfirst, hrest⟩ := List.pairwise_cons.mp hsorted
      obtain ⟨hlo, -, hfour⟩ := hin p List.mem_cons_self
      have hone := h.insert src (show front ≤ base + p by omega) hfour
      have hordered : Ordered «end» (p + 1) «end» ps := by
        refine ⟨hrest, ?_⟩
        intro q hq
        have hafter := hfirst q hq
        have hbound := hin q (List.mem_cons_of_mem p hq)
        omega
      have hall := ih hone (by omega) (by omega) hordered
      rw [List.append_assoc] at hall
      exact hall

theorem Matcher.Indexes.withRep (h : m.Indexes base front log) (rep : Fin 3 → Nat) :
    (m.withRep rep).Indexes base front log := ⟨h.plain, h.mask, h.no_hash4, h.primary, h.third⟩

end Insert

/-! ## Runs of a stream -/

/-- Where the source buffer starts in the stream. -/
def CStream.base (ctx : CStream) : Nat := ctx.global_offset - ctx.src_buf.length

/-- The first position a search behind the buffer looks at. -/
def CStream.limit (ctx : CStream) : Nat := ctx.src_buf.length - (2 ^ ctx.wlog - 1)

/-- The call gets as far as its chunk. -/
def CStream.Takes (ctx : CStream) (c : ChunkCall) : Prop :=
  c.chunk.length ≤ maxBlockSize ∧ (ctx.header_emitted = true ∨ 16 ≤ c.dst_cap)

/-- The block of a chunk of `n` bytes that was appended inserts these positions
    and leaves this matcher. -/
def CStream.Inserts (ctx : CStream) (n : Nat) (m : Matcher) (ps : List Nat) : Prop :=
  Ordered ctx.src_buf.length (ctx.src_buf.length - n) ctx.src_buf.length ps ∧
    ∃ rep, m = (ctx.m.insertAll ctx.src_buf ctx.src_buf.length ps).withRep rep

/-- The states of a stream from its creation on, with what was inserted since it
    was created or reset.  Every chunk that is taken satisfies `ok`. -/
inductive Traced (C : EntropyCoders) (ok : CStream → Nat → Prop) : CStream → List Insertion → Prop
  | create {fresh : FreshStream} {opts : Option Options} {ctx : CStream} :
      cstreamCreate fresh opts = some ctx → Traced C ok ctx []
  | reset {ctx ctx' : CStream} {log : List Insertion} {opts : Option Options} :
      Traced C ok ctx log → ctx.reset opts = .ok ctx' → Traced C ok ctx' []
  | refused {ctx : CStream} {log : List Insertion} (fresh : FreshTables) (c : ChunkCall) :
      Traced C ok ctx log → ¬ ctx.Takes c → Traced C ok (ctx.compressChunk C fresh c).1 log
  | taken {ctx : CStream} {log : List Insertion} (fresh : FreshTables) (c : ChunkCall)
      {ps : List Nat} : Traced C ok ctx log → ctx.Takes c → ok ctx c.chunk.length →
      (ctx.append c.chunk).Inserts c.chunk.length (ctx.compressChunk C fresh c).1.m ps →
      Traced C ok (ctx.compressChunk C fresh c).1
        (log ++ ps.map (insertion (ctx.append c.chunk).src_buf (ctx.append c.chunk).src_buf.length
          (ctx.append c.chunk).base))

/-- Whatever a search behind the buffer reads from the table is none, or a
    position of the buffer that was inserted with its hash. -/
def CStream.Denotes (ctx : CStream) (log : Log Nat) (c : Chains Nat) : Prop :=
  ∀ k v, Reads (2 ^ ctx.wlog) ctx.limit ctx.src_buf.length c k v →
    v < (ctx.src_buf.length : Int) ∧ HashChain.Denotes log ctx.base k v

/-- So it is for all tables in use. -/
structure CStream.Consistent (ctx : CStream) (log : List Insertion) : Prop where
  table : ctx.Denotes (byHash log) ctx.m.primary
  table4 : ctx.m.use_hash4 = true → ctx.Denotes (byHash4 log) ctx.m.second
  table3 : ctx.m.use_hash3 = true → ctx.Denotes (byHash3 log) ctx.m.third

/-- The chunk makes the stream move its buffer. -/
def CStream.Compacts (ctx : CStream) (n : Nat) : Prop :=
  ctx.src_cap < ctx.src_buf.length + n ∧ 0 < ctx.drop

/-- Every entry of a table in use is mapped to the same byte of the stream at
    its new index or to none. -/
structure CStream.MovesTo (ctx ctx' : CStream) : Prop where
  base : ctx'.base = ctx.base + ctx.drop
  table : Moved (2 ^ ctx.wlog) ctx.limit ctx.src_buf.length ctx.drop ctx.m.primary ctx'.m.primary
  table4 : ctx.m.use_hash4 = true →
    Moved (2 ^ ctx.wlog) ctx.limit ctx.src_buf.length ctx.drop ctx.m.second ctx'.m.second
  table3 : ctx.m.use_hash3 = true →
    Moved (2 ^ ctx.wlog) ctx.limit ctx.src_buf.length ctx.drop ctx.m.third ctx'.m.third

/-- A compaction that the tables survive: the third table is empty or not in
    use, and the buffer moves by whole windows, or all that the first table
    knows is dropped. -/
def CStream.Movable (ctx : CStream) (n : Nat) : Prop :=
  ctx.Compacts n →
    (ctx.m.use_hash3 = true → ∀ h, ctx.m.table3 h = -1) ∧
      (2 ^ ctx.wlog ∣ ctx.drop ∨ ∀ h, ctx.m.table h < (ctx.drop : Int))

/-! ## What holds along a run -/

/-- The invariant. -/
structure CStream.Tracks (ctx : CStream) (log : List Insertion) : Prop where
  wlog : ctx.m.wlog = ctx.wlog
  fits : ctx.src_buf.length ≤ ctx.global_offset
  indexes : ctx.m.Indexes ctx.base ctx.global_offset log

section Steps

variable {C : EntropyCoders} {ctx ctx' : CStream} {log : List Insertion} {n : Nat}

theorem tracks_create {fresh : FreshStream} {opts : Option Options}
    (h : cstreamCreate fresh opts = some ctx) : ctx.Tracks [] := by
  simp only [cstreamCreate] at h
  split at h
  · cases h
  · cases h
    have hempty (c : Chains Nat) (hroot : ∀ k, c.root k = -1) (size : Nat) :
        Sound size 0 0 [] c := sound_empty hroot
    split
    · exact ⟨rfl, Nat.le_refl 0, rfl, rfl, rfl, hempty _ (fun _ => rfl) _,
        fun _ => hempty _ (fun _ => rfl) _⟩
    · refine ⟨rfl, Nat.le_refl 0, rfl, rfl, rfl, hempty _ (fun _ => rfl) _, ?_⟩
      intro huse
      cases huse

theorem CStream.Tracks.reset (h : ctx.Tracks log) {opts : Option Options}
    (hreset : ctx.reset opts = .ok ctx') : ctx'.Tracks [] := by
  have hempty (c : Chains Nat) (hroot : ∀ k, c.root k = -1) (size : Nat) :
      Sound size 0 0 [] c := sound_empty hroot
  cases opts with
  | none =>
      cases hreset
      exact ⟨h.wlog, Nat.le_refl 0, h.indexes.plain, h.indexes.mask, rfl, hempty _ (fun _ => rfl) _,
        fun _ => hempty _ (fun _ => rfl) _⟩
  | some o =>
      simp only [CStream.reset] at hreset
      split at hreset
      · cases hreset
      · cases hreset
        exact ⟨h.wlog, Nat.le_refl 0, h.indexes.plain, h.indexes.mask, rfl,
          hempty _ (fun _ => rfl) _, fun _ => hempty _ (fun _ => rfl) _⟩

/-- A call that does not take its chunk leaves everything but the header. -/
theorem compressChunk_refused (C : EntropyCoders) (fresh : FreshTables) {c : ChunkCall}
    (h : ¬ ctx.Takes c) : (ctx.compressChunk C fresh c).1 = ctx := by
  rw [CStream.compressChunk]
  split
  · rfl
  · have hheader : ctx.header c.dst_cap = .error .overflow := by
      have hfits : c.chunk.length ≤ maxBlockSize := by omega
      have hpending : ¬ ctx.header_emitted = true := fun hdone => h ⟨hfits, Or.inl hdone⟩
      have hfull : c.dst_cap < 16 := by
        by_contra hroom
        exact h ⟨hfits, Or.inr (by omega)⟩
      rw [CStream.header, if_neg hpending, if_pos hfull]
    rw [hheader]

/-- A call that takes its chunk leaves what its block leaves. -/
theorem compressChunk_taken (C : EntropyCoders) (fresh : FreshTables) {c : ChunkCall}
    (h : ctx.Takes c) : ∃ cap_left, (ctx.compressChunk C fresh c).1 =
      (({ ctx with header_emitted := true }.append c.chunk).block C fresh c.chunk.length cap_left
        c.is_last).1 := by
  obtain ⟨hlen, hroom⟩ := h
  obtain ⟨header, hheader⟩ : ∃ header,
      ctx.header c.dst_cap = .ok ({ ctx with header_emitted := true }, header) := by
    rw [CStream.header]
    by_cases hdone : ctx.header_emitted
    · rw [if_pos hdone]
      refine ⟨[], ?_⟩
      rw [← hdone]
    · have henough : ¬ c.dst_cap < 16 := by
        have hcap := hroom.resolve_left hdone
        omega
      rw [if_neg hdone, if_neg henough]
      exact ⟨_, rfl⟩
  refine ⟨c.dst_cap - header.length, ?_⟩
  rw [CStream.compressChunk, if_neg (Nat.not_lt.mpr hlen), hheader]
  dsimp only
  generalize ({ ctx with header_emitted := true }.append c.chunk).block C fresh c.chunk.length
    (c.dst_cap - header.length) c.is_last = r
  obtain ⟨ctx'', r⟩ := r
  cases r with
  | error e => rfl
  | ok block =>
      dsimp only
      cases ctx''.footer (c.dst_cap - header.length - block.length) c.is_last with
      | error e => rfl
      | ok footer => rfl

/-- The header makes no difference to what is appended. -/
theorem append_header (ctx : CStream) (chunk : Bytes) :
    { ctx with header_emitted := true }.append chunk =
      { ctx.append chunk with header_emitted := true } := by
  have hcompact (n : Nat) : { ctx with header_emitted := true }.compact n =
      { ctx.compact n with header_emitted := true } := by
    rw [CStream.compact, CStream.compact]
    by_cases hfull : ctx.src_cap < ctx.src_buf.length + n
    · rw [if_pos hfull, if_pos hfull]
      by_cases hdrop : 0 < ctx.drop
      · rw [if_pos hdrop]
        exact if_pos hdrop
      · rw [if_neg hdrop]
        exact if_neg hdrop
    · rw [if_neg hfull, if_neg hfull]
  rw [CStream.append, CStream.append, hcompact]
  split
  · rfl
  · rfl

/-- What a call that takes its chunk leaves differs from what was appended in
    the header and the matcher alone. -/
theorem compressChunk_frame (C : EntropyCoders) (fresh : FreshTables) {c : ChunkCall}
    (h : ctx.Takes c) : (ctx.compressChunk C fresh c).1 =
      { ctx.append c.chunk with
        header_emitted := true, m := (ctx.compressChunk C fresh c).1.m } := by
  obtain ⟨cap_left, htaken⟩ := compressChunk_taken C fresh h
  rw [htaken, append_header, CStream.block]
  split
  · split
    · split
      · rfl
      · rfl
    · rfl
  · split
    · rfl
    · rfl

/-- What a block does to the matcher. -/
theorem block_m (C : EntropyCoders) (fresh : FreshTables) (ctx : CStream) {n : Nat} (hn : n ≠ 0)
    (cap_left : Nat) (is_last : Bool) : (ctx.block C fresh n cap_left is_last).1.m =
      (emitBlock C fresh (ctx.blockArgs n cap_left is_last) ctx.m).1 := by
  rw [CStream.block, if_neg hn]
  rcases emitBlock C fresh (ctx.blockArgs n cap_left is_last) ctx.m with ⟨m, out⟩
  cases out with
  | none => rfl
  | some block => rfl

/-- **EVERY CHUNK THAT IS TAKEN INSERTS POSITIONS IN ORDER**. -/
theorem compressChunk_inserts (C : EntropyCoders) (fresh : FreshTables) {c : ChunkCall}
    (h : ctx.Takes c) :
    ∃ ps, (ctx.append c.chunk).Inserts c.chunk.length (ctx.compressChunk C fresh c).1.m ps := by
  obtain ⟨cap_left, htaken⟩ := compressChunk_taken C fresh h
  rw [htaken, append_header]
  generalize hctx : ctx.append c.chunk = actx
  have hnothing : actx.Inserts c.chunk.length actx.m [] := by
    refine ⟨⟨List.Pairwise.nil, ?_⟩, actx.m.rep, rfl⟩
    intro p hp
    cases hp
  by_cases hempty : c.chunk.length = 0
  · rw [CStream.block, if_pos hempty]
    refine ⟨[], ?_⟩
    split
    · split
      · exact hnothing
      · exact hnothing
    · exact hnothing
  · have hlen : c.chunk.length ≤ actx.src_buf.length := by
      rw [← hctx, CStream.append, if_pos (by omega)]
      simp
    have hmin : 1 ≤ ({ actx with header_emitted := true }.blockArgs c.chunk.length cap_left
        c.is_last).min_match := by
      show 1 ≤ if actx.opts.effectiveFormatV2 then 3 else minMatch
      split
      · decide
      · decide
    obtain ⟨hi, ps, rep, hm, hsorted, hin⟩ := emitBlock_inserted C fresh
      ({ actx with header_emitted := true }.blockArgs c.chunk.length cap_left c.is_last) actx.m hmin
    have hend : actx.src_buf.length - c.chunk.length + c.chunk.length = actx.src_buf.length :=
      Nat.sub_add_cancel hlen
    refine ⟨ps, ?_⟩
    rw [block_m C fresh _ hempty]
    dsimp only [CStream.blockArgs] at hm hin ⊢
    rw [hend] at hm hin
    refine ⟨⟨hsorted, ?_⟩, rep, hm⟩
    intro p hp
    have hbound := hin p hp
    exact ⟨hbound.1, by omega, hbound.2.2⟩

/-- A buffer that is not moved is left as it is. -/
theorem compact_of_not (h : ¬ ctx.Compacts n) : ctx.compact n = ctx := by
  rw [CStream.compact]
  split
  · rename_i hfull
    rw [if_neg (fun hdrop => h ⟨hfull, hdrop⟩)]
  · rfl

theorem compact_of (h : ctx.Compacts n) : ctx.compact n =
    { ctx with src_buf := ctx.src_buf.drop ctx.drop, m := ctx.m.shift ctx.drop } := by
  rw [CStream.compact, if_pos h.1, if_pos h.2]

/-- A chunk that fits comes behind what is there. -/
theorem append_of_not {chunk : Bytes} (hsome : 0 < chunk.length)
    (h : ¬ ctx.Compacts chunk.length) : ctx.append chunk =
      { ctx with
        src_buf := ctx.src_buf ++ chunk
        global_offset := ctx.global_offset + chunk.length
        cks := if ctx.opts.checksum then xxh64Update ctx.cks chunk else ctx.cks } := by
  rw [CStream.append, if_pos hsome, compact_of_not h]

/-- A window stays, and all of it lies behind what is dropped. -/
theorem drop_eq (h : ctx.Compacts n) :
    ctx.drop + 2 ^ ctx.wlog = ctx.src_buf.length ∧ ctx.drop ≤ ctx.limit := by
  obtain ⟨-, hdrop⟩ := h
  have hwindow := Nat.two_pow_pos ctx.wlog
  rw [CStream.limit]
  by_cases hlong : 2 ^ ctx.wlog < ctx.src_buf.length
  · rw [CStream.drop, if_pos hlong]
    omega
  · rw [CStream.drop, if_neg hlong] at hdrop
    omega

/-- The buffer starts `drop` positions later. -/
theorem base_compact (h : ctx.Compacts n) (hfits : ctx.src_buf.length ≤ ctx.global_offset) :
    (ctx.compact n).base = ctx.base + ctx.drop := by
  have hkeep := (drop_eq h).1
  have hwindow := Nat.two_pow_pos ctx.wlog
  rw [compact_of h]
  show ctx.global_offset - (ctx.src_buf.drop ctx.drop).length = ctx.base + ctx.drop
  rw [List.length_drop, CStream.base]
  omega

/-- Roots before `drop` are none afterwards. -/
theorem rebase_gone {drop : Nat} {v : Int} (h : v < (drop : Int)) : rebase drop v = -1 := by
  rw [rebase, if_neg (by omega)]

/-- A compaction that the tables survive keeps the invariant. -/
theorem CStream.Tracks.compact (h : ctx.Tracks log) (hmove : ctx.Movable n) :
    (ctx.compact n).Tracks log := by
  by_cases hcompacts : ctx.Compacts n
  · have hbase := base_compact hcompacts h.fits
    have hkeep := (drop_eq hcompacts).1
    have hwindow := Nat.two_pow_pos ctx.wlog
    have hfits := h.fits
    obtain ⟨hthird, hfirst⟩ := hmove hcompacts
    have hfront : ctx.base + ctx.drop ≤ ctx.global_offset := by
      rw [CStream.base]
      omega
    rw [compact_of hcompacts] at hbase ⊢
    refine ⟨h.wlog, ?_, h.indexes.plain, h.indexes.mask, h.indexes.no_hash4, ?_, ?_⟩
    · show (ctx.src_buf.drop ctx.drop).length ≤ ctx.global_offset
      rw [List.length_drop]
      omega
    · rw [hbase]
      show Sound (2 ^ ctx.m.wlog) _ _ _ (ctx.m.primary.rebase ctx.drop)
      rcases hfirst with hwhole | hold
      · rw [← h.wlog] at hwhole
        exact h.indexes.primary.rebase hwhole
      · exact sound_gone (fun k => rebase_gone (hold k)) (h.indexes.primary.all_before hold) hfront
    · intro huse
      rw [hbase]
      have hempty : ∀ k, ctx.m.third.root k = -1 := hthird huse
      have hbelow : ∀ k, ctx.m.third.root k < (ctx.drop : Int) := by
        intro k
        rw [hempty k]
        omega
      have hgone := (h.indexes.third huse).all_before hbelow
      exact sound_gone hempty hgone hfront
  · rw [compact_of_not hcompacts]
    exact h

/-- What is appended to: the invariant holds there, and the chunk comes behind
    it. -/
theorem CStream.Tracks.appended (h : ctx.Tracks log) {chunk : Bytes}
    (hmove : ctx.Movable chunk.length) : ∃ before : CStream, before.Tracks log ∧
      (ctx.append chunk).m = before.m ∧ (ctx.append chunk).wlog = before.wlog ∧
      (ctx.append chunk).src_buf = before.src_buf ++ chunk ∧
      (ctx.append chunk).global_offset = before.global_offset + chunk.length := by
  rw [CStream.append]
  by_cases hsome : 0 < chunk.length
  · rw [if_pos hsome]
    exact ⟨ctx.compact chunk.length, h.compact hmove, rfl, rfl, rfl, rfl⟩
  · rw [if_neg hsome]
    have hnil : chunk = [] := List.eq_nil_of_length_eq_zero (by omega)
    refine ⟨ctx, h, rfl, rfl, ?_, ?_⟩
    · rw [hnil, List.append_nil]
    · rw [hnil, List.length_nil, Nat.add_zero]

theorem insertAll_wlog (m : Matcher) (src : Bytes) («end» : Nat) (ps : List Nat) :
    (m.insertAll src «end» ps).wlog = m.wlog := by
  induction ps generalizing m with
  | nil => rfl
  | cons p ps ih => exact (ih (m.insert src p «end»)).trans (m.insert_same src p «end»).wlog

/-- A chunk that is taken keeps the invariant, with what it inserted. -/
theorem CStream.Tracks.taken (h : ctx.Tracks log) (fresh : FreshTables) {c : ChunkCall}
    (htakes : ctx.Takes c) (hmove : ctx.Movable c.chunk.length) {ps : List Nat}
    (hins : (ctx.append c.chunk).Inserts c.chunk.length (ctx.compressChunk C fresh c).1.m ps) :
    (ctx.compressChunk C fresh c).1.Tracks (log ++ ps.map (insertion (ctx.append c.chunk).src_buf
      (ctx.append c.chunk).src_buf.length (ctx.append c.chunk).base)) := by
  rw [compressChunk_frame C fresh htakes]
  obtain ⟨before, htracks, hm, hwlog, hbuf, hoffset⟩ := h.appended hmove
  obtain ⟨hordered, rep, hafter⟩ := hins
  rw [hafter]
  generalize ctx.append c.chunk = actx at *
  have hlen : actx.src_buf.length = before.src_buf.length + c.chunk.length := by
    rw [hbuf, List.length_append]
  have hfits := htracks.fits
  have hbase : actx.base = before.base := by
    rw [CStream.base, CStream.base]
    omega
  have hindexes : actx.m.Indexes actx.base before.global_offset log := by
    rw [hm, hbase]
    exact htracks.indexes
  have hfront : before.global_offset ≤ actx.base + (actx.src_buf.length - c.chunk.length) := by
    rw [hbase, CStream.base]
    omega
  have hinserted := hindexes.insertAll actx.src_buf hfront (Nat.sub_le _ _) hordered
  have hall := hinserted.withRep rep
  have hend : actx.base + actx.src_buf.length = actx.global_offset := by
    rw [hbase, CStream.base]
    omega
  rw [hend] at hall
  refine ⟨?_, ?_, hall⟩
  · show (actx.m.insertAll actx.src_buf actx.src_buf.length ps).wlog = actx.wlog
    rw [insertAll_wlog, hm, hwlog]
    exact htracks.wlog
  · show actx.src_buf.length ≤ actx.global_offset
    omega

/-- **ALONG A RUN THE TABLES TRACK THE LOG**, as long as they survive every
    compaction. -/
theorem tracks_of_traced (h : Traced C CStream.Movable ctx log) : ctx.Tracks log := by
  induction h with
  | create hcreate => exact tracks_create hcreate
  | reset _ hreset ih => exact ih.reset hreset
  | refused fresh c _ hrefused ih =>
      rw [compressChunk_refused C fresh hrefused]
      exact ih
  | taken fresh c _ htakes hmove hins ih => exact ih.taken fresh htakes hmove hins

/-- Sound chains denote what they should. -/
theorem CStream.Tracks.denotes (h : ctx.Tracks log) {known : Log Nat} {c : Chains Nat}
    (hsound : Sound (2 ^ ctx.m.wlog) ctx.base ctx.global_offset known c) : ctx.Denotes known c := by
  intro k v hv
  have hfits := h.fits
  rw [h.wlog] at hsound
  have hbase : ctx.base = ctx.global_offset - ctx.src_buf.length := rfl
  have hreach : ctx.global_offset ≤ ctx.base + ctx.src_buf.length := by omega
  have hdenotes := hsound.reads hreach hv
  refine ⟨?_, hdenotes⟩
  rcases hdenotes with hnone | ⟨p, hp, hle, hv⟩
  · omega
  · have hbefore := hsound.before (p, k) hp
    dsimp only at hbefore
    omega

/-- Under the invariant the tables are consistent. -/
theorem CStream.Tracks.consistent (h : ctx.Tracks log) : ctx.Consistent log where
  table := h.denotes h.indexes.primary
  table4 huse := by
    rw [h.indexes.no_hash4] at huse
    cases huse
  table3 huse := h.denotes (h.indexes.third huse)

/-- A compaction that the tables survive moves every entry. -/
theorem CStream.Tracks.movesTo (h : ctx.Tracks log) (hcompacts : ctx.Compacts n)
    (hmove : ctx.Movable n) : ctx.MovesTo (ctx.compact n) := by
  obtain ⟨hthird, hfirst⟩ := hmove hcompacts
  have hlimit := (drop_eq hcompacts).2
  constructor
  · exact base_compact hcompacts h.fits
  · rw [compact_of hcompacts]
    rcases hfirst with hwhole | hold
    · exact moved_of_dvd hwhole hlimit
    · refine moved_of_roots (fun _ => rfl) ?_
      intro k
      have hroot : ctx.m.primary.root k < (ctx.drop : Int) := hold k
      omega
  · intro huse
    rw [h.indexes.no_hash4] at huse
    cases huse
  · intro huse
    have hempty : ∀ k, ctx.m.third.root k = -1 := hthird huse
    rw [compact_of hcompacts]
    refine moved_of_roots ?_ ?_
    · intro k
      show ctx.m.third.root k = rebase ctx.drop (ctx.m.third.root k)
      rw [hempty k, rebase_gone (by omega)]
    · intro k
      rw [hempty k]
      omega

end Steps

/-! ## Chunks too short for a match -/

section Short

variable {A : BlockArgs} {m : Matcher} {ctx : CStream} {n : Nat}

/-- A block no longer than a match inserts nothing. -/
theorem emitBlock_short (C : EntropyCoders) (fresh : FreshTables) {a : EmitArgs} (m : Matcher)
    (hthree : a.min_match < minMatch) (hshort : a.braw ≤ a.min_match) :
    (emitBlock C fresh a m).1 = m := by
  have hparse : compressBlock ⟨a.src, a.block_start, a.braw, a.tcap, a.mode, a.min_match⟩ m =
      some (m, BlockArgs.finish ⟨a.src, a.block_start, a.braw, a.tcap, a.mode, a.min_match⟩
        (BlockArgs.start ⟨a.src, a.block_start, a.braw, a.tcap, a.mode, a.min_match⟩ m)) := by
    rw [compressBlock, BlockArgs.loop, if_neg]
    · rfl
    · show ¬ a.block_start + a.min_match < a.block_start + a.braw
      omega
  rw [emitBlock, EmitArgs.parse]
  dsimp only
  rw [if_neg (fun h => h.2 hthree), hparse]

/-- Nothing was inserted into the tables, and no offset was used. -/
structure Matcher.Blank (m : Matcher) : Prop where
  table : ∀ h, m.table h = -1
  table3 : ∀ h, m.table3 h = -1
  no_hash4 : m.use_hash4 = false
  chained : m.single_probe = false
  rep : ∀ i, m.rep i = 0

/-- A walk from nowhere ends at once. -/
theorem walk_none (limit pos : Nat) (next : Nat → Int) (look : Nat → Best → Best × Bool)
    (depth : Nat) (best : Best) : walk limit pos next look depth (-1) best = best := by
  cases depth with
  | zero => rfl
  | succ depth =>
      rw [walk, if_neg]
      omega

/-- A blank matcher finds nothing. -/
theorem Matcher.Blank.find (h : m.Blank) (pos : Nat) : A.find m pos = ⟨0, 0, none⟩ := by
  have hagrees (n : Nat) : [0, 1, 2].find? (m.repAgrees A.src pos n) = none := by
    rw [List.find?_eq_none]
    intro i _
    simp [Matcher.repAgrees, h.rep i]
  have hrep : A.findRep m pos = ⟨0, 0, none⟩ := by
    rw [BlockArgs.findRep, Matcher.tryRep, Matcher.tryRepMatch, hagrees, hagrees]
    simp
  have hfour : m.search4 A.src pos A.end = ⟨0, 0⟩ := by
    rw [Matcher.search4, h.table, walk_none, h.no_hash4]
    simp
  have hthree : m.search3 A.src pos A.end ⟨0, 0⟩ = ⟨0, 0⟩ := by
    rw [Matcher.search3, h.table3, walk_none]
  have hsearch : m.search A.src pos A.end = ⟨0, 0⟩ := by
    simp [Matcher.search, h.chained, Matcher.chainMatch, hfour, hthree]
  simp [BlockArgs.find, hrep, hsearch]

/-- A block of a byte more than a match, of which nothing is found, inserts its
    first position. -/
theorem Matcher.Blank.emitBlock (h : m.Blank) (C : EntropyCoders) (fresh : FreshTables)
    {a : EmitArgs} (hthree : a.min_match = 3) (hfour : a.braw = 4) :
    (emitBlock C fresh a m).1 = m.insert a.src a.block_start (a.block_start + 4) := by
  obtain ⟨A, hA⟩ : ∃ A : BlockArgs,
      A = ⟨a.src, a.block_start, a.braw, a.tcap, a.mode, a.min_match⟩ := ⟨_, rfl⟩
  have hend : A.end = a.block_start + 4 := by
    rw [hA, ← hfour]
    rfl
  have hmin : A.min_match = 3 := by
    rw [hA, ← hthree]
  have hlen : A.block_len = 4 := by
    rw [hA, ← hfour]
  have hstart : A.start_pos = a.block_start := by
    rw [hA]
  have hsrc : A.src = a.src := by
    rw [hA]
  have hchoose : A.choose m a.block_start = ⟨a.block_start, ⟨0, 0, none⟩, false, m⟩ := by
    rw [BlockArgs.choose, h.find]
    simp [hmin]
  obtain ⟨s, hturn, hpos, hm⟩ : ∃ s, A.turn (A.start m) = .ok s ∧ s.pos = a.block_start + 1 ∧
      s.m = m.insert a.src a.block_start (a.block_start + 4) := by
    have hstride : A.stride (m.insert A.src a.block_start A.end) 0 = 1 := by
      simp [BlockArgs.stride]
    have hbegin : (A.start m).pos = a.block_start := hstart
    rw [BlockArgs.turn, hbegin]
    show ∃ s, (if A.min_match ≤ (A.choose m a.block_start).found.mlen then
      A.emitMatch (A.start m) (A.choose m a.block_start) else
      A.skip (A.start m) (A.choose m a.block_start)) = .ok s ∧ _
    have hnone : ¬ A.min_match ≤ 0 := by omega
    rw [hchoose, if_neg hnone, BlockArgs.skip]
    dsimp only
    by_cases haccel : (m.insert A.src a.block_start A.end).accel = 0
    · simp only [Bool.false_eq_true, if_false, if_pos haccel]
      exact ⟨_, rfl, rfl, by rw [hend, hsrc]⟩
    · have hnear : ¬ 2 ^ 17 ≤ a.block_start + 1 - A.start_pos := by
        rw [hstart]
        omega
      have hfail : (A.start m).failures = 0 := rfl
      simp only [Bool.false_eq_true, if_false, if_neg haccel, hfail, hstride]
      rw [if_neg (fun hfar => hnear hfar.2)]
      exact ⟨_, rfl, rfl, by rw [hend, hsrc]⟩
  have hparse : compressBlock A m = some (s.m, A.finish s) := by
    have hfuel : A.block_len + 1 = 3 + 1 + 1 := by
      rw [hlen]
    have hgo : (A.start m).pos + A.min_match < A.end := by
      show A.start_pos + A.min_match < A.end
      omega
    rw [compressBlock, hfuel, BlockArgs.loop, if_pos hgo, hturn]
    dsimp only
    rw [BlockArgs.loop, if_neg (by omega)]
  rw [Zupt.VaptVupt.emitBlock, EmitArgs.parse]
  dsimp only
  rw [if_neg (fun hopt => hopt.2 (by rw [hthree]; decide)), ← hA, hparse]
  exact hm

end Short

/-! ## A run that loses track -/

/-- The smallest window, for the second format and without a checksum. -/
def smallOptions : Options :=
  { defaultOptions with window_log := 10, checksum := false, format_v2 := true }

/-- The matcher of its stream. -/
def smallMatcher : Matcher :=
  (smallOptions.configure (matcherInit zeroTables 10 24 false none)).setFormatV2.enableHash3

/-- A stream with that matcher that was given `k` chunks of three zeros. -/
def smallStream (k : Nat) : CStream :=
  { opts := smallOptions
    wlog := 10
    m := smallMatcher
    src_cap := 1050624
    src_buf := List.replicate (3 * k) 0
    global_offset := 3 * k
    cks := zeroHash
    header_emitted := decide (0 < k) }

/-- `n` zeros, and room for their block. -/
def zeros (n : Nat) : ChunkCall := ⟨List.replicate n 0, 100, false⟩

theorem smallStream_created :
    cstreamCreate ⟨zeroTables, zeroHash⟩ (some smallOptions) = some (smallStream 0) := rfl

theorem smallMatcher_blank : smallMatcher.Blank where
  table _ := rfl
  table3 _ := rfl
  no_hash4 := rfl
  chained := rfl
  rep i := by
    fin_cases i
    · rfl
    · rfl
    · rfl

theorem zeros_takes (ctx : CStream) {n : Nat} (h : n ≤ 4) : ctx.Takes (zeros n) := by
  refine ⟨?_, Or.inr (show 16 ≤ 100 by decide)⟩
  rw [zeros, List.length_replicate]
  exact h.trans (by decide)

/-- Three zeros leave the matcher as the compaction leaves it. -/
theorem compressChunk_zeros {ctx : CStream} (h : ctx.opts = smallOptions) :
    (ctx.compressChunk noCoders zeroTables (zeros 3)).1 =
      { ctx.append (zeros 3).chunk with header_emitted := true } := by
  have htakes := zeros_takes ctx (show 3 ≤ 4 by decide)
  have hm : (ctx.compressChunk noCoders zeroTables (zeros 3)).1.m =
      (ctx.append (zeros 3).chunk).m := by
    obtain ⟨cap_left, htaken⟩ := compressChunk_taken noCoders zeroTables htakes
    have hopts : (ctx.append (zeros 3).chunk).opts = smallOptions := by
      rw [← h, CStream.append, CStream.compact]
      split
      · split
        · split
          · rfl
          · rfl
        · rfl
      · rfl
    rw [htaken, append_header, block_m noCoders zeroTables _ (by decide)]
    generalize ctx.append (zeros 3).chunk = actx at hopts
    have hmin : ({ actx with header_emitted := true }.blockArgs (zeros 3).chunk.length cap_left
        (zeros 3).is_last).min_match = 3 := by
      simp only [CStream.blockArgs, hopts]
      rfl
    exact emitBlock_short noCoders zeroTables actx.m (hmin.trans_lt (by decide))
      (Nat.le_of_eq hmin.symm)
  rw [compressChunk_frame noCoders zeroTables htakes, hm]

theorem smallStream_fits {k n : Nat} (hk : 3 * k + n ≤ 1050624) : ¬ (smallStream k).Compacts n := by
  intro hfull
  have hover : 1050624 < (List.replicate (3 * k) (0 : UInt8)).length + n := hfull.1
  rw [List.length_replicate] at hover
  omega

/-- More zeros, while there is room. -/
theorem smallStream_append {k n : Nat} (hn : 0 < n) (hk : 3 * k + n ≤ 1050624) :
    (smallStream k).append (zeros n).chunk =
      { smallStream k with
        src_buf := List.replicate (3 * k + n) 0
        global_offset := 3 * k + n } := by
  have hlen : (zeros n).chunk.length = n := List.length_replicate
  have hfits : ¬ (smallStream k).Compacts (zeros n).chunk.length := by
    rw [hlen]
    exact smallStream_fits hk
  have hbuf : (smallStream k).src_buf ++ (zeros n).chunk = List.replicate (3 * k + n) 0 :=
    List.replicate_append_replicate
  rw [append_of_not (hlen.symm ▸ hn) hfits, hbuf, hlen]
  rfl

/-- Three zeros more. -/
theorem smallStream_succ {k : Nat} (hk : 3 * (k + 1) ≤ 1050624) :
    ((smallStream k).compressChunk noCoders zeroTables (zeros 3)).1 = smallStream (k + 1) := by
  have hemitted : true = decide (0 < k + 1) := by simp
  rw [compressChunk_zeros rfl, smallStream_append (by decide) hk, hemitted]
  rfl

/-- Chunks of three zeros, until the buffer is nearly full. -/
theorem smallStream_traced {ok : CStream → Nat → Prop}
    (hok : ∀ k, 3 * (k + 1) ≤ 1050624 → ok (smallStream k) 3) (k : Nat) (hk : 3 * k ≤ 1050624) :
    Traced noCoders ok (smallStream k) [] := by
  induction k with
  | zero => exact Traced.create smallStream_created
  | succ k ih =>
      have htakes := zeros_takes (smallStream k) (show 3 ≤ 4 by decide)
      have hnone : ((smallStream k).append (zeros 3).chunk).Inserts (zeros 3).chunk.length
          ((smallStream k).compressChunk noCoders zeroTables (zeros 3)).1.m [] := by
        constructor
        · refine ⟨List.Pairwise.nil, ?_⟩
          intro p hp
          cases hp
        · rw [compressChunk_zeros rfl]
          exact ⟨((smallStream k).append (zeros 3).chunk).m.rep, rfl⟩
      rw [← smallStream_succ hk]
      exact Traced.taken zeroTables (zeros 3) (ih (by omega)) htakes (hok k hk) hnone

/-- Four zeros: the first of them is inserted. -/
theorem smallStream_four {k : Nat} (hk : 3 * k + 4 ≤ 1050624) :
    ((smallStream k).compressChunk noCoders zeroTables (zeros 4)).1 =
      { smallStream k with
        src_buf := List.replicate (3 * k + 4) 0
        global_offset := 3 * k + 4
        header_emitted := true
        m := smallMatcher.insert (List.replicate (3 * k + 4) 0) (3 * k) (3 * k + 4) } := by
  have htakes := zeros_takes (smallStream k) (Nat.le_refl 4)
  obtain ⟨cap_left, htaken⟩ := compressChunk_taken noCoders zeroTables htakes
  have hm : ((smallStream k).compressChunk noCoders zeroTables (zeros 4)).1.m =
      smallMatcher.insert (List.replicate (3 * k + 4) 0) (3 * k) (3 * k + 4) := by
    have hstart : (List.replicate (3 * k + 4) (0 : UInt8)).length - (zeros 4).chunk.length =
        3 * k := by
      rw [List.length_replicate]
      rfl
    rw [htaken, append_header, block_m noCoders zeroTables _ (by decide),
      smallStream_append (by decide) hk]
    refine (smallMatcher_blank.emitBlock noCoders zeroTables ?_ ?_).trans ?_
    · rfl
    · rfl
    · show smallMatcher.insert (List.replicate (3 * k + 4) 0)
        ((List.replicate (3 * k + 4) (0 : UInt8)).length - (zeros 4).chunk.length)
        ((List.replicate (3 * k + 4) (0 : UInt8)).length - (zeros 4).chunk.length + 4) = _
      rw [hstart]
  rw [compressChunk_frame noCoders zeroTables htakes, hm, smallStream_append (by decide) hk]

end Zupt.VaptVupt
