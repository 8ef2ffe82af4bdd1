import Zupt.SlotPool.Basic

/-! # Every job once

    Submissions are numbered.  `Once` is the bookkeeping that follows each
    number from its slot to the worker that processes it; `processed_perm`
    reads off that in a run without failures the processed jobs are the
    submitted ones. -/

namespace Zupt.SlotPool

variable {J R W α β : Type}

/-- The submission a slot holds. -/
def Slot.occupant : Slot J R → Option (Nat × J)
  | .empty => none
  | .ready id job => some (id, job)
  | .done id job _ => some (id, job)

/-- The bookkeeping of submissions: a submission is processed at most once,
    with its own job, and until a failure is collected every submission is
    processed or in a slot. -/
structure Once (pool : Pool J R) (c : Config J R W α) : Prop where
  nodup : (c.processed.map Prod.snd).Nodup
  processed_job : ∀ job id, (job, id) ∈ c.processed → c.submitted[id]? = some job
  slot_job : ∀ i id job, (c.slots i).occupant = some (id, job) → c.submitted[id]? = some job
  slot_inj : ∀ i i' id job job', (c.slots i).occupant = some (id, job) →
    (c.slots i').occupant = some (id, job') → i = i'
  unprocessed : ∀ i id job, c.slots i = .ready id job →
    (∀ r, c.workers i ≠ .finished id job r) → id ∉ c.processed.map Prod.snd
  finished_processed : ∀ i id job r, c.workers i = .finished id job r → (job, id) ∈ c.processed
  done_processed : ∀ i id job r, c.slots i = .done id job r → pool.failed r = false →
    (job, id) ∈ c.processed
  release_ok : ∀ slot p id job r, c.main = .release slot p → c.slots slot = .done id job r →
    c.sawError = false → pool.failed r = false
  covered : c.sawError = false → ∀ id job, c.submitted[id]? = some job →
    (job, id) ∈ c.processed ∨ ∃ i, (c.slots i).occupant = some (id, job)

theorem getElem?_concat {l : List J} {id : Nat} {job : J} (h : l[id]? = some job) (x : J) :
    (l ++ [x])[id]? = some job := by
  obtain ⟨hlt, -⟩ := List.getElem?_eq_some_iff.mp h
  rw [List.getElem?_append_left hlt, h]

theorem lt_of_getElem? {l : List J} {id : Nat} {job : J} (h : l[id]? = some job) :
    id < l.length :=
  (List.getElem?_eq_some_iff.mp h).1

/-- A new submission takes the next number. -/
theorem Once.submit {pool : Pool J R} {c : Config J R W α} (h : Once pool c) {i : Nat}
    (hslot : c.slots i = .empty) (job : J) (p : Prog J R W α) (batch : List Nat) :
    Once pool { c with
      main := .run p
      slots := Function.update c.slots i (.ready c.submitted.length job)
      batch := batch
      submitted := c.submitted ++ [job] } := by
  have hnew (j : Nat) (x : Nat × J)
      (hx : (Function.update c.slots i (.ready c.submitted.length job) j).occupant = some x) :
      (j = i ∧ x = (c.submitted.length, job)) ∨ (c.slots j).occupant = some x := by
    by_cases hj : j = i
    · subst hj
      rw [Function.update_self] at hx
      exact Or.inl ⟨rfl, (Option.some.inj hx).symm⟩
    · rw [Function.update_of_ne hj] at hx
      exact Or.inr hx
  have hlast : (c.submitted ++ [job])[c.submitted.length]? = some job := by
    rw [List.getElem?_append_right (Nat.le_refl _), Nat.sub_self]
    rfl
  refine ⟨h.nodup, fun job' id hmem => getElem?_concat (h.processed_job job' id hmem) job,
    ?_, ?_, ?_, h.finished_processed, ?_, fun slot p' id job' r hmain => (nomatch hmain), ?_⟩
  · intro j id job' hx
    rcases hnew j _ hx with ⟨-, heq⟩ | hold
    · obtain ⟨rfl, rfl⟩ := Prod.mk.inj heq
      exact hlast
    · exact getElem?_concat (h.slot_job j id job' hold) job
  · intro j j' id job₁ job₂ hx hx'
    rcases hnew j _ hx with ⟨rfl, heq⟩ | hold
    · rcases hnew j' _ hx' with ⟨rfl, -⟩ | hold'
      · rfl
      · have hlt := lt_of_getElem? (h.slot_job j' id job₂ hold')
        rw [(Prod.mk.inj heq).1] at hlt
        exact absurd hlt (Nat.lt_irrefl _)
    · rcases hnew j' _ hx' with ⟨rfl, heq⟩ | hold'
      · have hlt := lt_of_getElem? (h.slot_job j id job₁ hold)
        rw [(Prod.mk.inj heq).1] at hlt
        exact absurd hlt (Nat.lt_irrefl _)
      · exact h.slot_inj j j' id job₁ job₂ hold hold'
  · intro j id job' hready hfin
    change Function.update c.slots i _ j = _ at hready
    by_cases hj : j = i
    · subst hj
      rw [Function.update_self] at hready
      obtain ⟨rfl, rfl⟩ := Slot.ready.inj hready
      intro hmem
      obtain ⟨x, hx, hid⟩ := List.mem_map.mp hmem
      have hlt := lt_of_getElem? (h.processed_job x.1 x.2 hx)
      rw [hid] at hlt
      exact absurd hlt (Nat.lt_irrefl _)
    · rw [Function.update_of_ne hj] at hready
      exact h.unprocessed j id job' hready hfin
  · intro j id job' r hdone hok
    change Function.update c.slots i _ j = _ at hdone
    by_cases hj : j = i
    · subst hj
      rw [Function.update_self] at hdone
      exact nomatch hdone
    · rw [Function.update_of_ne hj] at hdone
      exact h.done_processed j id job' r hdone hok
  · intro hsaw id job' hget
    by_cases hid : id < c.submitted.length
    · change (c.submitted ++ [job])[id]? = _ at hget
      rw [List.getElem?_append_left hid] at hget
      rcases h.covered hsaw id job' hget with hproc | ⟨j, hj⟩
      · exact Or.inl hproc
      · have hne : j ≠ i := by
          rintro rfl
          rw [hslot] at hj
          exact nomatch hj
        refine Or.inr ⟨j, ?_⟩
        show (Function.update c.slots i _ j).occupant = _
        rw [Function.update_of_ne hne, hj]
    · have hlt : id < (c.submitted ++ [job]).length := lt_of_getElem? hget
      rw [List.length_append, List.length_singleton] at hlt
      obtain rfl : id = c.submitted.length := by omega
      change (c.submitted ++ [job])[c.submitted.length]? = _ at hget
      rw [hlast] at hget
      obtain rfl := Option.some.inj hget
      refine Or.inr ⟨i, ?_⟩
      show (Function.update c.slots i _ i).occupant = _
      rw [Function.update_self]
      rfl

/-- A worker that starts on its job, or drops it, changes nothing. -/
theorem Once.move {pool : Pool J R} {c : Config J R W α} (h : Once pool c) {i id : Nat} {job : J}
    {w : Worker J R} (hbefore : ∀ r, c.workers i ≠ .finished id job r)
    (hready : c.slots i = .ready id job) (hw : ∀ id job r, w ≠ .finished id job r) :
    Once pool { c with workers := Function.update c.workers i w } := by
  refine ⟨h.nodup, h.processed_job, h.slot_job, h.slot_inj, ?_, ?_, h.done_processed,
    h.release_ok, h.covered⟩
  · intro j id' job' hready' hfin
    by_cases hj : j = i
    · subst hj
      rw [hready] at hready'
      obtain ⟨rfl, rfl⟩ := Slot.ready.inj hready'
      exact h.unprocessed j id job hready hbefore
    · refine h.unprocessed j id' job' hready' fun r hr => hfin r ?_
      show Function.update c.workers i w j = _
      rw [Function.update_of_ne hj, hr]
  · intro j id' job' r hfin
    change Function.update c.workers i w j = _ at hfin
    by_cases hj : j = i
    · subst hj
      rw [Function.update_self] at hfin
      exact absurd hfin (hw id' job' r)
    · rw [Function.update_of_ne hj] at hfin
      exact h.finished_processed j id' job' r hfin

/-- A worker that computes a result processes its submission. -/
theorem Once.finish {pool : Pool J R} {c : Config J R W α} (h : Once pool c) {i id : Nat} {job : J}
    (hworking : c.workers i = .working id job) (hready : c.slots i = .ready id job) (r : R)
    (flag : Bool) :
    Once pool { c with
      workers := Function.update c.workers i (.finished id job r)
      errorFlag := flag
      processed := c.processed ++ [(job, id)] } := by
  have hfresh : id ∉ c.processed.map Prod.snd := by
    refine h.unprocessed i id job hready fun r hr => ?_
    rw [hworking] at hr
    exact nomatch hr
  have hjob := h.slot_job i id job (by rw [hready]; rfl)
  have hmem : (job, id) ∈ c.processed ++ [(job, id)] :=
    List.mem_append_right _ (List.mem_singleton.mpr rfl)
  refine ⟨?_, ?_, h.slot_job, h.slot_inj, ?_, ?_, ?_, h.release_ok, ?_⟩
  · show ((c.processed ++ [(job, id)]).map Prod.snd).Nodup
    rw [List.map_append, List.map_singleton, List.nodup_append]
    refine ⟨h.nodup, List.nodup_singleton _, ?_⟩
    intro a ha b hb hab
    have hid : a = id := hab.trans (List.mem_singleton.mp hb)
    exact hfresh (hid ▸ ha)
  · intro job' id' hin
    rcases List.mem_append.mp hin with hold | hnew
    · exact h.processed_job job' id' hold
    · obtain ⟨rfl, rfl⟩ := Prod.mk.inj (List.mem_singleton.mp hnew)
      exact hjob
  · intro j id' job' hready' hfin
    show id' ∉ (c.processed ++ [(job, id)]).map Prod.snd
    by_cases hj : j = i
    · subst hj
      rw [hready] at hready'
      obtain ⟨rfl, rfl⟩ := Slot.ready.inj hready'
      exact absurd (Function.update_self j _ c.workers) (hfin r)
    · have hold := h.unprocessed j id' job' hready' fun r' hr => hfin r' (by
        show Function.update c.workers i _ j = _
        rw [Function.update_of_ne hj, hr])
      have hne : id' ≠ id := by
        rintro rfl
        exact hj (h.slot_inj j i id' job' job (by rw [hready']; rfl) (by rw [hready]; rfl))
      rw [List.map_append, List.map_singleton]
      intro hin
      rcases List.mem_append.mp hin with hin | hin
      · exact hold hin
      · exact hne (List.mem_singleton.mp hin)
  · intro j id' job' r' hfin
    change Function.update c.workers i _ j = _ at hfin
    by_cases hj : j = i
    · subst hj
      rw [Function.update_self] at hfin
      obtain ⟨rfl, rfl, -⟩ := Worker.finished.inj hfin
      exact hmem
    · rw [Function.update_of_ne hj] at hfin
      exact List.mem_append_left _ (h.finished_processed j id' job' r' hfin)
  · intro j id' job' r' hdone hok
    exact List.mem_append_left _ (h.done_processed j id' job' r' hdone hok)
  · intro hsaw id' job' hget
    rcases h.covered hsaw id' job' hget with hold | hin
    · exact Or.inl (List.mem_append_left _ hold)
    · exact Or.inr hin

/-- A worker that marks its slot done. -/
theorem Once.mark {pool : Pool J R} {c : Config J R W α} (h : Once pool c) (hco : Coherent c)
    {i id : Nat} {job : J} {r : R} (hready : c.slots i = .ready id job)
    (hok : pool.failed r = false → (job, id) ∈ c.processed) :
    Once pool { c with
      slots := Function.update c.slots i (.done id job r)
      workers := Function.update c.workers i .idle } := by
  have hentry (j : Nat) :
      (Function.update c.slots i (.done id job r) j).occupant = (c.slots j).occupant := by
    by_cases hj : j = i
    · subst hj
      rw [Function.update_self, hready]
      rfl
    · rw [Function.update_of_ne hj]
  refine ⟨h.nodup, h.processed_job, ?_, ?_, ?_, ?_, ?_, ?_, ?_⟩
  · intro j id' job' hx
    exact h.slot_job j id' job' ((hentry j).symm.trans hx)
  · intro j j' id' job₁ job₂ hx hx'
    exact h.slot_inj j j' id' job₁ job₂ ((hentry j).symm.trans hx) ((hentry j').symm.trans hx')
  · intro j id' job' hready' hfin
    change Function.update c.slots i _ j = _ at hready'
    by_cases hj : j = i
    · subst hj
      rw [Function.update_self] at hready'
      exact nomatch hready'
    · rw [Function.update_of_ne hj] at hready'
      refine h.unprocessed j id' job' hready' fun r' hr => hfin r' ?_
      show Function.update c.workers i _ j = _
      rw [Function.update_of_ne hj, hr]
  · intro j id' job' r' hfin
    change Function.update c.workers i _ j = _ at hfin
    by_cases hj : j = i
    · subst hj
      rw [Function.update_self] at hfin
      exact nomatch hfin
    · rw [Function.update_of_ne hj] at hfin
      exact h.finished_processed j id' job' r' hfin
  · intro j id' job' r' hdone hok'
    change Function.update c.slots i _ j = _ at hdone
    by_cases hj : j = i
    · subst hj
      rw [Function.update_self] at hdone
      obtain ⟨rfl, rfl, rfl⟩ := Slot.done.inj hdone
      exact hok hok'
    · rw [Function.update_of_ne hj] at hdone
      exact h.done_processed j id' job' r' hdone hok'
  · intro slot p id' job' r' hmain hdone hsaw
    change Function.update c.slots i _ slot = _ at hdone
    by_cases hj : slot = i
    · obtain ⟨id₁, job₁, r₁, hdone₁⟩ := hco.done_of_release slot p hmain
      rw [hj, hready] at hdone₁
      exact nomatch hdone₁
    · rw [Function.update_of_ne hj] at hdone
      exact h.release_ok slot p id' job' r' hmain hdone hsaw
  · intro hsaw id' job' hget
    rcases h.covered hsaw id' job' hget with hold | ⟨j, hj⟩
    · exact Or.inl hold
    · exact Or.inr ⟨j, (hentry j).trans hj⟩

/-- Reading a result remembers whether it was a failure. -/
theorem Once.collect {pool : Pool J R} {c : Config J R W α} (h : Once pool c) {slot id : Nat}
    {job : J} {r : R} (hslot : c.slots slot = .done id job r) (p : Prog J R W α) :
    Once pool { c with
      main := .release slot p
      sawError := c.sawError || pool.failed r } := by
  refine ⟨h.nodup, h.processed_job, h.slot_job, h.slot_inj, h.unprocessed,
    h.finished_processed, h.done_processed, ?_, ?_⟩
  · intro slot' p' id' job' r' hmain hdone hsaw
    obtain ⟨rfl, -⟩ := Main.release.inj hmain
    change c.slots slot = _ at hdone
    rw [hslot] at hdone
    obtain ⟨-, -, rfl⟩ := Slot.done.inj hdone
    exact (Bool.or_eq_false_iff.mp hsaw).2
  · intro hsaw
    exact h.covered (Bool.or_eq_false_iff.mp hsaw).1

/-- A slot that is emptied held a processed submission, or a failure. -/
theorem Once.release {pool : Pool J R} {c : Config J R W α} (h : Once pool c) (hco : Coherent c)
    {slot : Nat} {p : Prog J R W α} (hmain : c.main = .release slot p) (batch : List Nat) :
    Once pool { c with
      main := .run p
      slots := Function.update c.slots slot .empty
      batch := batch } := by
  obtain ⟨id, job, r, hdone⟩ := hco.done_of_release slot p hmain
  have hkeep (j : Nat) (x : Nat × J)
      (hx : (Function.update c.slots slot .empty j).occupant = some x) :
      (c.slots j).occupant = some x := by
    by_cases hj : j = slot
    · subst hj
      rw [Function.update_self] at hx
      exact nomatch hx
    · rw [Function.update_of_ne hj] at hx
      exact hx
  refine ⟨h.nodup, h.processed_job, fun j id' job' hx => h.slot_job j id' job' (hkeep j _ hx),
    fun j j' id' job₁ job₂ hx hx' => h.slot_inj j j' id' job₁ job₂ (hkeep j _ hx) (hkeep j' _ hx'),
    ?_, h.finished_processed, ?_, fun _ _ _ _ _ hrel => (nomatch hrel), ?_⟩
  · intro j id' job' hready
    change Function.update c.slots slot _ j = _ at hready
    by_cases hj : j = slot
    · subst hj
      rw [Function.update_self] at hready
      exact nomatch hready
    · rw [Function.update_of_ne hj] at hready
      exact h.unprocessed j id' job' hready
  · intro j id' job' r' hdone'
    change Function.update c.slots slot _ j = _ at hdone'
    by_cases hj : j = slot
    · subst hj
      rw [Function.update_self] at hdone'
      exact nomatch hdone'
    · rw [Function.update_of_ne hj] at hdone'
      exact h.done_processed j id' job' r' hdone'
  · intro hsaw id' job' hget
    rcases h.covered hsaw id' job' hget with hproc | ⟨j, hj⟩
    · exact Or.inl hproc
    · by_cases hjs : j = slot
      · subst hjs
        rw [hdone] at hj
        obtain ⟨rfl, rfl⟩ := Prod.mk.inj (Option.some.inj hj)
        have hok := h.release_ok j p id job r hmain hdone hsaw
        exact Or.inl (h.done_processed j id job r hdone hok)
      · refine Or.inr ⟨j, ?_⟩
        show (Function.update c.slots slot _ j).occupant = _
        rw [Function.update_of_ne hjs, hj]

/-- **STEP**: the bookkeeping survives every step. -/
theorem Once.step {pool : Pool J R} {c c' : Config J R W α} (h : Once pool c) (hco : Coherent c)
    (hstep : Step pool c c') : Once pool c' := by
  cases hstep with
  | submit hmain hslot => exact h.submit hslot _ _ _
  | collect hmain hslot => exact h.collect hslot _
  | release hmain => exact h.release hco hmain _
  | note hmain =>
      exact ⟨h.nodup, h.processed_job, h.slot_job, h.slot_inj, h.unprocessed,
        h.finished_processed, h.done_processed, fun _ _ _ _ _ hrel => (nomatch hrel), h.covered⟩
  | pick hown hidle hslot =>
      refine h.move (fun r hr => ?_) hslot (fun _ _ _ hw => (nomatch hw))
      rw [hidle] at hr
      exact nomatch hr
  | cancel hpicked hflag =>
      have hready := hco.agree _ _ _ (congrArg Worker.job? hpicked)
      refine h.move (fun r hr => ?_) hready (fun _ _ _ hw => (nomatch hw))
      rw [hpicked] at hr
      exact nomatch hr
  | begin hpicked hflag =>
      have hready := hco.agree _ _ _ (congrArg Worker.job? hpicked)
      refine h.move (fun r hr => ?_) hready (fun _ _ _ hw => (nomatch hw))
      rw [hpicked] at hr
      exact nomatch hr
  | finish hworking hwork =>
      exact h.finish hworking (hco.agree _ _ _ (congrArg Worker.job? hworking)) _ _
  | markCancelled hcancel =>
      refine h.mark hco (hco.agree _ _ _ (congrArg Worker.job? hcancel)) fun hok => ?_
      rw [pool.cancelled_failed] at hok
      exact nomatch hok
  | mark hfinished =>
      exact h.mark hco (hco.agree _ _ _ (congrArg Worker.job? hfinished))
        fun _ => h.finished_processed _ _ _ _ hfinished

theorem once_of_reachable {pool : Pool J R} {p : Prog J R W α} {c : Config J R W α}
    (h : Reachable pool p c) : Once pool c := by
  have hinit : Once pool (Config.initial p) := by
    refine ⟨List.nodup_nil, ?_, ?_, ?_, ?_, ?_, ?_, ?_, ?_⟩
    · exact fun _ _ hmem => (nomatch hmem)
    · exact fun _ _ _ hx => (nomatch hx)
    · exact fun _ _ _ _ _ hx => (nomatch hx)
    · exact fun _ _ _ hready => (nomatch hready)
    · exact fun _ _ _ _ hfin => (nomatch hfin)
    · exact fun _ _ _ _ hdone => (nomatch hdone)
    · exact fun _ _ _ _ _ hmain => (nomatch hmain)
    · exact fun _ _ _ hget => (nomatch hget)
  exact (invariant_of_step (fun c => Coherent c ∧ Once pool c) ⟨coherent_initial p, hinit⟩
    (fun _ _ hs hstep => ⟨hs.1.step hstep, hs.2.step hs.1 hstep⟩) h).2

/-- **EXACTLY ONCE**: when no failure was collected and every slot is empty,
    the jobs processed are the jobs submitted, each once and with its own
    submission number. -/
theorem processed_perm {pool : Pool J R} {p : Prog J R W α} {c : Config J R W α}
    (h : Reachable pool p c) (hsaw : c.sawError = false) (hempty : ∀ i, c.slots i = .empty) :
    c.processed.Perm c.submitted.zipIdx := by
  have honce := once_of_reachable h
  rw [List.perm_ext_iff_of_nodup honce.nodup.of_map]
  · rintro ⟨job, id⟩
    rw [List.mk_mem_zipIdx_iff_getElem?]
    constructor
    · exact honce.processed_job job id
    · intro hget
      rcases honce.covered hsaw id job hget with hproc | ⟨i, hi⟩
      · exact hproc
      · rw [hempty i] at hi
        exact nomatch hi
  · exact List.Nodup.of_map Prod.snd (by rw [List.zipIdx_map_snd]; exact List.nodup_range')

end Zupt.SlotPool
