import Zupt.SlotPool.Basic

/-! # What a terminating run returns

    `wlp` is the weakest liberal precondition of a program: it forgets the
    workers and keeps, in a `Track`, only what bounds the results they can
    deliver.  Its soundness is again an invariant, `WlpState`: some `Track`
    describes the pool, and from it the rest of the program returns with the
    postcondition. -/

namespace Zupt.SlotPool

variable {J R W α β : Type}

/-- What is known of the pool between two operations of the main thread:
    whether a job submitted so far can fail, the jobs in the slots, all jobs
    submitted, and whether a failure was collected. -/
structure Track (J : Type) where
  mayFail : Prop
  pending : Nat → Option J
  submitted : List J
  sawError : Bool

/-- Nothing submitted yet. -/
def Track.initial : Track J := ⟨False, fun _ => none, [], false⟩

/-- A job goes into its slot. -/
def Track.submit (pool : Pool J R) (σ : Track J) (slot : Nat) (job : J) : Track J where
  mayFail := σ.mayFail ∨ ∃ r, pool.work job r ∧ pool.failed r = true
  pending := Function.update σ.pending slot (some job)
  submitted := σ.submitted ++ [job]
  sawError := σ.sawError

/-- A result comes out of a slot. -/
def Track.collect (pool : Pool J R) (σ : Track J) (slot : Nat) (r : R) : Track J where
  mayFail := σ.mayFail
  pending := Function.update σ.pending slot none
  submitted := σ.submitted
  sawError := σ.sawError || pool.failed r

/-- What a collected job can have become: a result of its own, or a
    cancellation if some job so far can fail. -/
def Yields (pool : Pool J R) (σ : Track J) (job : J) (r : R) : Prop :=
  pool.work job r ∨ (σ.mayFail ∧ r = pool.cancelled)

/-- The weakest liberal precondition: started from `σ`, a program does only
    what `E` allows to the outside world, and if it returns it does so with
    `Q`. -/
def wlp (pool : Pool J R) (E : W → Prop) : (σ : Track J) → Prog J R W α → (Q : Track J → α → Prop) → Prop
  | σ, .ret a, Q => Q σ a
  | σ, .submit seq job k, Q =>
      σ.pending (seq % pool.nslots) = none →
        wlp pool E (σ.submit pool (seq % pool.nslots) job) (k (seq % pool.nslots)) Q
  | σ, .collect slot k, Q =>
      ∀ job r, σ.pending slot = some job → Yields pool σ job r →
        wlp pool E (σ.collect pool slot r) (k r) Q
  | σ, .note w k, Q => E w ∧ wlp pool E σ k Q

theorem wlp.mono {pool : Pool J R} {E : W → Prop} {σ : Track J} {p : Prog J R W α}
    {Q Q' : Track J → α → Prop} (h : wlp pool E σ p Q) (hQ : ∀ σ a, Q σ a → Q' σ a) :
    wlp pool E σ p Q' := by
  induction p generalizing σ with
  | ret a => exact hQ σ a h
  | submit seq job k ih => exact fun hpend => ih _ (h hpend)
  | collect slot k ih => exact fun job r hpend hyields => ih r (h job r hpend hyields)
  | note w k ih => exact ⟨h.1, ih h.2⟩

/-- A program that may do less may do more. -/
theorem wlp.allow {pool : Pool J R} {E E' : W → Prop} {σ : Track J} {p : Prog J R W α}
    {Q : Track J → α → Prop} (h : wlp pool E σ p Q) (hE : ∀ w, E w → E' w) :
    wlp pool E' σ p Q := by
  induction p generalizing σ with
  | ret a => exact h
  | submit seq job k ih => exact fun hpend => ih _ (h hpend)
  | collect slot k ih => exact fun job r hpend hyields => ih r (h job r hpend hyields)
  | note w k ih => exact ⟨hE w h.1, ih h.2⟩

/-- **SEQUENCE RULE** for `wlp`. -/
theorem wlp.bind {pool : Pool J R} {E : W → Prop} {σ : Track J} {p : Prog J R W α} {g : α → Prog J R W β}
    {Q : Track J → β → Prop} (h : wlp pool E σ p fun σ' a => wlp pool E σ' (g a) Q) :
    wlp pool E σ (p >>= g) Q := by
  induction p generalizing σ with
  | ret a => exact h
  | submit seq job k ih => exact fun hpend => ih _ (h hpend)
  | collect slot k ih => exact fun job r hpend hyields => ih r (h job r hpend hyields)
  | note w k ih => exact ⟨h.1, ih h.2⟩

/-- What a slot says about the job it holds: `none` for an empty slot. -/
def Slot.job? : Slot J R → Option J
  | .empty => none
  | .ready _ job => some job
  | .done _ job _ => some job

/-- A state of the pool as `σ` describes it. -/
structure Describes (pool : Pool J R) (σ : Track J) (c : Config J R W α) : Prop where
  pending : ∀ i, (c.slots i).job? = σ.pending i
  done_yields : ∀ i id job r, c.slots i = .done id job r → Yields pool σ job r
  finished_work : ∀ i id job r, c.workers i = .finished id job r → pool.work job r
  cancelling_may : ∀ i id job, c.workers i = .cancelling id job → σ.mayFail
  flag_may : c.errorFlag = true → σ.mayFail
  pending_may : ∀ i job r, σ.pending i = some job → pool.work job r → pool.failed r = true →
    σ.mayFail
  submitted : c.submitted = σ.submitted

/-- What `wlp` says of a whole state: it is described by some `σ` from which
    the rest of the program returns with `Q`, and only what `E` allows was
    done. -/
def WlpState (pool : Pool J R) (E : W → Prop) (Q : Track J → α → Prop)
    (c : Config J R W α) : Prop :=
  Coherent c ∧ (∀ w ∈ c.log, E w) ∧ ∃ σ, Describes pool σ c ∧
    match c.main with
    | .run p => c.sawError = σ.sawError ∧ wlp pool E σ p Q
    | .release slot p => ∃ r, c.sawError = (σ.collect pool slot r).sawError ∧
        wlp pool E (σ.collect pool slot r) p Q

/-- A slot that is filled anew, and a job that joins. -/
theorem Describes.submit {pool : Pool J R} {σ : Track J} {c : Config J R W α}
    (h : Describes pool σ c) (i : Nat) (job : J) (main : Main J R W α) (batch : List Nat) :
    Describes pool (σ.submit pool i job) { c with
      main := main
      slots := Function.update c.slots i (.ready c.submitted.length job)
      batch := batch
      submitted := c.submitted ++ [job] } := by
  refine ⟨?_, ?_, h.finished_work, fun i' id' job' hw => Or.inl (h.cancelling_may i' id' job' hw),
    fun hflag => Or.inl (h.flag_may hflag), ?_, congrArg (· ++ [job]) h.submitted⟩
  · intro i'
    show (Function.update c.slots i _ i').job? = Function.update σ.pending i _ i'
    by_cases hi : i' = i
    · subst hi
      rw [Function.update_self, Function.update_self]
      rfl
    · rw [Function.update_of_ne hi, Function.update_of_ne hi]
      exact h.pending i'
  · intro i' id' job' r hdone
    change Function.update c.slots i _ i' = _ at hdone
    by_cases hi : i' = i
    · subst hi
      rw [Function.update_self] at hdone
      exact nomatch hdone
    · rw [Function.update_of_ne hi] at hdone
      rcases h.done_yields i' id' job' r hdone with hwork | ⟨hmay, hr⟩
      · exact Or.inl hwork
      · exact Or.inr ⟨Or.inl hmay, hr⟩
  · intro i' job' r hpend hwork hfailed
    change Function.update σ.pending i _ i' = _ at hpend
    by_cases hi : i' = i
    · subst hi
      rw [Function.update_self] at hpend
      obtain rfl := Option.some.inj hpend
      exact Or.inr ⟨r, hwork, hfailed⟩
    · rw [Function.update_of_ne hi] at hpend
      exact Or.inl (h.pending_may i' job' r hpend hwork hfailed)

/-- A slot that is emptied after its result was read. -/
theorem Describes.release {pool : Pool J R} {σ : Track J} {c : Config J R W α}
    (h : Describes pool σ c) (i : Nat) (r : R) (main : Main J R W α) (batch : List Nat) :
    Describes pool (σ.collect pool i r) { c with
      main := main
      slots := Function.update c.slots i .empty
      batch := batch } := by
  refine ⟨?_, ?_, h.finished_work, h.cancelling_may, h.flag_may, ?_, h.submitted⟩
  · intro i'
    show (Function.update c.slots i _ i').job? = Function.update σ.pending i _ i'
    by_cases hi : i' = i
    · subst hi
      rw [Function.update_self, Function.update_self]
      rfl
    · rw [Function.update_of_ne hi, Function.update_of_ne hi]
      exact h.pending i'
  · intro i' id' job' r' hdone
    change Function.update c.slots i _ i' = _ at hdone
    by_cases hi : i' = i
    · subst hi
      rw [Function.update_self] at hdone
      exact nomatch hdone
    · rw [Function.update_of_ne hi] at hdone
      exact h.done_yields i' id' job' r' hdone
  · intro i' job' r' hpend hwork hfailed
    change Function.update σ.pending i _ i' = _ at hpend
    by_cases hi : i' = i
    · subst hi
      rw [Function.update_self] at hpend
      exact nomatch hpend
    · rw [Function.update_of_ne hi] at hpend
      exact h.pending_may i' job' r' hpend hwork hfailed

/-- A worker that marks its slot done. -/
theorem Describes.mark {pool : Pool J R} {σ : Track J} {c : Config J R W α}
    (h : Describes pool σ c) {i id : Nat} {job : J} {r : R}
    (hready : c.slots i = .ready id job) (hyields : Yields pool σ job r) :
    Describes pool σ { c with
      slots := Function.update c.slots i (.done id job r)
      workers := Function.update c.workers i .idle } := by
  refine ⟨?_, ?_, ?_, ?_, h.flag_may, h.pending_may, h.submitted⟩
  · intro i'
    show (Function.update c.slots i _ i').job? = σ.pending i'
    by_cases hi : i' = i
    · subst hi
      rw [Function.update_self, ← h.pending i', hready]
      rfl
    · rw [Function.update_of_ne hi]
      exact h.pending i'
  · intro i' id' job' r' hdone
    change Function.update c.slots i _ i' = _ at hdone
    by_cases hi : i' = i
    · subst hi
      rw [Function.update_self] at hdone
      obtain ⟨-, rfl, rfl⟩ := Slot.done.inj hdone
      exact hyields
    · rw [Function.update_of_ne hi] at hdone
      exact h.done_yields i' id' job' r' hdone
  · intro i' id' job' r' hw
    change Function.update c.workers i _ i' = _ at hw
    by_cases hi : i' = i
    · subst hi
      rw [Function.update_self] at hw
      exact nomatch hw
    · rw [Function.update_of_ne hi] at hw
      exact h.finished_work i' id' job' r' hw
  · intro i' id' job' hw
    change Function.update c.workers i _ i' = _ at hw
    by_cases hi : i' = i
    · subst hi
      rw [Function.update_self] at hw
      exact nomatch hw
    · rw [Function.update_of_ne hi] at hw
      exact h.cancelling_may i' id' job' hw

/-- A worker that moves along its job, keeping what is known. -/
theorem Describes.move {pool : Pool J R} {σ : Track J} {c : Config J R W α}
    (h : Describes pool σ c) {i : Nat} {w : Worker J R} {flag : Bool}
    {processed : List (J × Nat)}
    (hfin : ∀ id job r, w = .finished id job r → pool.work job r)
    (hcan : ∀ id job, w = .cancelling id job → σ.mayFail) (hflag : flag = true → σ.mayFail) :
    Describes pool σ { c with
      workers := Function.update c.workers i w
      errorFlag := flag
      processed := processed } := by
  refine ⟨h.pending, h.done_yields, ?_, ?_, hflag, h.pending_may, h.submitted⟩
  · intro i' id' job' r' hw
    change Function.update c.workers i _ i' = _ at hw
    by_cases hi : i' = i
    · subst hi
      rw [Function.update_self] at hw
      exact hfin id' job' r' hw
    · rw [Function.update_of_ne hi] at hw
      exact h.finished_work i' id' job' r' hw
  · intro i' id' job' hw
    change Function.update c.workers i _ i' = _ at hw
    by_cases hi : i' = i
    · subst hi
      rw [Function.update_self] at hw
      exact hcan id' job' hw
    · rw [Function.update_of_ne hi] at hw
      exact h.cancelling_may i' id' job' hw

/-- **STEP**: the description follows every step. -/
theorem WlpState.step {pool : Pool J R} {E : W → Prop} {Q : Track J → α → Prop}
    {c c' : Config J R W α} (h : WlpState pool E Q c) (hstep : Step pool c c') :
    WlpState pool E Q c' := by
  obtain ⟨hco, hlog, σ, hd, hprog⟩ := h
  refine ⟨hco.step hstep, ?_⟩
  cases hstep with
  | submit hmain hslot =>
      rename_i seq job k
      rw [hmain] at hprog
      have hpend : σ.pending (seq % pool.nslots) = none := by
        rw [← hd.pending, hslot]
        rfl
      exact ⟨hlog, _, hd.submit _ job _ _, hprog.1, hprog.2 hpend⟩
  | collect hmain hslot =>
      rename_i slot k id job r
      rw [hmain] at hprog
      have hpend : σ.pending slot = some job := by
        rw [← hd.pending, hslot]
        rfl
      have hyields := hd.done_yields _ _ _ _ hslot
      refine ⟨hlog, σ, ⟨hd.pending, hd.done_yields, hd.finished_work, hd.cancelling_may, hd.flag_may,
        hd.pending_may, hd.submitted⟩, r, ?_, hprog.2 job r hpend hyields⟩
      show (c.sawError || pool.failed r) = (σ.sawError || pool.failed r)
      rw [hprog.1]
  | release hmain =>
      rw [hmain] at hprog
      obtain ⟨r, hsaw, hrest⟩ := hprog
      exact ⟨hlog, _, hd.release _ r _ _, hsaw, hrest⟩
  | note hmain =>
      rename_i w p
      rw [hmain] at hprog
      refine ⟨?_, σ, ⟨hd.pending, hd.done_yields, hd.finished_work, hd.cancelling_may,
        hd.flag_may, hd.pending_may, hd.submitted⟩, hprog.1, hprog.2.2⟩
      intro w' hmem
      rcases List.mem_append.mp hmem with hold | hnew
      · exact hlog w' hold
      · rw [List.mem_singleton.mp hnew]
        exact hprog.2.1
  | pick hown hidle hslot =>
      exact ⟨hlog, σ, hd.move (fun _ _ _ hw => (nomatch hw)) (fun _ _ hw => (nomatch hw)) hd.flag_may,
        hprog⟩
  | cancel hpicked hflag =>
      exact ⟨hlog, σ, hd.move (fun _ _ _ hw => (nomatch hw)) (fun _ _ _ => hd.flag_may hflag)
        hd.flag_may, hprog⟩
  | begin hpicked hflag =>
      exact ⟨hlog, σ, hd.move (fun _ _ _ hw => (nomatch hw)) (fun _ _ hw => (nomatch hw)) hd.flag_may,
        hprog⟩
  | finish hworking hwork =>
      rename_i i id job r
      have hready := hco.agree _ _ _ (congrArg Worker.job? hworking)
      have hpend : σ.pending i = some job := by
        rw [← hd.pending, hready]
        rfl
      refine ⟨hlog, σ, hd.move ?_ (fun _ _ hw => (nomatch hw)) ?_, hprog⟩
      · intro id' job' r' hw
        obtain ⟨-, rfl, rfl⟩ := Worker.finished.inj hw
        exact hwork
      · intro hflag
        rcases Bool.or_eq_true _ _ ▸ hflag with hup | hfailed
        · exact hd.flag_may hup
        · exact hd.pending_may i job r hpend hwork hfailed
  | markCancelled hcancel =>
      have hready := hco.agree _ _ _ (congrArg Worker.job? hcancel)
      exact ⟨hlog, σ, hd.mark hready (Or.inr ⟨hd.cancelling_may _ _ _ hcancel, rfl⟩), hprog⟩
  | mark hfinished =>
      have hready := hco.agree _ _ _ (congrArg Worker.job? hfinished)
      exact ⟨hlog, σ, hd.mark hready (Or.inl (hd.finished_work _ _ _ _ hfinished)), hprog⟩

theorem wlpState_initial {pool : Pool J R} {E : W → Prop} {p : Prog J R W α}
    {Q : Track J → α → Prop} (h : wlp pool E Track.initial p Q) :
    WlpState pool E Q (Config.initial p) := by
  refine ⟨coherent_initial p, fun _ hmem => (nomatch hmem), Track.initial,
    ⟨fun _ => rfl, ?_, ?_, ?_, ?_, ?_, rfl⟩, rfl, h⟩
  · exact fun _ _ _ _ hdone => (nomatch hdone)
  · exact fun _ _ _ _ hw => (nomatch hw)
  · exact fun _ _ _ hw => (nomatch hw)
  · exact fun hflag => (nomatch hflag)
  · exact fun _ _ _ hpend => (nomatch hpend)

theorem wlpState_of_reachable {pool : Pool J R} {E : W → Prop} {p : Prog J R W α}
    {Q : Track J → α → Prop} (h : wlp pool E Track.initial p Q) {c : Config J R W α}
    (hc : Reachable pool p c) : WlpState pool E Q c :=
  invariant_of_step (WlpState pool E Q) (wlpState_initial h)
    (fun _ _ hs hstep => hs.step hstep) hc

/-- **SOUNDNESS OF `wlp`**, for runs that end: they return with `Q`, in a
    state the last description fits. -/
theorem wlp_sound {pool : Pool J R} {E : W → Prop} {p : Prog J R W α} {Q : Track J → α → Prop}
    (h : wlp pool E Track.initial p Q) {c : Config J R W α} {a : α} (hc : Reachable pool p c)
    (hmain : c.main = .run (.ret a)) :
    ∃ σ, Describes pool σ c ∧ c.sawError = σ.sawError ∧ Q σ a := by
  obtain ⟨-, -, σ, hd, hprog⟩ := wlpState_of_reachable h hc
  rw [hmain] at hprog
  exact ⟨σ, hd, hprog.1, hprog.2⟩

/-- What a program returns satisfies what its `wlp` promises. -/
theorem wlp_returns {pool : Pool J R} {E : W → Prop} {p : Prog J R W α} {Q : α → Prop}
    (h : wlp pool E Track.initial p fun _ a => Q a) {a : α} (ha : Returns pool p a) : Q a := by
  obtain ⟨c, hc, hmain⟩ := ha
  obtain ⟨-, -, -, hQ⟩ := wlp_sound h hc hmain
  exact hQ

/-- **SOUNDNESS OF `wlp`**, for all runs, also those that never end: only what
    `E` allows is done to the outside world. -/
theorem wlp_log {pool : Pool J R} {E : W → Prop} {p : Prog J R W α} {Q : Track J → α → Prop}
    (h : wlp pool E Track.initial p Q) {c : Config J R W α} (hc : Reachable pool p c) :
    ∀ w ∈ c.log, E w :=
  (wlpState_of_reachable h hc).2.1

/-! ## Batches -/

/-- The pool holds these jobs in these slots, one each. -/
structure Holds (σ : Track J) (slots : List Nat) (jobs : List J) : Prop where
  pending : List.Forall₂ (fun slot job => σ.pending slot = some job) slots jobs
  nodup : slots.Nodup

theorem Holds.nil (σ : Track J) : Holds σ [] [] := ⟨.nil, List.nodup_nil⟩

/-- A job in a free slot joins the batch. -/
theorem Holds.submit {pool : Pool J R} {σ : Track J}
    {slots : List Nat} {jobs : List J} (h : Holds σ slots jobs) {slot : Nat}
    (hfree : σ.pending slot = none) (job : J) :
    Holds (σ.submit pool slot job) (slots ++ [slot]) (jobs ++ [job]) := by
  have hfresh : slot ∉ slots := by
    intro hmem
    obtain ⟨job', -, hpend⟩ : ∃ job' ∈ jobs, σ.pending slot = some job' := by
      have hall := h.pending
      clear h
      induction hall with
      | nil => exact nomatch hmem
      | cons hhead _ ih =>
          rcases List.mem_cons.mp hmem with rfl | hmem
          · exact ⟨_, List.mem_cons_self, hhead⟩
          · obtain ⟨job', hin, hpend⟩ := ih hmem
            exact ⟨job', List.mem_cons_of_mem _ hin, hpend⟩
    rw [hfree] at hpend
    exact nomatch hpend
  constructor
  · refine List.rel_append ?_ (.cons ?_ .nil)
    · have hall := h.pending
      clear h
      induction hall with
      | nil => exact .nil
      | cons hhead _ ih =>
          obtain ⟨hne, hfresh⟩ := not_or.mp (List.mem_cons.not.mp hfresh)
          refine .cons ?_ (ih hfresh)
          show Function.update σ.pending slot _ _ = _
          rw [Function.update_of_ne (Ne.symm hne), hhead]
    · show Function.update σ.pending slot _ _ = _
      rw [Function.update_self]
  · exact List.nodup_append.mpr ⟨h.nodup, List.nodup_singleton _, fun a ha b hb => by
      rw [List.mem_singleton.mp hb]
      rintro rfl
      exact hfresh ha⟩

/-- Collecting the first slot leaves the others. -/
theorem Holds.collect (pool : Pool J R) {σ : Track J} {slot : Nat}
    {slots : List Nat} {job : J} {jobs : List J}
    (h : Holds σ (slot :: slots) (job :: jobs)) (r : R) :
    Holds (σ.collect pool slot r) slots jobs := by
  obtain ⟨hfresh, hnodup⟩ := List.nodup_cons.mp h.nodup
  obtain ⟨-, hrest⟩ := List.forall₂_cons.mp h.pending
  refine ⟨?_, hnodup⟩
  clear h hnodup
  induction hrest with
  | nil => exact .nil
  | cons hhead _ ih =>
      obtain ⟨hne, hfresh⟩ := not_or.mp (List.mem_cons.not.mp hfresh)
      refine .cons ?_ (ih hfresh)
      show Function.update σ.pending slot _ _ = _
      rw [Function.update_of_ne (Ne.symm hne), hhead]

end Zupt.SlotPool
