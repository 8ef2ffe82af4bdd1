import Mathlib.Logic.Function.Basic
import Mathlib.Data.Set.Basic

/-! # Work queues

    Workers that share a list of jobs through one counter: a worker takes the
    next number under a lock, does that job alone and stores its result, and
    stops when the numbers run out.  Which workers take part, and how their
    steps interleave, is left open.

    A queue that has come to rest has done every job exactly if some worker
    took part (`done_of_rest`, `untouched_of_idle`). -/

namespace Zupt.WorkQueue

variable {W R : Type} [DecidableEq W]

/-- What a worker is about to do. -/
inductive Phase where
  | ready
  | running (job : Nat)
  | stopped
  deriving DecidableEq, Repr

/-- The shared counter and results, and the workers. -/
structure Queue (W R : Type) where
  next : Nat
  phase : W → Phase
  result : Nat → R

/-- The queue before any worker has run. -/
def start (initial : R) : Queue W R := ⟨0, fun _ => .ready, fun _ => initial⟩

/-- One step of one worker, over `n` jobs. -/
inductive Step (n : Nat) (job : Nat → R) (started : Set W) : Queue W R → Queue W R → Prop
  | claim (q : Queue W R) (w : W) : w ∈ started → q.phase w = .ready → q.next < n →
      Step n job started q
        { q with next := q.next + 1, phase := Function.update q.phase w (.running q.next) }
  | leave (q : Queue W R) (w : W) : w ∈ started → q.phase w = .ready → n ≤ q.next →
      Step n job started q
        { q with next := q.next + 1, phase := Function.update q.phase w .stopped }
  | finish (q : Queue W R) (w : W) (i : Nat) : w ∈ started → q.phase w = .running i →
      Step n job started q
        { q with result := Function.update q.result i (job i),
                 phase := Function.update q.phase w .ready }

/-- What any interleaving of the workers can reach. -/
inductive Reachable (n : Nat) (job : Nat → R) (started : Set W) (initial : R) :
    Queue W R → Prop
  | start : Reachable n job started initial (start initial)
  | step {q q' : Queue W R} : Reachable n job started initial q → Step n job started q q' →
      Reachable n job started initial q'

/-- All workers that take part have stopped. -/
def AtRest (started : Set W) (q : Queue W R) : Prop := ∀ w ∈ started, q.phase w = .stopped

/-- The state of the jobs in between: those handed out are done or being done,
    each by one worker. -/
structure Inv (n : Nat) (job : Nat → R) (started : Set W) (q : Queue W R) : Prop where
  handed : ∀ i, i < n → i < q.next → q.result i = job i ∨ ∃ w ∈ started, q.phase w = .running i
  bounds : ∀ w i, q.phase w = .running i → i < n ∧ i < q.next
  alone : ∀ w w' i, q.phase w = .running i → q.phase w' = .running i → w = w'
  drained : ∀ w, q.phase w = .stopped → n ≤ q.next
  taking : ∀ w, q.phase w ≠ .ready → w ∈ started

section Invariant

variable {n : Nat} {job : Nat → R} {started : Set W} {initial : R} {q q' : Queue W R}

omit [DecidableEq W] in
theorem inv_start (initial : R) : Inv n job started (start initial : Queue W R) where
  handed _ _ h := absurd h (Nat.not_lt_zero _)
  bounds _ _ h := by cases h
  alone _ _ _ h := by cases h
  drained _ h := by cases h
  taking _ h := absurd rfl h

/-- The phase of a worker after one worker moved. -/
theorem update_phase {phase : W → Phase} {w v : W} {p p' : Phase}
    (h : Function.update phase w p v = p') : (v = w ∧ p = p') ∨ (v ≠ w ∧ phase v = p') := by
  by_cases hvw : v = w
  · subst hvw
    rw [Function.update_self] at h
    exact Or.inl ⟨rfl, h⟩
  · rw [Function.update_of_ne hvw] at h
    exact Or.inr ⟨hvw, h⟩

/-- A worker that still runs its job while another one moves. -/
theorem still_running {phase : W → Phase} {w v : W} {p : Phase} {i : Nat}
    (hv : phase v = .running i) (hw : phase w ≠ .running i) :
    Function.update phase w p v = .running i := by
  have hvw : v ≠ w := by
    rintro rfl
    exact hw hv
  rw [Function.update_of_ne hvw, hv]

/-- **ONE STEP** of any worker keeps the invariant. -/
theorem Inv.step (h : Inv n job started q) (hstep : Step n job started q q') :
    Inv n job started q' := by
  cases hstep with
  | claim w hw hready hlt =>
      have hnot : ∀ i, q.phase w ≠ .running i := by
        intro i hi
        rw [hready] at hi
        cases hi
      constructor
      · intro i hin hi
        dsimp only at hi
        by_cases hlast : i = q.next
        · -- the number just handed out is being worked on
          exact Or.inr ⟨w, hw, by rw [hlast]; exact Function.update_self ..⟩
        · rcases h.handed i hin (by omega) with hdone | ⟨v, hv, hrun⟩
          · exact Or.inl hdone
          · exact Or.inr ⟨v, hv, still_running hrun (hnot i)⟩
      · intro v i hv
        dsimp only at hv ⊢
        rcases update_phase hv with ⟨-, hrun⟩ | ⟨-, hrun⟩
        · obtain rfl := Phase.running.inj hrun
          omega
        · have := h.bounds v i hrun
          omega
      · intro v v' i hv hv'
        rcases update_phase hv with ⟨rfl, hrun⟩ | ⟨-, hrun⟩
        · rcases update_phase hv' with ⟨rfl, -⟩ | ⟨-, hrun'⟩
          · rfl
          · obtain rfl := Phase.running.inj hrun
            have := h.bounds v' _ hrun'
            omega
        · rcases update_phase hv' with ⟨rfl, hrun'⟩ | ⟨-, hrun'⟩
          · obtain rfl := Phase.running.inj hrun'
            have := h.bounds v _ hrun
            omega
          · exact h.alone v v' i hrun hrun'
      · intro v hv
        dsimp only at hv ⊢
        rcases update_phase hv with ⟨-, hrun⟩ | ⟨-, hrun⟩
        · cases hrun
        · have := h.drained v hrun
          omega
      · intro v hv
        by_cases hvw : v = w
        · rw [hvw]
          exact hw
        · dsimp only at hv
          rw [Function.update_of_ne hvw] at hv
          exact h.taking v hv
  | leave w hw hready hle =>
      have hnot : ∀ i, q.phase w ≠ .running i := by
        intro i hi
        rw [hready] at hi
        cases hi
      constructor
      · intro i hin hi
        rcases h.handed i hin (by omega) with hdone | ⟨v, hv, hrun⟩
        · exact Or.inl hdone
        · exact Or.inr ⟨v, hv, still_running hrun (hnot i)⟩
      · intro v i hv
        dsimp only at hv ⊢
        rcases update_phase hv with ⟨-, hrun⟩ | ⟨-, hrun⟩
        · cases hrun
        · have := h.bounds v i hrun
          omega
      · intro v v' i hv hv'
        rcases update_phase hv with ⟨-, hrun⟩ | ⟨-, hrun⟩
        · cases hrun
        · rcases update_phase hv' with ⟨-, hrun'⟩ | ⟨-, hrun'⟩
          · cases hrun'
          · exact h.alone v v' i hrun hrun'
      · intro v hv
        dsimp only
        omega
      · intro v hv
        by_cases hvw : v = w
        · rw [hvw]
          exact hw
        · dsimp only at hv
          rw [Function.update_of_ne hvw] at hv
          exact h.taking v hv
  | finish w i hw hrun =>
      have hbounds := h.bounds w i hrun
      constructor
      · intro j hjn hj
        dsimp only at hj ⊢
        by_cases hji : j = i
        · rw [hji]
          exact Or.inl (Function.update_self ..)
        · rw [Function.update_of_ne hji]
          rcases h.handed j hjn hj with hdone | ⟨v, hv, hvrun⟩
          · exact Or.inl hdone
          · refine Or.inr ⟨v, hv, still_running hvrun ?_⟩
            rw [hrun]
            intro hbad
            exact hji (Phase.running.inj hbad).symm
      · intro v j hv
        rcases update_phase hv with ⟨-, hbad⟩ | ⟨-, hvrun⟩
        · cases hbad
        · exact h.bounds v j hvrun
      · intro v v' j hv hv'
        rcases update_phase hv with ⟨-, hbad⟩ | ⟨-, hvrun⟩
        · cases hbad
        · rcases update_phase hv' with ⟨-, hbad⟩ | ⟨-, hvrun'⟩
          · cases hbad
          · exact h.alone v v' j hvrun hvrun'
      · intro v hv
        rcases update_phase hv with ⟨-, hbad⟩ | ⟨-, hvstop⟩
        · cases hbad
        · exact h.drained v hvstop
      · intro v hv
        by_cases hvw : v = w
        · rw [hvw]
          exact hw
        · dsimp only at hv
          rw [Function.update_of_ne hvw] at hv
          exact h.taking v hv

/-- **EVERY INTERLEAVING** keeps the invariant. -/
theorem Reachable.inv (h : Reachable n job started initial q) : Inv n job started q := by
  induction h with
  | start => exact inv_start initial
  | step _ hstep ih => exact ih.step hstep

/-- **NO JOB IS LOST**: at rest, with a worker that took part, every job has its
    result. -/
theorem done_of_rest (h : Reachable n job started initial q) (hrest : AtRest started q)
    (hsome : started.Nonempty) {i : Nat} (hi : i < n) : q.result i = job i := by
  have hinv := h.inv
  obtain ⟨w, hw⟩ := hsome
  have hdrained := hinv.drained w (hrest w hw)
  rcases hinv.handed i hi (by omega) with hdone | ⟨v, hv, hrun⟩
  · exact hdone
  · rw [hrest v hv] at hrun
    cases hrun

/-- **NO WORKER, NO RESULT**: where no worker took part, nothing was done. -/
theorem untouched_of_idle (h : Reachable n job started initial q) (hnone : ¬ started.Nonempty)
    (i : Nat) : q.result i = initial := by
  induction h with
  | start => rfl
  | step _ hstep _ =>
      cases hstep with
      | claim w hw => exact absurd ⟨w, hw⟩ hnone
      | leave w hw => exact absurd ⟨w, hw⟩ hnone
      | finish w _ hw => exact absurd ⟨w, hw⟩ hnone

end Invariant

end Zupt.WorkQueue
