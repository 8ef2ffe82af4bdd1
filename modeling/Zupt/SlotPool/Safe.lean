import Zupt.SlotPool.Basic

/-! # Programs that never wait for themselves

    `Safe` is a predicate transformer: it follows the slots a program holds
    and asks that every submission goes to a slot not held whose worker was
    started.  Its soundness is an invariant of the whole pool, `SafeState`,
    that every step preserves. -/

namespace Zupt.SlotPool

variable {J R W α β : Type}

/-- The main thread waits for slot `i`: to become empty, or to become done. -/
def WaitsOn (pool : Pool J R) (c : Config J R W α) (i : Nat) : Prop :=
  (∃ seq job k, c.main = .run (.submit seq job k) ∧ seq % pool.nslots = i ∧ c.slots i ≠ .empty) ∨
    ∃ k, c.main = .run (.collect i k) ∧ ∀ id job r, c.slots i ≠ .done id job r

/-- The main thread waits to submit to a slot of its own pending batch, or it
    waits for a ready slot whose worker was never started. -/
def WaitsForItself (pool : Pool J R) (c : Config J R W α) : Prop :=
  (∃ seq job k, c.main = .run (.submit seq job k) ∧ WaitsOn pool c (seq % pool.nslots) ∧
      seq % pool.nslots ∈ c.batch) ∨
    ∃ i id job, WaitsOn pool c i ∧ c.slots i = .ready id job ∧ ¬ pool.started i

/-- A program that, holding the slots `held`, submits only to slots it does
    not hold and whose worker was started, collects only slots it holds, and
    returns with `Q`. -/
def Safe (pool : Pool J R) : (held : Nat → Bool) → Prog J R W α →
    (Q : (Nat → Bool) → α → Prop) → Prop
  | held, .ret a, Q => Q held a
  | held, .submit seq _ k, Q =>
      held (seq % pool.nslots) = false ∧ pool.started (seq % pool.nslots) ∧
        Safe pool (Function.update held (seq % pool.nslots) true) (k (seq % pool.nslots)) Q
  | held, .collect slot k, Q =>
      held slot = true ∧ ∀ r, Safe pool (Function.update held slot false) (k r) Q
  | held, .note _ k, Q => Safe pool held k Q

theorem Safe.mono {pool : Pool J R} {held : Nat → Bool} {p : Prog J R W α}
    {Q Q' : (Nat → Bool) → α → Prop} (h : Safe pool held p Q)
    (hQ : ∀ held a, Q held a → Q' held a) : Safe pool held p Q' := by
  induction p generalizing held with
  | ret a => exact hQ held a h
  | submit seq job k ih => exact ⟨h.1, h.2.1, ih _ h.2.2⟩
  | collect slot k ih => exact ⟨h.1, fun r => ih r (h.2 r)⟩
  | note w k ih => exact ih h

/-- **SEQUENCE RULE** for `Safe`. -/
theorem Safe.bind {pool : Pool J R} {held : Nat → Bool} {p : Prog J R W α}
    {g : α → Prog J R W β} {Q : (Nat → Bool) → β → Prop}
    (h : Safe pool held p fun held' a => Safe pool held' (g a) Q) :
    Safe pool held (p >>= g) Q := by
  induction p generalizing held with
  | ret a => exact h
  | submit seq job k ih => exact ⟨h.1, h.2.1, ih _ h.2.2⟩
  | collect slot k ih => exact ⟨h.1, fun r => ih r (h.2 r)⟩
  | note w k ih => exact ih h

/-- What `Safe` says of a whole state: the slots in use are those held, their
    workers were started, and the rest of the program is safe. -/
def SafeState (pool : Pool J R) (c : Config J R W α) : Prop :=
  Coherent c ∧ ∃ held : Nat → Bool,
    (∀ i, c.slots i = .empty ↔ held i = false) ∧ (∀ i, held i = true → pool.started i) ∧
    match c.main with
    | .run p => Safe pool held p fun _ _ => True
    | .release slot p =>
        held slot = true ∧ Safe pool (Function.update held slot false) p fun _ _ => True

/-- Filling a slot that is in use leaves the same slots empty. -/
theorem empty_iff_update {slots : Nat → Slot J R} {held : Nat → Bool} {i id : Nat} {job : J}
    (hempty : ∀ i, slots i = .empty ↔ held i = false) (hslot : slots i = .ready id job)
    (r : R) : ∀ i', Function.update slots i (.done id job r) i' = .empty ↔ held i' = false := by
  intro i'
  by_cases hi : i' = i
  · subst hi
    rw [Function.update_self, ← hempty i', hslot]
    constructor <;> intro h <;> exact nomatch h
  · rw [Function.update_of_ne hi]
    exact hempty i'

/-- **STEP**: safe states step to safe states. -/
theorem SafeState.step {pool : Pool J R} {c c' : Config J R W α} (h : SafeState pool c)
    (hstep : Step pool c c') : SafeState pool c' := by
  obtain ⟨hco, held, hempty, hstarted, hprog⟩ := h
  refine ⟨hco.step hstep, ?_⟩
  cases hstep with
  | submit hmain hslot =>
      rename_i seq job k
      rw [hmain] at hprog
      obtain ⟨-, hown, hrest⟩ := hprog
      refine ⟨Function.update held (seq % pool.nslots) true, ?_, ?_, hrest⟩
      · intro i
        by_cases hi : i = seq % pool.nslots
        · subst hi
          show Function.update c.slots _ _ _ = _ ↔ _
          rw [Function.update_self, Function.update_self]
          constructor <;> intro h <;> exact nomatch h
        · show Function.update c.slots _ _ i = _ ↔ _
          rw [Function.update_of_ne hi, Function.update_of_ne hi]
          exact hempty i
      · intro i hi
        by_cases hi' : i = seq % pool.nslots
        · rw [hi']
          exact hown
        · rw [Function.update_of_ne hi'] at hi
          exact hstarted i hi
  | collect hmain hslot =>
      rw [hmain] at hprog
      exact ⟨held, hempty, hstarted, hprog.1, hprog.2 _⟩
  | release hmain =>
      rename_i slot p
      rw [hmain] at hprog
      obtain ⟨hheld, hrest⟩ := hprog
      refine ⟨Function.update held slot false, ?_, ?_, hrest⟩
      · intro i
        by_cases hi : i = slot
        · subst hi
          show Function.update c.slots _ _ _ = _ ↔ _
          rw [Function.update_self, Function.update_self]
          exact ⟨fun _ => rfl, fun _ => rfl⟩
        · show Function.update c.slots _ _ i = _ ↔ _
          rw [Function.update_of_ne hi, Function.update_of_ne hi]
          exact hempty i
      · intro i hi
        by_cases hi' : i = slot
        · rw [hi']
          exact hstarted slot hheld
        · rw [Function.update_of_ne hi'] at hi
          exact hstarted i hi
  | note hmain =>
      rw [hmain] at hprog
      exact ⟨held, hempty, hstarted, hprog⟩
  | pick hown hidle hslot => exact ⟨held, hempty, hstarted, hprog⟩
  | cancel hpicked hflag => exact ⟨held, hempty, hstarted, hprog⟩
  | begin hpicked hflag => exact ⟨held, hempty, hstarted, hprog⟩
  | finish hworking hwork => exact ⟨held, hempty, hstarted, hprog⟩
  | markCancelled hcancel =>
      have hready := hco.agree _ _ _ (congrArg Worker.job? hcancel)
      exact ⟨held, empty_iff_update hempty hready _, hstarted, hprog⟩
  | mark hfinished =>
      have hready := hco.agree _ _ _ (congrArg Worker.job? hfinished)
      exact ⟨held, empty_iff_update hempty hready _, hstarted, hprog⟩

/-- In a safe state the main thread does not wait for itself. -/
theorem SafeState.not_waitsForItself {pool : Pool J R} {c : Config J R W α}
    (h : SafeState pool c) : ¬ WaitsForItself pool c := by
  obtain ⟨-, held, hempty, hstarted, hprog⟩ := h
  rintro (⟨seq, job, k, hmain, hwaits, -⟩ | ⟨i, id, job, -, hready, hown⟩)
  · rw [hmain] at hprog
    have hslot := (hempty _).mpr hprog.1
    rcases hwaits with ⟨seq', job', k', hmain', -, hne⟩ | ⟨k', hmain', -⟩
    · exact hne hslot
    · rw [hmain] at hmain'
      exact nomatch hmain'
  · -- a ready slot is in use, so its worker was started
    cases hheld : held i with
    | false =>
        have hslot := (hempty i).mpr hheld
        rw [hready] at hslot
        exact nomatch hslot
    | true => exact hown (hstarted i hheld)

/-- **SOUNDNESS OF `Safe`**: in no interleaving does the main thread of a safe
    program wait for itself. -/
theorem safe_not_blocked {pool : Pool J R} {p : Prog J R W α}
    (h : Safe pool (fun _ => false) p fun _ _ => True) {c : Config J R W α}
    (hc : Reachable pool p c) : ¬ WaitsForItself pool c := by
  have hinit : SafeState pool (Config.initial p) :=
    ⟨coherent_initial p, fun _ => false, fun _ => ⟨fun _ => rfl, fun _ => rfl⟩,
      fun _ hheld => (nomatch hheld), h⟩
  exact (invariant_of_step (SafeState pool) hinit
    (fun _ _ hs hstep => hs.step hstep) hc).not_waitsForItself

end Zupt.SlotPool
