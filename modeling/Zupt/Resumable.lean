import Mathlib.Data.List.Basic

/-! # Resumable parsers

    A parser that is given its input in pieces.  In each state it either waits
    for more input, goes on to another state with some of the input used up, or
    ends.  The one law is that more input never changes a decision: whatever a
    state does with the input it has, it does with any longer input.

    From it follows that the pieces do not matter (`settle_append_paused`,
    `settle_append_halted`): a parser that paused goes on as if it had been
    given all of the input at once, and one that ended stays ended. -/

namespace Zupt.Resumable

variable {I σ ρ : Type}

/-- What a state makes of the input it is given. -/
inductive Outcome (σ ρ : Type) where
  | wait
  | next (s : σ) (taken : Nat)
  | halt (r : ρ) (taken : Nat)

/-- A resumable parser over symbols `I`. -/
structure Machine (I σ ρ : Type) where
  step : σ → List I → Outcome σ ρ
  next_taken : ∀ {s s' : σ} {b : List I} {n : Nat},
    step s b = .next s' n → 0 < n ∧ n ≤ b.length
  halt_taken : ∀ {s : σ} {r : ρ} {b : List I} {n : Nat}, step s b = .halt r n → n ≤ b.length
  stable : ∀ {s : σ} {b : List I} (c : List I), step s b ≠ .wait → step s (b ++ c) = step s b

/-- Where a parser is when it can do no more with the input it has. -/
inductive Settled (I σ ρ : Type) where
  | paused (s : σ) (pending : List I)
  | halted (r : ρ) (rest : List I)

namespace Machine

variable (M : Machine I σ ρ)

/-- At most `turns` steps. -/
def settleIn : (turns : Nat) → σ → List I → Settled I σ ρ
  | 0, s, b => .paused s b
  | turns + 1, s, b =>
      match M.step s b with
      | .wait => .paused s b
      | .next s' n => settleIn turns s' (b.drop n)
      | .halt r n => .halted r (b.drop n)

/-- Step after step, as far as the input goes. -/
def settle (s : σ) (b : List I) : Settled I σ ρ := M.settleIn (b.length + 1) s b

variable {M} {s s' t : σ} {b p q c : List I} {r : ρ} {n : Nat}

theorem settleIn_wait (turns : Nat) (h : M.step s b = .wait) :
    M.settleIn (turns + 1) s b = .paused s b := by
  rw [settleIn, h]

theorem settleIn_next (turns : Nat) (h : M.step s b = .next t n) :
    M.settleIn (turns + 1) s b = M.settleIn turns t (b.drop n) := by
  rw [settleIn, h]

theorem settleIn_halt (turns : Nat) (h : M.step s b = .halt r n) :
    M.settleIn (turns + 1) s b = .halted r (b.drop n) := by
  rw [settleIn, h]

/-- One turn more than there is input is enough. -/
theorem settleIn_eq_settle (turns : Nat) (h : b.length < turns) :
    M.settleIn turns s b = M.settle s b := by
  -- both counts are above the length, and every step shortens the input
  suffices hboth : ∀ k l (s : σ) (b : List I), b.length < k → b.length < l →
      M.settleIn k s b = M.settleIn l s b from
    hboth turns (b.length + 1) s b h (Nat.lt_succ_self _)
  intro k
  induction k with
  | zero =>
      intro l s b hk
      omega
  | succ k ih =>
      intro l s b hk hl
      cases l with
      | zero => omega
      | succ l =>
          cases hstep : M.step s b with
          | wait => rw [settleIn_wait k hstep, settleIn_wait l hstep]
          | halt r n => rw [settleIn_halt k hstep, settleIn_halt l hstep]
          | next t n =>
              have htaken := M.next_taken hstep
              have hdrop : (b.drop n).length = b.length - n := List.length_drop
              rw [settleIn_next k hstep, settleIn_next l hstep]
              exact ih l t (b.drop n) (by omega) (by omega)

theorem settle_wait (h : M.step s b = .wait) : M.settle s b = .paused s b :=
  settleIn_wait _ h

theorem settle_halt (h : M.step s b = .halt r n) : M.settle s b = .halted r (b.drop n) :=
  settleIn_halt _ h

theorem settle_next (h : M.step s b = .next t n) : M.settle s b = M.settle t (b.drop n) := by
  have htaken := M.next_taken h
  have hdrop : (b.drop n).length = b.length - n := List.length_drop
  rw [settle, settleIn_next _ h]
  exact settleIn_eq_settle _ (by omega)

/-- Induction along the steps of `settle`: the three cases of one step, where
    the step that goes on may use the statement of the state it goes to. -/
theorem settle_induction (M : Machine I σ ρ) {motive : σ → List I → Prop}
    (wait : ∀ s b, M.step s b = .wait → motive s b)
    (halt : ∀ s b r n, M.step s b = .halt r n → motive s b)
    (next : ∀ s b t n, M.step s b = .next t n → motive t (b.drop n) → motive s b) :
    ∀ s b, motive s b := by
  suffices hlen : ∀ k s b, b.length < k → motive s b from
    fun s b => hlen (b.length + 1) s b (Nat.lt_succ_self _)
  intro k
  induction k with
  | zero =>
      intro s b h
      omega
  | succ k ih =>
      intro s b h
      cases hstep : M.step s b with
      | wait => exact wait s b hstep
      | halt r n => exact halt s b r n hstep
      | next t n =>
          have htaken := M.next_taken hstep
          have hdrop : (b.drop n).length = b.length - n := List.length_drop
          exact next s b t n hstep (ih t (b.drop n) (by omega))

/-- The input is used up from its front. -/
theorem pending_suffix : M.settle s b = .paused t p → ∃ used, b = used ++ p := by
  refine settle_induction M (motive := fun s b => M.settle s b = .paused t p →
    ∃ used, b = used ++ p) ?_ ?_ ?_ s b
  · intro s b hstep h
    rw [settle_wait hstep] at h
    obtain ⟨-, rfl⟩ := Settled.paused.inj h
    exact ⟨[], rfl⟩
  · intro s b r n hstep h
    rw [settle_halt hstep] at h
    cases h
  · intro s b t' n hstep ih h
    rw [settle_next hstep] at h
    obtain ⟨used, hused⟩ := ih h
    exact ⟨b.take n ++ used, by rw [List.append_assoc, ← hused, List.take_append_drop]⟩

theorem pending_length_le (h : M.settle s b = .paused t p) : p.length ≤ b.length := by
  obtain ⟨used, rfl⟩ := pending_suffix h
  rw [List.length_append]
  omega

/-- A step that is not `wait` takes place on a longer input as well. -/
theorem step_append_next (c : List I) (h : M.step s b = .next t n) :
    M.step s (b ++ c) = .next t n := by
  have hmoved : M.step s b ≠ .wait := by
    rw [h]
    intro hw
    cases hw
  rw [M.stable c hmoved, h]

theorem step_append_halt (c : List I) (h : M.step s b = .halt r n) :
    M.step s (b ++ c) = .halt r n := by
  have hmoved : M.step s b ≠ .wait := by
    rw [h]
    intro hw
    cases hw
  rw [M.stable c hmoved, h]

/-- **RESUMING IS GOING ON.** A parser that paused goes on, with more input,
    as it would have gone on with all of it from the start. -/
theorem settle_append_paused (c : List I) :
    M.settle s b = .paused t p → M.settle s (b ++ c) = M.settle t (p ++ c) := by
  refine settle_induction M (motive := fun s b => M.settle s b = .paused t p →
    M.settle s (b ++ c) = M.settle t (p ++ c)) ?_ ?_ ?_ s b
  · intro s b hstep h
    rw [settle_wait hstep] at h
    obtain ⟨rfl, rfl⟩ := Settled.paused.inj h
    rfl
  · intro s b r n hstep h
    rw [settle_halt hstep] at h
    cases h
  · intro s b t' n hstep ih h
    rw [settle_next hstep] at h
    rw [settle_next (step_append_next c hstep),
      List.drop_append_of_le_length (M.next_taken hstep).2]
    exact ih h

/-- **AN END IS FINAL.** A parser that ended leaves all further input alone. -/
theorem settle_append_halted (c : List I) :
    M.settle s b = .halted r p → M.settle s (b ++ c) = .halted r (p ++ c) := by
  refine settle_induction M (motive := fun s b => M.settle s b = .halted r p →
    M.settle s (b ++ c) = .halted r (p ++ c)) ?_ ?_ ?_ s b
  · intro s b hstep h
    rw [settle_wait hstep] at h
    cases h
  · intro s b r' n hstep h
    rw [settle_halt hstep] at h
    obtain ⟨rfl, rfl⟩ := Settled.halted.inj h
    rw [settle_halt (step_append_halt c hstep),
      List.drop_append_of_le_length (M.halt_taken hstep)]
  · intro s b t' n hstep ih h
    rw [settle_next hstep] at h
    rw [settle_next (step_append_next c hstep),
      List.drop_append_of_le_length (M.next_taken hstep).2]
    exact ih h

end Machine

end Zupt.Resumable
