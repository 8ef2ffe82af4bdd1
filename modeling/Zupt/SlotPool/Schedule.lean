import Zupt.SlotPool.Basic

/-! # One schedule

    To show what a program *can* return it is enough to look at the schedule
    in which the worker of a slot runs to the end as soon as the slot is
    submitted. -/

namespace Zupt.SlotPool

variable {J R W α β : Type}

/-- What the program returns under that schedule, from the error flag and the
    results that wait in the slots. -/
inductive Eager (pool : Pool J R) : Bool → (Nat → Option R) → Prog J R W α → α → Prop where
  | ret {flag res a} : Eager pool flag res (.ret a) a
  | submit {flag res seq job k r a} (hfree : res (seq % pool.nslots) = none)
      (hstarted : pool.started (seq % pool.nslots))
      (hwork : if flag then r = pool.cancelled else pool.work job r)
      (hrest : Eager pool (flag || pool.failed r)
        (Function.update res (seq % pool.nslots) (some r)) (k (seq % pool.nslots)) a) :
      Eager pool flag res (.submit seq job k) a
  | collect {flag res slot k r a} (hres : res slot = some r)
      (hrest : Eager pool flag (Function.update res slot none) (k r) a) :
      Eager pool flag res (.collect slot k) a
  | note {flag res w p a} (hrest : Eager pool flag res p a) : Eager pool flag res (.note w p) a

/-- All workers idle, and each slot empty or done with the result `res` has. -/
structure Settled (c : Config J R W α) (flag : Bool) (res : Nat → Option R) : Prop where
  idle : ∀ i, c.workers i = .idle
  flag_eq : c.errorFlag = flag
  empty : ∀ i, res i = none → c.slots i = .empty
  done : ∀ i r, res i = some r → ∃ id job, c.slots i = .done id job r

/-- A worker at a ready slot can run to the end: through the cancellation if
    the flag is up, and with a result of its own otherwise. -/
theorem worker_to_end {pool : Pool J R} {c : Config J R W α} {i id : Nat} {job : J} {r : R}
    (hstarted : pool.started i) (hidle : c.workers i = .idle) (hready : c.slots i = .ready id job)
    (hwork : if c.errorFlag then r = pool.cancelled else pool.work job r) :
    ∃ c', Relation.ReflTransGen (Step pool) c c' ∧ c'.main = c.main ∧
      c'.slots = Function.update c.slots i (.done id job r) ∧
      c'.workers = Function.update c.workers i .idle ∧
      c'.errorFlag = (c.errorFlag || pool.failed r) := by
  have hpick := Relation.ReflTransGen.single (Step.pick hstarted hidle hready)
  cases hflag : c.errorFlag with
  | true =>
      rw [hflag, if_pos rfl] at hwork
      subst hwork
      refine ⟨_, (hpick.tail (.cancel (Function.update_self _ _ _) hflag)).tail
        (.markCancelled (Function.update_self _ _ _)), rfl, rfl, ?_, hflag⟩
      rw [Function.update_idem, Function.update_idem]
  | false =>
      rw [hflag, if_neg (by decide)] at hwork
      refine ⟨_, ((hpick.tail (.begin (Function.update_self _ _ _) hflag)).tail
        (.finish (Function.update_self _ _ _) hwork)).tail (.mark (Function.update_self _ _ _)),
        rfl, rfl, ?_, ?_⟩
      · rw [Function.update_idem, Function.update_idem, Function.update_idem]
      · show (c.errorFlag || pool.failed r) = _
        rw [hflag]

/-- A submission and its worker, from one settled state to the next. -/
theorem settled_submit {pool : Pool J R} {c : Config J R W α} {flag : Bool} {res : Nat → Option R}
    (h : Settled c flag res) {seq : Nat} {job : J} {k : Nat → Prog J R W α}
    (hmain : c.main = .run (.submit seq job k)) (hfree : res (seq % pool.nslots) = none)
    (hstarted : pool.started (seq % pool.nslots)) {r : R}
    (hwork : if flag then r = pool.cancelled else pool.work job r) :
    ∃ c', Relation.ReflTransGen (Step pool) c c' ∧ c'.main = .run (k (seq % pool.nslots)) ∧
      Settled c' (flag || pool.failed r)
        (Function.update res (seq % pool.nslots) (some r)) := by
  obtain ⟨c₁, hsub, hmain₁, hslots₁, hworkers₁, hflag₁⟩ : ∃ c₁, Step pool c c₁ ∧
      c₁.main = .run (k (seq % pool.nslots)) ∧ c₁.slots = Function.update c.slots
        (seq % pool.nslots) (.ready c.submitted.length job) ∧ c₁.workers = c.workers ∧
      c₁.errorFlag = c.errorFlag :=
    ⟨_, Step.submit hmain (h.empty _ hfree), rfl, rfl, rfl, rfl⟩
  have hready : c₁.slots (seq % pool.nslots) = .ready c.submitted.length job := by
    rw [hslots₁, Function.update_self]
  have hidle : c₁.workers (seq % pool.nslots) = .idle := by
    rw [hworkers₁]
    exact h.idle _
  rw [← h.flag_eq, ← hflag₁] at hwork
  obtain ⟨c', hrun, hmain', hslots, hworkers, hflag⟩ :=
    worker_to_end hstarted hidle hready hwork
  rw [hslots₁, Function.update_idem] at hslots
  refine ⟨c', (Relation.ReflTransGen.single hsub).trans hrun, hmain'.trans hmain₁, ?_, ?_, ?_, ?_⟩
  · intro i
    rw [hworkers, hworkers₁]
    by_cases hi : i = seq % pool.nslots
    · rw [hi, Function.update_self]
    · rw [Function.update_of_ne hi]
      exact h.idle i
  · rw [hflag, hflag₁, h.flag_eq]
  · intro i hres
    rw [hslots]
    by_cases hi : i = seq % pool.nslots
    · rw [hi, Function.update_self] at hres
      exact nomatch hres
    · rw [Function.update_of_ne hi] at hres ⊢
      exact h.empty i hres
  · intro i r' hres
    rw [hslots]
    by_cases hi : i = seq % pool.nslots
    · rw [hi, Function.update_self] at hres
      obtain rfl := Option.some.inj hres
      exact ⟨c.submitted.length, job, by rw [hi, Function.update_self]⟩
    · rw [Function.update_of_ne hi] at hres ⊢
      exact h.done i r' hres

/-- A collection, from one settled state to the next. -/
theorem settled_collect {pool : Pool J R} {c : Config J R W α} {flag : Bool}
    {res : Nat → Option R} (h : Settled c flag res) {slot : Nat} {k : R → Prog J R W α}
    (hmain : c.main = .run (.collect slot k)) {r : R} (hres : res slot = some r) :
    ∃ c', Relation.ReflTransGen (Step pool) c c' ∧ c'.main = .run (k r) ∧
      Settled c' flag (Function.update res slot none) := by
  obtain ⟨id, job, hdone⟩ := h.done slot r hres
  refine ⟨_, (Relation.ReflTransGen.single (Step.collect hmain hdone)).tail (.release rfl), rfl,
    h.idle, h.flag_eq, ?_, ?_⟩
  · intro i hnone
    show Function.update c.slots slot .empty i = _
    by_cases hi : i = slot
    · rw [hi, Function.update_self]
    · rw [Function.update_of_ne hi] at hnone ⊢
      exact h.empty i hnone
  · intro i r' hsome
    show ∃ id job, Function.update c.slots slot .empty i = _
    by_cases hi : i = slot
    · rw [hi, Function.update_self] at hsome
      exact nomatch hsome
    · rw [Function.update_of_ne hi] at hsome ⊢
      exact h.done i r' hsome

theorem reaches_of_eager {pool : Pool J R} {flag : Bool} {res : Nat → Option R}
    {p : Prog J R W α} {a : α} (h : Eager pool flag res p a) :
    ∀ c, Settled c flag res → c.main = .run p →
      ∃ c', Relation.ReflTransGen (Step pool) c c' ∧ c'.main = .run (.ret a) := by
  induction h with
  | ret => exact fun c _ hmain => ⟨c, .refl, hmain⟩
  | submit hfree hstarted hwork _ ih =>
      intro c hc hmain
      obtain ⟨c₁, hrun, hmain₁, hc₁⟩ := settled_submit hc hmain hfree hstarted hwork
      obtain ⟨c₂, hrest, hmain₂⟩ := ih c₁ hc₁ hmain₁
      exact ⟨c₂, hrun.trans hrest, hmain₂⟩
  | collect hres _ ih =>
      intro c hc hmain
      obtain ⟨c₁, hrun, hmain₁, hc₁⟩ := settled_collect hc hmain hres
      obtain ⟨c₂, hrest, hmain₂⟩ := ih c₁ hc₁ hmain₁
      exact ⟨c₂, hrun.trans hrest, hmain₂⟩
  | note _ ih =>
      intro c hc hmain
      obtain ⟨c₂, hrest, hmain₂⟩ := ih { c with main := _, log := c.log ++ [_] }
        ⟨hc.idle, hc.flag_eq, hc.empty, hc.done⟩ rfl
      exact ⟨c₂, (Relation.ReflTransGen.single (Step.note hmain)).trans hrest, hmain₂⟩

/-- **ADEQUACY OF `Eager`**: the schedule is one of the interleavings. -/
theorem returns_of_eager {pool : Pool J R} {p : Prog J R W α} {a : α}
    (h : Eager pool false (fun _ => none) p a) : Returns pool p a := by
  have hinit : Settled (Config.initial p) false (fun _ => (none : Option R)) :=
    ⟨fun _ => rfl, rfl, fun _ _ => rfl, fun _ _ hres => (nomatch hres)⟩
  obtain ⟨c, hrun, hmain⟩ := reaches_of_eager h _ hinit rfl
  exact ⟨c, hrun, hmain⟩

/-! ## Running that schedule -/

/-- The schedule as a function, for workers that compute `work`. -/
def runEager (nslots : Nat) (work : J → R) (failed : R → Bool) (cancelled : R) :
    Bool → (Nat → Option R) → Prog J R W α → Option α
  | _, _, .ret a => some a
  | flag, res, .submit seq job k =>
      let slot := seq % nslots
      let r := if flag then cancelled else work job
      match res slot with
      | some _ => none
      | none =>
          runEager nslots work failed cancelled (flag || failed r)
            (Function.update res slot (some r)) (k slot)
  | flag, res, .collect slot k =>
      match res slot with
      | none => none
      | some r => runEager nslots work failed cancelled flag (Function.update res slot none) (k r)
  | flag, res, .note _ k => runEager nslots work failed cancelled flag res k

/-- What the function computes, the schedule returns. -/
theorem eager_of_runEager {pool : Pool J R} {work : J → R} (hstarted : ∀ i, pool.started i)
    (hwork : ∀ job, pool.work job (work job)) {flag : Bool} {res : Nat → Option R}
    {p : Prog J R W α} {a : α}
    (h : runEager pool.nslots work pool.failed pool.cancelled flag res p = some a) :
    Eager pool flag res p a := by
  induction p generalizing flag res with
  | ret b =>
      obtain rfl := Option.some.inj h
      exact .ret
  | submit seq job k ih =>
      rw [runEager] at h
      cases hfree : res (seq % pool.nslots) with
      | some r =>
          simp only [hfree] at h
          exact nomatch h
      | none =>
          simp only [hfree] at h
          refine .submit hfree (hstarted _) ?_ (ih _ h)
          cases flag with
          | true => rfl
          | false => exact hwork job
  | collect slot k ih =>
      rw [runEager] at h
      cases hres : res slot with
      | none =>
          rw [hres] at h
          exact nomatch h
      | some r =>
          rw [hres] at h
          exact .collect hres (ih r h)
  | note w k ih => exact .note (ih h)

end Zupt.SlotPool
