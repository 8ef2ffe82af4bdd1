import Zupt.SlotPool.Schedule
import Zupt.SlotPool.Wlp

/-! # Programs that leave the pool alone

    A program that neither submits nor collects returns one value, whatever
    the pool is and whatever its workers do. -/

namespace Zupt.SlotPool

variable {J R W α β : Type}

/-- What a program returns that does not use the pool. -/
def Prog.alone : Prog J R W α → Option α
  | .ret a => some a
  | .submit _ _ _ => none
  | .collect _ _ => none
  | .note _ k => k.alone

/-- One such program after the other. -/
theorem alone_bind {p : Prog J R W α} {g : α → Prog J R W β} {a : α} (h : p.alone = some a) :
    (p >>= g).alone = (g a).alone := by
  induction p with
  | ret b =>
      obtain rfl := Option.some.inj h
      rfl
  | submit seq job k ih => exact nomatch h
  | collect slot k ih => exact nomatch h
  | note w k ih => exact ih h

theorem eager_of_alone {pool : Pool J R} {flag : Bool} {res : Nat → Option R}
    {p : Prog J R W α} {a : α} (h : p.alone = some a) : Eager pool flag res p a := by
  induction p with
  | ret b =>
      obtain rfl := Option.some.inj h
      exact .ret
  | submit seq job k ih => exact nomatch h
  | collect slot k ih => exact nomatch h
  | note w k ih => exact .note (ih h)

theorem wlp_of_alone {pool : Pool J R} {σ : Track J} {p : Prog J R W α} {a : α}
    (h : p.alone = some a) : wlp pool (fun _ => True) σ p fun _ b => b = a := by
  induction p with
  | ret b => exact Option.some.inj h
  | submit seq job k ih => exact nomatch h
  | collect slot k ih => exact nomatch h
  | note w k ih => exact ⟨trivial, ih h⟩

/-- **ONE OUTCOME**: the program returns its value, and nothing else. -/
theorem returns_iff_of_alone {pool : Pool J R} {p : Prog J R W α} {a : α}
    (h : p.alone = some a) (b : α) : Returns pool p b ↔ b = a := by
  constructor
  · exact fun hb => wlp_returns (wlp_of_alone h) hb
  · rintro rfl
    exact returns_of_eager (eager_of_alone h)

end Zupt.SlotPool
