import LockDb.WaitFor

/-!
# Held modes as histories

What a transaction holds on a resource is the join of the grants it got there
since it last let go; no call of another transaction is part of that history.
-/

namespace LockDb

set_option autoImplicit false

open Shared

section GrantHistory
variable {bits : Nat} {self : LockManager bits}

/-- The modes granted to `t` on `r` since it last released `r` or everything, newest first. -/
def grantsSince (t : TxnId) (r : ResourceId) :
    List (Event (LockManager bits) Op Outcome) → List LockMode
  | [] => []
  | e :: trace =>
    match e.op, e.out with
    | .tryAcquire u s m, .result (.ok ()) =>
      if t = u ∧ r = s then m :: grantsSince t r trace else grantsSince t r trace
    | .request _ u s m, .acquisition .granted =>
      if t = u ∧ r = s then m :: grantsSince t r trace else grantsSince t r trace
    | .release u s, .result (.ok ()) => if t = u ∧ r = s then [] else grantsSince t r trace
    | .releaseAll u, _ => if t = u then [] else grantsSince t r trace
    | _, _ => grantsSince t r trace

/-- What is held is what the history adds up to. -/
def Accounted (trace : List (Event (LockManager bits) Op Outcome)) (self : LockManager bits) :
    Prop :=
  ∀ t r, self.modeHeld t r = joinAll (grantsSince t r trace)

theorem Accounted.exec {trace : List (Event (LockManager bits) Op Outcome)} (hinv : self.Inv)
    (h : Accounted trace self) (op : Op) :
    Accounted (⟨op, (self.exec op).2, (self.exec op).1⟩ :: trace) (self.exec op).1 := by
  intro t r
  have hold := h t r
  have hcase := hinv.exec_cases op
  generalize self.exec op = out at hcase
  cases hcase with
  | acquired _ held _ =>
    simp only [held, LockTable.heldGrant, grantsSince]
    split
    · next heq => rw [joinAll, ← hold, heq.1, heq.2]
    · exact hold
  | granted _ held _ =>
    simp only [held, LockTable.heldGrant, grantsSince]
    split
    · next heq => rw [joinAll, ← hold, heq.1, heq.2]
    · exact hold
  | released _ held _ =>
    simp only [held, LockTable.heldDrop, grantsSince]
    split
    · rfl
    · exact hold
  | releasedAll held _ =>
    simp only [held, LockTable.heldDropAll, grantsSince]
    split
    · rfl
    · exact hold
  | refused _ =>
    have hsame : ∀ a : Acquisition, a ≠ .granted → ∀ order u s m next,
        grantsSince t r (⟨.request order u s m, .acquisition a, next⟩ :: trace) =
          grantsSince t r trace := by
      intro a ha order u s m next
      cases a with
      | granted => exact absurd rfl ha
      | waiting => rfl
      | deadlock d => rfl
    rw [hsame _ (refusal_ne_granted _ _)]
    exact hold
  | rangeAcquire held _ => rwa [held]
  | rangeRelease held _ => rwa [held]
  | conflict _ => exact hold
  | notHeld _ => exact hold
  | cancelled => exact hold
  | scanned => exact hold

end GrantHistory

end LockDb
