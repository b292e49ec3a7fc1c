import LockDb.Detection

/-!
# Waits that outlive their grant

A grant through `request` clears the wait of the transaction; a grant through
`try_acquire` does not. As long as no `try_acquire` hands a registered
transaction what it is waiting for, every member of a reported cycle is stuck.
Otherwise a cycle can be reported whose members are not.
-/

namespace LockDb

set_option autoImplicit false

open Shared Shared.Multimap

section Stuck
variable {bits : Nat}

def refuses (txn : TxnId) (res : ResourceId) (mode : LockMode)
    (e : Event (LockManager bits) Op Outcome) : Bool :=
  match e.op, e.out with
  | .request _ t r m, .acquisition a => t = txn && r = res && m = mode && a ≠ .granted
  | _, _ => false

/-- The event grants `txn` a lock on `res` and leaves it holding a mode that covers `mode`. -/
def grantsCover (txn : TxnId) (res : ResourceId) (mode : LockMode)
    (e : Event (LockManager bits) Op Outcome) : Bool :=
  let covered := (e.after.modeHeld txn res).any fun m => m.covers mode
  match e.op, e.out with
  | .tryAcquire t r _, .result (.ok ()) => t = txn && r = res && covered
  | .request _ t r _, .acquisition .granted => t = txn && r = res && covered
  | _, _ => false

/-- The request was refused, and no grant since then covers it; the trace is newest first. -/
def stuckSince (txn : TxnId) (res : ResourceId) (mode : LockMode) :
    List (Event (LockManager bits) Op Outcome) → Bool
  | [] => false
  | e :: trace =>
    refuses txn res mode e || (!grantsCover txn res mode e && stuckSince txn res mode trace)

def Reports (e : Event (LockManager bits) Op Outcome) (d : Deadlock) : Prop :=
  e.out = .acquisition (.deadlock d) ∨ e.out = .found (some d)

/-- The call is not a `try_acquire` that would hand a registered transaction the very
lock it waits for: another holder is in the way, or the mode it would end up with
does not cover what it asked for. -/
def KeepsWaits (self : LockManager bits) : Op → Prop
  | .tryAcquire txn res mode => ∀ wanted, self.waits.lookup txn = some (res, wanted) →
      ¬ self.Grantable txn res mode ∨ (raise (self.modeHeld txn res) mode).covers wanted = false
  | _ => True

def WaitersStuck (trace : List (Event (LockManager bits) Op Outcome)) (self : LockManager bits) :
    Prop :=
  ∀ t r m, self.waits.lookup t = some (r, m) → stuckSince t r m trace = true

variable {trace : List (Event (LockManager bits) Op Outcome)} {self next : LockManager bits}

theorem stuckSince_cons {e : Event (LockManager bits) Op Outcome} {t : TxnId} {r : ResourceId}
    {m : LockMode} (h : stuckSince t r m trace = true) (hno : grantsCover t r m e = false) :
    stuckSince t r m (e :: trace) = true := by
  simp [stuckSince, h, hno]

theorem WaitersStuck.idle {e : Event (LockManager bits) Op Outcome} (h : WaitersStuck trace self)
    (hno : ∀ t r m, grantsCover t r m e = false)
    (hwaits : ∀ t w, next.waits.lookup t = some w → self.waits.lookup t = some w) :
    WaitersStuck (e :: trace) next := by
  intro t r m hw
  exact stuckSince_cons (h t r m (hwaits t _ hw)) (hno t r m)

theorem WaitersStuck.exec (hinv : self.Inv) (h : WaitersStuck trace self) {op : Op}
    (ok : KeepsWaits self op) :
    WaitersStuck (⟨op, (self.exec op).2, (self.exec op).1⟩ :: trace) (self.exec op).1 := by
  have hcase := hinv.exec_cases op
  have hold := @LockManager.Inv.exec_waits _ _ hinv op
  generalize self.exec op = out at hcase hold
  cases hcase with
  | @acquired txn res mode next free held waits =>
    intro t r m hw
    rw [waits] at hw
    apply stuckSince_cons (h t r m hw)
    simp only [grantsCover, Bool.and_eq_false_iff, decide_eq_false_iff_not]
    by_cases hgrant : txn = t ∧ res = r
    · obtain ⟨rfl, rfl⟩ := hgrant
      right
      rcases ok m hw with hblocked | hcover
      · exact absurd free hblocked
      · simp [held, LockTable.heldGrant, hcover]
    · tauto
  | conflict _ => exact h.idle (fun _ _ _ => rfl) (hold (by simp))
  | released _ _ _ => exact h.idle (fun _ _ _ => rfl) (hold (by simp))
  | notHeld _ => exact h.idle (fun _ _ _ => rfl) (hold (by simp))
  | releasedAll _ _ => exact h.idle (fun _ _ _ => rfl) (hold (by simp))
  | @granted order txn res mode next _ _ waits =>
    intro t r m hw
    rw [waits, lookup_erase_eq] at hw
    split at hw
    · simp at hw
    · next hne =>
      apply stuckSince_cons (h t r m hw)
      simp [grantsCover, Ne.symm hne]
  | @refused order txn res mode _ =>
    intro t r m hw
    have hw' : ((self.waits.insert txn (res, mode)).lookup t) = some (r, m) := hw
    rw [lookup_insert_eq] at hw'
    split at hw'
    · next heq =>
      simp only [Option.some.injEq, Prod.mk.injEq] at hw'
      obtain ⟨rfl, rfl⟩ := hw'
      subst heq
      simp [stuckSince, refuses, refusal_ne_granted]
    · apply stuckSince_cons (h t r m hw')
      have hne := refusal_ne_granted
        ((self.enter (.registerWait txn res mode)).buildWaitGraph order) txn
      unfold grantsCover
      split
      · next heq => simp at heq
      · next heq =>
        simp only [Outcome.acquisition.injEq] at heq
        exact absurd heq hne
      · rfl
  | cancelled => exact h.idle (fun _ _ _ => rfl) (hold (by simp))
  | scanned => exact h.idle (fun _ _ _ => rfl) (hold (by simp))
  | rangeAcquire _ _ => exact h.idle (fun _ _ _ => rfl) (hold (by simp))
  | rangeRelease _ _ => exact h.idle (fun _ _ _ => rfl) (hold (by simp))

/-- The members of a reported cycle are registered in the state the report leaves. -/
theorem reported_registered (hinv : self.Inv) {op : Op} {d : Deadlock}
    (h : Reports ⟨op, (self.exec op).2, (self.exec op).1⟩ d) {t : TxnId} (ht : t ∈ d.cycle) :
    (self.exec op).1.Registered t := by
  have hcase := hinv.exec_cases op
  have hnext := hinv.exec op
  generalize self.exec op = out at hcase hnext h
  cases hcase with
  | @refused order txn res mode _ =>
    rcases h with h | h
    · simp only [Outcome.acquisition.injEq] at h
      exact LockManager.registered_of_cycle (hnext.refusal_deadlock h).1.cycle ht
    · simp at h
  | scanned =>
    rcases h with h | h
    · simp at h
    · simp only [Outcome.found.injEq] at h
      exact LockManager.registered_of_cycle (hinv.findDeadlock_some h).cycle ht
  | granted _ _ _ => simp [Reports] at h
  | acquired _ _ _ => simp [Reports] at h
  | conflict _ => simp [Reports] at h
  | released _ _ _ => simp [Reports] at h
  | notHeld _ => simp [Reports] at h
  | releasedAll _ _ => simp [Reports] at h
  | cancelled => simp [Reports] at h
  | rangeAcquire _ _ => simp [Reports] at h
  | rangeRelease _ _ => simp [Reports] at h

/-- In a run whose calls all keep waits, every member of a reported cycle is stuck. -/
theorem reported_members_stuck {e : Event (LockManager bits) Op Outcome}
    (run : Run LockManager.exec KeepsWaits (.withShards bits) (e :: trace) self) {d : Deadlock}
    (h : Reports e d) {t : TxnId} (ht : t ∈ d.cycle) :
    ∃ res mode, self.waits.lookup t = some (res, mode) ∧
      stuckSince t res mode (e :: trace) = true := by
  have hstuck : WaitersStuck (e :: trace) self := by
    apply LockManager.run_invariant (P := WaitersStuck) _ _ run
    · intro t r m hw
      simp [LockManager.withShards] at hw
    · intro tr s op hinv ok h
      exact h.exec hinv ok
  have hregistered : self.Registered t := by
    cases run with
    | step run op ok => exact reported_registered (LockManager.run_inv run) h ht
  obtain ⟨⟨res, mode⟩, hw⟩ := hregistered
  exact ⟨res, mode, hw, hstuck t res mode hw⟩

end Stuck

/-- Transaction 1 waits for an exclusive lock; meanwhile `try_acquire` refuses it that lock and
grants it a shared one, which does not end the wait. -/
def triedWhileWaiting : List Op :=
  [.request .sorted ⟨1⟩ ⟨1⟩ .exclusive, .request .sorted ⟨2⟩ ⟨2⟩ .shared,
    .request .sorted ⟨1⟩ ⟨2⟩ .exclusive, .tryAcquire ⟨1⟩ ⟨2⟩ .exclusive,
    .tryAcquire ⟨1⟩ ⟨2⟩ .shared, .request .sorted ⟨2⟩ ⟨1⟩ .exclusive]

theorem reported_members_stuck_crossed :
    let run := Run.record LockManager.exec [] (.withShards 4) triedWhileWaiting
    run.2.modeHeld ⟨1⟩ ⟨2⟩ = some .shared ∧
      ∃ res mode, run.2.waits.lookup ⟨1⟩ = some (res, mode) ∧
        stuckSince ⟨1⟩ res mode run.1 = true := by
  intro run
  have hrun : Run LockManager.exec KeepsWaits (.withShards 4) run.1 run.2 := by
    refine Run.start.recorded ⟨trivial, trivial, trivial, fun _ _ => .inl fun hfree => ?_,
      fun wanted hw => .inr ?_, trivial, trivial⟩
    · exact absurd (hfree ⟨2⟩ .shared (by decide) (by decide +kernel)) (by decide)
    · revert hw
      cases wanted <;> decide +kernel
  have hlast : run.1.head?.map Event.out = some (.acquisition (.deadlock ⟨⟨2⟩, [⟨2⟩, ⟨1⟩]⟩)) := by
    decide +kernel
  refine ⟨by decide +kernel, ?_⟩
  obtain ⟨e, trace, he⟩ : ∃ e trace, run.1 = e :: trace := ⟨_, _, rfl⟩
  rw [he] at hrun hlast ⊢
  exact reported_members_stuck hrun (.inl (by simpa using hlast)) (by decide)

/-- Transaction 2 waits for resource 1, obtains it through `try_acquire` once it is free,
gives it back, and is then reported as still waiting for it. -/
def grantedThenReported : List Op :=
  [.request .sorted ⟨1⟩ ⟨1⟩ .exclusive, .request .sorted ⟨2⟩ ⟨2⟩ .exclusive,
    .request .sorted ⟨2⟩ ⟨1⟩ .exclusive, .releaseAll ⟨1⟩, .tryAcquire ⟨2⟩ ⟨1⟩ .exclusive,
    .release ⟨2⟩ ⟨1⟩, .request .sorted ⟨1⟩ ⟨1⟩ .exclusive, .request .sorted ⟨1⟩ ⟨2⟩ .exclusive]

theorem granted_waiter_reported :
    ¬ ∀ (bits : Nat) (e : Event (LockManager bits) Op Outcome)
      (trace : List (Event (LockManager bits) Op Outcome)) (self : LockManager bits),
      Run LockManager.exec (fun _ _ => True) (.withShards bits) (e :: trace) self →
      ∀ d, Reports e d → ∀ t ∈ d.cycle,
        ∃ res mode, self.waits.lookup t = some (res, mode) ∧
          stuckSince t res mode (e :: trace) = true := by
  intro hall
  let run := Run.record LockManager.exec [] (.withShards 4) grantedThenReported
  have hrun : Run LockManager.exec (fun _ _ => True) (.withShards 4) run.1 run.2 :=
    Run.recorded_all _ _ _
  have hlast : run.1.head?.map Event.out = some (.acquisition (.deadlock ⟨⟨2⟩, [⟨1⟩, ⟨2⟩]⟩)) := by
    decide +kernel
  have hwait : run.2.waits.lookup ⟨2⟩ = some (⟨1⟩, .exclusive) := by decide +kernel
  have hgranted : stuckSince ⟨2⟩ ⟨1⟩ .exclusive run.1 = false := by decide +kernel
  obtain ⟨e, trace, he⟩ : ∃ e trace, run.1 = e :: trace := ⟨_, _, rfl⟩
  rw [he] at hrun hlast hgranted
  obtain ⟨res, mode, hw, hstuck⟩ :=
    hall 4 e trace run.2 hrun _ (.inl (by simpa using hlast)) ⟨2⟩ (by decide)
  rw [hwait] at hw
  simp only [Option.some.injEq, Prod.mk.injEq] at hw
  obtain ⟨rfl, rfl⟩ := hw
  rw [hgranted] at hstuck
  exact Bool.false_ne_true hstuck

end LockDb
