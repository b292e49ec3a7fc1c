import LockDb.Bookkeeping
import LockDb.Detection
import LockDb.GrantHistory

/-!
# Waits as histories

A transaction is registered with its last refused request, until that is granted or given up.
With the grants, this is all that detection depends on: what a client called and was
answered decides the next answer.
-/

namespace LockDb

set_option autoImplicit false

open Shared Shared.Multimap Relation

section WaitHistory
variable {bits : Nat} {self : LockManager bits}
variable {trace : List (Event (LockManager bits) Op Outcome)}

/-- The last refused request of `t`, if it has not since been granted one, cancelled its wait or
released everything. -/
def openWait (t : TxnId) :
    List (Event (LockManager bits) Op Outcome) → Option (ResourceId × LockMode)
  | [] => none
  | e :: trace =>
    match e.op, e.out with
    | .request _ u _ _, .acquisition .granted => if t = u then none else openWait t trace
    | .request _ u r m, _ => if t = u then some (r, m) else openWait t trace
    | .cancelWait u, _ => if t = u then none else openWait t trace
    | .releaseAll u, _ => if t = u then none else openWait t trace
    | _, _ => openWait t trace

/-- The registered waits are the open ones. -/
def WaitsOpen (trace : List (Event (LockManager bits) Op Outcome)) (self : LockManager bits) :
    Prop :=
  ∀ t, self.waits.lookup t = openWait t trace

theorem openWait_refused {order : IterOrder TxnId (ResourceId × LockMode)} {txn t : TxnId}
    {res : ResourceId} {mode : LockMode} {a : Acquisition} {next : LockManager bits}
    (ha : a ≠ .granted) :
    openWait t (⟨.request order txn res mode, .acquisition a, next⟩ :: trace) =
      if t = txn then some (res, mode) else openWait t trace := by
  cases a with
  | granted => exact absurd rfl ha
  | waiting => rfl
  | deadlock d => rfl

theorem WaitsOpen.exec (hinv : self.Inv) (h : WaitsOpen trace self) (op : Op) :
    WaitsOpen (⟨op, (self.exec op).2, (self.exec op).1⟩ :: trace) (self.exec op).1 := by
  intro t
  have hold := h t
  have hcase := hinv.exec_cases op
  generalize self.exec op = out at hcase
  cases hcase with
  | granted _ _ waits => simp only [waits, lookup_erase_eq, hold, openWait]
  | refused _ =>
    rw [openWait_refused (refusal_ne_granted _ _), ← hold]
    exact lookup_insert_eq _ _ _ _
  | releasedAll _ waits => simp only [waits, lookup_erase_eq, hold, openWait]
  | cancelled =>
    rw [openWait, ← hold]
    exact lookup_erase_eq _ _ _
  | acquired _ _ waits => rwa [waits]
  | released _ _ waits => rwa [waits]
  | rangeAcquire _ waits => rwa [waits]
  | rangeRelease _ waits => rwa [waits]
  | conflict _ => exact hold
  | notHeld _ => exact hold
  | scanned => exact hold

/-- `t` waits for `u`, read off the calls and their answers. -/
def WaitsSince (trace : List (Event (LockManager bits) Op Outcome)) : TxnId → TxnId → Prop :=
  Shared.WaitsFor (fun t r => joinAll (grantsSince t r trace)) fun t => openWait t trace

/-- The manager keeps nothing that its history does not say. -/
structure Remembered (trace : List (Event (LockManager bits) Op Outcome))
    (lm : LockManager bits) : Prop where
  inv : lm.Inv
  held : Accounted trace lm
  waits : WaitsOpen trace lm

theorem Remembered.exec (h : Remembered trace self) (op : Op) :
    Remembered (⟨op, (self.exec op).2, (self.exec op).1⟩ :: trace) (self.exec op).1 :=
  ⟨h.inv.exec op, h.held.exec h.inv op, h.waits.exec h.inv op⟩

theorem remembered (bits : Nat) (ops : List Op) :
    let run := Run.record LockManager.exec [] (.withShards bits) ops
    Remembered run.1 run.2 := by
  apply LockManager.recorded_invariant (P := Remembered)
  · refine ⟨LockManager.inv_withShards bits, fun t r => rfl, fun t => ?_⟩
    simp [LockManager.withShards, openWait]
  · intro trace self op _ h
    exact h.exec op

theorem Remembered.waitsFor (h : Remembered trace self) : self.WaitsFor = WaitsSince trace := by
  rw [LockManager.waitsFor_eq, WaitsSince, funext h.waits]
  congr 1
  funext t r
  exact h.held t r

theorem Remembered.grantable_iff (h : Remembered trace self) (txn : TxnId) (res : ResourceId)
    (mode : LockMode) : self.Grantable txn res mode ↔ ∀ u a, u ≠ txn →
      joinAll (grantsSince u res trace) = some a → a.compatibleWith mode = true := by
  have hheld : ∀ u, self.modeHeld u res = joinAll (grantsSince u res trace) := fun u => h.held u res
  simp only [LockManager.Grantable, hheld]

theorem LockManager.Inv.exec_request (h : self.Inv)
    (order : IterOrder TxnId (ResourceId × LockMode))
    (txn : TxnId) (res : ResourceId) (mode : LockMode) :
    (self.Grantable txn res mode ∧
      (self.exec (.request order txn res mode)).2 = .acquisition .granted) ∨
    (¬ self.Grantable txn res mode ∧ self.exec (.request order txn res mode) =
      (self.enter (.registerWait txn res mode), .acquisition (LockManager.refusal
        ((self.enter (.registerWait txn res mode)).buildWaitGraph order) txn))) := by
  simp only [LockManager.exec]
  rcases h.request_cases order txn res mode with ⟨free, next, hr, _, _⟩ | ⟨blocked, hr⟩
  · exact .inl ⟨free, by rw [hr]⟩
  · exact .inr ⟨blocked, by rw [hr]⟩

theorem Remembered.request_granted_iff (h : Remembered trace self)
    (order : IterOrder TxnId (ResourceId × LockMode)) (txn : TxnId) (res : ResourceId)
    (mode : LockMode) :
    (self.exec (.request order txn res mode)).2 = .acquisition .granted ↔ ∀ u a, u ≠ txn →
      joinAll (grantsSince u res trace) = some a → a.compatibleWith mode = true := by
  rw [← h.grantable_iff]
  rcases h.inv.exec_request order txn res mode with ⟨free, hout⟩ | ⟨blocked, hout⟩
  · simp [hout, free]
  · simp [hout, blocked, refusal_ne_granted]

theorem Remembered.request_deadlock_iff (h : Remembered trace self)
    (order : IterOrder TxnId (ResourceId × LockMode)) (txn : TxnId) (res : ResourceId)
    (mode : LockMode) :
    let out := self.exec (.request order txn res mode)
    let history := ⟨.request order txn res mode, out.2, out.1⟩ :: trace
    (∃ d, out.2 = .acquisition (.deadlock d)) ↔ out.2 ≠ .acquisition .granted ∧
      ∃ c, IsCycle (WaitsSince history) c ∧
        ∃ v ∈ c, ReflTransGen (WaitsSince history) txn v := by
  intro out history
  have hnext : out.1.WaitsFor = WaitsSince history := (h.exec _).waitsFor
  rw [← hnext]
  rcases h.inv.exec_request order txn res mode with ⟨_, hout⟩ | ⟨_, hout⟩
  · simp [out, hout]
  · have hinv : (self.enter (.registerWait txn res mode)).Inv := h.inv.enter _
    simp only [out, hout]
    constructor
    · rintro ⟨d, hd⟩
      obtain ⟨hreport, hreach⟩ := hinv.refusal_deadlock (Outcome.acquisition.inj hd)
      refine ⟨?_, d.cycle, hreport.cycle, d.victim, hreport.victim_mem,
        hreach d.victim hreport.victim_mem⟩
      simp [hd]
    · rintro ⟨_, c, hc, v, hv, hreach⟩
      by_contra hnone
      rw [← hinv.buildWaitGraph_waits order] at hc hreach
      refine refusal_waiting (fun d hd => hnone ⟨d, ?_⟩) hc hv hreach
      rw [hd]

end WaitHistory

/-- After any calls, what the next `request` and the next scan answer is decided by the calls
and answers so far: by the grants not released since and the requests still open. -/
theorem detection_from_history (bits : Nat) (ops : List Op) :
    let run := Run.record LockManager.exec [] (.withShards bits) ops
    (∀ t, run.2.waits.lookup t = openWait t run.1) ∧
    run.2.waitingCount = Set.ncard {t | openWait t run.1 ≠ none} ∧
    (∀ order keyOrder, ((∃ d, run.2.findDeadlock order keyOrder = some d) ↔
        ∃ c, IsCycle (WaitsSince run.1) c) ∧
      ∀ d, run.2.findDeadlock order keyOrder = some d → Reported (WaitsSince run.1) d) ∧
    ∀ order txn res mode,
      let out := run.2.exec (.request order txn res mode)
      let history := ⟨.request order txn res mode, out.2, out.1⟩ :: run.1
      (out.2 = .acquisition .granted ↔ ∀ u a, u ≠ txn →
        joinAll (grantsSince u res run.1) = some a → a.compatibleWith mode = true) ∧
      ((∃ d, out.2 = .acquisition (.deadlock d)) ↔ out.2 ≠ .acquisition .granted ∧
        ∃ c, IsCycle (WaitsSince history) c ∧
          ∃ v ∈ c, ReflTransGen (WaitsSince history) txn v) := by
  intro run
  have h : Remembered run.1 run.2 := remembered bits ops
  refine ⟨h.waits, ?_, fun order keyOrder => ⟨?_, fun d hd => ?_⟩, ?_⟩
  · have hwaits : ∀ t, run.2.waits.lookup t = openWait t run.1 := h.waits
    simp only [run.2.waitingCount_eq, hwaits]
  · rw [h.inv.findDeadlock_some_iff, h.waitsFor]
  · rw [← h.waitsFor]
    exact h.inv.findDeadlock_some hd
  · intro order txn res mode out history
    exact ⟨h.request_granted_iff order txn res mode, h.request_deadlock_iff order txn res mode⟩

end LockDb
