import LockDb.Detection

/-!
# Workers that acquire with the documented loop

Each transaction has one worker, which acquires a list of locks with the loop
that aborts whatever victim it is told of. A worker is not told that another one
aborted its transaction: its next request is answered as if nothing had
happened. What it acquired since then it holds; what it had before is gone.
-/

namespace LockDb

set_option autoImplicit false

open Shared Shared.Multimap

/-- Where a worker stands: inside or between acquisitions, about to abort a victim it was
told of, returned false, or done. -/
inductive Status where
  | running
  | aborting (victim : TxnId)
  | failed
  | released
deriving DecidableEq

/-- Every acquisition so far returned true, and the worker has not released. -/
def Status.sound : Status → Bool
  | .running => true
  | .aborting _ => true
  | .failed => false
  | .released => false

structure Worker where
  todo : List (ResourceId × LockMode)
  acquired : List (ResourceId × LockMode)
  status : Status
deriving DecidableEq

/-- A worker after the answer to its request for the first entry of its list. -/
def Worker.answered (w : Worker) (res : ResourceId) (mode : LockMode)
    (todo : List (ResourceId × LockMode)) : Acquisition → Worker
  | .granted => { w with todo := todo, acquired := w.acquired ++ [(res, mode)] }
  | .waiting => w
  | .deadlock d => { w with status := .aborting d.victim }

/-- The call a worker made in its turn. -/
inductive Made where
  | requested (res : ResourceId) (mode : LockMode) (answer : Acquisition)
  | releasedAll (txn : TxnId)
  | nothing
deriving DecidableEq

structure Turn where
  txn : TxnId
  order : IterOrder TxnId (ResourceId × LockMode)

structure Workers (bits : Nat) where
  table : LockManager bits
  worker : TxnId → Worker

namespace Workers
variable {bits : Nat}

def init (bits : Nat) (plan : TxnId → List (ResourceId × LockMode)) : Workers bits :=
  ⟨.withShards bits, fun t => ⟨plan t, [], .running⟩⟩

/-- `acquire_or_abort` for each entry of `todo`, one manager call at a time, and
`release_all` after the last of them or after a false result. -/
def step (self : Workers bits) (turn : Turn) : Workers bits × Made :=
  let w := self.worker turn.txn
  let update := fun w => Function.update self.worker turn.txn w
  match w.status with
  | .running =>
    match w.todo with
    | [] => (⟨(self.table.releaseAll turn.txn).1, update { w with status := .released }⟩,
        .releasedAll turn.txn)
    | (res, mode) :: todo =>
      let (table, answer) := self.table.request turn.order turn.txn res mode
      (⟨table, update (w.answered res mode todo answer)⟩, .requested res mode answer)
  | .aborting victim =>
    (⟨(self.table.releaseAll victim).1,
      update { w with status := if victim = turn.txn then .failed else .running }⟩,
        .releasedAll victim)
  | .failed => (⟨(self.table.releaseAll turn.txn).1, update { w with status := .released }⟩,
      .releasedAll turn.txn)
  | .released => (self, .nothing)

/-- Everything a turn can do. -/
inductive StepCase (self : Workers bits) (turn : Turn) : Workers bits × Made → Prop where
  | released (victim : TxnId) (w : Worker) (acquired : w.acquired = (self.worker turn.txn).acquired)
      (sound : w.status.sound = true →
        (self.worker turn.txn).status.sound = true ∧ victim ≠ turn.txn) :
      StepCase self turn
        (⟨(self.table.releaseAll victim).1, Function.update self.worker turn.txn w⟩,
          .releasedAll victim)
  | granted (res : ResourceId) (mode : LockMode) (w : Worker)
      (answer : (self.table.request turn.order turn.txn res mode).2 = .granted)
      (acquired : w.acquired = (self.worker turn.txn).acquired ++ [(res, mode)])
      (sound : (self.worker turn.txn).status.sound = true) :
      StepCase self turn
        (⟨(self.table.request turn.order turn.txn res mode).1,
          Function.update self.worker turn.txn w⟩,
          .requested res mode .granted)
  | refused (res : ResourceId) (mode : LockMode) (w : Worker) (answer : Acquisition)
      (refused : answer ≠ .granted)
      (acquired : w.acquired = (self.worker turn.txn).acquired)
      (sound : (self.worker turn.txn).status.sound = true) :
      StepCase self turn
        (⟨(self.table.request turn.order turn.txn res mode).1,
          Function.update self.worker turn.txn w⟩,
          .requested res mode answer)
  | nothing : StepCase self turn (self, .nothing)

theorem step_cases (self : Workers bits) (turn : Turn) : StepCase self turn (self.step turn) := by
  cases hs : (self.worker turn.txn).status with
  | running =>
    have hsound : (self.worker turn.txn).status.sound = true := by rw [hs]; rfl
    cases ht : (self.worker turn.txn).todo with
    | nil =>
      simp only [step, hs, ht]
      exact .released _ _ rfl fun h => absurd h Bool.false_ne_true
    | cons lock todo =>
      simp only [step, hs, ht]
      cases ha : (self.table.request turn.order turn.txn lock.1 lock.2).2 with
      | granted => exact .granted lock.1 lock.2 _ ha rfl hsound
      | waiting => exact .refused lock.1 lock.2 _ _ (by simp) rfl hsound
      | deadlock d => exact .refused lock.1 lock.2 _ _ (by simp) rfl hsound
  | aborting victim =>
    simp only [step, hs]
    refine .released _ _ rfl fun h => ⟨by rw [hs]; rfl, fun hv => ?_⟩
    rw [if_pos hv] at h
    exact absurd h Bool.false_ne_true
  | failed =>
    simp only [step, hs]
    exact .released _ _ rfl fun h => absurd h Bool.false_ne_true
  | released =>
    simp only [step, hs]
    exact .nothing

end Workers

section TwoPhase
variable {bits : Nat}

def Covered (table : LockManager bits) (txn : TxnId) (lock : ResourceId × LockMode) : Prop :=
  ∃ held, table.modeHeld txn lock.1 = some held ∧ held.covers lock.2 = true

/-- What `txn` was granted since the last `release_all` of it; the trace is newest first. -/
def acquiredSince (txn : TxnId) :
    List (Event (Workers bits) Turn Made) → List (ResourceId × LockMode)
  | [] => []
  | e :: trace =>
    match e.out with
    | .requested res mode .granted =>
      if e.op.txn = txn then (res, mode) :: acquiredSince txn trace else acquiredSince txn trace
    | .releasedAll t => if t = txn then [] else acquiredSince txn trace
    | _ => acquiredSince txn trace

variable {table next : LockManager bits} {t txn : TxnId} {lock : ResourceId × LockMode}

theorem Covered.of_grant (h : Covered table t lock) {res : ResourceId} {mode : LockMode}
    (held : next.modeHeld = LockTable.heldGrant table.modeHeld txn res mode) :
    Covered next t lock := by
  obtain ⟨a, ha, hcover⟩ := h
  obtain ⟨b, hb, hle⟩ := LockTable.le_heldGrant ha txn res mode
  refine ⟨b, by rw [held, hb], ?_⟩
  exact le_trans (LockMode.le_iff_covers.mpr hcover) hle

theorem request_covers (hinv : table.Inv) (order : IterOrder TxnId (ResourceId × LockMode))
    (txn : TxnId) (res : ResourceId) (mode : LockMode) :
    (Covered table t lock → Covered (table.request order txn res mode).1 t lock) ∧
    ((table.request order txn res mode).2 = .granted →
      Covered (table.request order txn res mode).1 txn (res, mode)) := by
  rcases hinv.request_cases order txn res mode with ⟨_, next, hr, held, _⟩ | ⟨_, hr⟩
  · rw [hr]
    refine ⟨fun h => h.of_grant held, fun _ => ?_⟩
    refine ⟨raise (table.modeHeld txn res) mode, by simp [held, LockTable.heldGrant], ?_⟩
    exact LockMode.le_iff_covers.mp (le_raise _ mode)
  · rw [hr]
    exact ⟨fun h => h, fun h => absurd h (refusal_ne_granted _ _)⟩

theorem releaseAll_covers (hinv : table.Inv) (h : Covered table t lock) (hne : t ≠ txn) :
    Covered (table.releaseAll txn).1 t lock := by
  obtain ⟨a, ha, hcover⟩ := h
  refine ⟨a, ?_, hcover⟩
  rw [hinv.releaseAll_modeHeld]
  simpa [LockTable.heldDropAll, hne] using ha

def NotAborted (txn : TxnId) (trace : List (Event (Workers bits) Turn Made)) : Prop :=
  ∀ e ∈ trace, e.op.txn ≠ txn → e.out ≠ .releasedAll txn

/-- What was acquired since the last release is held; without a release by another worker
that is everything a sound worker acquired. -/
structure Kept (trace : List (Event (Workers bits) Turn Made)) (c : Workers bits) : Prop where
  inv : c.table.Inv
  held : ∀ t, ∀ lock ∈ acquiredSince t trace, Covered c.table t lock
  all : ∀ t, (c.worker t).status.sound = true → NotAborted t trace →
    ∀ lock ∈ (c.worker t).acquired, lock ∈ acquiredSince t trace

variable {trace : List (Event (Workers bits) Turn Made)} {c : Workers bits}

theorem NotAborted.tail {e : Event (Workers bits) Turn Made} (h : NotAborted txn (e :: trace)) :
    NotAborted txn trace := fun e' he' => h e' (List.mem_cons_of_mem e he')

section Turns
variable {turn : Turn} {w : Worker} {res : ResourceId} {mode : LockMode}

theorem Kept.released (h : Kept trace c) {victim : TxnId}
    (hacquired : w.acquired = (c.worker turn.txn).acquired)
    (hsound : w.status.sound = true →
      (c.worker turn.txn).status.sound = true ∧ victim ≠ turn.txn) {next : Workers bits}
    (hnext : next = ⟨(c.table.releaseAll victim).1, Function.update c.worker turn.txn w⟩) :
    Kept (⟨turn, .releasedAll victim, next⟩ :: trace) next := by
  subst hnext
  refine ⟨h.inv.exec (.releaseAll victim), ?_, ?_⟩
  · intro t lock hm
    simp only [acquiredSince] at hm
    split at hm
    · simp at hm
    · next hne => exact releaseAll_covers h.inv (h.held t lock hm) (Ne.symm hne)
  · intro t ht hno lock hm
    by_cases htt : t = turn.txn
    · subst htt
      simp only [Function.update_self] at ht hm
      obtain ⟨hold, hne⟩ := hsound ht
      rw [hacquired] at hm
      simp only [acquiredSince, if_neg hne]
      exact h.all _ hold hno.tail lock hm
    · simp only [Function.update_of_ne htt] at ht hm
      have hne : victim ≠ t := by
        rintro rfl
        exact hno _ List.mem_cons_self (Ne.symm htt) rfl
      simp only [acquiredSince, if_neg hne]
      exact h.all t ht hno.tail lock hm

theorem Kept.granted (h : Kept trace c)
    (hanswer : (c.table.request turn.order turn.txn res mode).2 = .granted)
    (hacquired : w.acquired = (c.worker turn.txn).acquired ++ [(res, mode)])
    (hsound : (c.worker turn.txn).status.sound = true) {next : Workers bits}
    (hnext : next = ⟨(c.table.request turn.order turn.txn res mode).1,
      Function.update c.worker turn.txn w⟩) :
    Kept (⟨turn, .requested res mode .granted, next⟩ :: trace) next := by
  subst hnext
  refine ⟨h.inv.exec (.request turn.order turn.txn res mode), ?_, ?_⟩
  · intro t lock hm
    have hcovers : ∀ {lock}, Covered c.table t lock →
        Covered (c.table.request turn.order turn.txn res mode).1 t lock :=
      (request_covers h.inv turn.order turn.txn res mode).1
    simp only [acquiredSince] at hm
    split at hm
    · next heq =>
      subst heq
      rcases List.mem_cons.mp hm with rfl | hm
      · have hnew := @request_covers _ _ turn.txn (res, mode) h.inv turn.order turn.txn res mode
        exact hnew.2 hanswer
      · exact hcovers (h.held _ lock hm)
    · exact hcovers (h.held t lock hm)
  · intro t ht hno lock hm
    by_cases htt : t = turn.txn
    · subst htt
      simp only [Function.update_self, hacquired, List.mem_append, List.mem_singleton] at hm
      simp only [acquiredSince, if_true, List.mem_cons]
      rcases hm with hm | rfl
      · exact .inr (h.all _ hsound hno.tail lock hm)
      · exact .inl rfl
    · simp only [Function.update_of_ne htt] at ht hm
      simp only [acquiredSince, if_neg (Ne.symm htt)]
      exact h.all t ht hno.tail lock hm

theorem Kept.refused (h : Kept trace c) {answer : Acquisition} (hrefused : answer ≠ .granted)
    (hacquired : w.acquired = (c.worker turn.txn).acquired)
    (hsound : (c.worker turn.txn).status.sound = true) {next : Workers bits}
    (hnext : next = ⟨(c.table.request turn.order turn.txn res mode).1,
      Function.update c.worker turn.txn w⟩) :
    Kept (⟨turn, .requested res mode answer, next⟩ :: trace) next := by
  have hsame : ∀ t, acquiredSince t (⟨turn, .requested res mode answer, next⟩ :: trace) =
      acquiredSince t trace := by
    intro t
    cases answer with
    | granted => exact absurd rfl hrefused
    | waiting => rfl
    | deadlock d => rfl
  subst hnext
  refine ⟨h.inv.exec (.request turn.order turn.txn res mode), ?_, ?_⟩
  · intro t lock hm
    rw [hsame] at hm
    exact (request_covers h.inv turn.order turn.txn res mode).1 (h.held t lock hm)
  · intro t ht hno lock hm
    rw [hsame]
    by_cases htt : t = turn.txn
    · subst htt
      simp only [Function.update_self, hacquired] at hm
      exact h.all _ hsound hno.tail lock hm
    · simp only [Function.update_of_ne htt] at ht hm
      exact h.all t ht hno.tail lock hm

end Turns

theorem Kept.step (h : Kept trace c) (turn : Turn) :
    Kept (⟨turn, (c.step turn).2, (c.step turn).1⟩ :: trace) (c.step turn).1 := by
  have hcase := c.step_cases turn
  generalize c.step turn = out at hcase
  cases hcase with
  | released victim w hacquired hsound => exact h.released hacquired hsound rfl
  | granted res mode w hanswer hacquired hsound => exact h.granted hanswer hacquired hsound rfl
  | refused res mode w answer hrefused hacquired hsound =>
    exact h.refused hrefused hacquired hsound rfl
  | nothing => exact ⟨h.inv, h.held, fun t ht hno lock hm => h.all t ht hno.tail lock hm⟩

/-- A worker whose acquisitions all returned true holds what it acquired since the last time
another worker aborted its transaction, and everything if none did. -/
theorem acquired_since_abort_held (plan : TxnId → List (ResourceId × LockMode))
    (run : Run Workers.step (fun _ _ => True) (Workers.init bits plan) trace c) (t : TxnId)
    (hsound : (c.worker t).status.sound = true) :
    (∀ lock ∈ acquiredSince t trace, Covered c.table t lock) ∧
    (NotAborted t trace → ∀ lock ∈ (c.worker t).acquired, Covered c.table t lock) := by
  have hkept : Kept trace c := by
    apply run.trace_invariant (P := Kept)
    · exact ⟨LockManager.inv_withShards bits, by simp [acquiredSince], by simp [Workers.init]⟩
    · intro trace c turn _ h
      exact h.step turn
  refine ⟨hkept.held t, ?_⟩
  intro hno lock hm
  exact hkept.held t lock (hkept.all t hsound hno lock hm)

end TwoPhase

def crossedPlan (t : TxnId) : List (ResourceId × LockMode) :=
  if t = ⟨1⟩ then [(⟨1⟩, .exclusive), (⟨2⟩, .exclusive)]
  else if t = ⟨2⟩ then [(⟨2⟩, .exclusive), (⟨1⟩, .exclusive)] else []

def turns (ids : List UInt64) : List Turn := ids.map fun id => ⟨⟨id⟩, .sorted⟩

/-- Worker 1 aborts transaction 2, which then gets its second lock; worker 3 has nothing to do
with them. -/
theorem acquired_since_abort_held_crossed :
    let plan := Function.update crossedPlan ⟨3⟩ [(⟨3⟩, .shared)]
    let run := Run.record Workers.step [] (Workers.init 2 plan) (turns [3, 1, 2, 2, 1, 1, 1, 1, 2])
    acquiredSince ⟨2⟩ run.1 = [(⟨1⟩, .exclusive)] ∧
      Covered run.2.table ⟨2⟩ (⟨1⟩, .exclusive) ∧
      (run.2.worker ⟨3⟩).acquired = [(⟨3⟩, .shared)] ∧
      Covered run.2.table ⟨3⟩ (⟨3⟩, .shared) := by
  intro plan run
  have hrun : Run Workers.step (fun _ _ => True) (Workers.init 2 plan) run.1 run.2 :=
    Run.recorded_all _ _ _
  have hsince : acquiredSince ⟨2⟩ run.1 = [(⟨1⟩, .exclusive)] := by decide +kernel
  have hacquired : (run.2.worker ⟨3⟩).acquired = [(⟨3⟩, .shared)] := by decide +kernel
  have hno : NotAborted ⟨3⟩ run.1 := by
    have hall : run.1.all (fun e => e.op.txn = ⟨3⟩ || e.out ≠ .releasedAll ⟨3⟩) = true := by
      decide +kernel
    intro e he hne
    simpa [hne] using List.all_eq_true.mp hall e he
  refine ⟨hsince, ?_, hacquired, ?_⟩
  · apply (acquired_since_abort_held plan hrun ⟨2⟩ (by decide +kernel)).1
    rw [hsince]
    exact List.mem_cons_self
  · apply (acquired_since_abort_held plan hrun ⟨3⟩ (by decide +kernel)).2 hno
    rw [hacquired]
    exact List.mem_cons_self

/-- The victim's worker gets both its acquisitions answered with true, and holds only one
of the two locks: the other went when worker 1 aborted it. -/
theorem victim_lost_lock :
    ¬ ∀ (bits : Nat) (plan : TxnId → List (ResourceId × LockMode))
      (trace : List (Event (Workers bits) Turn Made)) (c : Workers bits),
      Run Workers.step (fun _ _ => True) (Workers.init bits plan) trace c →
      ∀ t, (c.worker t).status.sound = true →
        ∀ lock ∈ (c.worker t).acquired, Covered c.table t lock := by
  intro hall
  let run :=
    Run.record Workers.step [] (Workers.init 2 crossedPlan) (turns [1, 2, 2, 1, 1, 1, 1, 2])
  have hrun : Run Workers.step (fun _ _ => True) (Workers.init 2 crossedPlan) run.1 run.2 :=
    Run.recorded_all _ _ _
  have hworker : run.2.worker ⟨2⟩ = ⟨[], [(⟨2⟩, .exclusive), (⟨1⟩, .exclusive)], .running⟩ := by
    decide +kernel
  have hlost : run.2.table.modeHeld ⟨2⟩ ⟨2⟩ = none := by decide +kernel
  obtain ⟨held, hheld, _⟩ := hall 2 crossedPlan run.1 run.2 hrun ⟨2⟩ (by rw [hworker]; rfl)
    (⟨2⟩, .exclusive) (by rw [hworker]; simp)
  rw [hlost] at hheld
  simp at hheld

end LockDb
