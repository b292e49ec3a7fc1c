import LockDb.Table
import LockDb.Shared.Mutex

/-!
# The manager's own mutexes

Every public method as the program that a thread runs: which mutex it locks, what it
does under the guard, and where the guard is dropped. The wait mutex is always the
outer lock and no shard is locked under another, so no set of threads can get stuck.
-/

namespace LockDb

set_option autoImplicit false

open Shared

inductive Mutex (bits : Nat) where
  | waits
  | shard (i : Fin (2 ^ bits))
deriving DecidableEq

/-- The wait mutex ranks below the shards; a thread locks in ascending ranks. -/
def Mutex.rank {bits : Nat} : Mutex bits → Nat
  | .waits => 0
  | .shard _ => 1

theorem Mutex.rank_lt_two {bits : Nat} (m : Mutex bits) : m.rank < 2 := by
  cases m with
  | waits => exact Nat.zero_lt_two
  | shard i => exact Nat.one_lt_two

/-- A thread's program with its result, which is of no interest unless it says otherwise. -/
abbrev Program (bits : Nat) (A : Type := Unit) := Prog (Mutex bits) (LockManager bits) A

/-- A thread's calls; each may depend on the answers so far. -/
inductive Client where
  | stop
  | call (method : Method) (next : Answer → Client)

namespace Program
variable {bits : Nat} {α A : Type}

/-- Locks, runs `f` under the guard and drops it; `k` is what follows. -/
def guarded (m : Mutex bits) (f : LockManager bits → LockManager bits × α)
    (k : α → Program bits A) : Program bits A :=
  .lock m (.act (fun self => (f self).1) fun self => .unlock m (k (f self).2))

def onShard (res : ResourceId) (f : LockManager bits → LockManager bits × α)
    (k : α → Program bits A) : Program bits A :=
  guarded (.shard (shardIndex bits res)) f k

def tryAcquire (txn : TxnId) (res : ResourceId) (mode : LockMode)
    (k : Except LockError Unit → Program bits A) : Program bits A :=
  onShard res (fun self => self.tryAcquire txn res mode) k

def release (txn : TxnId) (res : ResourceId) (k : Except LockError Unit → Program bits A) :
    Program bits A :=
  onShard res (fun self => self.release txn res) k

/-- The shard loop of `release_all`. -/
def sweep (txn : TxnId) (k : Nat → Program bits A) : List (Fin (2 ^ bits)) → Nat → Program bits A
  | [], released => k released
  | i :: is, released =>
    guarded (.shard i) (fun self => self.sweepShard txn i released) (sweep txn k is)

def releaseAll (txn : TxnId) (k : Nat → Program bits A) : Program bits A :=
  guarded .waits (fun self => ({ self with waits := self.waits.erase txn }, ())) fun _ =>
    sweep txn k (List.finRange (2 ^ bits)) 0

/-- The loop over the waiters that are still to be read, with the graph built so far. -/
def buildWaitGraph (k : WaitForGraph → Program bits A) :
    List (TxnId × ResourceId × LockMode) → WaitForGraph → Program bits A
  | [], graph => k graph
  | waiting :: rest, graph =>
    onShard waiting.2.1 (fun self => (self, self.addWaiter graph waiting)) (buildWaitGraph k rest)

def request (order : IterOrder TxnId (ResourceId × LockMode)) (txn : TxnId) (res : ResourceId)
    (mode : LockMode) (k : Acquisition → Program bits A) : Program bits A :=
  .lock .waits <| onShard res (fun self => self.grantStep txn res mode) fun granted =>
    if granted then
      .act (fun self => { self with waits := self.waits.erase txn }) fun _ =>
        .unlock .waits (k .granted)
    else
      .act (fun self => { self with waits := self.waits.insert txn (res, mode) }) fun _ =>
        .act id fun self =>
          buildWaitGraph (fun graph => .unlock .waits (k (LockManager.refusal graph txn)))
            (order.iter self.waits) .new

def cancelWait (txn : TxnId) (k : Program bits A) : Program bits A :=
  guarded .waits (fun self => (self.cancelWait txn, ())) fun _ => k

def findDeadlock (order : IterOrder TxnId (ResourceId × LockMode))
    (keyOrder : IterOrder TxnId (List TxnId)) (k : Option Deadlock → Program bits A) :
    Program bits A :=
  .lock .waits <| .act id fun self =>
    buildWaitGraph (fun graph => .unlock .waits (k (LockManager.scan graph keyOrder)))
      (order.iter self.waits) .new

def waitingCount (k : Nat → Program bits A) : Program bits A :=
  guarded .waits (fun self => (self, self.waitingCount)) k

def holderCount (res : ResourceId) (k : Nat → Program bits A) : Program bits A :=
  onShard res (fun self => (self, self.holderCount res)) k

def modeHeld (txn : TxnId) (res : ResourceId) (k : Option LockMode → Program bits A) :
    Program bits A :=
  onShard res (fun self => (self, self.modeHeld txn res)) k

def tryAcquireRange (txn : TxnId) (space : ResourceId) (range : KeyRange) (mode : LockMode)
    (k : Except LockError Unit → Program bits A) : Program bits A :=
  onShard space (fun self => self.tryAcquireRange txn space range mode) k

def releaseRange (txn : TxnId) (space : ResourceId) (range : KeyRange)
    (k : Except LockError Unit → Program bits A) : Program bits A :=
  onShard space (fun self => self.releaseRange txn space range) k

def rangeCount (space : ResourceId) (k : Nat → Program bits A) : Program bits A :=
  onShard space (fun self => (self, self.rangeCount space)) k

end Program

def Method.program {bits : Nat} {A : Type} (method : Method) (k : Answer → Program bits A) :
    Program bits A :=
  match method with
  | .op (.tryAcquire txn res mode) =>
    Program.tryAcquire txn res mode fun r => k (.outcome (.result r))
  | .op (.release txn res) => Program.release txn res fun r => k (.outcome (.result r))
  | .op (.releaseAll txn) => Program.releaseAll txn fun n => k (.outcome (.count n))
  | .op (.request order txn res mode) =>
    Program.request order txn res mode fun a => k (.outcome (.acquisition a))
  | .op (.cancelWait txn) => Program.cancelWait txn (k (.outcome .unit))
  | .op (.findDeadlock order keyOrder) =>
    Program.findDeadlock order keyOrder fun d => k (.outcome (.found d))
  | .op (.tryAcquireRange txn space range mode) =>
    Program.tryAcquireRange txn space range mode fun r => k (.outcome (.result r))
  | .op (.releaseRange txn space range) =>
    Program.releaseRange txn space range fun r => k (.outcome (.result r))
  | .waitingCount => Program.waitingCount fun n => k (.count n)
  | .holderCount res => Program.holderCount res fun n => k (.count n)
  | .modeHeld txn res => Program.modeHeld txn res fun m => k (.mode m)
  | .rangeCount space => Program.rangeCount space fun n => k (.count n)

def Client.program {bits : Nat} : Client → Program bits
  | .stop => .done ()
  | .call method next => method.program fun answer => (next answer).program

namespace Program
variable {bits : Nat} {α A : Type} {held : List (Mutex bits)}

section Ordered

theorem guarded_ordered {m : Mutex bits} (above : ∀ h ∈ held, h.rank < m.rank)
    (f : LockManager bits → LockManager bits × α) {k : α → Program bits A}
    (hk : ∀ a, (k a).Ordered Mutex.rank held) : (guarded m f k).Ordered Mutex.rank held := by
  apply Prog.Ordered.lock above
  apply Prog.Ordered.act
  intro self
  exact .unlock (hk (f self).2)

/-- A shard may be locked under the wait mutex and under nothing else. -/
theorem onShard_ordered (hheld : ∀ h ∈ held, h = .waits) (res : ResourceId)
    (f : LockManager bits → LockManager bits × α) {k : α → Program bits A}
    (hk : ∀ a, (k a).Ordered Mutex.rank held) : (onShard res f k).Ordered Mutex.rank held := by
  apply guarded_ordered _ f hk
  intro h hh
  rw [hheld h hh]
  exact Nat.zero_lt_one

theorem sweep_ordered (txn : TxnId) {k : Nat → Program bits A}
    (hk : ∀ n, (k n).Ordered Mutex.rank []) (is : List (Fin (2 ^ bits))) (released : Nat) :
    (sweep txn k is released).Ordered Mutex.rank [] := by
  induction is generalizing released with
  | nil => exact hk released
  | cons i is ih => exact guarded_ordered (by simp) _ ih

theorem buildWaitGraph_ordered {k : WaitForGraph → Program bits A}
    (hk : ∀ graph, (k graph).Ordered Mutex.rank [.waits])
    (ws : List (TxnId × ResourceId × LockMode)) (graph : WaitForGraph) :
    (buildWaitGraph k ws graph).Ordered Mutex.rank [.waits] := by
  induction ws generalizing graph with
  | nil => exact hk graph
  | cons w ws ih => exact onShard_ordered (by simp) _ _ ih

theorem request_ordered (order : IterOrder TxnId (ResourceId × LockMode)) (txn : TxnId)
    (res : ResourceId) (mode : LockMode) {k : Acquisition → Program bits A}
    (hk : ∀ a, (k a).Ordered Mutex.rank []) :
    (request order txn res mode k).Ordered Mutex.rank [] := by
  apply Prog.Ordered.lock (by simp)
  apply onShard_ordered (by simp)
  intro granted
  split
  · exact .act fun _ => .unlock (hk .granted)
  · refine .act fun _ => .act fun self => buildWaitGraph_ordered ?_ _ _
    intro graph
    exact .unlock (hk (LockManager.refusal graph txn))

end Ordered

section Alone

theorem onShard_alone (res : ResourceId) (f : LockManager bits → LockManager bits × α)
    (k : α → Program bits A) (self : LockManager bits) :
    (onShard res f k).alone self = (k (f self).2).alone (f self).1 := rfl

theorem sweep_alone (txn : TxnId) (k : Nat → Program bits A) (is : List (Fin (2 ^ bits)))
    (self : LockManager bits) (released : Nat) :
    (sweep txn k is released).alone self =
      let out := is.foldl (fun (self, released) i => self.sweepShard txn i released)
        (self, released)
      (k out.2).alone out.1 := by
  induction is generalizing self released with
  | nil => rfl
  | cons i is ih => exact ih _ _

theorem buildWaitGraph_alone (k : WaitForGraph → Program bits A)
    (ws : List (TxnId × ResourceId × LockMode)) (self : LockManager bits) (graph : WaitForGraph) :
    (buildWaitGraph k ws graph).alone self = (k (ws.foldl self.addWaiter graph)).alone self := by
  induction ws generalizing graph with
  | nil => rfl
  | cons w ws ih => exact ih _

theorem request_alone (order : IterOrder TxnId (ResourceId × LockMode)) (txn : TxnId)
    (res : ResourceId) (mode : LockMode) (k : Acquisition → Program bits A)
    (self : LockManager bits) :
    (request order txn res mode k).alone self =
      let out := self.request order txn res mode
      (k out.2).alone out.1 := by
  rw [LockManager.request_eq, request, Prog.alone, onShard_alone]
  split
  · rfl
  · exact buildWaitGraph_alone _ _ _ _

end Alone

end Program

theorem Method.program_ordered {bits : Nat} {A : Type} (method : Method)
    {k : Answer → Program bits A}
    (hk : ∀ a, (k a).Ordered Mutex.rank []) : (method.program k).Ordered Mutex.rank [] := by
  have hshard : ∀ {α : Type} (res : ResourceId) (f : LockManager bits → LockManager bits × α)
      (answer : α → Answer),
      (Program.onShard res f fun a => k (answer a)).Ordered Mutex.rank [] := by
    intro α res f answer
    exact Program.onShard_ordered (by simp) res f fun a => hk (answer a)
  cases method with
  | op op =>
    cases op with
    | tryAcquire txn res mode => exact hshard res _ fun r => .outcome (.result r)
    | release txn res => exact hshard res _ fun r => .outcome (.result r)
    | releaseAll txn =>
      rw [Method.program, Program.releaseAll]
      apply Program.guarded_ordered
      · simp
      · intro _
        exact Program.sweep_ordered txn (fun n => hk (.outcome (.count n))) _ _
    | request order txn res mode =>
      exact Program.request_ordered order txn res mode fun a => hk (.outcome (.acquisition a))
    | cancelWait txn =>
      rw [Method.program, Program.cancelWait]
      apply Program.guarded_ordered
      · simp
      · intro _
        exact hk (.outcome .unit)
    | findDeadlock order keyOrder =>
      refine .lock (by simp) (.act fun self => ?_)
      apply Program.buildWaitGraph_ordered
      intro graph
      exact .unlock (hk (.outcome (.found (LockManager.scan graph keyOrder))))
    | tryAcquireRange txn space range mode => exact hshard space _ fun r => .outcome (.result r)
    | releaseRange txn space range => exact hshard space _ fun r => .outcome (.result r)
  | waitingCount =>
    rw [Method.program, Program.waitingCount]
    apply Program.guarded_ordered
    · simp
    · intro n
      exact hk (.count n)
  | holderCount res => exact hshard res _ .count
  | modeHeld txn res => exact hshard res _ .mode
  | rangeCount space => exact hshard space _ .count

theorem Client.program_ordered {bits : Nat} (client : Client) :
    (client.program : Program bits).Ordered Mutex.rank [] := by
  induction client with
  | stop => exact .done ()
  | call method next ih => exact method.program_ordered ih

/-- A method whose steps nobody interrupts is the function that models it. -/
theorem Method.program_alone {bits : Nat} {A : Type} (method : Method) (k : Answer → Program bits A)
    (self : LockManager bits) :
    (method.program k).alone self = (k (self.perform method).2).alone (self.perform method).1 := by
  cases method with
  | op op =>
    cases op with
    | tryAcquire txn res mode => rfl
    | release txn res => rfl
    | releaseAll txn => exact Program.sweep_alone txn _ _ _ 0
    | request order txn res mode =>
      exact Program.request_alone order txn res mode (fun a => k (.outcome (.acquisition a))) self
    | cancelWait txn => rfl
    | findDeadlock order keyOrder => exact Program.buildWaitGraph_alone _ _ _ _
    | tryAcquireRange txn space range mode => rfl
    | releaseRange txn space range => rfl
  | waitingCount => rfl
  | holderCount res => rfl
  | modeHeld txn res => rfl
  | rangeCount space => rfl

/-- A thread that is not interrupted in a call ends it with its answer. -/
theorem uninterrupted_method {bits : Nat} {T : Type} [DecidableEq T]
    {c : Threads (Mutex bits) (LockManager bits) Answer T} {t : T} {method : Method}
    (hfree : ∀ m, c.owner m = none) (hp : c.prog t = method.program .done) :
    ∃ n, (c.run (List.replicate n t)).prog t = .done (c.state.perform method).2 ∧
      (c.run (List.replicate n t)).state = (c.state.perform method).1 := by
  have hguards : Threads.Guards Mutex.rank c t [] := by
    refine ⟨by simp [hfree], ?_, List.Pairwise.nil⟩
    rw [hp]
    exact method.program_ordered .done
  obtain ⟨n, hdone, hstate⟩ := hguards.run_alone fun m => .inl (hfree m)
  rw [hp, method.program_alone] at hdone hstate
  exact ⟨n, hdone, hstate⟩

/-- Any number of threads that make any calls, in any schedule: no thread locks anything while
it holds a shard, no thread holds two shards, and while some thread has not finished, some
thread can go on. -/
theorem mutexes_cannot_deadlock (bits : Nat) {T : Type} [DecidableEq T] (clients : T → Client)
    (schedule : List T) :
    let c := (Threads.start (.withShards bits) fun t => (clients t).program).run schedule
    (∀ t i, c.owner (Mutex.shard i) = some t → ∀ m rest, c.prog t ≠ .lock m rest) ∧
    (∀ t i j, c.owner (Mutex.shard i) = some t → c.owner (Mutex.shard j) = some t → i = j) ∧
    ((∃ t, c.prog t ≠ .done ()) → ∃ t, (c.step t).isSome = true) := by
  intro c
  have hdisciplined : c.Disciplined Mutex.rank :=
    (Threads.disciplined_start _ fun t => (clients t).program_ordered).run schedule
  refine ⟨?_, ?_, ?_⟩
  · intro t i hi m rest hp
    have habove : 1 < m.rank := hdisciplined.above hi hp
    have := m.rank_lt_two
    omega
  · intro t i j hi hj
    exact Mutex.shard.inj (hdisciplined.eq_of_rank hi hj rfl)
  · intro hunfinished
    obtain ⟨t, ht⟩ := hunfinished
    exact hdisciplined.progress Mutex.rank_lt_two fun _ => ht

end LockDb
