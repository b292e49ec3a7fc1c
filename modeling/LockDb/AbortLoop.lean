import LockDb.Detection

/-!
# The detect-abort-retry loop

One request can close several cycles at once, and each call reports one of them.
All of them pass through the requester, and every other victim leaves the wait
map for good, so the loop ends and no cycle is left.
-/

namespace LockDb

set_option autoImplicit false

open Shared Shared.Multimap Relation

/-- What the loop did: the state and answer it ended with, and the states in which its
requests answered with a deadlock. -/
structure LoopRun (bits : Nat) where
  last : LockManager bits
  answer : Acquisition
  deadlocks : List (LockManager bits)

namespace LockManager
variable {bits : Nat}

/-- Requests until the answer is `granted` or `waiting` or the requester is the victim;
every victim is released. At most `fuel` requests are made. -/
def retryLoop (orders : Nat → IterOrder TxnId (ResourceId × LockMode)) (txn : TxnId)
    (res : ResourceId) (mode : LockMode) : Nat → LockManager bits → Option (LoopRun bits)
  | 0, _ => none
  | fuel + 1, self =>
    let (self, answer) := self.request (orders fuel) txn res mode
    match answer with
    | .deadlock d =>
      let next := (self.releaseAll d.victim).1
      if d.victim = txn then some ⟨next, answer, [self]⟩
      else (retryLoop orders txn res mode fuel next).map fun run =>
        { run with deadlocks := self :: run.deadlocks }
    | _ => some ⟨self, answer, []⟩

/-- The calls of such a loop, each from the state that the one before it left: a request, and
after a deadlock the victim's `release_all`. -/
inductive Calls (txn : TxnId) (res : ResourceId) (mode : LockMode) :
    LockManager bits → LoopRun bits → Prop where
  | granted {self next : LockManager bits} {order : IterOrder TxnId (ResourceId × LockMode)}
      (request : self.request order txn res mode = (next, .granted)) :
      Calls txn res mode self ⟨next, .granted, []⟩
  | waiting {self next : LockManager bits} {order : IterOrder TxnId (ResourceId × LockMode)}
      (request : self.request order txn res mode = (next, .waiting)) :
      Calls txn res mode self ⟨next, .waiting, []⟩
  | aborted {self next : LockManager bits} {order : IterOrder TxnId (ResourceId × LockMode)}
      {d : Deadlock} (request : self.request order txn res mode = (next, .deadlock d))
      (victim : d.victim = txn) :
      Calls txn res mode self ⟨(next.releaseAll d.victim).1, .deadlock d, [next]⟩
  | retried {self next : LockManager bits} {order : IterOrder TxnId (ResourceId × LockMode)}
      {d : Deadlock} {run : LoopRun bits}
      (request : self.request order txn res mode = (next, .deadlock d)) (victim : d.victim ≠ txn)
      (rest : Calls txn res mode (next.releaseAll d.victim).1 run) :
      Calls txn res mode self { run with deadlocks := next :: run.deadlocks }

/-- What the last answer says about the state that the loop leaves. -/
def Answered (txn : TxnId) (res : ResourceId) (mode : LockMode) (run : LoopRun bits) : Prop :=
  match run.answer with
  | .granted => run.last.waits.lookup txn = none ∧
    ∃ held, run.last.modeHeld txn res = some held ∧ held.covers mode = true
  | .waiting => run.last.waits.lookup txn = some (res, mode) ∧
    ¬ run.last.Grantable txn res mode
  | .deadlock d => d.victim = txn ∧ run.last.waits.lookup txn = none ∧
    ∀ r, run.last.modeHeld txn r = none

def othersWaiting (self : LockManager bits) (txn : TxnId) : Nat := (self.waits.erase txn).keys.card

def AllThrough (self : LockManager bits) (txn : TxnId) : Prop :=
  ∀ c, IsCycle self.WaitsFor c → txn ∈ c

variable {self next : LockManager bits} {txn : TxnId} {res : ResourceId} {mode : LockMode}

theorem AllThrough.shrink (h : self.AllThrough txn)
    (hedges : ∀ a b, next.WaitsFor a b → self.WaitsFor a b) :
    next.AllThrough txn := fun c hc => h c (hc.imp hedges)

theorem AllThrough.acyclic_of_unregistered (h : self.AllThrough txn)
    (hnone : self.waits.lookup txn = none) : Acyclic self.WaitsFor := by
  intro c hc
  obtain ⟨w, hw⟩ := registered_of_cycle hc (h c hc)
  rw [hnone] at hw
  simp at hw

theorem Inv.releaseAll (h : self.Inv) (v : TxnId) : (self.releaseAll v).1.Inv :=
  h.exec (.releaseAll v)

theorem AllThrough.releaseAll (hinv : self.Inv) (h : self.AllThrough txn) (v : TxnId) :
    (self.releaseAll v).1.AllThrough txn :=
  h.shrink (@Inv.exec_shrinks _ _ hinv (.releaseAll v) (by simp) (by simp))

theorem AllThrough.abort (hinv : self.Inv) (h : self.AllThrough txn) :
    Acyclic (self.releaseAll txn).1.WaitsFor := by
  apply (h.releaseAll hinv txn).acyclic_of_unregistered
  rw [releaseAll_waits, lookup_erase_eq, if_pos rfl]

/-- Everything one request of the loop can do. -/
inductive RequestCase (self : LockManager bits) (txn : TxnId) :
    LockManager bits × Acquisition → Prop where
  | granted {next : LockManager bits} (acyclic : Acyclic next.WaitsFor) :
      RequestCase self txn (next, .granted)
  | waiting {next : LockManager bits} (acyclic : Acyclic next.WaitsFor) :
      RequestCase self txn (next, .waiting)
  | deadlock {next : LockManager bits} {d : Deadlock} (through : next.AllThrough txn)
      (waits : ∀ t, t ≠ txn → next.waits.lookup t = self.waits.lookup t)
      (report : Reported next.WaitsFor d) : RequestCase self txn (next, .deadlock d)

theorem AllThrough.registerWait (h : self.AllThrough txn) (res : ResourceId) (mode : LockMode) :
    (self.enter (.registerWait txn res mode)).AllThrough txn := by
  intro c hc
  by_contra htxn
  exact htxn (h c (cycle_of_register hc htxn))

/-- The search starts where every cycle passes, so it misses none. -/
theorem AllThrough.acyclic_of_waiting (hinv : self.Inv) (h : self.AllThrough txn)
    {order : IterOrder TxnId (ResourceId × LockMode)}
    (hwaiting : refusal (self.buildWaitGraph order) txn = .waiting) : Acyclic self.WaitsFor := by
  intro c hc
  refine absurd (h c hc) (@Inv.refusal_waiting _ _ hinv order txn ?_ c hc)
  intro d hd
  rw [hwaiting] at hd
  simp at hd

theorem AllThrough.acyclic_of_granted (h : self.AllThrough txn)
    (held : next.modeHeld = LockTable.heldGrant self.modeHeld txn res mode)
    (waits : next.waits = self.waits.erase txn) : Acyclic next.WaitsFor := by
  intro c hc
  obtain ⟨htxn, hold⟩ := cycle_of_granted_request held waits hc
  exact htxn (h c hold)

theorem AllThrough.request_cases (hinv : self.Inv) (h : self.AllThrough txn)
    (order : IterOrder TxnId (ResourceId × LockMode)) (res : ResourceId) (mode : LockMode) :
    (self.request order txn res mode).1.Inv ∧
      RequestCase self txn (self.request order txn res mode) := by
  refine ⟨hinv.exec (.request order txn res mode), ?_⟩
  rcases hinv.request_cases order txn res mode with ⟨_, next, hr, held, waits⟩ | ⟨_, hr⟩
  · rw [hr]
    exact .granted (h.acyclic_of_granted held waits)
  · rw [hr]
    have hnext : (self.enter (.registerWait txn res mode)).Inv := hinv.enter _
    have hthrough := h.registerWait res mode
    have hwaits : ∀ t, t ≠ txn →
        (self.enter (.registerWait txn res mode)).waits.lookup t = self.waits.lookup t := by
      intro t ht
      exact (lookup_insert_eq _ _ _ _).trans (if_neg ht)
    generalize hanswer :
      refusal ((self.enter (.registerWait txn res mode)).buildWaitGraph order) txn = answer
    cases answer with
    | granted => exact absurd hanswer (refusal_ne_granted _ _)
    | deadlock d => exact .deadlock hthrough hwaits (hnext.refusal_deadlock hanswer).1
    | waiting => exact .waiting (hthrough.acyclic_of_waiting hnext hanswer)

theorem othersWaiting_lt {v : TxnId} (hne : v ≠ txn) (hv : self.Registered v)
    (hwaits : ∀ t, t ≠ txn → next.waits.lookup t = self.waits.lookup t) :
    (next.releaseAll v).1.othersWaiting txn < self.othersWaiting txn := by
  have heq : (next.releaseAll v).1.waits.erase txn = (self.waits.erase txn).erase v := by
    apply Finmap.ext_lookup
    intro t
    simp only [releaseAll_waits, lookup_erase_eq]
    by_cases ht : t = txn
    · simp [ht]
    · simp [ht, hwaits t ht]
  have hmem : v ∈ (self.waits.erase txn).keys := by
    obtain ⟨w, hw⟩ := hv
    have hlookup : (self.waits.erase txn).lookup v = some w := by
      rw [lookup_erase_eq, if_neg hne, hw]
    exact Finmap.mem_keys.mpr (Finmap.mem_of_lookup_eq_some hlookup)
  unfold othersWaiting
  rw [heq, Finmap.keys_erase]
  exact Finset.card_erase_lt_of_mem hmem

theorem AllThrough.loop_ends (orders : Nat → IterOrder TxnId (ResourceId × LockMode)) (txn : TxnId)
    (res : ResourceId) (mode : LockMode) (fuel : Nat) {self : LockManager bits} (hinv : self.Inv)
    (h : self.AllThrough txn) (hfuel : self.othersWaiting txn < fuel) :
    ∃ run, retryLoop orders txn res mode fuel self = some run ∧ Calls txn res mode self run ∧
      run.deadlocks.length ≤ self.othersWaiting txn + 1 ∧ Acyclic run.last.WaitsFor ∧
      ∀ s ∈ run.deadlocks, Acyclic (s.releaseAll txn).1.WaitsFor := by
  induction fuel generalizing self with
  | zero => omega
  | succ fuel ih =>
    obtain ⟨hnext, hcase⟩ := h.request_cases hinv (orders fuel) res mode
    unfold retryLoop
    generalize hrequest : self.request (orders fuel) txn res mode = out at hcase hnext
    cases hcase with
    | @granted next acyclic => exact ⟨_, rfl, .granted hrequest, by simp, acyclic, by simp⟩
    | @waiting next acyclic => exact ⟨_, rfl, .waiting hrequest, by simp, acyclic, by simp⟩
    | @deadlock next d through waits report =>
      have habort := through.abort hnext
      simp only
      split
      · next hvictim =>
        exact ⟨_, rfl, .aborted hrequest hvictim, by simp, hvictim ▸ habort, by simpa using habort⟩
      · next hvictim =>
        -- the victim leaves the wait map, so fewer others are left for the next turn
        have hregistered : self.Registered d.victim := by
          obtain ⟨w, hw⟩ := registered_of_cycle report.cycle report.victim_mem
          exact ⟨w, (waits _ hvictim).symm.trans hw⟩
        have hlt := othersWaiting_lt hvictim hregistered waits
        have hless : (next.releaseAll d.victim).1.othersWaiting txn < fuel := by omega
        obtain ⟨run, hrun, hcalls, hlen, hacyclic, hall⟩ :=
          ih (hnext.releaseAll d.victim) (through.releaseAll hnext d.victim) hless
        have hcount : run.deadlocks.length ≤ (next.releaseAll d.victim).1.othersWaiting txn + 1 :=
          hlen
        rw [hrun]
        refine ⟨_, rfl, .retried hrequest hvictim hcalls, ?_, hacyclic, ?_⟩
        · simp only [List.length_cons]
          omega
        · intro s hs
          rcases List.mem_cons.mp hs with rfl | hs
          · exact habort
          · exact hall s hs

theorem Inv.request_answered (hinv : self.Inv) {order : IterOrder TxnId (ResourceId × LockMode)}
    {a : Acquisition} (hrequest : self.request order txn res mode = (next, a)) :
    (a = .granted → next.waits.lookup txn = none ∧
      ∃ held, next.modeHeld txn res = some held ∧ held.covers mode = true) ∧
    (a ≠ .granted → next.waits.lookup txn = some (res, mode) ∧
      ¬ next.Grantable txn res mode) := by
  rcases hinv.request_cases order txn res mode with ⟨_, _, hr, held, waits⟩ | ⟨blocked, hr⟩
  · obtain ⟨rfl, rfl⟩ := Prod.mk.inj (hrequest.symm.trans hr)
    refine ⟨fun _ => ⟨?_, _, ?_, LockMode.le_iff_covers.mp (le_raise (self.modeHeld txn res) mode)⟩,
      fun hne => absurd rfl hne⟩
    · rw [waits, lookup_erase_eq, if_pos rfl]
    · rw [held, LockTable.heldGrant, if_pos ⟨rfl, rfl⟩]
  · obtain ⟨rfl, rfl⟩ := Prod.mk.inj (hrequest.symm.trans hr)
    exact ⟨fun hgranted => absurd hgranted (refusal_ne_granted _ _),
      fun _ => ⟨Finmap.lookup_insert _, blocked⟩⟩

theorem Calls.answered {run : LoopRun bits} (hinv : self.Inv) (h : Calls txn res mode self run) :
    Answered txn res mode run := by
  induction h with
  | granted hrequest => exact (hinv.request_answered hrequest).1 rfl
  | waiting hrequest => exact (hinv.request_answered hrequest).2 (by simp)
  | @aborted self next order d hrequest victim =>
    have hnext : next.Inv := by
      have h := hinv.exec (.request order txn res mode)
      rwa [exec, hrequest] at h
    refine ⟨victim, ?_, fun r => ?_⟩
    · rw [releaseAll_waits, lookup_erase_eq, if_pos victim.symm]
    · rw [hnext.releaseAll_modeHeld, LockTable.heldDropAll, if_pos victim.symm]
  | @retried self next order d run hrequest _ _ ih =>
    apply ih
    have h := hinv.exec (.request order txn res mode)
    rw [exec, hrequest] at h
    exact Inv.releaseAll h d.victim

end LockManager

/-- From an acyclic state the loop ends, within as many deadlocks as others were waiting plus
one, and leaves an acyclic state, in which its last answer holds. It has made no calls but
requests and the `release_all` of each victim. -/
theorem request_loop_resolves {bits : Nat} (ops : List Op)
    (hacyclic : Acyclic (replay LockManager.exec (.withShards bits) ops).1.WaitsFor)
    (orders : Nat → IterOrder TxnId (ResourceId × LockMode)) (txn : TxnId) (res : ResourceId)
    (mode : LockMode) (fuel : Nat)
    (hfuel : (replay LockManager.exec (.withShards bits) ops).1.othersWaiting txn < fuel) :
    let self := (replay LockManager.exec (.withShards bits) ops).1
    ∃ run, LockManager.retryLoop orders txn res mode fuel self = some run ∧
      LockManager.Calls txn res mode self run ∧ LockManager.Answered txn res mode run ∧
      run.deadlocks.length ≤ self.othersWaiting txn + 1 ∧ Acyclic run.last.WaitsFor ∧
      ∀ s ∈ run.deadlocks, Acyclic (s.releaseAll txn).1.WaitsFor := by
  intro self
  have hinv : self.Inv := LockManager.inv_replay bits ops
  have hthrough : self.AllThrough txn := fun c hc => absurd hc (hacyclic c)
  obtain ⟨run, hrun, hcalls, hrest⟩ := hthrough.loop_ends orders txn res mode fuel hinv hfuel
  exact ⟨run, hrun, hcalls, hcalls.answered hinv, hrest⟩

/-- Transaction 2 waits for transaction 1, which then asks for what transaction 2 holds. -/
theorem request_loop_resolves_crossed :
    let ops : List Op := [.request .sorted ⟨1⟩ ⟨1⟩ .exclusive, .request .sorted ⟨2⟩ ⟨2⟩ .exclusive,
      .request .sorted ⟨2⟩ ⟨1⟩ .exclusive]
    let self := (replay LockManager.exec (.withShards 4) ops).1
    ∃ run, LockManager.retryLoop (fun _ => .sorted) ⟨1⟩ ⟨2⟩ .exclusive 2 self = some run ∧
      run.answer = .granted ∧ run.deadlocks.length = 1 ∧ Acyclic run.last.WaitsFor := by
  intro ops self
  have hinv : self.Inv := LockManager.inv_replay 4 ops
  have hnone : self.findDeadlock .sorted .sorted = none := by decide +kernel
  obtain ⟨run, hrun, _, _, _, hacyclic, _⟩ := request_loop_resolves ops
    (hinv.findDeadlock_none hnone) (fun _ => .sorted) ⟨1⟩ ⟨2⟩ .exclusive 2 (by decide +kernel)
  have hend : (LockManager.retryLoop (fun _ => .sorted) ⟨1⟩ ⟨2⟩ .exclusive 2 self).map
      (fun run => (run.answer, run.deadlocks.length)) = some (.granted, 1) := by decide +kernel
  rw [hrun] at hend
  simp only [Option.map_some, Option.some.injEq, Prod.mk.injEq] at hend
  exact ⟨run, hrun, hend.1, hend.2, hacyclic⟩

end LockDb
