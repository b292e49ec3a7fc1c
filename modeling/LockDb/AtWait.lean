import LockDb.AbortLoop
import LockDb.Blockers

/-!
# Detection at the wait

From a table without a cycle, the search that a request makes from its own transaction
agrees with a scan of all waiters, and a reported cycle begins with the requester. One
request may close several cycles: releasing the named victim breaks those through it.
-/

namespace LockDb

set_option autoImplicit false

open Shared Shared.Multimap Relation

namespace LockManager
variable {bits : Nat} {self next : LockManager bits} {txn victim : TxnId} {res : ResourceId}
variable {mode : LockMode} {c : List TxnId}

theorem refusal_cycleFrom {graph : WaitForGraph} {d : Deadlock}
    (h : refusal graph txn = .deadlock d) : graph.cycleFrom txn = some d.cycle := by
  unfold refusal at h
  split at h
  · next cycle hcycle =>
    obtain rfl : _ = d := by simpa using h
    exact hcycle
  · simp at h

/-- A cycle through the requester is reported from the requester on. -/
theorem Inv.refusal_head (h : self.Inv) {order : IterOrder TxnId (ResourceId × LockMode)}
    {d : Deadlock} (hd : refusal (self.buildWaitGraph order) txn = .deadlock d)
    (htxn : txn ∈ d.cycle) : ∃ rest, d.cycle = txn :: rest ∧ txn ∉ rest := by
  have hhead := WaitForGraph.cycleFrom_head _ (refusal_cycleFrom hd) htxn
  obtain ⟨rest, hrest⟩ := List.head?_eq_some_iff.mp hhead
  have hnodup := (h.refusal_deadlock hd).1.nodup
  rw [hrest] at hnodup
  exact ⟨rest, hrest, (List.nodup_cons.mp hnodup).1⟩

/-- What a request answers when no cycle was there before it. -/
inductive AtWait (self : LockManager bits) (txn : TxnId) (res : ResourceId) (mode : LockMode) :
    LockManager bits × Acquisition → Prop where
  | granted {next : LockManager bits} (free : self.Grantable txn res mode)
      (acyclic : Acyclic next.WaitsFor) : AtWait self txn res mode (next, .granted)
  | waiting {next : LockManager bits} (blocked : ¬ self.Grantable txn res mode)
      (acyclic : Acyclic next.WaitsFor) : AtWait self txn res mode (next, .waiting)
  | deadlock {next : LockManager bits} {d : Deadlock} {rest : List TxnId}
      (blocked : ¬ self.Grantable txn res mode) (through : next.AllThrough txn)
      (report : Reported next.WaitsFor d) (head : d.cycle = txn :: rest) (once : txn ∉ rest) :
      AtWait self txn res mode (next, .deadlock d)

theorem Inv.request_atWait (hinv : self.Inv) (hacyclic : Acyclic self.WaitsFor)
    (order : IterOrder TxnId (ResourceId × LockMode)) (txn : TxnId) (res : ResourceId)
    (mode : LockMode) : AtWait self txn res mode (self.request order txn res mode) := by
  -- without a cycle, every cycle passes through the requester
  have hall : self.AllThrough txn := fun c hc => absurd hc (hacyclic c)
  rcases hinv.request_cases order txn res mode with ⟨free, next, hr, held, waits⟩ | ⟨blocked, hr⟩
  · rw [hr]
    exact .granted free (hall.acyclic_of_granted held waits)
  · rw [hr]
    have hnext : (self.enter (.registerWait txn res mode)).Inv := hinv.enter _
    have hthrough := hall.registerWait res mode
    generalize hanswer :
      refusal ((self.enter (.registerWait txn res mode)).buildWaitGraph order) txn = answer
    cases answer with
    | granted => exact absurd hanswer (refusal_ne_granted _ _)
    | deadlock d =>
      have hreport := (hnext.refusal_deadlock hanswer).1
      obtain ⟨rest, hhead, honce⟩ := hnext.refusal_head hanswer (hthrough _ hreport.cycle)
      exact .deadlock blocked hthrough hreport hhead honce
    | waiting => exact .waiting blocked (hthrough.acyclic_of_waiting hnext hanswer)

theorem Inv.releaseAll_waitsFor (h : self.Inv) {a b : TxnId} (ha : a ≠ victim) (hb : b ≠ victim) :
    (self.releaseAll victim).1.WaitsFor a b ↔ self.WaitsFor a b := by
  have hwaits : (self.releaseAll victim).1.waits.lookup a = self.waits.lookup a := by
    rw [releaseAll_waits, lookup_erase_eq, if_neg ha]
  have hheld : ∀ r, (self.releaseAll victim).1.modeHeld b r = self.modeHeld b r := by
    intro r
    rw [h.releaseAll_modeHeld, LockTable.heldDropAll, if_neg hb]
  rw [waitsFor_eq, waitsFor_eq]
  constructor
  · exact fun hab => hab.agree hwaits hheld
  · exact fun hab => hab.agree hwaits.symm fun r => (hheld r).symm

/-- A release of everything breaks the cycles through its transaction and no others. -/
theorem Inv.releaseAll_cycle_iff (h : self.Inv) (victim : TxnId) (c : List TxnId) :
    IsCycle (self.releaseAll victim).1.WaitsFor c ↔ IsCycle self.WaitsFor c ∧ victim ∉ c := by
  apply IsCycle.cut_iff
  · intro b
    rw [waitsFor_eq]
    apply waitsFor_of_none
    rw [releaseAll_waits, lookup_erase_eq, if_pos rfl]
  · intro a b ha hb
    exact h.releaseAll_waitsFor ha hb

end LockManager

/-- From an acyclic state, detection at the wait and the full scan agree, in any iteration
orders, and a reported cycle begins with the requester. -/
theorem request_agrees_with_scan (bits : Nat) (moves : List (LockManager.Move bits))
    (hacyclic : Acyclic (LockManager.reached bits moves).WaitsFor)
    (order scanOrder : IterOrder TxnId (ResourceId × LockMode))
    (keyOrder : IterOrder TxnId (List TxnId)) (txn : TxnId) (res : ResourceId) (mode : LockMode) :
    let self := LockManager.reached bits moves
    let shard := self.lockShard res
    let out := self.request order txn res mode
    let found := out.1.findDeadlock scanOrder keyOrder
    ((∃ d, out.2 = .deadlock d) ↔ ∃ d, found = some d) ∧
    (out.2 = .waiting ↔
      (tryGrantLocked shard.locks shard.byTxn txn res mode).1 = false ∧ found = none) ∧
    (out.2 = .granted → found = none) ∧
    ∀ d, out.2 = .deadlock d →
      ∃ rest, d.cycle = txn :: rest ∧ txn ∉ rest ∧ IsCycle out.1.WaitsFor d.cycle := by
  intro self shard out found
  have hinv : self.Inv := LockManager.inv_reached bits moves
  have hout : out.1.Inv := hinv.exec (.request order txn res mode)
  have hnone : found = none ↔ Acyclic out.1.WaitsFor :=
    hout.findDeadlock_none_iff scanOrder keyOrder
  have hsome : (∃ d, found = some d) ↔ ∃ c, IsCycle out.1.WaitsFor c :=
    hout.findDeadlock_some_iff scanOrder keyOrder
  have hrefused : (tryGrantLocked shard.locks shard.byTxn txn res mode).1 = false ↔
      ¬ self.Grantable txn res mode := by
    rw [← Bool.not_eq_true, not_iff_not]
    exact hinv.grantStep_iff
  rw [hsome, hrefused, hnone]
  have hcase := hinv.request_atWait hacyclic order txn res mode
  change LockManager.AtWait self txn res mode out at hcase
  clear hsome hrefused hnone hout
  clear_value out
  cases hcase with
  | granted free acyclic => simp [free, acyclic, not_exists.mpr acyclic]
  | waiting blocked acyclic => simp [blocked, acyclic, not_exists.mpr acyclic]
  | @deadlock next d rest blocked through report head once =>
    have hcyclic : ¬ Acyclic next.WaitsFor := fun hacyclic => hacyclic d.cycle report.cycle
    refine ⟨?_, by simp [hcyclic], by simp, ?_⟩
    · exact iff_of_true ⟨d, rfl⟩ ⟨d.cycle, report.cycle⟩
    · intro d' hd
      obtain rfl : d = d' := by simpa using hd
      exact ⟨rest, head, once, report.cycle⟩

theorem request_agrees_with_scan_crossed :
    let moves : List (LockManager.Move 4) := [.call (.tryAcquire ⟨1⟩ ⟨1⟩ .exclusive),
      .call (.tryAcquire ⟨2⟩ ⟨2⟩ .exclusive), .call (.request .sorted ⟨2⟩ ⟨1⟩ .shared)]
    let out := (LockManager.reached 4 moves).request .sorted ⟨1⟩ ⟨2⟩ .shared
    (∃ d, out.1.findDeadlock .sorted .sorted = some d) ∧
      ∃ rest, [⟨1⟩, ⟨2⟩] = (⟨1⟩ : TxnId) :: rest ∧ ⟨1⟩ ∉ rest ∧
        IsCycle out.1.WaitsFor [⟨1⟩, ⟨2⟩] := by
  intro moves out
  have hnone : (LockManager.reached 4 moves).findDeadlock .sorted .sorted = none := by
    decide +kernel
  have hacyclic := (LockManager.inv_reached 4 moves).findDeadlock_none hnone
  obtain ⟨hscan, _, _, hcycle⟩ := request_agrees_with_scan 4 moves hacyclic .sorted .sorted .sorted
    ⟨1⟩ ⟨2⟩ .shared
  have hdeadlock : out.2 = .deadlock ⟨⟨2⟩, [⟨1⟩, ⟨2⟩]⟩ := by decide +kernel
  exact ⟨hscan.mp ⟨_, hdeadlock⟩, hcycle _ hdeadlock⟩

/-- Two readers each close a cycle with the transaction that wants to write what they read;
aborting the one named leaves the cycle through the other. -/
theorem second_cycle_remains :
    let moves : List (LockManager.Move 4) := [.call (.tryAcquire ⟨2⟩ ⟨1⟩ .shared),
      .call (.tryAcquire ⟨3⟩ ⟨1⟩ .shared), .call (.tryAcquire ⟨1⟩ ⟨2⟩ .exclusive),
      .call (.request .sorted ⟨2⟩ ⟨2⟩ .exclusive), .call (.request .sorted ⟨3⟩ ⟨2⟩ .exclusive)]
    let self := LockManager.reached 4 moves
    let out := self.request .sorted ⟨1⟩ ⟨1⟩ .exclusive
    self.findDeadlock .sorted .sorted = none ∧ out.2 = .deadlock ⟨⟨2⟩, [⟨1⟩, ⟨2⟩]⟩ ∧
      (out.1.releaseAll ⟨2⟩).1.findDeadlock .sorted .sorted = some ⟨⟨3⟩, [⟨1⟩, ⟨3⟩]⟩ := by
  decide +kernel

/-- Releasing the named victim breaks the reported cycle and every other cycle through the
victim, and leaves the rest of those the request closed: no deadlock is left exactly when
the victim was on all of them. -/
theorem abort_breaks_cycles_of_victim (bits : Nat) (moves : List (LockManager.Move bits))
    (order scanOrder : IterOrder TxnId (ResourceId × LockMode))
    (keyOrder : IterOrder TxnId (List TxnId))
    (hnone : (LockManager.reached bits moves).findDeadlock scanOrder keyOrder = none) (txn : TxnId)
    (res : ResourceId) (mode : LockMode) (d : Deadlock) :
    let out := (LockManager.reached bits moves).request order txn res mode
    let after := (out.1.releaseAll d.victim).1
    out.2 = .deadlock d →
      IsCycle out.1.WaitsFor d.cycle ∧ d.victim ∈ d.cycle ∧
      (∀ c, IsCycle out.1.WaitsFor c → txn ∈ c) ∧
      (∀ c, IsCycle after.WaitsFor c ↔ IsCycle out.1.WaitsFor c ∧ d.victim ∉ c) ∧
      (∀ order keyOrder, after.findDeadlock order keyOrder = none ↔
        ∀ c, IsCycle out.1.WaitsFor c → d.victim ∈ c) ∧
      (d.victim = txn → ∀ order keyOrder, after.findDeadlock order keyOrder = none) := by
  intro out after hd
  have hinv : (LockManager.reached bits moves).Inv := LockManager.inv_reached bits moves
  have hout : out.1.Inv := hinv.exec (.request order txn res mode)
  have hbreak : ∀ c, IsCycle after.WaitsFor c ↔ IsCycle out.1.WaitsFor c ∧ d.victim ∉ c :=
    hout.releaseAll_cycle_iff d.victim
  have hafter : ∀ order keyOrder, after.findDeadlock order keyOrder = none ↔
      ∀ c, IsCycle out.1.WaitsFor c → d.victim ∈ c := by
    intro order keyOrder
    rw [(hout.releaseAll d.victim).findDeadlock_none_iff]
    apply forall_congr'
    intro c
    rw [hbreak c, not_and, not_not]
  have hcase := hinv.request_atWait (hinv.findDeadlock_none hnone) order txn res mode
  change LockManager.AtWait _ txn res mode out at hcase
  clear_value after out
  cases hcase with
  | granted _ _ => simp at hd
  | waiting _ _ => simp at hd
  | @deadlock next d' rest _ through report _ _ =>
    obtain rfl : d' = d := by simpa using hd
    refine ⟨report.cycle, report.victim_mem, through, hbreak, hafter, ?_⟩
    intro hvictim order keyOrder
    rw [hafter, hvictim]
    exact through

theorem abort_breaks_cycles_of_victim_crossed :
    let moves : List (LockManager.Move 4) := [.call (.tryAcquire ⟨1⟩ ⟨1⟩ .exclusive),
      .call (.tryAcquire ⟨2⟩ ⟨2⟩ .exclusive), .call (.request .sorted ⟨1⟩ ⟨2⟩ .shared)]
    let out := (LockManager.reached 4 moves).request .sorted ⟨2⟩ ⟨1⟩ .shared
    out.2 = .deadlock ⟨⟨2⟩, [⟨2⟩, ⟨1⟩]⟩ ∧
      (out.1.releaseAll ⟨2⟩).1.findDeadlock .sorted .sorted = none := by
  intro moves out
  have hnone : (LockManager.reached 4 moves).findDeadlock .sorted .sorted = none := by
    decide +kernel
  have hdeadlock : out.2 = .deadlock ⟨⟨2⟩, [⟨2⟩, ⟨1⟩]⟩ := by decide +kernel
  obtain ⟨_, _, _, _, _, hself⟩ := abort_breaks_cycles_of_victim 4 moves .sorted .sorted .sorted
    hnone ⟨2⟩ ⟨1⟩ .shared _ hdeadlock
  exact ⟨hdeadlock, hself rfl .sorted .sorted⟩

end LockDb
