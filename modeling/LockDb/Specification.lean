import LockDb.AtWait
import LockDb.Bookkeeping
import LockDb.RangeHistory
import LockDb.Shared.Refinement

/-!
# What a lock manager is for

The whole interface, without shards, indexes or an order of records: a table of modes, a table
of ranges and the registered waits. Exclusion is part of the state's type. Only the mode that a
range release lets go and the cycle that a report names are left open.
-/

namespace LockDb

set_option autoImplicit false

open Shared Shared.Multimap Relation

/-- Range records of which no two that belong to different transactions exclude each other. -/
structure RangeTable where
  held : ResourceId → Multiset RangeHolder
  free : ∀ space, ∀ x ∈ held space, ∀ y ∈ held space, x.Free y

namespace RangeTable

def empty : RangeTable := ⟨fun _ => 0, by simp⟩

def add (self : RangeTable) (space : ResourceId) (x : RangeHolder)
    (hx : ∀ y ∈ self.held space, y.Free x) : RangeTable where
  held s := if s = space then x ::ₘ self.held s else self.held s
  free s a ha b hb := by
    split at ha
    · next hs =>
      subst hs
      rw [if_pos rfl] at hb
      rcases Multiset.mem_cons.mp ha with hax | ha
      · rcases Multiset.mem_cons.mp hb with hbx | hb
        · exact fun hne => absurd (congrArg RangeHolder.txn (hax.trans hbx.symm)) hne
        · exact hax ▸ (hx b hb).symm
      · rcases Multiset.mem_cons.mp hb with hbx | hb
        · exact hbx ▸ hx a ha
        · exact self.free s a ha b hb
    · next hs =>
      rw [if_neg hs] at hb
      exact self.free s a ha b hb

def take (self : RangeTable) (space : ResourceId) (x : RangeHolder) : RangeTable where
  held s := if s = space then (self.held s).erase x else self.held s
  free s a ha b hb := by
    have hsub : ∀ y ∈ (if s = space then (self.held s).erase x else self.held s),
        y ∈ self.held s := by
      intro y hy
      split at hy
      · exact Multiset.mem_of_mem_erase hy
      · exact hy
    exact self.free s a (hsub a ha) b (hsub b hb)

def dropAll (self : RangeTable) (txn : TxnId) : RangeTable where
  held s := (self.held s).filter fun x => x.txn ≠ txn
  free s a ha b hb :=
    self.free s a (Multiset.mem_of_mem_filter ha) b (Multiset.mem_of_mem_filter hb)

end RangeTable

structure LockService where
  locks : LockTable TxnId ResourceId LockMode
  ranges : RangeTable
  waits : TxnId → Option (ResourceId × LockMode)

namespace LockService

def empty : LockService := ⟨⟨fun _ _ => none, by simp⟩, .empty, fun _ => none⟩

def WaitsFor (self : LockService) : TxnId → TxnId → Prop :=
  Shared.WaitsFor self.locks.held self.waits

def setWait (self : LockService) (txn : TxnId) (w : Option (ResourceId × LockMode)) :
    LockService :=
  { self with waits := Function.update self.waits txn w }

/-- The point locks of a transaction and its range records. -/
noncomputable def recordCount (self : LockService) (txn : TxnId) : Nat :=
  Set.ncard {res | self.locks.held txn res ≠ none} +
    finsum fun space => (self.ranges.held space).countP fun x => x.txn = txn

/-- The answers a state allows, and the state after each. -/
inductive Allows (self : LockService) : Method → Answer → LockService → Prop where
  | acquired {txn : TxnId} {res : ResourceId} {mode : LockMode}
      (free : self.locks.Grantable txn res mode) :
      Allows self (.op (.tryAcquire txn res mode)) (.outcome (.result (.ok ())))
        { self with locks := self.locks.grant txn res mode free }
  | conflict {txn : TxnId} {res : ResourceId} {mode : LockMode}
      (blocked : ¬ self.locks.Grantable txn res mode) :
      Allows self (.op (.tryAcquire txn res mode)) (.outcome (.result (.error .conflict))) self
  | released {txn : TxnId} {res : ResourceId} (was : self.locks.held txn res ≠ none) :
      Allows self (.op (.release txn res)) (.outcome (.result (.ok ())))
        { self with locks := self.locks.drop txn res }
  | notHeld {txn : TxnId} {res : ResourceId} (none : self.locks.held txn res = none) :
      Allows self (.op (.release txn res)) (.outcome (.result (.error .notHeld))) self
  | releasedAll {txn : TxnId} :
      Allows self (.op (.releaseAll txn)) (.outcome (.count (self.recordCount txn)))
        (setWait ⟨self.locks.dropAll txn, self.ranges.dropAll txn, self.waits⟩ txn none)
  | granted {order : IterOrder TxnId (ResourceId × LockMode)} {txn : TxnId} {res : ResourceId}
      {mode : LockMode} (free : self.locks.Grantable txn res mode) :
      Allows self (.op (.request order txn res mode)) (.outcome (.acquisition .granted))
        (setWait { self with locks := self.locks.grant txn res mode free } txn none)
  | waiting {order : IterOrder TxnId (ResourceId × LockMode)} {txn : TxnId} {res : ResourceId}
      {mode : LockMode} (blocked : ¬ self.locks.Grantable txn res mode)
      (clear : ∀ c, IsCycle (self.setWait txn (some (res, mode))).WaitsFor c → ∀ t ∈ c,
        ¬ ReflTransGen (self.setWait txn (some (res, mode))).WaitsFor txn t) :
      Allows self (.op (.request order txn res mode)) (.outcome (.acquisition .waiting))
        (self.setWait txn (some (res, mode)))
  | deadlock {order : IterOrder TxnId (ResourceId × LockMode)} {txn : TxnId} {res : ResourceId}
      {mode : LockMode} {d : Deadlock} (blocked : ¬ self.locks.Grantable txn res mode)
      (report : Reported (self.setWait txn (some (res, mode))).WaitsFor d)
      (reach : ∀ t ∈ d.cycle,
        ReflTransGen (self.setWait txn (some (res, mode))).WaitsFor txn t)
      (head : txn ∈ d.cycle → d.cycle.head? = some txn) :
      Allows self (.op (.request order txn res mode)) (.outcome (.acquisition (.deadlock d)))
        (self.setWait txn (some (res, mode)))
  | cancelled {txn : TxnId} :
      Allows self (.op (.cancelWait txn)) (.outcome .unit) (self.setWait txn none)
  | noDeadlock {order : IterOrder TxnId (ResourceId × LockMode)}
      {keyOrder : IterOrder TxnId (List TxnId)} (acyclic : Acyclic self.WaitsFor) :
      Allows self (.op (.findDeadlock order keyOrder)) (.outcome (.found none)) self
  | found {order : IterOrder TxnId (ResourceId × LockMode)}
      {keyOrder : IterOrder TxnId (List TxnId)} {d : Deadlock}
      (report : Reported self.WaitsFor d) :
      Allows self (.op (.findDeadlock order keyOrder)) (.outcome (.found (some d))) self
  | rangeAcquired {txn : TxnId} {space : ResourceId} {range : KeyRange} {mode : LockMode}
      (free : ∀ y ∈ self.ranges.held space, y.Free ⟨txn, range, mode⟩) :
      Allows self (.op (.tryAcquireRange txn space range mode)) (.outcome (.result (.ok ())))
        { self with ranges := self.ranges.add space ⟨txn, range, mode⟩ free }
  | rangeConflict {txn : TxnId} {space : ResourceId} {range : KeyRange} {mode : LockMode}
      {y : RangeHolder} (mem : y ∈ self.ranges.held space) (bad : ¬ y.Free ⟨txn, range, mode⟩) :
      Allows self (.op (.tryAcquireRange txn space range mode))
        (.outcome (.result (.error .conflict))) self
  | rangeReleased {txn : TxnId} {space : ResourceId} {range : KeyRange} (mode : LockMode)
      (mem : ⟨txn, range, mode⟩ ∈ self.ranges.held space) :
      Allows self (.op (.releaseRange txn space range)) (.outcome (.result (.ok ())))
        { self with ranges := self.ranges.take space ⟨txn, range, mode⟩ }
  | rangeNotHeld {txn : TxnId} {space : ResourceId} {range : KeyRange}
      (none : ∀ mode, ⟨txn, range, mode⟩ ∉ self.ranges.held space) :
      Allows self (.op (.releaseRange txn space range))
        (.outcome (.result (.error .notHeld))) self
  | modeHeld {txn : TxnId} {res : ResourceId} :
      Allows self (.modeHeld txn res) (.mode (self.locks.held txn res)) self
  | holderCount {res : ResourceId} :
      Allows self (.holderCount res) (.count (Set.ncard {t | self.locks.held t res ≠ none})) self
  | waitingCount : Allows self .waitingCount (.count (Set.ncard {t | self.waits t ≠ none})) self
  | rangeCount {space : ResourceId} :
      Allows self (.rangeCount space) (.count (self.ranges.held space).card) self

end LockService

/-- The manager keeps what the service has. -/
structure Represents {bits : Nat} (lm : LockManager bits) (service : LockService) : Prop where
  inv : lm.Inv
  locks : service.locks.held = lm.modeHeld
  ranges : ∀ space, service.ranges.held space = ↑(lm.rangeHolders space)
  waits : ∀ t, service.waits t = lm.waits.lookup t

section Simulation
variable {bits : Nat} {self next : LockManager bits} {service : LockService} {txn : TxnId}
variable {res : ResourceId} {mode : LockMode}

theorem represents_empty (bits : Nat) : Represents (LockManager.withShards bits) .empty where
  inv := LockManager.inv_withShards bits
  locks := by
    funext t r
    simp [LockService.empty, LockManager.modeHeld, LockManager.lockShard, LockManager.withShards,
      ShardInner.new]
  ranges space := by
    simp [LockService.empty, RangeTable.empty, LockManager.rangeHolders, LockManager.lockShard,
      LockManager.withShards, ShardInner.new]
  waits t := by simp [LockService.empty, LockManager.withShards]

theorem Represents.grantable_iff (h : Represents self service) :
    service.locks.Grantable txn res mode ↔ self.Grantable txn res mode := by
  rw [LockTable.Grantable, h.locks]
  rfl

theorem Represents.waitsFor (h : Represents self service) : service.WaitsFor = self.WaitsFor := by
  rw [LockService.WaitsFor, LockManager.waitsFor_eq, h.locks, funext h.waits]

theorem Represents.setWait (h : Represents self service) {w : Option (ResourceId × LockMode)}
    (hinv : next.Inv) (held : next.modeHeld = self.modeHeld)
    (ranges : next.rangeHolders = self.rangeHolders)
    (waits : ∀ t, next.waits.lookup t = if t = txn then w else self.waits.lookup t) :
    Represents next (service.setWait txn w) where
  inv := hinv
  locks := h.locks.trans held.symm
  ranges space := by rw [ranges]; exact h.ranges space
  waits t := by
    rw [waits, ← h.waits]
    exact Function.update_apply _ _ _ _

theorem Represents.grant (h : Represents self service)
    (free : service.locks.Grantable txn res mode) (hinv : next.Inv)
    (held : next.modeHeld = LockTable.heldGrant self.modeHeld txn res mode)
    (ranges : next.rangeHolders = self.rangeHolders) (waits : next.waits = self.waits) :
    Represents next { service with locks := service.locks.grant txn res mode free } where
  inv := hinv
  locks := by
    rw [held, ← h.locks]
    rfl
  ranges space := by rw [ranges]; exact h.ranges space
  waits t := by rw [waits]; exact h.waits t

/-- The service allows what the manager answers, and they stay together. -/
def Matched (self : LockManager bits) (service : LockService) (call : Method) : Prop :=
  ∃ next, service.Allows call (self.perform call).2 next ∧ Represents (self.perform call).1 next

theorem Represents.tryAcquire (h : Represents self service) (txn : TxnId) (res : ResourceId)
    (mode : LockMode) : Matched self service (.op (.tryAcquire txn res mode)) := by
  have hinv := h.inv.grantStep txn res mode
  have hranges := self.grantStep_rangeHolders txn res mode
  simp only [Matched, LockManager.perform, LockManager.exec, LockManager.tryAcquire_eq]
  rcases h.inv.grantStep_cases txn res mode with ⟨free, next, hg, held, waits⟩ | ⟨blocked, hg⟩
  · rw [hg] at hinv hranges ⊢
    have hfree := h.grantable_iff.mpr free
    exact ⟨_, .acquired hfree, h.grant hfree hinv held hranges waits⟩
  · rw [hg]
    exact ⟨service, .conflict fun hfree => blocked (h.grantable_iff.mp hfree), h⟩

theorem Represents.release (h : Represents self service) (txn : TxnId) (res : ResourceId) :
    Matched self service (.op (.release txn res)) := by
  have hinv : (self.release txn res).1.Inv := h.inv.enter (.release txn res)
  have hranges : (self.release txn res).1.rangeHolders = self.rangeHolders :=
    LockManager.rangeHolders_setShard (release_keeps_ranges _ _ _).1
  simp only [Matched, LockManager.perform, LockManager.exec]
  rcases h.inv.release_cases txn res with ⟨hnone, hr⟩ | ⟨hsome, next, hr, held, waits⟩
  · rw [hr]
    exact ⟨service, .notHeld (by rw [h.locks, hnone]), h⟩
  · rw [hr] at hinv hranges ⊢
    refine ⟨_, .released (by rwa [h.locks]), hinv, ?_, ?_, ?_⟩
    · rw [held, ← h.locks]
      rfl
    · intro space
      rw [hranges]
      exact h.ranges space
    · intro t
      rw [waits]
      exact h.waits t

theorem Represents.releaseAll (h : Represents self service) (txn : TxnId) :
    Matched self service (.op (.releaseAll txn)) := by
  have hcount : (self.releaseAll txn).2 = service.recordCount txn := by
    rw [h.inv.releaseAll_recordCount, h.inv.recordCount_eq, LockService.recordCount, h.locks]
    simp only [h.ranges, Multiset.coe_countP]
  simp only [Matched, LockManager.perform, LockManager.exec, hcount]
  refine ⟨_, .releasedAll, h.inv.exec (.releaseAll txn), ?_, ?_, ?_⟩
  · rw [h.inv.releaseAll_modeHeld, ← h.locks]
    rfl
  · intro space
    have hperm := Multiset.coe_eq_coe.mpr (h.inv.releaseAll_rangeHolders txn space)
    rw [hperm, Ledger.others, ← Multiset.filter_coe, ← h.ranges]
    rfl
  · intro t
    rw [LockManager.releaseAll_waits, lookup_erase_eq, ← h.waits]
    exact Function.update_apply _ _ _ _

theorem Represents.request (h : Represents self service)
    (order : IterOrder TxnId (ResourceId × LockMode)) (txn : TxnId) (res : ResourceId)
    (mode : LockMode) : Matched self service (.op (.request order txn res mode)) := by
  simp only [Matched, LockManager.perform, LockManager.exec, LockManager.request_eq]
  have hinv := h.inv.grantStep txn res mode
  have hranges := self.grantStep_rangeHolders txn res mode
  rcases h.inv.grantStep_cases txn res mode with ⟨free, next, hg, held, waits⟩ | ⟨blocked, hg⟩
  · rw [hg] at hinv hranges ⊢
    have hfree := h.grantable_iff.mpr free
    have hnext := h.grant hfree hinv held hranges waits
    refine ⟨_, .granted hfree, hnext.setWait (hinv.enter (.clearWait txn)) rfl rfl ?_⟩
    exact fun t => lookup_erase_eq _ _ _
  · rw [hg]
    have hblocked : ¬ service.locks.Grantable txn res mode :=
      fun hfree => blocked (h.grantable_iff.mp hfree)
    have hnext : Represents (self.enter (.registerWait txn res mode))
        (service.setWait txn (some (res, mode))) :=
      h.setWait (h.inv.enter _) rfl rfl fun t => lookup_insert_eq _ _ _ _
    simp only [if_neg Bool.false_ne_true]
    generalize hanswer : LockManager.refusal
      ((self.enter (.registerWait txn res mode)).buildWaitGraph order) txn = answer
    refine ⟨service.setWait txn (some (res, mode)), ?_, hnext⟩
    cases answer with
    | granted => exact absurd hanswer (refusal_ne_granted _ _)
    | waiting =>
      refine .waiting hblocked fun c hc t ht => ?_
      rw [hnext.waitsFor, ← hnext.inv.buildWaitGraph_waits order] at hc ⊢
      exact refusal_waiting (fun d => by simp [hanswer]) hc ht
    | deadlock d =>
      obtain ⟨hreport, hreach⟩ := hnext.inv.refusal_deadlock hanswer
      rw [← hnext.waitsFor] at hreport hreach
      refine .deadlock hblocked hreport hreach fun hmem => ?_
      obtain ⟨rest, hrest, _⟩ := hnext.inv.refusal_head hanswer hmem
      rw [hrest, List.head?_cons]

theorem Represents.findDeadlock (h : Represents self service)
    (order : IterOrder TxnId (ResourceId × LockMode)) (keyOrder : IterOrder TxnId (List TxnId)) :
    Matched self service (.op (.findDeadlock order keyOrder)) := by
  simp only [Matched, LockManager.perform, LockManager.exec]
  refine ⟨service, ?_, h⟩
  cases hfound : self.findDeadlock order keyOrder with
  | none =>
    refine .noDeadlock ?_
    rw [h.waitsFor]
    exact h.inv.findDeadlock_none hfound
  | some d =>
    refine .found ?_
    rw [h.waitsFor]
    exact h.inv.findDeadlock_some hfound

theorem Represents.tryAcquireRange (h : Represents self service) (txn : TxnId)
    (space : ResourceId) (range : KeyRange) (mode : LockMode) :
    Matched self service (.op (.tryAcquireRange txn space range mode)) := by
  have hinv : (self.tryAcquireRange txn space range mode).1.Inv :=
    h.inv.exec (.tryAcquireRange txn space range mode)
  simp only [Matched, LockManager.perform, LockManager.exec]
  rcases tryAcquireRange_cases (self.lockShard space) txn space range mode with
    ⟨y, hy, hbad, heq⟩ | ⟨hfree, heq⟩
  · have hres : (self.tryAcquireRange txn space range mode).2 = .error .conflict :=
      congrArg Prod.snd heq
    rw [hres, self.tryAcquireRange_refused (by simp [hres])]
    refine ⟨service, .rangeConflict ?_ hbad, h⟩
    rw [h.ranges]
    exact hy
  · have hok : (self.tryAcquireRange txn space range mode).2 = .ok () := congrArg Prod.snd heq
    have hfree : ∀ y ∈ service.ranges.held space, y.Free ⟨txn, range, mode⟩ := by
      rw [h.ranges]
      exact hfree
    rw [hok]
    refine ⟨_, .rangeAcquired hfree, hinv, h.locks.trans (Eq.symm ?_), fun s => ?_, h.waits⟩
    · exact LockManager.modeHeld_setShard (tryAcquireRange_keeps_locks _ _ _ _ _).1
    · rw [LockManager.tryAcquireRange_rangeHolders hok]
      simp only [RangeTable.add, h.ranges]
      split
      · rw [Multiset.cons_coe, Multiset.coe_eq_coe]
        exact (List.perm_append_singleton _ _).symm
      · rfl

theorem Represents.releaseRange (h : Represents self service) (txn : TxnId)
    (space : ResourceId) (range : KeyRange) :
    Matched self service (.op (.releaseRange txn space range)) := by
  have hinv : (self.releaseRange txn space range).1.Inv :=
    h.inv.exec (.releaseRange txn space range)
  have hresult := self.releaseRange_result txn space range
  simp only [Matched, LockManager.perform, LockManager.exec]
  split at hresult
  · obtain ⟨⟨mode, hperm⟩, hothers⟩ := LockManager.releaseRange_rangeHolders hresult
    have hheld : service.ranges.held space =
        ⟨txn, range, mode⟩ ::ₘ ↑((self.releaseRange txn space range).1.rangeHolders space) := by
      rw [h.ranges, Multiset.cons_coe]
      exact Multiset.coe_eq_coe.mpr hperm.symm
    have hmem : ⟨txn, range, mode⟩ ∈ service.ranges.held space := by
      rw [hheld]
      exact Multiset.mem_cons_self _ _
    rw [hresult]
    refine ⟨_, .rangeReleased mode hmem, hinv, h.locks.trans (Eq.symm ?_), fun s => ?_, h.waits⟩
    · exact LockManager.modeHeld_setShard (releaseRange_keeps_locks _ _ _ _).1
    · simp only [RangeTable.take]
      by_cases hs : s = space
      · rw [if_pos hs, hs, hheld, Multiset.erase_cons_head]
      · rw [if_neg hs, h.ranges, hothers s hs]
  · next hnone =>
    rw [hresult, self.releaseRange_refused (by simp [hresult])]
    refine ⟨service, .rangeNotHeld fun mode hmem => hnone ?_, h⟩
    rw [h.ranges] at hmem
    exact List.countP_pos_iff.mpr ⟨_, hmem, by simp [rangeHeldBy]⟩

theorem Represents.matched (h : Represents self service) (call : Method) :
    Matched self service call := by
  cases call with
  | op op =>
    cases op with
    | tryAcquire txn res mode => exact h.tryAcquire txn res mode
    | release txn res => exact h.release txn res
    | releaseAll txn => exact h.releaseAll txn
    | request order txn res mode => exact h.request order txn res mode
    | cancelWait txn =>
      refine ⟨_, .cancelled, h.setWait (h.inv.enter (.clearWait txn)) rfl rfl ?_⟩
      exact fun t => lookup_erase_eq _ _ _
    | findDeadlock order keyOrder => exact h.findDeadlock order keyOrder
    | tryAcquireRange txn space range mode => exact h.tryAcquireRange txn space range mode
    | releaseRange txn space range => exact h.releaseRange txn space range
  | modeHeld txn res =>
    refine ⟨service, ?_, h⟩
    rw [LockManager.perform, ← h.locks]
    exact .modeHeld
  | holderCount res =>
    refine ⟨service, ?_, h⟩
    rw [LockManager.perform, h.inv.holderCount_eq, ← h.locks]
    exact .holderCount
  | waitingCount =>
    refine ⟨service, ?_, h⟩
    simp only [LockManager.perform, self.waitingCount_eq, ← h.waits]
    exact .waitingCount
  | rangeCount space =>
    refine ⟨service, ?_, h⟩
    have hcount : self.rangeCount space = (service.ranges.held space).card := by
      rw [h.ranges, Multiset.coe_card]
      rfl
    rw [LockManager.perform, hcount]
    exact .rangeCount

end Simulation

/-- Whatever is called, the manager only gives answers that the service allows, and at the end
it keeps exactly what the service has. -/
theorem manager_conforms (bits : Nat) (calls : List Method) :
    let run := replay LockManager.perform (.withShards bits) calls
    ∃ service, Conforms LockService.Allows .empty (calls.zip run.2) service ∧
      service.locks.held = run.1.modeHeld ∧
      (∀ space, service.ranges.held space = ↑(run.1.rangeHolders space)) ∧
      ∀ t, service.waits t = run.1.waits.lookup t := by
  intro run
  obtain ⟨service, hconforms, h⟩ :=
    replay_conforms (R := Represents) (fun _ _ call h => h.matched call)
      (represents_empty bits) calls
  exact ⟨service, hconforms, h.locks, h.ranges, h.waits⟩

end LockDb
