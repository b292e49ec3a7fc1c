import LockDb.Detection
import LockDb.FlatMap

/-!
# Runs on differently sharded tables

Two tables with any numbers of shards, whose maps are iterated in any orders, give
the same answers to the same calls. They need not agree on the reverse indexes;
they agree on the holder list of every resource, and with it on the successors of
every waiter and on the path of the search.
-/

namespace LockDb

set_option autoImplicit false

open Shared Shared.Multimap

/-- The calls the two runs have in common. -/
inductive PointCall where
  | tryAcquire (txn : TxnId) (res : ResourceId) (mode : LockMode)
  | request (txn : TxnId) (res : ResourceId) (mode : LockMode)
  | release (txn : TxnId) (res : ResourceId)
  | releaseAll (txn : TxnId)
  | cancelWait (txn : TxnId)

/-- The call as one run makes it, with the iteration order it meets there. -/
def PointCall.op (order : IterOrder TxnId (ResourceId × LockMode)) : PointCall → Op
  | .tryAcquire txn res mode => .tryAcquire txn res mode
  | .request txn res mode => .request order txn res mode
  | .release txn res => .release txn res
  | .releaseAll txn => .releaseAll txn
  | .cancelWait txn => .cancelWait txn

/-- What two tables have in common that were sharded differently: the flat map they show,
every holder list with its order, and the wait map. -/
structure SameTable {bits bits' : Nat} (lm : LockManager bits) (lm' : LockManager bits') :
    Prop where
  shows : ∃ map, Shows lm map ∧ Shows lm' map
  holders : ∀ res, lm.holders res = lm'.holders res
  waits : lm.waits = lm'.waits

section HolderLists
variable {bits : Nat}

theorem grantStep_holders (self : LockManager bits) (txn : TxnId) (res : ResourceId)
    (mode : LockMode) (r : ResourceId) : (self.grantStep txn res mode).1.holders r =
      list ((self.lockShard r).tryGrant txn res mode).1.locks r := by
  simp only [LockManager.grantStep, LockManager.onShard, LockManager.holders,
    LockManager.lockShard_setShard]
  split
  · next hi => rw [LockManager.lockShard, LockManager.lockShard, hi]
  · next hi =>
    have hr : r ≠ res := fun hr => hi (by rw [hr])
    rw [tryGrant_frame _ hr]

theorem release_holders (self : LockManager bits) (txn : TxnId) (res r : ResourceId) :
    (self.release txn res).1.holders r =
      if r = res then removeFirst (heldBy txn) (self.holders r) else self.holders r := by
  simp only [LockManager.release, LockManager.onShard, LockManager.holders,
    LockManager.lockShard_setShard]
  split
  · next hi =>
    rw [release_list, LockManager.lockShard, LockManager.lockShard, hi]
  · next hi =>
    have hr : r ≠ res := fun hr => hi (by rw [hr])
    rw [if_neg hr]

theorem releaseAll_holders {self : LockManager bits} (hinv : self.Inv) (txn : TxnId)
    (r : ResourceId) :
    (self.releaseAll txn).1.holders r = removeFirst (heldBy txn) (self.holders r) := by
  rw [LockManager.releaseAll_eq]
  exact (hinv (shardIndex bits r)).point.sweep_locks_list 0 r

end HolderLists

section Congruence
variable {bits bits' : Nat} {self : LockManager bits} {self' : LockManager bits'}
variable {txn : TxnId} {res : ResourceId} {mode : LockMode}

theorem sameTable_withShards (bits bits' : Nat) :
    SameTable (LockManager.withShards bits) (LockManager.withShards bits') where
  shows := ⟨.empty, shows_empty bits, shows_empty bits'⟩
  holders res := by
    simp [LockManager.holders, LockManager.lockShard, LockManager.withShards, ShardInner.new]
  waits := rfl

theorem Shows.of_waits {map : FlatMap} (h : Shows self map) (waits : WaitMap) :
    Shows { self with waits := waits } map :=
  ⟨h.inv, h.noRanges, h.held⟩

theorem SameTable.setWaits (h : SameTable self self') {waits waits' : WaitMap}
    (hwaits : waits = waits') :
    SameTable { self with waits := waits } { self' with waits := waits' } := by
  obtain ⟨map, hshows, hshows'⟩ := h.shows
  exact ⟨⟨map, hshows.of_waits waits, hshows'.of_waits waits'⟩, h.holders, hwaits⟩

theorem SameTable.grantStep (h : SameTable self self') (txn : TxnId) (res : ResourceId)
    (mode : LockMode) :
    (self.grantStep txn res mode).2 = (self'.grantStep txn res mode).2 ∧
      SameTable (self.grantStep txn res mode).1 (self'.grantStep txn res mode).1 := by
  obtain ⟨map, hshows, hshows'⟩ := h.shows
  have hnext := (hshows.tryAcquire txn res mode).2
  have hnext' := (hshows'.tryAcquire txn res mode).2
  rw [LockManager.tryAcquire_fst] at hnext hnext'
  refine ⟨(tryGrant_congr (h.holders res)).1, ⟨_, hnext, hnext'⟩, ?_, h.waits⟩
  intro r
  rw [grantStep_holders, grantStep_holders]
  by_cases hr : r = res
  · subst hr
    exact (tryGrant_congr (h.holders r)).2
  · rw [tryGrant_frame _ hr, tryGrant_frame _ hr]
    exact h.holders r

theorem SameTable.neighbors (h : SameTable self self')
    (order order' : IterOrder TxnId (ResourceId × LockMode)) :
    (self.buildWaitGraph order).neighbors = (self'.buildWaitGraph order').neighbors := by
  have hblocking : ∀ t r m, self.holdersBlocking t r m = self'.holdersBlocking t r m := by
    intro t r m
    have hlist : list (self.lockShard r).locks r = list (self'.lockShard r).locks r := h.holders r
    simp only [LockManager.holdersBlocking, hlist]
  funext t
  rw [LockManager.buildWaitGraph_neighbors, LockManager.buildWaitGraph_neighbors, h.waits]
  split
  · rfl
  · exact hblocking _ _ _

theorem SameTable.refusal (h : SameTable self self')
    (order order' : IterOrder TxnId (ResourceId × LockMode)) (txn : TxnId) :
    LockManager.refusal (self.buildWaitGraph order) txn =
      LockManager.refusal (self'.buildWaitGraph order') txn := by
  rw [LockManager.refusal, LockManager.refusal,
    WaitForGraph.cycleFrom_congr (h.neighbors order order') txn]

theorem SameTable.request (h : SameTable self self')
    (order order' : IterOrder TxnId (ResourceId × LockMode)) (txn : TxnId) (res : ResourceId)
    (mode : LockMode) :
    (self.request order txn res mode).2 = (self'.request order' txn res mode).2 ∧
      SameTable (self.request order txn res mode).1 (self'.request order' txn res mode).1 := by
  obtain ⟨hgranted, hnext⟩ := h.grantStep txn res mode
  rw [LockManager.request_eq, LockManager.request_eq, ← hgranted]
  split
  · exact ⟨rfl, hnext.setWaits (congrArg (Finmap.erase txn) hnext.waits)⟩
  · have hwait := hnext.setWaits (congrArg (Finmap.insert txn (res, mode)) hnext.waits)
    exact ⟨hwait.refusal order order' txn, hwait⟩

theorem SameTable.tryAcquire (h : SameTable self self') (txn : TxnId) (res : ResourceId)
    (mode : LockMode) :
    (self.tryAcquire txn res mode).2 = (self'.tryAcquire txn res mode).2 ∧
      SameTable (self.tryAcquire txn res mode).1 (self'.tryAcquire txn res mode).1 := by
  obtain ⟨hgranted, hnext⟩ := h.grantStep txn res mode
  rw [LockManager.tryAcquire_eq, LockManager.tryAcquire_eq, ← hgranted]
  split
  · exact ⟨rfl, hnext⟩
  · exact ⟨rfl, hnext⟩

theorem SameTable.release (h : SameTable self self') (txn : TxnId) (res : ResourceId) :
    (self.release txn res).2 = (self'.release txn res).2 ∧
      SameTable (self.release txn res).1 (self'.release txn res).1 := by
  obtain ⟨map, hshows, hshows'⟩ := h.shows
  obtain ⟨hout, hnext⟩ := hshows.release txn res
  obtain ⟨hout', hnext'⟩ := hshows'.release txn res
  refine ⟨hout.trans hout'.symm, ⟨_, hnext, hnext'⟩, ?_, h.waits⟩
  intro r
  rw [release_holders, release_holders, h.holders r]

theorem SameTable.releaseAll (h : SameTable self self') (txn : TxnId) :
    (self.releaseAll txn).2 = (self'.releaseAll txn).2 ∧
      SameTable (self.releaseAll txn).1 (self'.releaseAll txn).1 := by
  obtain ⟨map, hshows, hshows'⟩ := h.shows
  obtain ⟨hout, hnext⟩ := hshows.releaseAll txn
  obtain ⟨hout', hnext'⟩ := hshows'.releaseAll txn
  refine ⟨hout.trans hout'.symm, ⟨_, hnext, hnext'⟩, ?_, ?_⟩
  · intro r
    rw [releaseAll_holders hshows.inv, releaseAll_holders hshows'.inv, h.holders r]
  · rw [LockManager.releaseAll_waits, LockManager.releaseAll_waits, h.waits]

theorem SameTable.exec (h : SameTable self self')
    (order order' : IterOrder TxnId (ResourceId × LockMode)) (call : PointCall) :
    (self.exec (call.op order)).2 = (self'.exec (call.op order')).2 ∧
      SameTable (self.exec (call.op order)).1 (self'.exec (call.op order')).1 := by
  cases call with
  | tryAcquire txn res mode =>
    obtain ⟨hout, hnext⟩ := h.tryAcquire txn res mode
    exact ⟨congrArg Outcome.result hout, hnext⟩
  | request txn res mode =>
    obtain ⟨hout, hnext⟩ := h.request order order' txn res mode
    exact ⟨congrArg Outcome.acquisition hout, hnext⟩
  | release txn res =>
    obtain ⟨hout, hnext⟩ := h.release txn res
    exact ⟨congrArg Outcome.result hout, hnext⟩
  | releaseAll txn =>
    obtain ⟨hout, hnext⟩ := h.releaseAll txn
    exact ⟨congrArg Outcome.count hout, hnext⟩
  | cancelWait txn => exact ⟨rfl, h.setWaits (congrArg (Finmap.erase txn) h.waits)⟩

theorem SameTable.waitsFor (h : SameTable self self') : self.WaitsFor = self'.WaitsFor := by
  have hheld : self.modeHeld = self'.modeHeld := by
    funext t r
    rw [LockManager.modeHeld_eq, LockManager.modeHeld_eq, h.holders r]
  rw [LockManager.waitsFor_eq, LockManager.waitsFor_eq, hheld, h.waits]

theorem SameTable.findDeadlock_some_iff (h : SameTable self self')
    (order order' : IterOrder TxnId (ResourceId × LockMode))
    (keyOrder keyOrder' : IterOrder TxnId (List TxnId)) :
    (∃ d, self.findDeadlock order keyOrder = some d) ↔
      ∃ d, self'.findDeadlock order' keyOrder' = some d := by
  obtain ⟨map, hshows, hshows'⟩ := h.shows
  rw [hshows.inv.findDeadlock_some_iff, hshows'.inv.findDeadlock_some_iff, h.waitsFor]

end Congruence

/-- The same calls on tables with different numbers of shards, each in its own iteration
orders, get the same answers, down to the victim and the cycle of a reported deadlock. -/
theorem outcomes_independent_of_sharding (bits bits' : Nat)
    (calls : List (PointCall × IterOrder TxnId (ResourceId × LockMode) ×
      IterOrder TxnId (ResourceId × LockMode))) :
    let run := replay LockManager.exec (.withShards bits) (calls.map fun c => c.1.op c.2.1)
    let run' := replay LockManager.exec (.withShards bits') (calls.map fun c => c.1.op c.2.2)
    run.2 = run'.2 ∧
      ∀ order order' keyOrder keyOrder', (∃ d, run.1.findDeadlock order keyOrder = some d) ↔
        ∃ d, run'.1.findDeadlock order' keyOrder' = some d := by
  intro run run'
  have hsim : run.2 = run'.2 ∧ SameTable run.1 run'.1 := by
    apply replay_simulates (R := SameTable)
      (Q := fun op op' => ∃ (call : PointCall) (order order' : _),
        op = call.op order ∧ op' = call.op order')
    · intro self self' op op' h hop
      obtain ⟨call, order, order', rfl, rfl⟩ := hop
      exact h.exec order order' call
    · exact sameTable_withShards bits bits'
    · rw [List.forall₂_map_left_iff, List.forall₂_map_right_iff, List.forall₂_same]
      intro c _
      exact ⟨c.1, c.2.1, c.2.2, rfl, rfl⟩
  exact ⟨hsim.1, hsim.2.findDeadlock_some_iff⟩

end LockDb
