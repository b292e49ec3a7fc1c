import LockDb.AtWait
import LockDb.Blockers
import LockDb.GraphEdits

/-!
# The graph of the waiters

Detection builds its graph anew from the registered waits, and what it builds has an entry for
each waiter that is still blocked and for nobody else. An abort or a cancelled wait changes the
next graph as the corresponding edit would have changed this one.
-/

namespace LockDb

set_option autoImplicit false

open Shared Shared.Multimap

namespace LockManager
variable {bits : Nat} {self : LockManager bits} {txn t u victim : TxnId} {res : ResourceId}
variable {mode : LockMode}

theorem Inv.holdersBlocking_nodup (h : self.Inv) : (self.holdersBlocking txn res mode).Nodup :=
  ((List.filter_sublist).map Holder.txn).nodup (h.entry res).unique

theorem Inv.neighbors_nodup (h : self.Inv) (order : IterOrder TxnId (ResourceId × LockMode))
    (t : TxnId) : ((self.buildWaitGraph order).neighbors t).Nodup := by
  rw [buildWaitGraph_neighbors]
  split
  · exact List.nodup_nil
  · exact h.holdersBlocking_nodup

/-- A waiter without a blocker gets no entry at all. -/
theorem buildWaitGraph_accurate (self : LockManager bits)
    (order : IterOrder TxnId (ResourceId × LockMode)) :
    (self.buildWaitGraph order).Accurate := by
  have hfold : ∀ (ws : List (TxnId × ResourceId × LockMode)) (graph : WaitForGraph),
      (∀ v, ¬ graph.Idle v) → ∀ v, ¬ (ws.foldl self.addWaiter graph).Idle v := by
    intro ws
    induction ws with
    | nil => exact fun graph h => h
    | cons w ws ih =>
      intro graph h
      refine ih _ fun v hidle => ?_
      exact h v ((graph.addWaits_idle v w.1 _).mp hidle).1
  rw [WaitForGraph.accurate_iff]
  exact hfold _ .new fun v => by simp [WaitForGraph.Idle, WaitForGraph.new]

theorem Inv.neighbors_ne_nil_iff (h : self.Inv) (order : IterOrder TxnId (ResourceId × LockMode)) :
    (self.buildWaitGraph order).neighbors t ≠ [] ↔
      ∃ res mode, self.waits.lookup t = some (res, mode) ∧ ¬ self.Grantable t res mode := by
  cases hw : self.waits.lookup t with
  | none => simp [buildWaitGraph_neighbors, hw]
  | some w =>
    obtain ⟨res, mode⟩ := w
    simp only [ne_eq, h.waiter_neighbors_nil hw, Option.some.injEq, Prod.mk.injEq]
    constructor
    · exact fun hblocked => ⟨res, mode, ⟨rfl, rfl⟩, hblocked⟩
    · rintro ⟨_, _, ⟨rfl, rfl⟩, hblocked⟩
      exact hblocked

theorem Inv.mem_neighbors_iff (h : self.Inv) (order : IterOrder TxnId (ResourceId × LockMode)) :
    u ∈ (self.buildWaitGraph order).neighbors t ↔ self.WaitsFor t u := by
  rw [← h.buildWaitGraph_waits order]
  rfl

theorem Inv.request_granted_iff (h : self.Inv) (order : IterOrder TxnId (ResourceId × LockMode)) :
    (self.request order txn res mode).2 = .granted ↔ self.Grantable txn res mode := by
  rcases h.request_cases order txn res mode with ⟨free, next, hr, _, _⟩ | ⟨blocked, hr⟩
  · simp [hr, free]
  · simp [hr, blocked, refusal_ne_granted]

/-- An abort removes the victim's edges and no others. -/
theorem Inv.releaseAll_waitsFor_iff (h : self.Inv) : (self.releaseAll victim).1.WaitsFor t u ↔
    self.WaitsFor t u ∧ t ≠ victim ∧ u ≠ victim := by
  by_cases ht : t = victim
  · subst ht
    have hnone : (self.releaseAll t).1.waits.lookup t = none := by
      rw [releaseAll_waits, lookup_erase_eq, if_pos rfl]
    simp only [ne_eq, not_true_eq_false, false_and, and_false, iff_false]
    rintro ⟨r, m, a, hw, _⟩
    rw [hnone] at hw
    simp at hw
  · by_cases hu : u = victim
    · subst hu
      simp only [ne_eq, not_true_eq_false, and_false, iff_false]
      rintro ⟨r, m, a, _, _, ha, _⟩
      rw [h.releaseAll_modeHeld, LockTable.heldDropAll, if_pos rfl] at ha
      simp at ha
    · rw [h.releaseAll_waitsFor ht hu]
      exact ⟨fun hw => ⟨hw, ht, hu⟩, fun hw => hw.1⟩

theorem Inv.releaseAll_graph (h : self.Inv) (order order' : IterOrder TxnId (ResourceId × LockMode))
    (victim t : TxnId) : (((self.releaseAll victim).1.buildWaitGraph order').neighbors t).Perm
      (((self.buildWaitGraph order).removeTxn victim).neighbors t) := by
  have hnext : (self.releaseAll victim).1.Inv := h.exec (.releaseAll victim)
  rw [WaitForGraph.removeTxn_neighbors]
  refine (List.perm_ext_iff_of_nodup (hnext.neighbors_nodup order' t)
    ((h.neighbors_nodup order t).filter _)).mpr fun u => ?_
  rw [hnext.mem_neighbors_iff, h.releaseAll_waitsFor_iff, List.mem_filter, h.mem_neighbors_iff,
    decide_eq_true_iff]

theorem cancelWait_graph (self : LockManager bits)
    (order order' : IterOrder TxnId (ResourceId × LockMode)) (txn t : TxnId) :
    ((self.cancelWait txn).buildWaitGraph order').neighbors t =
      ((self.buildWaitGraph order).clearWaiter txn).neighbors t := by
  rw [WaitForGraph.neighbors_clearWaiter, buildWaitGraph_neighbors, buildWaitGraph_neighbors,
    cancelWait, lookup_erase_eq]
  by_cases ht : t = txn
  · simp [ht]
  · rw [if_neg ht, if_neg ht]
    rfl

/-- What a retry answers after an abort, from the graph before it. -/
theorem Inv.retry_after_abort (h : self.Inv)
    (order order' : IterOrder TxnId (ResourceId × LockMode)) (ht : t ≠ victim)
    (hw : self.waits.lookup t = some (res, mode)) :
    ((self.releaseAll victim).1.request order' t res mode).2 = .granted ↔
      ∀ u ∈ (self.buildWaitGraph order).neighbors t, u = victim := by
  have hnext : (self.releaseAll victim).1.Inv := h.exec (.releaseAll victim)
  have hwaits : (self.releaseAll victim).1.waits.lookup t = some (res, mode) := by
    rw [releaseAll_waits, lookup_erase_eq, if_neg ht, hw]
  rw [hnext.request_granted_iff, ← hnext.holdersBlocking_nil_iff, List.eq_nil_iff_forall_not_mem]
  refine forall_congr' fun u => ?_
  rw [← hnext.waitsFor_iff hwaits, h.releaseAll_waitsFor_iff, h.mem_neighbors_iff]
  simp only [not_and, ne_eq, not_not]
  exact ⟨fun hall hu => hall hu ht, fun hall hu _ => hall hu⟩

end LockManager

/-- In every reachable state and every iteration order: the graph has each edge once and counts
the waiters a retry would refuse; an abort or a cancelled wait edits it, and an abort lets
exactly those waiters through whose every edge goes to the victim. -/
theorem graph_counts_blocked_waiters (bits : Nat) (moves : List (LockManager.Move bits))
    (order order' : IterOrder TxnId (ResourceId × LockMode)) (victim : TxnId) :
    let self := LockManager.reached bits moves
    let graph := self.buildWaitGraph order
    (∀ t, (graph.neighbors t).Nodup ∧ t ∉ graph.neighbors t) ∧
    graph.waiterCount = Set.ncard {t | ∃ res mode, self.waits.lookup t = some (res, mode) ∧
      (self.request order' t res mode).2 ≠ .granted} ∧
    (graph.isEmpty = true ↔ ∀ t res mode, self.waits.lookup t = some (res, mode) →
      (self.request order' t res mode).2 = .granted) ∧
    (∀ t, (((self.releaseAll victim).1.buildWaitGraph order').neighbors t).Perm
      ((graph.removeTxn victim).neighbors t)) ∧
    (∀ t, ((self.cancelWait victim).buildWaitGraph order').neighbors t =
      (graph.clearWaiter victim).neighbors t) ∧
    ∀ t res mode, t ≠ victim → self.waits.lookup t = some (res, mode) →
      (((self.releaseAll victim).1.request order' t res mode).2 = .granted ↔
        ∀ u ∈ graph.neighbors t, u = victim) := by
  intro self graph
  have hinv : self.Inv := LockManager.inv_reached bits moves
  obtain ⟨hcount, hempty⟩ : graph.Accurate := self.buildWaitGraph_accurate order
  have hblocked : ∀ t, graph.neighbors t ≠ [] ↔ ∃ res mode,
      self.waits.lookup t = some (res, mode) ∧ (self.request order' t res mode).2 ≠ .granted := by
    intro t
    simp only [ne_eq, hinv.request_granted_iff]
    exact hinv.neighbors_ne_nil_iff order
  refine ⟨fun t => ⟨hinv.neighbors_nodup order t, hinv.graph_irrefl order t⟩, ?_, ?_,
    hinv.releaseAll_graph order order' victim, self.cancelWait_graph order order' victim,
    fun t res mode ht hw => hinv.retry_after_abort order order' ht hw⟩
  · rw [hcount]
    simp only [hblocked]
  · rw [hempty]
    refine forall_congr' fun t => ?_
    rw [← not_iff_not, ← ne_eq, hblocked]
    push Not
    rfl

end LockDb
