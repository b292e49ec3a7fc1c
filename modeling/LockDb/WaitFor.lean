import LockDb.Table
import LockDb.Shared.WaitFor

/-!
# The wait-for relation and the graph that is built from it

The graph is rebuilt on every detection, in whatever order the wait map is
iterated; built without interruption it has exactly the edges of the relation.
-/

namespace LockDb

set_option autoImplicit false

open Shared Shared.Multimap Relation

namespace LockManager
variable {bits : Nat} {self : LockManager bits}

def WaitsFor (self : LockManager bits) (t u : TxnId) : Prop :=
  ∃ res mode held, self.waits.lookup t = some (res, mode) ∧ u ≠ t ∧
    self.modeHeld u res = some held ∧ ¬ held.compatibleWith mode = true

theorem waitsFor_eq (self : LockManager bits) :
    self.WaitsFor = Shared.WaitsFor self.modeHeld fun t => self.waits.lookup t := rfl

theorem mem_holdersBlocking {t u : TxnId} {res : ResourceId} {mode : LockMode} :
    u ∈ self.holdersBlocking t res mode ↔
      u ≠ t ∧ ∃ held, ⟨u, held⟩ ∈ self.holders res ∧ ¬ held.compatibleWith mode = true := by
  simp only [holdersBlocking, List.mem_map, List.mem_filter, Bool.and_eq_true, decide_eq_true_eq,
    Bool.not_eq_true', Bool.not_eq_true]
  constructor
  · intro hmem
    rcases hmem with ⟨x, ⟨hx, hne, hbad⟩, rfl⟩
    exact ⟨hne, x.mode, hx, hbad⟩
  · intro hholds
    rcases hholds with ⟨hne, held, hx, hbad⟩
    exact ⟨⟨u, held⟩, ⟨hx, hne, hbad⟩, rfl⟩

theorem addWaiter_neighbors (graph : WaitForGraph) (w : TxnId × ResourceId × LockMode) (t : TxnId) :
    (self.addWaiter graph w).neighbors t =
      if t = w.1 then graph.neighbors t ++ self.holdersBlocking t w.2.1 w.2.2
      else graph.neighbors t := by
  rw [addWaiter, WaitForGraph.neighbors_addWaits]
  split
  · next ht =>
    rw [← ht, List.filter_eq_self.mpr]
    intro u hu
    simpa using (mem_holdersBlocking.mp hu).1
  · rfl

theorem addWaiter_waits (graph : WaitForGraph) (w : TxnId × ResourceId × LockMode) (t u : TxnId) :
    (self.addWaiter graph w).Waits t u ↔
      graph.Waits t u ∨ (t = w.1 ∧ u ∈ self.holdersBlocking w.1 w.2.1 w.2.2) := by
  unfold WaitForGraph.Waits
  rw [addWaiter_neighbors]
  split
  · next ht => simp [ht]
  · next ht => simp [ht]

theorem not_waits_new (t u : TxnId) : ¬ WaitForGraph.new.Waits t u := by
  simp [WaitForGraph.Waits, WaitForGraph.neighbors_new]

theorem foldl_addWaiter_neighbors {ws : List (TxnId × ResourceId × LockMode)}
    (hnodup : (ws.map Prod.fst).Nodup) (graph : WaitForGraph) (t : TxnId) :
    (t ∉ ws.map Prod.fst → (ws.foldl self.addWaiter graph).neighbors t = graph.neighbors t) ∧
    ∀ w ∈ ws, t = w.1 → (ws.foldl self.addWaiter graph).neighbors t =
      graph.neighbors t ++ self.holdersBlocking t w.2.1 w.2.2 := by
  induction ws generalizing graph with
  | nil => simp
  | cons w ws ih =>
    obtain ⟨hw, hrest⟩ := List.nodup_cons.mp hnodup
    obtain ⟨hout, hin⟩ := ih hrest (self.addWaiter graph w)
    rw [addWaiter_neighbors] at hout hin
    constructor
    · intro ht
      rw [List.map_cons, List.mem_cons, not_or] at ht
      rw [if_neg ht.1] at hout
      exact hout ht.2
    · intro v hv ht
      rcases List.mem_cons.mp hv with rfl | hv
      · rw [if_pos ht] at hout
        exact hout (ht ▸ hw)
      · have hne : t ≠ w.1 := by
          intro heq
          exact hw (heq ▸ ht ▸ List.mem_map_of_mem hv)
        rw [if_neg hne] at hin
        exact hin v hv ht

/-- Each waiter is read once, so its successors stand in the order of the holder list and
do not depend on the order in which the waiters are read. -/
theorem buildWaitGraph_neighbors (self : LockManager bits)
    (order : IterOrder TxnId (ResourceId × LockMode)) (t : TxnId) :
    (self.buildWaitGraph order).neighbors t =
      match self.waits.lookup t with
      | none => []
      | some (res, mode) => self.holdersBlocking t res mode := by
  have hnodup : ((order.iter self.waits).map Prod.fst).Nodup := by
    rw [order.iter_keys]
    exact order.nodup _
  obtain ⟨hout, hin⟩ := @foldl_addWaiter_neighbors _ self _ hnodup .new t
  simp only [WaitForGraph.neighbors_new, List.nil_append] at hout hin
  unfold buildWaitGraph
  cases hw : self.waits.lookup t with
  | none =>
    have hnot : t ∉ (order.iter self.waits).map Prod.fst := by
      rw [order.iter_keys, order.mem_keys]
      exact Finmap.lookup_eq_none.mp hw
    exact hout hnot
  | some w => exact hin (t, w) ((order.mem_iter _ _ _).mpr hw) rfl

/-- The graph has exactly the edges of the relation, for every iteration order. -/
theorem Inv.buildWaitGraph_waits (h : self.Inv) (order : IterOrder TxnId (ResourceId × LockMode)) :
    (self.buildWaitGraph order).Waits = self.WaitsFor := by
  funext t u
  apply propext
  unfold WaitForGraph.Waits WaitsFor
  rw [buildWaitGraph_neighbors]
  cases hw : self.waits.lookup t with
  | none => simp
  | some w =>
    obtain ⟨res, mode⟩ := w
    constructor
    · intro hread
      obtain ⟨hne, held, hh, hbad⟩ := mem_holdersBlocking.mp hread
      exact ⟨res, mode, held, rfl, hne, (h.entry res).modeOf_iff.mpr hh, hbad⟩
    · intro hwaits
      obtain ⟨res', mode', held, heq, hne, hh, hbad⟩ := hwaits
      obtain ⟨rfl, rfl⟩ : res = res' ∧ mode = mode' := by simpa using heq
      exact mem_holdersBlocking.mpr ⟨hne, held, mem_of_modeOf hh, hbad⟩

section Change
variable {next : LockManager bits}

theorem WaitsFor.of_shrink
    (hwaits : ∀ t w, next.waits.lookup t = some w → self.waits.lookup t = some w)
    (hheld : ∀ t r m, next.modeHeld t r = some m → self.modeHeld t r = some m) {a b : TxnId}
    (h : next.WaitsFor a b) : self.WaitsFor a b := by
  rw [waitsFor_eq] at *
  exact h.shrink (hwaits a) (hheld b)

/-- Only the calls that ask for a point lock can add edges. -/
theorem Inv.exec_shrinks (h : self.Inv) {op : Op}
    (htry : ∀ txn res mode, op ≠ .tryAcquire txn res mode)
    (hreq : ∀ order txn res mode, op ≠ .request order txn res mode) (a b : TxnId)
    (hab : (self.exec op).1.WaitsFor a b) : self.WaitsFor a b := by
  apply WaitsFor.of_shrink (h.exec_waits hreq) _ hab
  intro t r m hm
  have hcase := h.exec_cases op
  generalize self.exec op = out at hcase hm
  cases hcase with
  | acquired _ _ _ => exact absurd rfl (htry _ _ _)
  | conflict _ => exact absurd rfl (htry _ _ _)
  | granted _ _ _ => exact absurd rfl (hreq _ _ _ _)
  | refused _ => exact absurd rfl (hreq _ _ _ _)
  | released _ held _ =>
    rw [held] at hm
    exact LockTable.heldDrop_some hm
  | releasedAll held _ =>
    rw [held] at hm
    exact LockTable.heldDropAll_some hm
  | rangeAcquire held _ => rwa [held] at hm
  | rangeRelease held _ => rwa [held] at hm
  | cancelled => exact hm
  | notHeld _ => exact hm
  | scanned => exact hm

theorem cycle_of_grant {txn : TxnId} {res : ResourceId} {mode : LockMode}
    (held : next.modeHeld = LockTable.heldGrant self.modeHeld txn res mode)
    (hnone : next.waits.lookup txn = none)
    (hwaits : ∀ t, t ≠ txn → next.waits.lookup t = self.waits.lookup t) {c : List TxnId}
    (hc : IsCycle next.WaitsFor c) : txn ∉ c ∧ IsCycle self.WaitsFor c := by
  rw [waitsFor_eq, held] at hc
  rw [waitsFor_eq]
  exact hc.of_grant hnone hwaits

theorem cycle_of_granted_request {txn : TxnId} {res : ResourceId} {mode : LockMode}
    (held : next.modeHeld = LockTable.heldGrant self.modeHeld txn res mode)
    (waits : next.waits = self.waits.erase txn) {c : List TxnId}
    (hc : IsCycle next.WaitsFor c) : txn ∉ c ∧ IsCycle self.WaitsFor c := by
  apply cycle_of_grant held _ _ hc
  · rw [waits, lookup_erase_eq, if_pos rfl]
  · intro t ht
    rw [waits, lookup_erase_eq, if_neg ht]

/-- A cycle that avoids a transaction was there before that transaction registered. -/
theorem cycle_of_register {txn : TxnId} {res : ResourceId} {mode : LockMode} {c : List TxnId}
    (hc : IsCycle (self.enter (.registerWait txn res mode)).WaitsFor c) (htxn : txn ∉ c) :
    IsCycle self.WaitsFor c := by
  rw [waitsFor_eq] at *
  apply hc.of_register _ htxn
  intro t ht
  exact (lookup_insert_eq _ _ _ _).trans (if_neg ht)

end Change

end LockManager

/-- What a reported deadlock must be for the relation `R`. -/
structure Reported (R : TxnId → TxnId → Prop) (d : Deadlock) : Prop where
  cycle : IsCycle R d.cycle
  nodup : d.cycle.Nodup
  two : 2 ≤ d.cycle.length
  victim_mem : d.victim ∈ d.cycle
  youngest : ∀ t ∈ d.cycle, t ≤ d.victim
  younger : ∃ t ∈ d.cycle, t < d.victim

section Answers
variable {graph : WaitForGraph} (hirr : ∀ t, ¬ graph.Waits t t)
include hirr

theorem reported_of_cycle {c : List TxnId} {victim : TxnId} (hc : IsCycle graph.Waits c)
    (hnodup : c.Nodup) (hv : WaitForGraph.pickVictim c DEADLOCK_VICTIM_POLICY = some victim) :
    Reported graph.Waits ⟨victim, c⟩ := by
  have htwo := WaitForGraph.two_le_length hirr hc
  obtain ⟨v, hpick, hmem, hmax, hlt⟩ := WaitForGraph.pickVictim_youngest hnodup htwo
  have heq : v = victim := Option.some.inj (hpick.symm.trans hv)
  subst heq
  exact ⟨hc, hnodup, htwo, hmem, hmax, hlt⟩

theorem victim_of_cycle {c : List TxnId} (hc : IsCycle graph.Waits c) (hnodup : c.Nodup) :
    ∃ victim, WaitForGraph.pickVictim c DEADLOCK_VICTIM_POLICY = some victim := by
  obtain ⟨v, hpick, _⟩ :=
    WaitForGraph.pickVictim_youngest hnodup (WaitForGraph.two_le_length hirr hc)
  exact ⟨v, hpick⟩

theorem scan_some {keyOrder : IterOrder TxnId (List TxnId)} {d : Deadlock}
    (h : LockManager.scan graph keyOrder = some d) : Reported graph.Waits d := by
  unfold LockManager.scan at h
  cases hc : graph.detectCycle keyOrder with
  | none => simp [hc] at h
  | some c =>
    obtain ⟨hcycle, hnodup⟩ := graph.detectCycle_some keyOrder hc
    obtain ⟨v, hv⟩ := victim_of_cycle hirr hcycle hnodup
    have hd : d = ⟨v, c⟩ := by simpa [hc, hv, eq_comm] using h
    subst hd
    exact reported_of_cycle hirr hcycle hnodup hv

theorem scan_none {keyOrder : IterOrder TxnId (List TxnId)}
    (h : LockManager.scan graph keyOrder = none) : Acyclic graph.Waits := by
  unfold LockManager.scan at h
  cases hc : graph.detectCycle keyOrder with
  | none => exact graph.detectCycle_none keyOrder hc
  | some c =>
    obtain ⟨hcycle, hnodup⟩ := graph.detectCycle_some keyOrder hc
    obtain ⟨v, hv⟩ := victim_of_cycle hirr hcycle hnodup
    simp [hc, hv] at h

theorem refusal_deadlock {txn : TxnId} {d : Deadlock}
    (h : LockManager.refusal graph txn = .deadlock d) :
    Reported graph.Waits d ∧ ∀ t ∈ d.cycle, ReflTransGen graph.Waits txn t := by
  unfold LockManager.refusal at h
  split at h
  · next c hc =>
    obtain ⟨hcycle, hnodup, hreach⟩ := graph.cycleFrom_some hc
    obtain ⟨v, hv⟩ := victim_of_cycle hirr hcycle hnodup
    have hd : d = ⟨v, c⟩ := by simpa [hv, eq_comm] using h
    subst hd
    exact ⟨reported_of_cycle hirr hcycle hnodup hv, hreach⟩
  · simp at h

omit hirr in
theorem refusal_ne_granted (graph : WaitForGraph) (txn : TxnId) :
    LockManager.refusal graph txn ≠ .granted := by
  unfold LockManager.refusal
  split <;> simp

omit hirr in
theorem refusal_waiting {txn : TxnId} (h : ∀ d, LockManager.refusal graph txn ≠ .deadlock d)
    {c : List TxnId} (hc : IsCycle graph.Waits c) {t : TxnId}
    (ht : t ∈ c) : ¬ ReflTransGen graph.Waits txn t := by
  unfold LockManager.refusal at h
  split at h
  · exact absurd rfl (h _)
  · next hnone => exact graph.cycleFrom_none hnone hc ht

end Answers

end LockDb
