import LockDb.WaitFor

/-!
# What detection reports

The full scan reports a deadlock exactly when the wait-for relation has a cycle.
The search made by a request is enough to leave no cycle unreported: only a
registration can close one, and the search starts at the transaction that registered.
-/

namespace LockDb

set_option autoImplicit false

open Shared Shared.Multimap Relation

namespace LockManager
variable {bits : Nat} {self : LockManager bits}

theorem Inv.graph_irrefl (h : self.Inv) (order : IterOrder TxnId (ResourceId × LockMode))
    (t : TxnId) : ¬ (self.buildWaitGraph order).Waits t t := by
  rw [h.buildWaitGraph_waits order, waitsFor_eq]
  exact waitsFor_irrefl t

def Registered (self : LockManager bits) (t : TxnId) : Prop := ∃ w, self.waits.lookup t = some w

theorem registered_of_cycle {c : List TxnId} (hc : IsCycle self.WaitsFor c) {t : TxnId}
    (ht : t ∈ c) : self.Registered t := by
  rw [waitsFor_eq] at hc
  exact hc.registered ht

theorem Inv.findDeadlock_some (h : self.Inv) {order : IterOrder TxnId (ResourceId × LockMode)}
    {keyOrder : IterOrder TxnId (List TxnId)} {d : Deadlock}
    (hd : self.findDeadlock order keyOrder = some d) : Reported self.WaitsFor d := by
  have hreport := scan_some (h.graph_irrefl order) hd
  rwa [h.buildWaitGraph_waits order] at hreport

theorem Inv.findDeadlock_none (h : self.Inv) {order : IterOrder TxnId (ResourceId × LockMode)}
    {keyOrder : IterOrder TxnId (List TxnId)} (hd : self.findDeadlock order keyOrder = none) :
    Acyclic self.WaitsFor := by
  have hacyclic := scan_none (h.graph_irrefl order) hd
  rwa [h.buildWaitGraph_waits order] at hacyclic

theorem Inv.findDeadlock_some_iff (h : self.Inv) (order : IterOrder TxnId (ResourceId × LockMode))
    (keyOrder : IterOrder TxnId (List TxnId)) :
    (∃ d, self.findDeadlock order keyOrder = some d) ↔ ∃ c, IsCycle self.WaitsFor c := by
  constructor
  · intro hfound
    obtain ⟨d, hd⟩ := hfound
    exact ⟨d.cycle, (h.findDeadlock_some hd).cycle⟩
  · intro hcycle
    obtain ⟨c, hc⟩ := hcycle
    cases hd : self.findDeadlock order keyOrder with
    | none => exact absurd hc (h.findDeadlock_none hd c)
    | some d => exact ⟨d, rfl⟩

theorem Inv.findDeadlock_none_iff (h : self.Inv) (order : IterOrder TxnId (ResourceId × LockMode))
    (keyOrder : IterOrder TxnId (List TxnId)) :
    self.findDeadlock order keyOrder = none ↔ Acyclic self.WaitsFor := by
  rw [Option.eq_none_iff_forall_ne_some, ← not_exists, h.findDeadlock_some_iff, not_exists]
  rfl

theorem Inv.refusal_deadlock (h : self.Inv) {order : IterOrder TxnId (ResourceId × LockMode)}
    {txn : TxnId} {d : Deadlock} (hd : refusal (self.buildWaitGraph order) txn = .deadlock d) :
    Reported self.WaitsFor d ∧ ∀ t ∈ d.cycle, ReflTransGen self.WaitsFor txn t := by
  have hreport := LockDb.refusal_deadlock (h.graph_irrefl order) hd
  rwa [h.buildWaitGraph_waits order] at hreport

theorem Inv.refusal_waiting (h : self.Inv) {order : IterOrder TxnId (ResourceId × LockMode)}
    {txn : TxnId} (hd : ∀ d, refusal (self.buildWaitGraph order) txn ≠ .deadlock d) {c : List TxnId}
    (hc : IsCycle self.WaitsFor c) : txn ∉ c := by
  intro ht
  rw [← h.buildWaitGraph_waits order] at hc
  exact LockDb.refusal_waiting hd hc ht .refl

end LockManager

/-- The full scan, after any calls and in any iteration orders. -/
theorem findDeadlock_exact (bits : Nat) (ops : List Op)
    (order : IterOrder TxnId (ResourceId × LockMode)) (keyOrder : IterOrder TxnId (List TxnId)) :
    let self := (replay LockManager.exec (.withShards bits) ops).1
    ((∃ d, self.findDeadlock order keyOrder = some d) ↔ ∃ c, IsCycle self.WaitsFor c) ∧
    ∀ d, self.findDeadlock order keyOrder = some d →
      2 ≤ d.cycle.length ∧ d.cycle.Nodup ∧ (∀ t ∈ d.cycle, self.Registered t) ∧
      IsCycle self.WaitsFor d.cycle ∧ d.victim ∈ d.cycle ∧ (∃ t ∈ d.cycle, t < d.victim) ∧
      (∀ t ∈ d.cycle, t ≤ d.victim) ∧
      ∀ t, self.Registered t → (∀ u, self.Registered u → t ≤ u) → t ≠ d.victim := by
  intro self
  have hinv : self.Inv := LockManager.inv_replay bits ops
  constructor
  · exact hinv.findDeadlock_some_iff order keyOrder
  · intro d hd
    have hreport := hinv.findDeadlock_some hd
    have hregistered : ∀ t ∈ d.cycle, self.Registered t := by
      intro t ht
      exact LockManager.registered_of_cycle hreport.cycle ht
    refine ⟨hreport.two, hreport.nodup, hregistered, hreport.cycle, hreport.victim_mem,
      hreport.younger, hreport.youngest, ?_⟩
    rintro t ht hsmallest rfl
    obtain ⟨u, hu, hlt⟩ := hreport.younger
    exact absurd hlt (not_lt_of_ge (hsmallest u (hregistered u hu)))

section History
variable {bits : Nat}

/-- What the last `request` of a transaction returned; the trace is newest first. -/
def lastRequest (t : TxnId) : List (Event (LockManager bits) Op Outcome) → Option Acquisition
  | [] => none
  | e :: trace =>
    match e.op, e.out with
    | .request _ u _ _, .acquisition a => if u = t then some a else lastRequest t trace
    | _, _ => lastRequest t trace

def Flagged (trace : List (Event (LockManager bits) Op Outcome)) (t : TxnId) : Prop :=
  ∃ d, lastRequest t trace = some (.deadlock d)

/-- Callers use `try_acquire` only for transactions that are not registered. -/
def TryUnregistered (self : LockManager bits) : Op → Prop
  | .tryAcquire txn _ _ => self.waits.lookup txn = none
  | _ => True

def AllFlagged (trace : List (Event (LockManager bits) Op Outcome)) (self : LockManager bits) :
    Prop :=
  ∀ c, IsCycle self.WaitsFor c → ∃ t ∈ c, Flagged trace t

variable {trace : List (Event (LockManager bits) Op Outcome)} {self next : LockManager bits}

theorem flagged_request {order : IterOrder TxnId (ResourceId × LockMode)} {txn : TxnId}
    {res : ResourceId} {mode : LockMode} {a : Acquisition} {t : TxnId} :
    Flagged (⟨.request order txn res mode, .acquisition a, next⟩ :: trace) t ↔
      if txn = t then ∃ d, a = .deadlock d else Flagged trace t := by
  simp only [Flagged, lastRequest]
  split <;> simp

theorem AllFlagged.shrink {e : Event (LockManager bits) Op Outcome} (h : AllFlagged trace self)
    (hlast : ∀ t, lastRequest t (e :: trace) = lastRequest t trace)
    (hedges : ∀ a b, next.WaitsFor a b → self.WaitsFor a b) : AllFlagged (e :: trace) next := by
  intro c hc
  obtain ⟨t, ht, d, hd⟩ := h c (hc.imp hedges)
  exact ⟨t, ht, d, (hlast t).trans hd⟩

theorem AllFlagged.old_cycle {order : IterOrder TxnId (ResourceId × LockMode)} {txn : TxnId}
    {res : ResourceId} {mode : LockMode} {a : Acquisition} (h : AllFlagged trace self)
    {c : List TxnId} (hc : IsCycle self.WaitsFor c) (htxn : txn ∉ c) :
    ∃ t ∈ c, Flagged (⟨.request order txn res mode, .acquisition a, next⟩ :: trace) t := by
  obtain ⟨t, ht, hflag⟩ := h c hc
  refine ⟨t, ht, flagged_request.mpr ?_⟩
  have hne : txn ≠ t := by
    intro heq
    rw [heq] at htxn
    exact htxn ht
  rwa [if_neg hne]

theorem AllFlagged.tryAcquire (hinv : self.Inv) (h : AllFlagged trace self) {txn : TxnId}
    {res : ResourceId} {mode : LockMode} (ok : self.waits.lookup txn = none) :
    AllFlagged (⟨.tryAcquire txn res mode, (self.exec (.tryAcquire txn res mode)).2,
      (self.exec (.tryAcquire txn res mode)).1⟩ :: trace)
      (self.exec (.tryAcquire txn res mode)).1 := by
  have hcase := hinv.exec_cases (.tryAcquire txn res mode)
  generalize self.exec (.tryAcquire txn res mode) = out at hcase
  cases hcase with
  | @acquired _ _ _ next _ held waits =>
    intro c hc
    have hnone : next.waits.lookup txn = none := by rw [waits, ok]
    obtain ⟨_, hold⟩ := LockManager.cycle_of_grant held hnone (fun t _ => by rw [waits]) hc
    exact h c hold
  | conflict _ => exact h

theorem AllFlagged.request (hinv : self.Inv) (h : AllFlagged trace self)
    {order : IterOrder TxnId (ResourceId × LockMode)} {txn : TxnId} {res : ResourceId}
    {mode : LockMode} :
    AllFlagged (⟨.request order txn res mode, (self.exec (.request order txn res mode)).2,
      (self.exec (.request order txn res mode)).1⟩ :: trace)
      (self.exec (.request order txn res mode)).1 := by
  have hcase := hinv.exec_cases (.request order txn res mode)
  generalize self.exec (.request order txn res mode) = out at hcase
  cases hcase with
  | @granted _ _ _ _ next _ held waits =>
    intro c hc
    obtain ⟨htxn, hold⟩ := LockManager.cycle_of_granted_request held waits hc
    exact h.old_cycle hold htxn
  | refused _ =>
    intro c hc
    by_cases htxn : txn ∈ c
    · -- the search starts at `txn`, so it cannot have missed this cycle
      by_cases hd : ∃ d, LockManager.refusal
          ((self.enter (.registerWait txn res mode)).buildWaitGraph order) txn = .deadlock d
      · refine ⟨txn, htxn, flagged_request.mpr ?_⟩
        rwa [if_pos rfl]
      · have hnext : (self.enter (.registerWait txn res mode)).Inv := hinv.enter _
        have hmiss := hnext.refusal_waiting (fun d hd' => hd ⟨d, hd'⟩) hc
        exact absurd htxn hmiss
    · exact h.old_cycle (LockManager.cycle_of_register hc htxn) htxn

theorem AllFlagged.exec (hinv : self.Inv) (h : AllFlagged trace self) {op : Op}
    (ok : TryUnregistered self op) :
    AllFlagged (⟨op, (self.exec op).2, (self.exec op).1⟩ :: trace) (self.exec op).1 := by
  cases op with
  | tryAcquire txn res mode => exact h.tryAcquire hinv ok
  | request order txn res mode => exact h.request hinv
  | release txn res => exact h.shrink (fun _ => rfl) (hinv.exec_shrinks (by simp) (by simp))
  | releaseAll txn => exact h.shrink (fun _ => rfl) (hinv.exec_shrinks (by simp) (by simp))
  | cancelWait txn => exact h.shrink (fun _ => rfl) (hinv.exec_shrinks (by simp) (by simp))
  | findDeadlock order keyOrder => exact h.shrink (fun _ => rfl) fun _ _ hab => hab
  | tryAcquireRange txn space range mode =>
    exact h.shrink (fun _ => rfl) (hinv.exec_shrinks (by simp) (by simp))
  | releaseRange txn space range =>
    exact h.shrink (fun _ => rfl) (hinv.exec_shrinks (by simp) (by simp))

theorem lastRequest_mem {t : TxnId} {a : Acquisition} (h : lastRequest t trace = some a) :
    ∃ e ∈ trace, e.out = .acquisition a := by
  induction trace with
  | nil => simp [lastRequest] at h
  | cons e trace ih =>
    have hrest : lastRequest t trace = some a → ∃ e' ∈ e :: trace, e'.out = .acquisition a := by
      intro hr
      obtain ⟨e', he', ho⟩ := ih hr
      exact ⟨e', List.mem_cons_of_mem e he', ho⟩
    unfold lastRequest at h
    split at h
    · next order u res mode b _ hout =>
      split at h
      · rw [← Option.some.inj h]
        exact ⟨e, List.mem_cons_self, hout⟩
      · exact hrest h
    · exact hrest h

/-- Every cycle has a member whose last request was answered with a deadlock, whatever
the callers do about reported deadlocks. -/
theorem no_deadlock_unreported
    (run : Run LockManager.exec TryUnregistered (.withShards bits) trace self) :
    (∀ c, IsCycle self.WaitsFor c → ∃ t ∈ c, ∃ d, lastRequest t trace = some (.deadlock d)) ∧
    ((∀ e ∈ trace, ∀ d, e.out ≠ .acquisition (.deadlock d)) → Acyclic self.WaitsFor) := by
  have hflagged : AllFlagged trace self := by
    apply LockManager.run_invariant (P := AllFlagged) _ _ run
    · intro c hc
      obtain ⟨t, ht⟩ := List.exists_mem_of_ne_nil c hc.ne_nil
      obtain ⟨w, hw⟩ := LockManager.registered_of_cycle hc ht
      simp [LockManager.withShards] at hw
    · intro tr s op hinv ok h
      exact h.exec hinv ok
  refine ⟨hflagged, ?_⟩
  intro hno c hc
  obtain ⟨t, _, d, hd⟩ := hflagged c hc
  obtain ⟨e, he, hout⟩ := lastRequest_mem hd
  exact hno e he d hout

end History

def crossedRequests : List Op :=
  [.request .sorted ⟨1⟩ ⟨1⟩ .exclusive, .request .sorted ⟨2⟩ ⟨2⟩ .exclusive,
    .request .sorted ⟨1⟩ ⟨2⟩ .exclusive, .request .sorted ⟨2⟩ ⟨1⟩ .exclusive]

theorem no_deadlock_unreported_crossed :
    let run := Run.record LockManager.exec [] (.withShards 4) crossedRequests
    IsCycle run.2.WaitsFor [⟨1⟩, ⟨2⟩] ∧
      ∃ t ∈ ([⟨1⟩, ⟨2⟩] : List TxnId), ∃ d, lastRequest t run.1 = some (.deadlock d) := by
  intro run
  have hcycle : IsCycle run.2.WaitsFor [⟨1⟩, ⟨2⟩] := by
    have h12 : run.2.WaitsFor ⟨1⟩ ⟨2⟩ :=
      ⟨⟨2⟩, .exclusive, .exclusive, by decide +kernel, by decide, by decide +kernel, by decide⟩
    have h21 : run.2.WaitsFor ⟨2⟩ ⟨1⟩ :=
      ⟨⟨1⟩, .exclusive, .exclusive, by decide +kernel, by decide, by decide +kernel, by decide⟩
    simp [IsCycle, h12, h21]
  have hrun : Run LockManager.exec TryUnregistered (.withShards 4) run.1 run.2 :=
    Run.start.recorded ⟨trivial, trivial, trivial, trivial, trivial⟩
  exact ⟨hcycle, (no_deadlock_unreported hrun).1 _ hcycle⟩

end LockDb
