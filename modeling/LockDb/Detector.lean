import LockDb.AtWait
import LockDb.Bookkeeping

/-!
# The periodic detector

A background task that calls `find_deadlock` and aborts the victim until nothing is
found. However many deadlocks there are and however they overlap, it ends, aborts only
transactions that were deadlocked, never the oldest of a cycle, and leaves the others alone.
-/

namespace LockDb

set_option autoImplicit false

open Shared Shared.Multimap

structure Sweep (bits : Nat) where
  last : LockManager bits
  victims : List TxnId

namespace LockManager
variable {bits : Nat}

/-- The loop of a detector; `fuel` bounds the scans. -/
def detectorLoop (orders : Nat → IterOrder TxnId (ResourceId × LockMode))
    (keyOrders : Nat → IterOrder TxnId (List TxnId)) :
    Nat → LockManager bits → Option (Sweep bits)
  | 0, _ => none
  | fuel + 1, self =>
    match self.findDeadlock (orders fuel) (keyOrders fuel) with
    | none => some ⟨self, []⟩
    | some d =>
      (detectorLoop orders keyOrders fuel (self.releaseAll d.victim).1).map fun run =>
        { run with victims := d.victim :: run.victims }

variable {self : LockManager bits} {run : Sweep bits} {victim : TxnId}

/-- What a detector has done when it ends. -/
structure Resolved (init : LockManager bits) (run : Sweep bits) : Prop where
  inv : run.last.Inv
  acyclic : Acyclic run.last.WaitsFor
  nodup : run.victims.Nodup
  deadlocked : ∀ v ∈ run.victims, ∃ c, IsCycle init.WaitsFor c ∧ v ∈ c ∧ ∃ t ∈ c, t < v
  held : ∀ t r, run.last.modeHeld t r = if t ∈ run.victims then none else init.modeHeld t r
  waits : ∀ t, run.last.waits.lookup t =
    if t ∈ run.victims then none else init.waits.lookup t
  ranges : ∀ space, (run.last.rangeHolders space).Perm
    ((init.rangeHolders space).filter fun x => x.txn ∉ run.victims)

theorem resolved_refl (hinv : self.Inv) (hacyclic : Acyclic self.WaitsFor) :
    Resolved self ⟨self, []⟩ where
  inv := hinv
  acyclic := hacyclic
  nodup := List.nodup_nil
  deadlocked := by simp
  held := by simp
  waits := by simp
  ranges := by simp

/-- One abort, and then whatever the detector does from there. -/
theorem Resolved.cons (hinv : self.Inv) {d : Deadlock} (report : Reported self.WaitsFor d)
    (h : Resolved (self.releaseAll d.victim).1 run) :
    Resolved self { run with victims := d.victim :: run.victims } where
  inv := h.inv
  acyclic := h.acyclic
  nodup := by
    refine List.nodup_cons.mpr ⟨fun hmem => ?_, h.nodup⟩
    -- a victim is on a cycle, and the one just aborted is on none any more
    obtain ⟨c, hc, hv, _⟩ := h.deadlocked _ hmem
    exact ((hinv.releaseAll_cycle_iff d.victim c).mp hc).2 hv
  deadlocked v hv := by
    rcases List.mem_cons.mp hv with rfl | hv
    · exact ⟨d.cycle, report.cycle, report.victim_mem, report.younger⟩
    · obtain ⟨c, hc, hvc⟩ := h.deadlocked v hv
      exact ⟨c, ((hinv.releaseAll_cycle_iff d.victim c).mp hc).1, hvc⟩
  held t r := by
    rw [h.held, hinv.releaseAll_modeHeld, LockTable.heldDropAll]
    by_cases ht : t = d.victim
    · simp [ht]
    · simp [ht]
  waits t := by
    rw [h.waits, releaseAll_waits, lookup_erase_eq]
    by_cases ht : t = d.victim
    · simp [ht]
    · simp [ht]
  ranges space := by
    have hperm := (hinv.releaseAll_rangeHolders d.victim space).filter fun x => x.txn ∉ run.victims
    refine (h.ranges space).trans (hperm.trans (List.Perm.of_eq ?_))
    rw [Ledger.others, List.filter_filter]
    apply List.filter_congr
    intro x _
    by_cases hv : x.txn = d.victim <;> simp [rangeLedger, hv]

theorem waitingCount_releaseAll_lt (hv : self.Registered victim) :
    (self.releaseAll victim).1.waitingCount < self.waitingCount := by
  obtain ⟨w, hw⟩ := hv
  unfold waitingCount
  rw [releaseAll_waits, Finmap.keys_erase]
  exact Finset.card_erase_lt_of_mem (Finmap.mem_keys.mpr (Finmap.mem_of_lookup_eq_some hw))

theorem Inv.detectorLoop_ends (orders : Nat → IterOrder TxnId (ResourceId × LockMode))
    (keyOrders : Nat → IterOrder TxnId (List TxnId)) {fuel : Nat} (hinv : self.Inv)
    (hfuel : self.waitingCount < fuel) :
    ∃ run, detectorLoop orders keyOrders fuel self = some run ∧ Resolved self run := by
  induction fuel generalizing self with
  | zero => omega
  | succ fuel ih =>
    unfold detectorLoop
    cases hd : self.findDeadlock (orders fuel) (keyOrders fuel) with
    | none => exact ⟨_, rfl, resolved_refl hinv (hinv.findDeadlock_none hd)⟩
    | some d =>
      have hreport := hinv.findDeadlock_some hd
      have hlt := waitingCount_releaseAll_lt (registered_of_cycle hreport.cycle hreport.victim_mem)
      obtain ⟨run, hrun, hresolved⟩ := ih (hinv.releaseAll d.victim) (by omega)
      refine ⟨_, ?_, hresolved.cons hinv hreport⟩
      simp only [hrun, Option.map_some]

theorem Resolved.rangesOf (h : Resolved self run) {t : TxnId} (ht : t ∉ run.victims)
    (space : ResourceId) : (run.last.rangesOf t space).Perm (self.rangesOf t space) := by
  unfold LockManager.rangesOf
  refine ((h.ranges space).filter _).trans (List.Perm.of_eq ?_)
  rw [List.filter_filter]
  apply List.filter_congr
  intro x _
  by_cases hx : x.txn = t <;> simp [hx, ht]

/-- A deadlock that no victim belonged to would still be there. -/
theorem Resolved.victim_of_cycle (h : Resolved self run) {c : List TxnId}
    (hc : IsCycle self.WaitsFor c) : ∃ v ∈ c, v ∈ run.victims := by
  by_contra hnone
  push Not at hnone
  refine h.acyclic c (hc.imp_of_mem fun a ha b hb hab => ?_)
  rw [waitsFor_eq] at hab ⊢
  refine hab.agree ?_ ?_
  · rw [h.waits, if_neg (hnone a ha)]
  · intro r
    rw [h.held, if_neg (hnone b hb)]

/-- The waiter with the smallest id is never a victim, so one less is enough. -/
theorem Resolved.length_le (h : Resolved self run) :
    run.victims.length ≤ self.waitingCount - 1 := by
  have hregistered : ∀ v ∈ run.victims, v ∈ self.waits.keys := by
    intro v hv
    obtain ⟨c, hc, hvc, _⟩ := h.deadlocked v hv
    obtain ⟨w, hw⟩ := registered_of_cycle hc hvc
    exact Finmap.mem_keys.mpr (Finmap.mem_of_lookup_eq_some hw)
  rcases self.waits.keys.eq_empty_or_nonempty with hempty | hsome
  · have hnone : run.victims = [] := by
      rw [List.eq_nil_iff_forall_not_mem]
      intro v hv
      have hmem := hregistered v hv
      rw [hempty] at hmem
      simp at hmem
    simp [hnone]
  · let oldest := self.waits.keys.min' hsome
    have hsub : run.victims.toFinset ⊆ self.waits.keys.erase oldest := by
      intro v hv
      rw [List.mem_toFinset] at hv
      refine Finset.mem_erase.mpr ⟨?_, hregistered v hv⟩
      obtain ⟨c, hc, _, t, ht, hlt⟩ := h.deadlocked v hv
      obtain ⟨w, hw⟩ := registered_of_cycle hc ht
      have hmin : oldest ≤ t := self.waits.keys.min'_le t
        (Finmap.mem_keys.mpr (Finmap.mem_of_lookup_eq_some hw))
      exact ne_of_gt (lt_of_le_of_lt hmin hlt)
    have hcard := Finset.card_le_card hsub
    rw [List.toFinset_card_of_nodup h.nodup,
      Finset.card_erase_of_mem (self.waits.keys.min'_mem hsome)] at hcard
    exact hcard

end LockManager

/-- From every reachable state the detector ends, with fewer aborts than there are waiters. It
then finds no deadlock in any iteration order; each victim was on a cycle with an older
member, each cycle had a victim, and everybody else has all its locks, ranges and its wait. -/
theorem detector_resolves (bits : Nat) (moves : List (LockManager.Move bits))
    (orders : Nat → IterOrder TxnId (ResourceId × LockMode))
    (keyOrders : Nat → IterOrder TxnId (List TxnId)) (fuel : Nat)
    (hfuel : (LockManager.reached bits moves).waitingCount < fuel) :
    let self := LockManager.reached bits moves
    ∃ run, LockManager.detectorLoop orders keyOrders fuel self = some run ∧
      (∀ order keyOrder, run.last.findDeadlock order keyOrder = none) ∧
      run.victims.length ≤ self.waitingCount - 1 ∧
      (∀ v ∈ run.victims, ∃ c, IsCycle self.WaitsFor c ∧ v ∈ c ∧ ∃ t ∈ c, t < v) ∧
      (∀ c, IsCycle self.WaitsFor c → ∃ v ∈ c, v ∈ run.victims) ∧
      ∀ t, t ∉ run.victims → run.last.modeHeld t = self.modeHeld t ∧
        run.last.waits.lookup t = self.waits.lookup t ∧
        ∀ space, (run.last.rangesOf t space).Perm (self.rangesOf t space) := by
  intro self
  have hinv : self.Inv := LockManager.inv_reached bits moves
  obtain ⟨run, hrun, h⟩ := hinv.detectorLoop_ends orders keyOrders hfuel
  refine ⟨run, hrun, ?_, h.length_le, h.deadlocked, fun c hc => h.victim_of_cycle hc, ?_⟩
  · intro order keyOrder
    exact (h.inv.findDeadlock_none_iff order keyOrder).mpr h.acyclic
  · intro t ht
    refine ⟨?_, ?_, h.rangesOf ht⟩
    · funext r
      rw [h.held, if_neg ht]
    · rw [h.waits, if_neg ht]

/-- Two deadlocks that share transaction 1: both others are aborted. -/
theorem detector_resolves_twice :
    let moves : List (LockManager.Move 4) := [.call (.tryAcquire ⟨2⟩ ⟨1⟩ .shared),
      .call (.tryAcquire ⟨3⟩ ⟨1⟩ .shared), .call (.tryAcquire ⟨1⟩ ⟨2⟩ .exclusive),
      .call (.request .sorted ⟨2⟩ ⟨2⟩ .exclusive), .call (.request .sorted ⟨3⟩ ⟨2⟩ .exclusive),
      .call (.request .sorted ⟨1⟩ ⟨1⟩ .exclusive)]
    ∃ run, LockManager.detectorLoop (fun _ => .sorted) (fun _ => .sorted) 4
        (LockManager.reached 4 moves) = some run ∧ run.victims = [⟨2⟩, ⟨3⟩] ∧
      run.last.findDeadlock .sorted .sorted = none := by
  intro moves
  obtain ⟨run, hrun, hnone, _⟩ := detector_resolves 4 moves (fun _ => .sorted) (fun _ => .sorted) 4
    (by decide +kernel)
  have hvictims : (LockManager.detectorLoop (fun _ => .sorted) (fun _ => .sorted) 4
      (LockManager.reached 4 moves)).map Sweep.victims = some [⟨2⟩, ⟨3⟩] := by decide +kernel
  rw [hrun] at hvictims
  exact ⟨run, hrun, Option.some.inj hvictims, hnone .sorted .sorted⟩

end LockDb
