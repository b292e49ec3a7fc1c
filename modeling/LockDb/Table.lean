import LockDb.PointLocks
import LockDb.RangeLocks
import LockDb.Shared.Transition
import Mathlib.Algebra.BigOperators.Fin

/-!
# The whole table

Every critical section works on one shard or on the wait map. The calls are
sequences of critical sections; `exec_cases` lists everything one call can do to
the held modes and to the wait map, and the results on runs use only that list.
-/

namespace LockDb

set_option autoImplicit false

open Shared Shared.Multimap

structure ShardInv (bits : Nat) (i : Fin (2 ^ bits)) (s : ShardInner) : Prop where
  point : PointInv (fun res => shardIndex bits res = i) s
  range : RangeInv (fun res => shardIndex bits res = i) s

section ShardInv
variable {bits : Nat} {i : Fin (2 ^ bits)} {s : ShardInner} {txn : TxnId} {res : ResourceId}

theorem shardInv_new (bits : Nat) (i : Fin (2 ^ bits)) : ShardInv bits i .new :=
  ⟨pointInv_new _, rangeInv_new _⟩

theorem ShardInv.tryGrant (h : ShardInv bits i s) (hi : shardIndex bits res = i) (mode : LockMode) :
    ShardInv bits i (s.tryGrant txn res mode).1 :=
  ⟨h.point.tryGrant hi, h.range.congr rfl rfl⟩

theorem release_keeps_ranges (s : ShardInner) (txn : TxnId) (res : ResourceId) :
    (s.release txn res).1.ranges = s.ranges ∧ (s.release txn res).1.rangeByTxn = s.rangeByTxn := by
  unfold ShardInner.release
  split <;> exact ⟨rfl, rfl⟩

theorem ShardInv.release (h : ShardInv bits i s) : ShardInv bits i (s.release txn res).1 := by
  obtain ⟨hranges, hindex⟩ := release_keeps_ranges s txn res
  exact ⟨h.point.release, h.range.congr hranges hindex⟩

theorem ShardInv.sweep (h : ShardInv bits i s) (n : Nat) : ShardInv bits i (s.sweep txn n).1 :=
  ⟨h.point.sweep n, h.range.sweep n⟩

theorem tryAcquireRange_keeps_locks (s : ShardInner) (txn : TxnId) (space : ResourceId)
    (range : KeyRange) (mode : LockMode) :
    (s.tryAcquireRange txn space range mode).1.locks = s.locks ∧
      (s.tryAcquireRange txn space range mode).1.byTxn = s.byTxn := by
  rcases tryAcquireRange_cases s txn space range mode with ⟨_, _, _, heq⟩ | ⟨_, heq⟩
  · rw [heq]
    exact ⟨rfl, rfl⟩
  · rw [heq]
    exact ⟨rfl, rfl⟩

theorem ShardInv.tryAcquireRange (h : ShardInv bits i s) (hi : shardIndex bits res = i)
    (range : KeyRange) (mode : LockMode) :
    ShardInv bits i (s.tryAcquireRange txn res range mode).1 := by
  obtain ⟨hlocks, hindex⟩ := tryAcquireRange_keeps_locks s txn res range mode
  exact ⟨h.point.congr hlocks hindex, h.range.tryAcquireRange hi⟩

theorem releaseRange_keeps_locks (s : ShardInner) (txn : TxnId) (space : ResourceId)
    (range : KeyRange) :
    (s.releaseRange txn space range).1.locks = s.locks ∧
      (s.releaseRange txn space range).1.byTxn = s.byTxn := by
  unfold ShardInner.releaseRange
  split <;> exact ⟨rfl, rfl⟩

theorem ShardInv.releaseRange (h : ShardInv bits i s) (range : KeyRange) :
    ShardInv bits i (s.releaseRange txn res range).1 := by
  obtain ⟨hlocks, hindex⟩ := releaseRange_keeps_locks s txn res range
  exact ⟨h.point.congr hlocks hindex, h.range.releaseRange⟩

theorem sweep_state (s : ShardInner) (txn : TxnId) (n : Nat) :
    s.sweep txn n = ((s.sweep txn 0).1, n + (s.sweep txn 0).2) := by
  have hpoint := @Ledger.sweep_add _ _ _ _ _ _ pointLedger s.locks s.byTxn txn
  have hrange := @Ledger.sweep_add _ _ _ _ _ _ rangeLedger s.ranges s.rangeByTxn txn
  simp only [ShardInner.sweep]
  rw [hpoint n]
  simp only
  rw [hrange (n + _), hrange (pointLedger.sweep txn s.locks s.byTxn 0).2.2]
  simp only [Prod.mk.injEq, true_and]
  omega

end ShardInv

namespace LockManager
variable {bits : Nat} {self : LockManager bits}

def holders (self : LockManager bits) (res : ResourceId) : LockEntry :=
  list (self.lockShard res).locks res

def rangeHolders (self : LockManager bits) (space : ResourceId) : RangeSpace :=
  list (self.lockShard space).ranges space

def grantStep (self : LockManager bits) (txn : TxnId) (res : ResourceId) (mode : LockMode) :
    LockManager bits × Bool :=
  self.onShard res fun s => s.tryGrant txn res mode

def Inv (self : LockManager bits) : Prop := ∀ i, ShardInv bits i (self.shards i)

theorem modeHeld_eq (self : LockManager bits) (txn : TxnId) (res : ResourceId) :
    self.modeHeld txn res = modeOf (self.holders res) txn := rfl

theorem lockShard_setShard (self : LockManager bits) (i : Fin (2 ^ bits)) (s : ShardInner)
    (res : ResourceId) :
    (self.setShard i s).lockShard res =
      if shardIndex bits res = i then s else self.lockShard res := by
  simp only [lockShard, setShard, Function.update_apply]

theorem setShard_self (self : LockManager bits) (i : Fin (2 ^ bits)) :
    self.setShard i (self.shards i) = self := by
  simp [setShard]

/-- A critical section that leaves its shard alone leaves the whole table alone. -/
theorem onShard_unchanged {α : Type} {res : ResourceId} {f : ShardInner → ShardInner × α}
    (h : (f (self.lockShard res)).1 = self.lockShard res) : (self.onShard res f).1 = self := by
  simp only [onShard, h]
  exact self.setShard_self _

theorem grantStep_refused {txn : TxnId} {res : ResourceId} {mode : LockMode}
    (h : (self.grantStep txn res mode).2 = false) : (self.grantStep txn res mode).1 = self :=
  onShard_unchanged (tryGrant_refused h)

theorem inv_withShards (bits : Nat) : (withShards bits).Inv := shardInv_new bits

theorem Inv.entry (h : self.Inv) (res : ResourceId) : EntryInv (self.holders res) :=
  (h (shardIndex bits res)).point.entry res

theorem Inv.setShard (h : self.Inv) {i : Fin (2 ^ bits)} {s : ShardInner} (hs : ShardInv bits i s) :
    (self.setShard i s).Inv := by
  intro j
  by_cases hj : j = i
  · subst hj
    simpa [LockManager.setShard] using hs
  · simpa [LockManager.setShard, hj] using h j

def table (self : LockManager bits) (h : self.Inv) : LockTable TxnId ResourceId LockMode where
  held := self.modeHeld
  compatible := by
    intro t u res a b htu ht hu
    exact (h.entry res).compat (mem_of_modeOf ht) (mem_of_modeOf hu) htu

def Grantable (self : LockManager bits) (txn : TxnId) (res : ResourceId) (mode : LockMode) : Prop :=
  ∀ u a, u ≠ txn → self.modeHeld u res = some a → a.compatibleWith mode = true

theorem table_grantable (h : self.Inv) (txn : TxnId) (res : ResourceId) (mode : LockMode) :
    (self.table h).Grantable txn res mode ↔ self.Grantable txn res mode := Iff.rfl

section Effects
variable (h : self.Inv) (txn : TxnId) (res : ResourceId) (mode : LockMode)
include h

theorem Inv.grantable_iff : self.Grantable txn res mode ↔
    ∀ x ∈ self.holders res, x.txn ≠ txn → x.mode.compatibleWith mode = true := by
  constructor
  · intro hg x hx hne
    exact hg x.txn x.mode hne ((h.entry res).modeOf_iff.mpr hx)
  · intro hall u a hne hu
    exact hall ⟨u, a⟩ (mem_of_modeOf hu) hne

/-- A grant attempt succeeds exactly when the mode is grantable, and then raises
what the transaction holds; a failed attempt changes nothing. -/
theorem Inv.grantStep_cases :
    (self.Grantable txn res mode ∧ ∃ next, self.grantStep txn res mode = (next, true) ∧
      next.modeHeld = LockTable.heldGrant self.modeHeld txn res mode ∧ next.waits = self.waits) ∨
    (¬ self.Grantable txn res mode ∧ self.grantStep txn res mode = (self, false)) := by
  have hshard := (h (shardIndex bits res)).point
  rw [h.grantable_iff txn res mode]
  cases hg : ((self.lockShard res).tryGrant txn res mode).2 with
  | true =>
    refine Or.inl ⟨hshard.tryGrant_iff.mp hg, (self.grantStep txn res mode).1, ?_, ?_, rfl⟩
    · exact Prod.ext rfl hg
    · funext u r
      simp only [grantStep, onShard, modeHeld_eq, holders, lockShard_setShard, LockTable.heldGrant]
      split
      · next hi =>
        have hmode := hshard.tryGrant_modeOf rfl hg u r
        simp only [lockShard, hi]
        exact hmode
      · next hi =>
        have hr : r ≠ res := fun hr => hi (by rw [hr])
        rw [if_neg fun hc => hr hc.2]
  | false =>
    refine Or.inr ⟨fun hall => ?_, ?_⟩
    · have htrue := hshard.tryGrant_iff.mpr hall
      exact Bool.false_ne_true (hg.symm.trans htrue)
    · apply Prod.ext
      · exact grantStep_refused hg
      · exact hg

theorem Inv.release_cases :
    (self.modeHeld txn res = none ∧ self.release txn res = (self, .error .notHeld)) ∨
    (self.modeHeld txn res ≠ none ∧ ∃ next, self.release txn res = (next, .ok ()) ∧
      next.modeHeld = LockTable.heldDrop self.modeHeld txn res ∧ next.waits = self.waits) := by
  have hshard := (h (shardIndex bits res)).point
  have hnone : ((self.lockShard res).release txn res).2 = .error .notHeld ↔
      self.modeHeld txn res = none := release_notHeld_iff
  cases hr : ((self.lockShard res).release txn res).2 with
  | error e =>
    have he : e = .notHeld := by
      unfold ShardInner.release at hr
      split at hr
      · simpa using hr.symm
      · simp at hr
    subst he
    refine Or.inl ⟨hnone.mp hr, ?_⟩
    apply Prod.ext
    · exact onShard_unchanged (release_refused (by simp [hr]))
    · exact hr
  | ok v =>
    refine Or.inr ⟨?_, (self.release txn res).1, Prod.ext rfl hr, ?_, rfl⟩
    · intro hc
      rw [hnone.mpr hc] at hr
      simp at hr
    · funext u r
      simp only [LockManager.release, onShard, modeHeld_eq, holders, lockShard_setShard,
        LockTable.heldDrop]
      split
      · next hi =>
        simp only [lockShard, hi]
        exact hshard.release_modeOf u r
      · next hi =>
        have hne : r ≠ res := fun hne => hi (by rw [hne])
        rw [if_neg fun hc => hne hc.2]

theorem Inv.sweepShard_modeHeld (i : Fin (2 ^ bits)) (n : Nat) (u : TxnId) (r : ResourceId) :
    (self.sweepShard txn i n).1.modeHeld u r =
      if u = txn ∧ shardIndex bits r = i then none else self.modeHeld u r := by
  simp only [LockManager.sweepShard, modeHeld_eq, holders, lockShard_setShard]
  by_cases hi : shardIndex bits r = i
  · subst hi
    rw [if_pos rfl, (h _).point.sweep_modeOf n u r]
    simp [lockShard]
  · rw [if_neg hi, if_neg fun hc => hi hc.2]

/-- The sweep of a shard takes out the transaction's ranges there, and may reorder the others. -/
theorem Inv.sweepShard_rangeHolders (i : Fin (2 ^ bits)) (n : Nat) (space : ResourceId) :
    ((self.sweepShard txn i n).1.rangeHolders space).Perm
      (if shardIndex bits space = i then rangeLedger.others txn (self.rangeHolders space)
        else self.rangeHolders space) := by
  simp only [LockManager.sweepShard, rangeHolders, lockShard_setShard]
  split
  · next hi =>
    subst hi
    obtain ⟨k, hranges, _⟩ := sweep_ranges (self.lockShard space) txn n
    have hlist := Ledger.sweep_list (h (shardIndex bits space)).range.indexed txn k space
    simp only [lockShard] at hranges hlist ⊢
    rwa [hranges]
  · exact List.Perm.refl _

theorem Inv.mem_sweepShard_rangeHolders (i : Fin (2 ^ bits)) (n : Nat) (space : ResourceId)
    (x : RangeHolder) : x ∈ (self.sweepShard txn i n).1.rangeHolders space ↔
      x ∈ self.rangeHolders space ∧ ¬ (x.txn = txn ∧ shardIndex bits space = i) := by
  rw [(h.sweepShard_rangeHolders txn i n space).mem_iff]
  split
  · next hi =>
    rw [Ledger.others, List.mem_filter, decide_eq_true_iff]
    exact and_congr_right fun _ => not_congr (and_iff_left hi).symm
  · next hi => simp [hi]

end Effects

end LockManager

/-- What runs while one mutex is held. `clearWait` is `cancel_wait`, the removal after a
granted `request`, and the first section of `release_all`. -/
inductive CriticalSection (bits : Nat) where
  | tryAcquire (txn : TxnId) (res : ResourceId) (mode : LockMode)
  | requestGrant (txn : TxnId) (res : ResourceId) (mode : LockMode)
  | registerWait (txn : TxnId) (res : ResourceId) (mode : LockMode)
  | clearWait (txn : TxnId)
  | release (txn : TxnId) (res : ResourceId)
  | sweepShard (txn : TxnId) (i : Fin (2 ^ bits))
  | tryAcquireRange (txn : TxnId) (space : ResourceId) (range : KeyRange) (mode : LockMode)
  | releaseRange (txn : TxnId) (space : ResourceId) (range : KeyRange)

namespace LockManager
variable {bits : Nat} {self : LockManager bits}

/-- The table after a critical section. -/
def enter (self : LockManager bits) : CriticalSection bits → LockManager bits
  | .tryAcquire txn res mode => (self.tryAcquire txn res mode).1
  | .requestGrant txn res mode => (self.grantStep txn res mode).1
  | .registerWait txn res mode => { self with waits := self.waits.insert txn (res, mode) }
  | .clearWait txn => { self with waits := self.waits.erase txn }
  | .release txn res => (self.release txn res).1
  | .sweepShard txn i => (self.sweepShard txn i 0).1
  | .tryAcquireRange txn space range mode => (self.tryAcquireRange txn space range mode).1
  | .releaseRange txn space range => (self.releaseRange txn space range).1

theorem sweepShard_enter (self : LockManager bits) (txn : TxnId) (i : Fin (2 ^ bits)) (n : Nat) :
    (self.sweepShard txn i n).1 = self.enter (.sweepShard txn i) := by
  simp only [LockManager.sweepShard, LockManager.enter, sweep_state _ txn n]

theorem tryAcquire_eq (self : LockManager bits) (txn : TxnId) (res : ResourceId) (mode : LockMode) :
    self.tryAcquire txn res mode =
      if (self.grantStep txn res mode).2 then ((self.grantStep txn res mode).1, .ok ())
      else ((self.grantStep txn res mode).1, .error .conflict) := rfl

theorem tryAcquire_fst (self : LockManager bits) (txn : TxnId) (res : ResourceId)
    (mode : LockMode) : (self.tryAcquire txn res mode).1 = (self.grantStep txn res mode).1 := by
  rw [tryAcquire_eq]
  split <;> rfl

theorem Inv.grantStep (h : self.Inv) (txn : TxnId) (res : ResourceId) (mode : LockMode) :
    (self.grantStep txn res mode).1.Inv :=
  h.setShard ((h _).tryGrant rfl mode)

theorem Inv.enter (h : self.Inv) (c : CriticalSection bits) : (self.enter c).Inv := by
  cases c with
  | tryAcquire txn res mode =>
    rw [LockManager.enter, tryAcquire_fst]
    exact h.grantStep txn res mode
  | requestGrant txn res mode => exact h.grantStep txn res mode
  | registerWait txn res mode => exact h
  | clearWait txn => exact h
  | release txn res => exact h.setShard (h _).release
  | sweepShard txn i => exact h.setShard ((h i).sweep 0)
  | tryAcquireRange txn space range mode => exact h.setShard ((h _).tryAcquireRange rfl range mode)
  | releaseRange txn space range => exact h.setShard ((h _).releaseRange range)

theorem Inv.foldl_enter (h : self.Inv) (cs : List (CriticalSection bits)) :
    (cs.foldl LockManager.enter self).Inv := by
  induction cs generalizing self with
  | nil => exact h
  | cons c cs ih => exact ih (h.enter c)

/-- The critical sections of one call, in the order in which the call runs them. -/
def sections (self : LockManager bits) : Op → List (CriticalSection bits)
  | .tryAcquire txn res mode => [.tryAcquire txn res mode]
  | .release txn res => [.release txn res]
  | .releaseAll txn => .clearWait txn :: (List.finRange (2 ^ bits)).map (.sweepShard txn)
  | .request _ txn res mode =>
    [.requestGrant txn res mode,
      if (self.grantStep txn res mode).2 then .clearWait txn else .registerWait txn res mode]
  | .cancelWait txn => [.clearWait txn]
  | .findDeadlock _ _ => []
  | .tryAcquireRange txn space range mode => [.tryAcquireRange txn space range mode]
  | .releaseRange txn space range => [.releaseRange txn space range]

theorem sweeps_fst (txn : TxnId) (is : List (Fin (2 ^ bits))) (self : LockManager bits) (n : Nat) :
    (is.foldl (fun (self, released) i => self.sweepShard txn i released) (self, n)).1 =
      (is.map (.sweepShard txn)).foldl enter self := by
  induction is generalizing self n with
  | nil => rfl
  | cons i is ih =>
    have hstate : (self.sweepShard txn i n).1 = self.enter (.sweepShard txn i) := by
      simp only [sweepShard, enter, sweep_state _ txn n]
    rw [List.foldl_cons, List.map_cons, List.foldl_cons, ← hstate]
    exact ih _ _

theorem exec_sections (self : LockManager bits) (op : Op) :
    (self.exec op).1 = (self.sections op).foldl enter self := by
  cases op with
  | tryAcquire txn res mode => rfl
  | release txn res => rfl
  | releaseAll txn => exact sweeps_fst txn _ _ 0
  | request order txn res mode =>
    simp only [exec, request, sections, List.foldl_cons, List.foldl_nil, enter]
    change (if (self.grantStep txn res mode).2 then _ else _ : LockManager bits × Acquisition).1 = _
    split <;> rfl
  | cancelWait txn => rfl
  | findDeadlock order keyOrder => rfl
  | tryAcquireRange txn space range mode => rfl
  | releaseRange txn space range => rfl

theorem Inv.exec (h : self.Inv) (op : Op) : (self.exec op).1.Inv := by
  rw [exec_sections]
  exact h.foldl_enter _

theorem sweeps_shards (txn : TxnId) {is : List (Fin (2 ^ bits))} (hnodup : is.Nodup)
    (self : LockManager bits) (i : Fin (2 ^ bits)) :
    ((is.map (.sweepShard txn)).foldl enter self).shards i =
      if i ∈ is then ((self.shards i).sweep txn 0).1 else self.shards i := by
  induction is generalizing self with
  | nil => simp
  | cons j is ih =>
    obtain ⟨hj, hrest⟩ := List.nodup_cons.mp hnodup
    have hshard : (self.enter (.sweepShard txn j)).shards i =
        if i = j then ((self.shards i).sweep txn 0).1 else self.shards i := by
      simp only [enter, sweepShard, setShard, Function.update_apply]
      split
      · next hi => rw [hi]
      · rfl
    rw [List.map_cons, List.foldl_cons, ih hrest, hshard]
    by_cases hi : i = j
    · subst hi
      simp [hj]
    · simp [hi]

theorem sweeps_waits (self : LockManager bits) (txn : TxnId) (is : List (Fin (2 ^ bits))) :
    ((is.map (.sweepShard txn)).foldl enter self).waits = self.waits := by
  induction is generalizing self with
  | nil => rfl
  | cons i is ih => exact ih (self.enter (.sweepShard txn i))

/-- `release_all` sweeps every shard once and clears the transaction's wait. -/
theorem releaseAll_eq (self : LockManager bits) (txn : TxnId) :
    (self.releaseAll txn).1 =
      ⟨fun i => ((self.shards i).sweep txn 0).1, self.waits.erase txn⟩ := by
  have hfst := self.exec_sections (.releaseAll txn)
  simp only [exec, sections, List.foldl_cons] at hfst
  rw [hfst]
  have hshards := sweeps_shards txn (List.nodup_finRange (2 ^ bits)) (self.enter (.clearWait txn))
  have hwaits := sweeps_waits (self.enter (.clearWait txn)) txn (List.finRange (2 ^ bits))
  generalize ((List.finRange (2 ^ bits)).map (.sweepShard txn)).foldl enter
    (self.enter (.clearWait txn)) = next at hshards hwaits
  cases next with
  | mk shards waits =>
    simp only [List.mem_finRange, if_true] at hshards
    simp only [mk.injEq]
    exact ⟨funext hshards, hwaits⟩

theorem Inv.releaseAll_modeHeld (h : self.Inv) (txn : TxnId) :
    (self.releaseAll txn).1.modeHeld = LockTable.heldDropAll self.modeHeld txn := by
  funext u r
  rw [releaseAll_eq]
  exact (h (shardIndex bits r)).point.sweep_modeOf 0 u r

theorem releaseAll_waits (self : LockManager bits) (txn : TxnId) :
    (self.releaseAll txn).1.waits = self.waits.erase txn := by
  rw [releaseAll_eq]

theorem sweeps_snd (txn : TxnId) {is : List (Fin (2 ^ bits))} (hnodup : is.Nodup)
    (self : LockManager bits) (n : Nat) :
    (is.foldl (fun (self, released) i => self.sweepShard txn i released) (self, n)).2 =
      n + (is.map fun i => ((self.shards i).sweep txn 0).2).sum := by
  induction is generalizing self n with
  | nil => rfl
  | cons i is ih =>
    obtain ⟨hi, hrest⟩ := List.nodup_cons.mp hnodup
    have hsame : ∀ j ∈ is, ((self.sweepShard txn i n).1.shards j).sweep txn 0 =
        (self.shards j).sweep txn 0 := by
      intro j hj
      have hne : j ≠ i := fun hji => hi (hji ▸ hj)
      simp [sweepShard, setShard, hne]
    have hcount : (self.sweepShard txn i n).2 = n + ((self.shards i).sweep txn 0).2 := by
      simp only [sweepShard, sweep_state _ txn n]
    refine (ih hrest (self.sweepShard txn i n).1 (self.sweepShard txn i n).2).trans ?_
    rw [hcount, List.map_congr_left fun j hj => congrArg Prod.snd (hsame j hj), List.map_cons,
      List.sum_cons]
    omega

/-- `release_all` returns how many point and range records the index lists. -/
theorem Inv.releaseAll_count (h : self.Inv) (txn : TxnId) :
    (self.releaseAll txn).2 = ∑ i, ((list (self.shards i).byTxn txn).length +
      (list (self.shards i).rangeByTxn txn).length) := by
  have hsnd :=
    sweeps_snd txn (List.nodup_finRange (2 ^ bits)) { self with waits := self.waits.erase txn } 0
  have hterm : ∀ i, ((self.shards i).sweep txn 0).2 =
      (list (self.shards i).byTxn txn).length + (list (self.shards i).rangeByTxn txn).length := by
    intro i
    have hpoint := Ledger.sweep_count (h i).point.indexed txn 0
    simp only [ShardInner.sweep]
    rw [Ledger.sweep_count (h i).range.indexed txn, hpoint, Nat.zero_add]
  rw [Nat.zero_add] at hsnd
  rw [← Finset.sum_congr rfl fun i _ => hterm i, Fin.sum_univ_def]
  exact hsnd

/-- Everything one call can do to the held modes and to the wait map. -/
inductive ExecCase (self : LockManager bits) : Op → LockManager bits × Outcome → Prop where
  | acquired {txn : TxnId} {res : ResourceId} {mode : LockMode} {next : LockManager bits}
      (free : self.Grantable txn res mode)
      (held : next.modeHeld = LockTable.heldGrant self.modeHeld txn res mode)
      (waits : next.waits = self.waits) :
      ExecCase self (.tryAcquire txn res mode) (next, .result (.ok ()))
  | conflict {txn : TxnId} {res : ResourceId} {mode : LockMode}
      (blocked : ¬ self.Grantable txn res mode) :
      ExecCase self (.tryAcquire txn res mode) (self, .result (.error .conflict))
  | released {txn : TxnId} {res : ResourceId} {next : LockManager bits}
      (was : self.modeHeld txn res ≠ none)
      (held : next.modeHeld = LockTable.heldDrop self.modeHeld txn res)
      (waits : next.waits = self.waits) :
      ExecCase self (.release txn res) (next, .result (.ok ()))
  | notHeld {txn : TxnId} {res : ResourceId} (none : self.modeHeld txn res = none) :
      ExecCase self (.release txn res) (self, .result (.error .notHeld))
  | releasedAll {txn : TxnId} {next : LockManager bits} {n : Nat}
      (held : next.modeHeld = LockTable.heldDropAll self.modeHeld txn)
      (waits : next.waits = self.waits.erase txn) :
      ExecCase self (.releaseAll txn) (next, .count n)
  | granted {order : IterOrder TxnId (ResourceId × LockMode)} {txn : TxnId} {res : ResourceId}
      {mode : LockMode} {next : LockManager bits} (free : self.Grantable txn res mode)
      (held : next.modeHeld = LockTable.heldGrant self.modeHeld txn res mode)
      (waits : next.waits = self.waits.erase txn) :
      ExecCase self (.request order txn res mode) (next, .acquisition .granted)
  | refused {order : IterOrder TxnId (ResourceId × LockMode)} {txn : TxnId} {res : ResourceId}
      {mode : LockMode} (blocked : ¬ self.Grantable txn res mode) :
      ExecCase self (.request order txn res mode)
        (self.enter (.registerWait txn res mode), .acquisition
          (refusal ((self.enter (.registerWait txn res mode)).buildWaitGraph order) txn))
  | cancelled {txn : TxnId} : ExecCase self (.cancelWait txn) (self.enter (.clearWait txn), .unit)
  | scanned {order : IterOrder TxnId (ResourceId × LockMode)}
      {keyOrder : IterOrder TxnId (List TxnId)} :
      ExecCase self (.findDeadlock order keyOrder) (self, .found (self.findDeadlock order keyOrder))
  | rangeAcquire {txn : TxnId} {space : ResourceId} {range : KeyRange} {mode : LockMode}
      {next : LockManager bits} {result : Except LockError Unit}
      (held : next.modeHeld = self.modeHeld) (waits : next.waits = self.waits) :
      ExecCase self (.tryAcquireRange txn space range mode) (next, .result result)
  | rangeRelease {txn : TxnId} {space : ResourceId} {range : KeyRange} {next : LockManager bits}
      {result : Except LockError Unit}
      (held : next.modeHeld = self.modeHeld) (waits : next.waits = self.waits) :
      ExecCase self (.releaseRange txn space range) (next, .result result)

theorem modeHeld_setShard {i : Fin (2 ^ bits)} {s : ShardInner}
    (hs : s.locks = (self.shards i).locks) : (self.setShard i s).modeHeld = self.modeHeld := by
  funext u r
  simp only [modeHeld_eq, holders, lockShard_setShard]
  split
  · next hi => rw [hs, lockShard, hi]
  · rfl

theorem request_eq (self : LockManager bits) (order : IterOrder TxnId (ResourceId × LockMode))
    (txn : TxnId) (res : ResourceId) (mode : LockMode) :
    self.request order txn res mode =
      if (self.grantStep txn res mode).2 then
        ((self.grantStep txn res mode).1.enter (.clearWait txn), .granted)
      else
        ((self.grantStep txn res mode).1.enter (.registerWait txn res mode),
          refusal (((self.grantStep txn res mode).1.enter
            (.registerWait txn res mode)).buildWaitGraph order) txn) := rfl

theorem Inv.request_cases (h : self.Inv) (order : IterOrder TxnId (ResourceId × LockMode))
    (txn : TxnId) (res : ResourceId) (mode : LockMode) :
    (self.Grantable txn res mode ∧ ∃ next, self.request order txn res mode = (next, .granted) ∧
      next.modeHeld = LockTable.heldGrant self.modeHeld txn res mode ∧
      next.waits = self.waits.erase txn) ∨
    (¬ self.Grantable txn res mode ∧ self.request order txn res mode =
      (self.enter (.registerWait txn res mode),
        refusal ((self.enter (.registerWait txn res mode)).buildWaitGraph order) txn)) := by
  rw [request_eq]
  rcases h.grantStep_cases txn res mode with ⟨free, next, hg, held, waits⟩ | ⟨blocked, hg⟩
  · rw [hg]
    refine .inl ⟨free, next.enter (.clearWait txn), rfl, held, ?_⟩
    rw [← waits]
    rfl
  · rw [hg]
    exact .inr ⟨blocked, rfl⟩

theorem Inv.exec_cases (h : self.Inv) (op : Op) : ExecCase self op (self.exec op) := by
  cases op with
  | tryAcquire txn res mode =>
    simp only [LockManager.exec, tryAcquire_eq]
    rcases h.grantStep_cases txn res mode with ⟨free, next, hg, held, waits⟩ | ⟨blocked, hg⟩
    · rw [hg]
      exact .acquired free held waits
    · rw [hg]
      exact .conflict blocked
  | release txn res =>
    simp only [LockManager.exec]
    rcases h.release_cases txn res with ⟨none, hr⟩ | ⟨was, next, hr, held, waits⟩
    · rw [hr]
      exact .notHeld none
    · rw [hr]
      exact .released was held waits
  | releaseAll txn => exact .releasedAll (h.releaseAll_modeHeld txn) (self.releaseAll_waits txn)
  | request order txn res mode =>
    simp only [LockManager.exec]
    rcases h.request_cases order txn res mode with ⟨free, next, hr, held, waits⟩ | ⟨blocked, hr⟩
    · rw [hr]
      exact .granted free held waits
    · rw [hr]
      exact .refused blocked
  | cancelWait txn => exact .cancelled
  | findDeadlock order keyOrder => exact .scanned
  | tryAcquireRange txn space range mode =>
    exact .rangeAcquire (modeHeld_setShard (tryAcquireRange_keeps_locks _ _ _ _ _).1) rfl
  | releaseRange txn space range =>
    exact .rangeRelease (modeHeld_setShard (releaseRange_keeps_locks _ _ _ _).1) rfl

theorem lookup_of_erase {waits : WaitMap} {txn t : TxnId} {w : ResourceId × LockMode}
    (h : (waits.erase txn).lookup t = some w) : waits.lookup t = some w := by
  rw [lookup_erase_eq] at h
  split at h
  · simp at h
  · exact h

/-- Only `request` registers anybody. -/
theorem Inv.exec_waits (h : self.Inv) {op : Op}
    (hreq : ∀ order txn res mode, op ≠ .request order txn res mode) (t : TxnId)
    (w : ResourceId × LockMode) (hw : (self.exec op).1.waits.lookup t = some w) :
    self.waits.lookup t = some w := by
  have hcase := h.exec_cases op
  generalize self.exec op = out at hcase hw
  cases hcase with
  | granted _ _ _ => exact absurd rfl (hreq _ _ _ _)
  | refused _ => exact absurd rfl (hreq _ _ _ _)
  | acquired _ _ waits => rwa [waits] at hw
  | released _ _ waits => rwa [waits] at hw
  | releasedAll _ waits =>
    rw [waits] at hw
    exact lookup_of_erase hw
  | @cancelled txn => exact @lookup_of_erase self.waits txn t w hw
  | rangeAcquire _ waits => rwa [waits] at hw
  | rangeRelease _ waits => rwa [waits] at hw
  | conflict _ => exact hw
  | notHeld _ => exact hw
  | scanned => exact hw

section Runs
variable {allow : LockManager bits → Op → Prop} {trace : List (Event (LockManager bits) Op Outcome)}

theorem run_inv (run : Run exec allow (withShards bits) trace self) : self.Inv :=
  run.invariant (inv_withShards bits) fun _ op _ hs => hs.exec op

/-- What is shown of every step from a well-formed table holds after every run. -/
theorem run_invariant {P : List (Event (LockManager bits) Op Outcome) → LockManager bits → Prop}
    (h0 : P [] (withShards bits))
    (hstep : ∀ tr (s : LockManager bits) op, s.Inv → allow s op → P tr s →
      P (⟨op, (s.exec op).2, (s.exec op).1⟩ :: tr) (s.exec op).1)
    (run : Run exec allow (withShards bits) trace self) : P trace self := by
  have hboth : self.Inv ∧ P trace self := by
    apply run.trace_invariant (P := fun tr s => s.Inv ∧ P tr s)
    · exact ⟨inv_withShards bits, h0⟩
    · intro tr s op ok h
      exact ⟨h.1.exec op, hstep tr s op h.1 ok h.2⟩
  exact hboth.2

theorem recorded_invariant
    {P : List (Event (LockManager bits) Op Outcome) → LockManager bits → Prop}
    (h0 : P [] (withShards bits))
    (hstep : ∀ tr (s : LockManager bits) op, s.Inv → P tr s →
      P (⟨op, (s.exec op).2, (s.exec op).1⟩ :: tr) (s.exec op).1) (ops : List Op) :
    let run := Run.record exec [] (withShards bits) ops
    P run.1 run.2 :=
  run_invariant h0 (fun tr s op hs _ h => hstep tr s op hs h) (Run.recorded_all _ _ ops)

theorem inv_replay (bits : Nat) (ops : List Op) : (replay exec (withShards bits) ops).1.Inv := by
  apply replay_invariant (P := Inv)
  · intro s op hs
    exact hs.exec op
  · exact inv_withShards bits

end Runs

/-- What may happen next: a whole call, or one critical section of a call under way. -/
inductive Move (bits : Nat) where
  | call (op : Op)
  | critical (c : CriticalSection bits)

def move (self : LockManager bits) : Move bits → LockManager bits
  | .call op => (self.exec op).1
  | .critical c => self.enter c

/-- The state after any mixture of calls and critical sections, from the empty table. -/
def reached (bits : Nat) (moves : List (Move bits)) : LockManager bits :=
  moves.foldl move (withShards bits)

theorem Inv.foldl_move (h : self.Inv) (moves : List (Move bits)) : (moves.foldl move self).Inv := by
  induction moves generalizing self with
  | nil => exact h
  | cons m moves ih =>
    cases m with
    | call op => exact ih (h.exec op)
    | critical c => exact ih (h.enter c)

theorem inv_reached (bits : Nat) (moves : List (Move bits)) : (reached bits moves).Inv :=
  (inv_withShards bits).foldl_move moves

theorem table_step (h : self.Inv) {next : LockManager bits} (hnext : next.Inv)
    {L : LockTable TxnId ResourceId LockMode} (hstep : LockTable.Step (self.table h) L)
    (held : next.modeHeld = L.held) : LockTable.Step (self.table h) (next.table hnext) := by
  have heq : next.table hnext = L := LockTable.ext held
  rw [heq]
  exact hstep

/-- Every call is one step of the lock table it stands for. -/
theorem Inv.exec_table (h : self.Inv) (op : Op) (hnext : (self.exec op).1.Inv) :
    LockTable.Step (self.table h) ((self.exec op).1.table hnext) := by
  have hcase := h.exec_cases op
  generalize self.exec op = out at hcase hnext
  cases hcase with
  | acquired free held _ =>
    exact table_step h hnext (.grant _ _ _ _ ((table_grantable h _ _ _).mpr free)) held
  | conflict _ => exact table_step h hnext (.stay _) rfl
  | released _ held _ => exact table_step h hnext (.drop _ _ _) held
  | notHeld _ => exact table_step h hnext (.stay _) rfl
  | releasedAll held _ => exact table_step h hnext (.dropAll _ _) held
  | granted free held _ =>
    exact table_step h hnext (.grant _ _ _ _ ((table_grantable h _ _ _).mpr free)) held
  | refused _ => exact table_step h hnext (.stay _) rfl
  | cancelled => exact table_step h hnext (.stay _) rfl
  | scanned => exact table_step h hnext (.stay _) rfl
  | rangeAcquire held _ => exact table_step h hnext (.stay _) held
  | rangeRelease held _ => exact table_step h hnext (.stay _) held

end LockManager

end LockDb
