import LockDb.Table
import Mathlib.Data.Set.Card.Arithmetic

/-!
# Bookkeeping

The reverse indexes list exactly what the tables record, and no map keeps an
empty vector. A release of everything only follows the indexes; it still misses
no record of its transaction and touches none of another.
-/

namespace LockDb

set_option autoImplicit false

open Shared Shared.Multimap

section Shard
variable {bits : Nat} {i : Fin (2 ^ bits)} {s : ShardInner} {txn : TxnId}

theorem ShardInv.mem_locks (h : ShardInv bits i s) {res : ResourceId} (hres : res ∈ s.locks) :
    shardIndex bits res = i :=
  h.point.routed res (h.point.locksNoEmpty.list_ne_nil hres)

theorem ShardInv.mem_ranges (h : ShardInv bits i s) {space : ResourceId}
    (hspace : space ∈ s.ranges) : shardIndex bits space = i :=
  h.range.routed space (h.range.rangesNoEmpty.list_ne_nil hspace)

theorem ShardInv.byTxn_count (h : ShardInv bits i s) (t : TxnId) (r : ResourceId) :
    (list s.byTxn t).count r = if t ∈ (list s.locks r).map Holder.txn then 1 else 0 := by
  have hcount : (list s.byTxn t).count r = (list s.locks r).countP (heldBy t) :=
    h.point.indexed t r
  rw [hcount, countP_heldBy]
  exact (h.point.entry r).unique.count

theorem ShardInv.rangeByTxn_count (h : ShardInv bits i s) (t : TxnId) (space : ResourceId)
    (range : KeyRange) : (list s.rangeByTxn t).countP (fun item => item = (space, range)) =
      (list s.ranges space).countP fun x => x.txn = t ∧ x.range = range := by
  have hcount : (list s.rangeByTxn t).countP (fun item => item = (space, range)) =
      (list s.ranges space).countP (rangeHeldBy t range) := h.range.indexed t (space, range)
  rw [hcount]
  apply List.countP_congr
  intro x _
  simp [rangeHeldBy]

theorem ShardInv.sweep_idle (h : ShardInv bits i s)
    (hpoint : ∀ res, ∀ x ∈ list s.locks res, x.txn ≠ txn)
    (hrange : ∀ space, ∀ x ∈ list s.ranges space, x.txn ≠ txn) (n : Nat) :
    s.sweep txn n = (s, n) := by
  have hby := h.point.byTxnNoEmpty.lookup_none (h.point.indexed.list_nil hpoint)
  have hrangeBy := h.range.rangeByTxnNoEmpty.lookup_none (h.range.indexed.list_nil hrange)
  simp only [ShardInner.sweep, Ledger.sweep_of_lookup_none hby,
    Ledger.sweep_of_lookup_none hrangeBy]

theorem ShardInv.eq_new (h : ShardInv bits i s) (hpoint : ∀ res, list s.locks res = [])
    (hrange : ∀ space, list s.ranges space = []) : s = .new := by
  have hlocks := h.point.locksNoEmpty.eq_empty hpoint
  have hranges := h.range.rangesNoEmpty.eq_empty hrange
  have hbyTxn := h.point.byTxnNoEmpty.eq_empty fun t =>
    h.point.indexed.list_nil (t := t) fun res x hx => by simp [hpoint] at hx
  have hrangeByTxn := h.range.rangeByTxnNoEmpty.eq_empty fun t =>
    h.range.indexed.list_nil (t := t) fun space x hx => by simp [hrange] at hx
  cases s
  simp only at hlocks hranges hbyTxn hrangeByTxn
  rw [hlocks, hranges, hbyTxn, hrangeByTxn, ShardInner.new]

end Shard

namespace LockManager
variable {bits : Nat} {self : LockManager bits} {txn t : TxnId}

def HoldsNothing (self : LockManager bits) (txn : TxnId) : Prop :=
  (∀ res, self.modeHeld txn res = none) ∧ ∀ space, ∀ x ∈ self.rangeHolders space, x.txn ≠ txn

/-- The ranges of `txn` in one space, as an unordered vector. -/
def rangesOf (self : LockManager bits) (txn : TxnId) (space : ResourceId) : RangeSpace :=
  (self.rangeHolders space).filter fun x => x.txn = txn

/-- How many point and range records `txn` has, over all shards. -/
def recordCount (self : LockManager bits) (txn : TxnId) : Nat :=
  ∑ i, ((∑ res ∈ (self.shards i).locks.keys,
      (list (self.shards i).locks res).countP (heldBy txn)) +
    ∑ space ∈ (self.shards i).ranges.keys,
      (list (self.shards i).ranges space).countP fun x => x.txn = txn)

theorem Inv.locks_ne (h : self.Inv) (hnone : self.HoldsNothing txn) (i : Fin (2 ^ bits))
    (res : ResourceId) : ∀ x ∈ list (self.shards i).locks res, x.txn ≠ txn := by
  intro x hx
  have hi := (h i).point.routed res (List.ne_nil_of_mem hx)
  subst hi
  exact modeOf_eq_none_iff.mp (hnone.1 res) x hx

theorem Inv.ranges_ne (h : self.Inv) (hnone : self.HoldsNothing txn) (i : Fin (2 ^ bits))
    (space : ResourceId) : ∀ x ∈ list (self.shards i).ranges space, x.txn ≠ txn := by
  intro x hx
  have hi := (h i).range.routed space (List.ne_nil_of_mem hx)
  subst hi
  exact hnone.2 space x hx

theorem Inv.shards_eq_new (h : self.Inv) (hnone : ∀ t, self.HoldsNothing t) (i : Fin (2 ^ bits)) :
    self.shards i = .new := by
  apply (h i).eq_new
  · intro res
    rw [List.eq_nil_iff_forall_not_mem]
    exact fun x hx => h.locks_ne (hnone x.txn) i res x hx rfl
  · intro space
    rw [List.eq_nil_iff_forall_not_mem]
    exact fun x hx => h.ranges_ne (hnone x.txn) i space x hx rfl

theorem Inv.releaseAll_rangeHolders (h : self.Inv) (txn : TxnId) (space : ResourceId) :
    ((self.releaseAll txn).1.rangeHolders space).Perm
      (rangeLedger.others txn (self.rangeHolders space)) := by
  obtain ⟨k, hranges, _⟩ := sweep_ranges (self.lockShard space) txn 0
  have hlist := Ledger.sweep_list (h (shardIndex bits space)).range.indexed txn k space
  rw [releaseAll_eq]
  simp only [rangeHolders, lockShard] at hranges hlist ⊢
  rwa [hranges]

theorem Inv.releaseAll_holdsNothing (h : self.Inv) (txn : TxnId) :
    (self.releaseAll txn).1.HoldsNothing t ↔ t = txn ∨ self.HoldsNothing t := by
  unfold HoldsNothing
  have hmem : ∀ space x, x ∈ (self.releaseAll txn).1.rangeHolders space ↔
      x ∈ self.rangeHolders space ∧ x.txn ≠ txn := by
    intro space x
    rw [(h.releaseAll_rangeHolders txn space).mem_iff, Ledger.others, List.mem_filter]
    exact and_congr_right fun _ => decide_eq_true_iff
  simp only [h.releaseAll_modeHeld, LockTable.heldDropAll, hmem]
  by_cases ht : t = txn
  · subst ht
    simp
  · simp only [ht, if_false, false_or]
    apply and_congr_right
    intro _
    constructor
    · intro hnone space x hx hxt
      exact hnone space x ⟨hx, fun hc => ht (hxt.symm.trans hc)⟩ hxt
    · intro hnone space x hx
      exact hnone space x hx.1

theorem Inv.releaseAll_rangesOf (h : self.Inv) (ht : t ≠ txn) (space : ResourceId) :
    ((self.releaseAll txn).1.rangesOf t space).Perm (self.rangesOf t space) := by
  have hperm := (h.releaseAll_rangeHolders txn space).filter fun x => x.txn = t
  rw [Ledger.others, List.filter_filter] at hperm
  unfold rangesOf
  refine hperm.trans (List.Perm.of_eq ?_)
  apply List.filter_congr
  intro x _
  by_cases hx : x.txn = t <;> simp [hx, rangeLedger, ht]

theorem Inv.releaseAll_recordCount (h : self.Inv) (txn : TxnId) :
    (self.releaseAll txn).2 = self.recordCount txn := by
  rw [h.releaseAll_count txn]
  apply Finset.sum_congr rfl
  intro i _
  rw [(h i).point.indexed.length_eq, (h i).range.indexed.length_eq]
  rfl

theorem Inv.holderCount_eq (h : self.Inv) (res : ResourceId) :
    self.holderCount res = Set.ncard {t | self.modeHeld t res ≠ none} := by
  have hset : {t | self.modeHeld t res ≠ none} =
      ↑((self.holders res).map Holder.txn).toFinset := by
    ext t
    rw [Set.mem_ofPred_eq, modeHeld_eq, ne_eq, modeOf_eq_none_iff]
    simp
  rw [hset, Set.ncard_coe_finset, List.toFinset_card_of_nodup (h.entry res).unique,
    List.length_map]
  rfl

theorem waitingCount_eq (self : LockManager bits) :
    self.waitingCount = Set.ncard {t | self.waits.lookup t ≠ none} := by
  have hset : {t | self.waits.lookup t ≠ none} = ↑self.waits.keys := by
    ext t
    rw [Set.mem_ofPred_eq, Finset.mem_coe, Finmap.mem_keys, ← Finmap.lookup_isSome,
      Option.isSome_iff_ne_none]
  rw [hset, Set.ncard_coe_finset, waitingCount]

/-- Over all shards, a transaction has one record for each resource it holds and one for each
of its ranges. -/
theorem Inv.recordCount_eq (h : self.Inv) (txn : TxnId) :
    self.recordCount txn = Set.ncard {res | self.modeHeld txn res ≠ none} +
      finsum fun space => (self.rangeHolders space).countP fun x => x.txn = txn := by
  have hpoint := @sum_routed _ _ _ _ _ _ (fun i => (self.shards i).locks) (shardIndex bits)
    (fun i => (h i).point.routed) (List.countP (heldBy txn)) rfl
  have hrange := @sum_routed _ _ _ _ _ _ (fun i => (self.shards i).ranges) (shardIndex bits)
    (fun i => (h i).range.routed) (List.countP fun x => x.txn = txn) rfl
  have hone : ∀ res, (list (self.shards (shardIndex bits res)).locks res).countP (heldBy txn) =
      if self.modeHeld txn res ≠ none then 1 else 0 := by
    intro res
    have hmem : self.modeHeld txn res ≠ none ↔ txn ∈ (self.holders res).map Holder.txn := by
      rw [modeHeld_eq, ne_eq, modeOf_eq_none_iff]
      simp
    rw [countP_heldBy, if_congr hmem rfl rfl]
    split
    · next ht => exact List.count_eq_one_of_mem (h.entry res).unique ht
    · next ht => exact List.count_eq_zero.mpr ht
  have hcard : (finsum fun res => if self.modeHeld txn res ≠ none then 1 else 0) =
      Set.ncard {res | self.modeHeld txn res ≠ none} := by
    simp only [← finsum_one, finsum_eq_if]
    rfl
  rw [recordCount, Finset.sum_add_distrib, hpoint, hrange, ← hcard]
  simp only [hone]
  rfl

theorem Inv.releaseAll_idle (h : self.Inv) (hnone : self.HoldsNothing txn)
    (hwaits : self.waits.lookup txn = none) : self.releaseAll txn = (self, 0) := by
  apply Prod.ext
  · have hsweep : ∀ i, ((self.shards i).sweep txn 0).1 = self.shards i := by
      intro i
      rw [(h i).sweep_idle (h.locks_ne hnone i) (h.ranges_ne hnone i)]
    rw [releaseAll_eq, erase_of_lookup_none hwaits, funext hsweep]
  · rw [h.releaseAll_count txn]
    apply Finset.sum_eq_zero
    intro i _
    rw [(h i).point.indexed.list_nil (h.locks_ne hnone i),
      (h i).range.indexed.list_nil (h.ranges_ne hnone i)]
    rfl

theorem Inv.releaseAll_each (h : self.Inv) (txns : List TxnId)
    (hrest : ∀ t, t ∉ txns → self.HoldsNothing t) (i : Fin (2 ^ bits)) :
    (txns.foldl (fun s t => (s.releaseAll t).1) self).shards i = .new := by
  induction txns generalizing self with
  | nil => exact h.shards_eq_new (fun t => hrest t (by simp)) i
  | cons txn txns ih =>
    apply ih (h.exec (.releaseAll txn))
    intro t ht
    apply (h.releaseAll_holdsNothing txn).mpr
    by_cases heq : t = txn
    · exact .inl heq
    · exact .inr (hrest t (by simp [heq, ht]))

theorem tryAcquire_conflict {res : ResourceId} {mode : LockMode}
    (h : (self.tryAcquire txn res mode).2 = .error .conflict) :
    (self.grantStep txn res mode).2 = false := by
  rw [tryAcquire_eq] at h
  split at h
  · simp at h
  · next hg => simpa using hg

theorem release_unchanged {res : ResourceId} (hno : (self.release txn res).2 ≠ .ok ()) :
    (self.release txn res).1 = self :=
  onShard_unchanged (release_refused hno)

theorem tryAcquireRange_refused (self : LockManager bits) {txn : TxnId} {space : ResourceId}
    {range : KeyRange} {mode : LockMode}
    (hno : (self.tryAcquireRange txn space range mode).2 ≠ .ok ()) :
    (self.tryAcquireRange txn space range mode).1 = self :=
  onShard_unchanged (LockDb.tryAcquireRange_refused hno)

theorem releaseRange_refused (self : LockManager bits) {txn : TxnId} {space : ResourceId}
    {range : KeyRange} (hno : (self.releaseRange txn space range).2 ≠ .ok ()) :
    (self.releaseRange txn space range).1 = self :=
  onShard_unchanged (LockDb.releaseRange_refused hno)

theorem request_refused {order : IterOrder TxnId (ResourceId × LockMode)} {res : ResourceId}
    {mode : LockMode} (h : (self.request order txn res mode).2 ≠ .granted) :
    (self.request order txn res mode).1 = self.enter (.registerWait txn res mode) := by
  rw [request_eq] at h ⊢
  split at h
  · exact absurd rfl h
  · next hg =>
    rw [if_neg hg]
    have hfalse : (self.grantStep txn res mode).2 = false := by simpa using hg
    simp only [grantStep_refused hfalse]

end LockManager

/-- In every reachable state the reverse indexes are in step with the tables and nothing
empty is kept; once nobody holds anything, all maps are empty. -/
theorem indexes_in_step (bits : Nat) (moves : List (LockManager.Move bits)) :
    let self := LockManager.reached bits moves
    (∀ i, let s := self.shards i
      (∀ res ∈ s.locks, shardIndex bits res = i) ∧ (∀ space ∈ s.ranges, shardIndex bits space = i) ∧
      (∀ t r, (list s.byTxn t).count r = if t ∈ (list s.locks r).map Holder.txn then 1 else 0) ∧
      (∀ t space range, (list s.rangeByTxn t).countP (fun item => item = (space, range)) =
        (list s.ranges space).countP fun x => x.txn = t ∧ x.range = range) ∧
      (∀ res, s.locks.lookup res ≠ some []) ∧ (∀ space, s.ranges.lookup space ≠ some []) ∧
      (∀ t, s.byTxn.lookup t ≠ some []) ∧ ∀ t, s.rangeByTxn.lookup t ≠ some []) ∧
    ((∀ t, self.HoldsNothing t) → ∀ i, self.shards i = ⟨∅, ∅, ∅, ∅⟩) ∧
    ∀ txns : List TxnId, (∀ t, t ∉ txns → self.HoldsNothing t) →
      ∀ i, (txns.foldl (fun s t => (s.releaseAll t).1) self).shards i = ⟨∅, ∅, ∅, ∅⟩ := by
  intro self
  have hinv : self.Inv := LockManager.inv_reached bits moves
  refine ⟨fun i => ?_, hinv.shards_eq_new, hinv.releaseAll_each⟩
  have hshard := hinv i
  exact ⟨fun res => hshard.mem_locks, fun space => hshard.mem_ranges, hshard.byTxn_count,
    hshard.rangeByTxn_count, hshard.point.locksNoEmpty, hshard.range.rangesNoEmpty,
    hshard.point.byTxnNoEmpty, hshard.range.rangeByTxnNoEmpty⟩

/-- From every reachable state `release_all` returns how many records the transaction had,
leaves it with nothing and everybody else with what they had; a second call does nothing. -/
theorem release_all_exact (bits : Nat) (moves : List (LockManager.Move bits)) (txn : TxnId) :
    let self := LockManager.reached bits moves
    let out := self.releaseAll txn
    out.2 = self.recordCount txn ∧
    (∀ res, out.1.modeHeld txn res = none) ∧ (∀ space, out.1.rangesOf txn space = []) ∧
    out.1.waits.lookup txn = none ∧
    (∀ u, u ≠ txn → (∀ res, out.1.modeHeld u res = self.modeHeld u res) ∧
      (∀ space, (out.1.rangesOf u space).Perm (self.rangesOf u space)) ∧
      out.1.waits.lookup u = self.waits.lookup u) ∧
    out.1.releaseAll txn = (out.1, 0) := by
  intro self out
  have hinv : self.Inv := LockManager.inv_reached bits moves
  have hwaits : ∀ u, out.1.waits.lookup u = if u = txn then none else self.waits.lookup u := by
    intro u
    rw [LockManager.releaseAll_waits, lookup_erase_eq]
  have hnone : out.1.waits.lookup txn = none := by rw [hwaits, if_pos rfl]
  have hnothing : out.1.HoldsNothing txn := (hinv.releaseAll_holdsNothing txn).mpr (.inl rfl)
  refine ⟨hinv.releaseAll_recordCount txn, hnothing.1, ?_, hnone, ?_, ?_⟩
  · intro space
    rw [LockManager.rangesOf, List.filter_eq_nil_iff]
    simpa using hnothing.2 space
  · intro u hu
    refine ⟨fun res => ?_, hinv.releaseAll_rangesOf hu, ?_⟩
    · rw [hinv.releaseAll_modeHeld, LockTable.heldDropAll, if_neg hu]
    · rw [hwaits, if_neg hu]
  · have hafter : out.1.Inv := hinv.exec (.releaseAll txn)
    exact hafter.releaseAll_idle hnothing hnone

/-- A call that is refused leaves the state as it was; a refused `request` only registers its
own wait. A conflict is always with a record that was there before. -/
theorem failed_calls_change_nothing (bits : Nat) :
    (∀ (self : LockManager bits) (txn : TxnId) (res : ResourceId),
      (∀ mode, let out := self.tryAcquire txn res mode
        out.2 = .error .conflict → out.1 = self ∧ self.holders res ≠ []) ∧
      (∀ range mode, let out := self.tryAcquireRange txn res range mode
        out.2 = .error .conflict → out.1 = self ∧ self.rangeHolders res ≠ []) ∧
      ((self.release txn res).2 = .error .notHeld → (self.release txn res).1 = self) ∧
      (∀ range, let out := self.releaseRange txn res range
        out.2 = .error .notHeld → out.1 = self) ∧
      ∀ order mode, let out := self.request order txn res mode
        out.2 ≠ .granted → out.1.shards = self.shards ∧
          out.1.waits.lookup txn = some (res, mode) ∧
          ∀ t, t ≠ txn → out.1.waits.lookup t = self.waits.lookup t) ∧
    ∀ moves i, let s := (LockManager.reached bits moves).shards i
      (∀ res, s.locks.lookup res ≠ some []) ∧ ∀ space, s.ranges.lookup space ≠ some [] := by
  refine ⟨fun self txn res => ⟨?_, ?_, ?_, ?_, ?_⟩, ?_⟩
  · intro mode out hout
    have hrefused := LockManager.tryAcquire_conflict hout
    refine ⟨?_, tryGrant_false_holders hrefused⟩
    rw [LockManager.tryAcquire_fst]
    exact LockManager.grantStep_refused hrefused
  · intro range mode out hout
    have hne : (self.tryAcquireRange txn res range mode).2 ≠ .ok () := by
      rw [hout]
      simp
    exact ⟨self.tryAcquireRange_refused hne, tryAcquireRange_refused_holders hne⟩
  · intro hout
    apply LockManager.release_unchanged
    rw [hout]
    simp
  · intro range out hout
    apply self.releaseRange_refused
    rw [hout]
    simp
  · intro order mode out hout
    have hnext : out.1 = self.enter (.registerWait txn res mode) :=
      LockManager.request_refused hout
    rw [hnext]
    refine ⟨rfl, ?_, ?_⟩
    · exact (lookup_insert_eq _ _ _ _).trans (if_pos rfl)
    · intro t ht
      exact (lookup_insert_eq _ _ _ _).trans (if_neg ht)
  · intro moves i s
    have hshard := LockManager.inv_reached bits moves i
    exact ⟨hshard.point.locksNoEmpty, hshard.range.rangesNoEmpty⟩

end LockDb
