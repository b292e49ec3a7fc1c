import LockDb.Bookkeeping
import LockDb.Sections
import LockDb.Shared.Rollback

/-!
# An abort undoes everything

A transaction that starts without locks, makes any calls while no other transaction
does, and is then released, leaves the manager as it found it: not only the same locks
and waits, but the same maps and the same order of every vector.
-/

namespace LockDb

set_option autoImplicit false

open Shared Shared.Multimap

namespace ShardInner

/-- What `txn` has added to a shard stands behind what was there. -/
structure Grown (txn : TxnId) (old s : ShardInner) : Prop where
  point : pointLedger.Grown txn old.locks s.locks old.byTxn s.byTxn
  range : rangeLedger.Grown txn old.ranges s.ranges old.rangeByTxn s.rangeByTxn

variable {txn : TxnId} {old s : ShardInner} {res space : ResourceId} {range : KeyRange}
variable {mode : LockMode}

theorem Grown.tryGrant (h : Grown txn old s) : Grown txn old (s.tryGrant txn res mode).1 := by
  have hcase := tryGrant_cases s txn res mode
  generalize s.tryGrant txn res mode = out at hcase
  cases hcase with
  | covered _ _ => exact h
  | blocked _ _ _ _ => exact h
  | refused _ _ _ => exact h
  | upgraded hl _ _ => exact ⟨h.point.replace hl rfl rfl, h.range⟩
  | fresh _ _ => exact ⟨h.point.push res rfl, h.range⟩

theorem Grown.release (h : Grown txn old s) : Grown txn old (s.release txn res).1 := by
  unfold ShardInner.release
  split
  · exact h
  · next locks htake => exact ⟨h.point.take (i := res) htake, h.range⟩

theorem Grown.tryAcquireRange (h : Grown txn old s) :
    Grown txn old (s.tryAcquireRange txn space range mode).1 := by
  rcases tryAcquireRange_cases s txn space range mode with ⟨_, _, _, heq⟩ | ⟨_, heq⟩
  · rw [heq]
    exact h
  · rw [heq]
    exact ⟨h.point, h.range.push space rfl⟩

theorem Grown.releaseRange (h : Grown txn old s) :
    Grown txn old (s.releaseRange txn space range).1 := by
  unfold ShardInner.releaseRange
  split
  · exact h
  · next ranges htake =>
    exact ⟨h.point, h.range.take (i := (space, range)) htake⟩

theorem Grown.sweep (h : Grown txn old s) (n : Nat) : Grown txn old (s.sweep txn n).1 :=
  ⟨Ledger.Grown.sweep h.point n, Ledger.Grown.sweep h.range _⟩

theorem Grown.sweep_eq {bits : Nat} {i : Fin (2 ^ bits)} (h : Grown txn old s)
    (hinv : ShardInv bits i s) (hold : ShardInv bits i old) (n : Nat) :
    (s.sweep txn n).1 = old := by
  obtain ⟨hlocks, hbyTxn⟩ := h.point.sweep_eq hinv.point.indexed hold.point.indexed
    hinv.point.locksNoEmpty hinv.point.byTxnNoEmpty hold.point.locksNoEmpty
    hold.point.byTxnNoEmpty n
  obtain ⟨hranges, hrangeByTxn⟩ := h.range.sweep_eq hinv.range.indexed hold.range.indexed
    hinv.range.rangesNoEmpty hinv.range.rangeByTxnNoEmpty hold.range.rangesNoEmpty
    hold.range.rangeByTxnNoEmpty (pointLedger.sweep txn s.locks s.byTxn n).2.2
  simp only [ShardInner.sweep, hlocks, hbyTxn, hranges, hrangeByTxn]

end ShardInner

/-- A call that works for no other transaction than `txn`. -/
def Op.Of (txn : TxnId) : Op → Prop
  | .tryAcquire t _ _ => t = txn
  | .release t _ => t = txn
  | .releaseAll t => t = txn
  | .request _ t _ _ => t = txn
  | .cancelWait t => t = txn
  | .findDeadlock _ _ => True
  | .tryAcquireRange t _ _ _ => t = txn
  | .releaseRange t _ _ => t = txn

namespace LockManager
variable {bits : Nat} {old self : LockManager bits} {txn : TxnId}

/-- The state is `old` but for what `txn` has added. -/
structure Grown (txn : TxnId) (old next : LockManager bits) : Prop where
  inv : next.Inv
  shards : ∀ i, ShardInner.Grown txn (old.shards i) (next.shards i)
  waits : ∀ t, t ≠ txn → next.waits.lookup t = old.waits.lookup t

theorem grown_refl (hinv : self.Inv) (hnone : self.HoldsNothing txn) : Grown txn self self where
  inv := hinv
  shards i :=
    ⟨Ledger.grown_refl (hinv.locks_ne hnone i), Ledger.grown_refl (hinv.ranges_ne hnone i)⟩
  waits _ _ := rfl

theorem Grown.setShard (h : Grown txn old self) {i : Fin (2 ^ bits)} {s : ShardInner}
    (hinv : (self.setShard i s).Inv) (hs : ShardInner.Grown txn (old.shards i) s) :
    Grown txn old (self.setShard i s) where
  inv := hinv
  shards j := by
    simp only [LockManager.setShard, Function.update_apply]
    split
    · next hj =>
      subst hj
      exact hs
    · exact h.shards j
  waits := h.waits

theorem Grown.enter (h : Grown txn old self) {c : CriticalSection bits} (hc : c.txn = txn) :
    Grown txn old (self.enter c) := by
  have hinv := h.inv.enter c
  subst hc
  cases c with
  | tryAcquire t res mode =>
    rw [LockManager.enter, tryAcquire_fst] at hinv ⊢
    exact h.setShard hinv (h.shards _).tryGrant
  | requestGrant t res mode => exact h.setShard hinv (h.shards _).tryGrant
  | registerWait t res mode =>
    refine ⟨hinv, h.shards, fun u hu => ?_⟩
    exact ((lookup_insert_eq _ _ _ _).trans (if_neg hu)).trans (h.waits u hu)
  | clearWait t =>
    refine ⟨hinv, h.shards, fun u hu => ?_⟩
    exact ((lookup_erase_eq _ _ _).trans (if_neg hu)).trans (h.waits u hu)
  | release t res => exact h.setShard hinv (h.shards _).release
  | sweepShard t i => exact h.setShard hinv ((h.shards i).sweep 0)
  | tryAcquireRange t space range mode => exact h.setShard hinv (h.shards _).tryAcquireRange
  | releaseRange t space range => exact h.setShard hinv (h.shards _).releaseRange

theorem Grown.foldl_enter (h : Grown txn old self) {cs : List (CriticalSection bits)}
    (hcs : ∀ c ∈ cs, c.txn = txn) : Grown txn old (cs.foldl LockManager.enter self) := by
  induction cs generalizing self with
  | nil => exact h
  | cons c cs ih =>
    apply ih
    · exact h.enter (hcs c List.mem_cons_self)
    · exact fun d hd => hcs d (List.mem_cons_of_mem c hd)

theorem sections_txn {op : Op} (h : op.Of txn) : ∀ c ∈ self.sections op, c.txn = txn := by
  intro c hc
  cases op with
  | tryAcquire t res mode =>
    rw [List.mem_singleton.mp hc]
    exact h
  | release t res =>
    rw [List.mem_singleton.mp hc]
    exact h
  | releaseAll t =>
    rcases List.mem_cons.mp hc with rfl | hc
    · exact h
    · obtain ⟨i, _, rfl⟩ := List.mem_map.mp hc
      exact h
  | request order t res mode =>
    rcases List.mem_cons.mp hc with rfl | hc
    · exact h
    · rw [List.mem_singleton.mp hc]
      split <;> exact h
  | cancelWait t =>
    rw [List.mem_singleton.mp hc]
    exact h
  | findDeadlock order keyOrder => simp [sections] at hc
  | tryAcquireRange t space range mode =>
    rw [List.mem_singleton.mp hc]
    exact h
  | releaseRange t space range =>
    rw [List.mem_singleton.mp hc]
    exact h

theorem Grown.exec (h : Grown txn old self) {op : Op} (hop : op.Of txn) :
    Grown txn old (self.exec op).1 := by
  rw [exec_sections]
  exact h.foldl_enter (sections_txn hop)

/-- A release of `txn` takes back everything that it has added. -/
theorem Grown.releaseAll_eq (h : Grown txn old self) (hold : old.Inv)
    (hwaits : old.waits.lookup txn = none) : (self.releaseAll txn).1 = old := by
  rw [LockManager.releaseAll_eq]
  have hshards : (fun i => ((self.shards i).sweep txn 0).1) = old.shards := by
    funext i
    exact (h.shards i).sweep_eq (h.inv i) (hold i) 0
  have herase : self.waits.erase txn = old.waits := by
    apply Finmap.ext_lookup
    intro t
    rw [lookup_erase_eq]
    split
    · next ht => rw [ht, hwaits]
    · next ht => exact h.waits t ht
  rw [hshards, herase]

end LockManager

/-- Whatever a transaction without locks does while it is alone, its release leaves exactly the
state from which it began. -/
theorem abort_restores (bits : Nat) (moves : List (LockManager.Move bits)) (txn : TxnId)
    (ops : List Op) :
    let self := LockManager.reached bits moves
    self.HoldsNothing txn → self.waits.lookup txn = none → (∀ op ∈ ops, op.Of txn) →
      ((replay LockManager.exec self ops).1.releaseAll txn).1 = self := by
  intro self hnone hwaits hops
  have hinv : self.Inv := LockManager.inv_reached bits moves
  have hgrown : ∀ {next : LockManager bits} {ops : List Op}, LockManager.Grown txn self next →
      (∀ op ∈ ops, op.Of txn) →
        LockManager.Grown txn self (replay LockManager.exec next ops).1 := by
    intro next ops hnext hops
    induction ops generalizing next with
    | nil => exact hnext
    | cons op ops ih =>
      apply ih
      · exact hnext.exec (hops op List.mem_cons_self)
      · exact fun d hd => hops d (List.mem_cons_of_mem op hd)
  exact (hgrown (LockManager.grown_refl hinv hnone) hops).releaseAll_eq hinv hwaits

theorem abort_restores_reader :
    let moves : List (LockManager.Move 4) :=
      [.call (.tryAcquire ⟨1⟩ ⟨1⟩ .shared), .call (.releaseAll ⟨2⟩)]
    let self := LockManager.reached 4 moves
    let ops : List Op := [.request .sorted ⟨2⟩ ⟨1⟩ .shared, .request .sorted ⟨2⟩ ⟨1⟩ .exclusive,
      .tryAcquireRange ⟨2⟩ ⟨1⟩ ⟨0, 9⟩ .exclusive]
    ((replay LockManager.exec self ops).1.releaseAll ⟨2⟩).1 = self := by
  intro moves self ops
  have hnone : self.HoldsNothing ⟨2⟩ :=
    ((LockManager.inv_reached 4 [.call (.tryAcquire ⟨1⟩ ⟨1⟩ .shared)]).releaseAll_holdsNothing
      ⟨2⟩).mpr (.inl rfl)
  refine abort_restores 4 moves ⟨2⟩ ops hnone (by decide +kernel) ?_
  simp [ops, Op.Of]

end LockDb
