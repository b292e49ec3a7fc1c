import LockDb.Bookkeeping
import LockDb.Sections

/-!
# A release while other threads run

`release_all` clears the wait in one critical section and sweeps the shards one by one
in others. Between these, other threads run whatever they like for other transactions.
The release still finds every lock of its own transaction and counts each of them once,
since nobody else adds to or takes from the lists that it follows.
-/

namespace LockDb

set_option autoImplicit false

open Shared Shared.Multimap

namespace ShardInner

/-- What the reverse indexes of a shard list for a transaction. -/
def listed (s : ShardInner) (txn : TxnId) : List ResourceId × List (ResourceId × KeyRange) :=
  (list s.byTxn txn, list s.rangeByTxn txn)

variable {s : ShardInner} {txn u : TxnId} {res space : ResourceId} {range : KeyRange}
variable {mode : LockMode}

theorem listed_tryGrant (hu : u ≠ txn) : (s.tryGrant txn res mode).1.listed u = s.listed u := by
  have hcase := tryGrant_cases s txn res mode
  generalize s.tryGrant txn res mode = out at hcase
  cases hcase with
  | covered _ _ => rfl
  | upgraded _ _ _ => rfl
  | blocked _ _ _ _ => rfl
  | fresh _ _ => simp only [listed, list_push, if_neg hu]
  | refused _ _ _ => rfl

theorem listed_release (hu : u ≠ txn) : (s.release txn res).1.listed u = s.listed u := by
  unfold release
  split
  · rfl
  · simp only [listed, forgetResource, list_forgetFirst, if_neg hu]

theorem listed_sweep (hu : u ≠ txn) (n : Nat) : (s.sweep txn n).1.listed u = s.listed u := by
  simp only [listed, sweep, Ledger.sweep_eq, list_erase, if_neg hu]

theorem listed_sweep_self (s : ShardInner) (txn : TxnId) (n : Nat) :
    (s.sweep txn n).1.listed txn = ([], []) := by
  simp only [listed, sweep, Ledger.sweep_eq, list_erase, if_true]

theorem listed_tryAcquireRange (hu : u ≠ txn) :
    (s.tryAcquireRange txn space range mode).1.listed u = s.listed u := by
  rcases tryAcquireRange_cases s txn space range mode with ⟨_, _, _, heq⟩ | ⟨_, heq⟩
  · rw [heq]
  · simp only [heq, listed, list_push, if_neg hu]

theorem listed_releaseRange (hu : u ≠ txn) :
    (s.releaseRange txn space range).1.listed u = s.listed u := by
  unfold releaseRange
  split
  · rfl
  · simp only [listed, forgetRange, list_forgetFirst, if_neg hu]

end ShardInner

namespace LockManager
variable {bits : Nat} {self : LockManager bits} {txn : TxnId}

/-- The loop of `release_all`, with the sections that other threads run before the sweep of
each shard. -/
def sweepInterrupted (self : LockManager bits) (txn : TxnId)
    (before : Fin (2 ^ bits) → List (CriticalSection bits)) (is : List (Fin (2 ^ bits)))
    (released : Nat) : LockManager bits × Nat :=
  is.foldl (fun (self, released) i => ((before i).foldl enter self).sweepShard txn i released)
    (self, released)

def releaseAllInterrupted (self : LockManager bits) (txn : TxnId)
    (before : Fin (2 ^ bits) → List (CriticalSection bits)) : LockManager bits × Nat :=
  { self with waits := self.waits.erase txn }.sweepInterrupted txn before
    (List.finRange (2 ^ bits)) 0

/-- Without other threads it is the call that the other modules know. -/
theorem releaseAllInterrupted_alone (self : LockManager bits) (txn : TxnId) :
    self.releaseAllInterrupted txn (fun _ => []) = self.releaseAll txn := rfl

def listed (self : LockManager bits) (txn : TxnId) (i : Fin (2 ^ bits)) :
    List ResourceId × List (ResourceId × KeyRange) := (self.shards i).listed txn

theorem listed_setShard {i : Fin (2 ^ bits)} {s : ShardInner}
    (hs : s.listed txn = (self.shards i).listed txn) :
    (self.setShard i s).listed txn = self.listed txn := by
  funext j
  simp only [listed, setShard, Function.update_apply]
  split
  · next hj => rw [hs, hj]
  · rfl

/-- Nobody but its own transaction changes what the indexes list for it. -/
theorem listed_enter {c : CriticalSection bits} (hc : txn ≠ c.txn) :
    (self.enter c).listed txn = self.listed txn := by
  cases c with
  | tryAcquire t res mode =>
    rw [enter, tryAcquire_fst]
    exact listed_setShard (ShardInner.listed_tryGrant hc)
  | requestGrant t res mode => exact listed_setShard (ShardInner.listed_tryGrant hc)
  | registerWait t res mode => rfl
  | clearWait t => rfl
  | release t res => exact listed_setShard (ShardInner.listed_release hc)
  | sweepShard t i => exact listed_setShard (ShardInner.listed_sweep hc 0)
  | tryAcquireRange t space range mode =>
    exact listed_setShard (ShardInner.listed_tryAcquireRange hc)
  | releaseRange t space range => exact listed_setShard (ShardInner.listed_releaseRange hc)

theorem enter_waits_other {c : CriticalSection bits} (hc : txn ≠ c.txn) :
    (self.enter c).waits.lookup txn = self.waits.lookup txn := by
  cases c with
  | tryAcquire t res mode =>
    rw [enter, tryAcquire_fst]
    rfl
  | registerWait t res mode => exact (lookup_insert_eq _ _ _ _).trans (if_neg hc)
  | clearWait t => exact (lookup_erase_eq _ _ _).trans (if_neg hc)
  | requestGrant t res mode => rfl
  | release t res => rfl
  | sweepShard t i => rfl
  | tryAcquireRange t space range mode => rfl
  | releaseRange t space range => rfl

theorem foldl_enter_other {cs : List (CriticalSection bits)} (hcs : ∀ c ∈ cs, txn ≠ c.txn) :
    (cs.foldl enter self).listed txn = self.listed txn ∧
      (cs.foldl enter self).waits.lookup txn = self.waits.lookup txn := by
  induction cs generalizing self with
  | nil => exact ⟨rfl, rfl⟩
  | cons c cs ih =>
    obtain ⟨hlisted, hwaits⟩ := @ih (self.enter c) fun d hd => hcs d (List.mem_cons_of_mem c hd)
    have hc := hcs c List.mem_cons_self
    exact ⟨hlisted.trans (listed_enter hc), hwaits.trans (enter_waits_other hc)⟩

theorem Inv.sweep_count (h : self.Inv) (txn : TxnId) (i : Fin (2 ^ bits)) (n : Nat) :
    let s := self.shards i
    (s.sweep txn n).2 = n + ((s.listed txn).1.length + (s.listed txn).2.length) := by
  have hpoint := Ledger.sweep_count (h i).point.indexed txn n
  simp only [ShardInner.sweep, ShardInner.listed]
  rw [Ledger.sweep_count (h i).range.indexed txn, hpoint, Nat.add_assoc]

/-- After the sweeps of some shards their indexes list nothing for `txn`, and the others list
what they did. -/
theorem Inv.sweepInterrupted (h : self.Inv)
    {before : Fin (2 ^ bits) → List (CriticalSection bits)}
    (hothers : ∀ i, ∀ c ∈ before i, txn ≠ c.txn) {is : List (Fin (2 ^ bits))} (hnodup : is.Nodup)
    (n : Nat) :
    let out := self.sweepInterrupted txn before is n
    out.1.Inv ∧ out.1.waits.lookup txn = self.waits.lookup txn ∧
      (∀ i, out.1.listed txn i = if i ∈ is then ([], []) else self.listed txn i) ∧
      out.2 = n +
        (is.map fun i => (self.listed txn i).1.length + (self.listed txn i).2.length).sum := by
  induction is generalizing self n with
  | nil => exact ⟨h, rfl, fun i => (if_neg List.not_mem_nil).symm, rfl⟩
  | cons i is ih =>
    obtain ⟨hi, hrest⟩ := List.nodup_cons.mp hnodup
    obtain ⟨hlisted, hwaits⟩ := @foldl_enter_other _ self txn _ (hothers i)
    have hinv := h.foldl_enter (before i)
    generalize hother : (before i).foldl LockManager.enter self = other at hlisted hwaits hinv
    have hswept : ∀ j, (other.sweepShard txn i n).1.listed txn j =
        if j = i then ([], []) else self.listed txn j := by
      intro j
      rw [← hlisted]
      simp only [LockManager.listed, LockManager.sweepShard, LockManager.setShard,
        Function.update_apply]
      split
      · exact ShardInner.listed_sweep_self _ _ _
      · rfl
    have hcount := hinv.sweep_count txn i n
    have hstep : self.sweepInterrupted txn before (i :: is) n =
        (other.sweepShard txn i n).1.sweepInterrupted txn before is
          (other.sweepShard txn i n).2 := by
      simp only [LockManager.sweepInterrupted, List.foldl_cons, hother]
    obtain ⟨hout, houtWaits, houtListed, houtCount⟩ :=
      @ih (other.sweepShard txn i n).1 (hinv.setShard ((hinv i).sweep n)) hrest
        (other.sweepShard txn i n).2
    rw [hstep]
    refine ⟨hout, houtWaits.trans hwaits, fun j => ?_, ?_⟩
    · rw [houtListed, hswept]
      by_cases hj : j = i
      · subst hj
        simp [hi]
      · simp [hj]
    · have hsame : (is.map fun j => ((other.sweepShard txn i n).1.listed txn j).1.length +
          ((other.sweepShard txn i n).1.listed txn j).2.length) =
          is.map fun j => (self.listed txn j).1.length + (self.listed txn j).2.length := by
        refine List.map_congr_left fun j hj => ?_
        have hne : j ≠ i := fun heq => hi (heq ▸ hj)
        rw [hswept, if_neg hne]
      have hown : (other.shards i).listed txn = self.listed txn i := congrFun hlisted i
      rw [houtCount, hsame, List.map_cons, List.sum_cons]
      simp only [LockManager.sweepShard, hcount, hown]
      omega

theorem Inv.holdsNothing_of_listed (h : self.Inv) (hlisted : ∀ i, self.listed txn i = ([], [])) :
    self.HoldsNothing txn := by
  have hby : ∀ i, list (self.shards i).byTxn txn = [] := fun i => congrArg Prod.fst (hlisted i)
  have hrangeBy : ∀ i, list (self.shards i).rangeByTxn txn = [] := fun i =>
    congrArg Prod.snd (hlisted i)
  constructor
  · intro res
    rw [modeHeld_eq, modeOf_eq_none_iff]
    intro x hx hxt
    have hmem := ((h (shardIndex bits res)).point.indexed.mem_iff txn res).mpr
      ⟨x, hx, by simpa [pointLedger, heldBy] using hxt⟩
    rw [hby] at hmem
    simp at hmem
  · intro space x hx hxt
    have hmem := ((h (shardIndex bits space)).range.indexed.mem_iff txn (space, x.range)).mpr
      ⟨x, hx, by simpa [rangeLedger, rangeHeldBy] using hxt⟩
    rw [hrangeBy] at hmem
    simp at hmem

end LockManager

/-- Whatever other threads do for other transactions between the critical sections of a
`release_all`, it leaves its transaction without a lock and without a wait, and returns how
many records the transaction had when it began. -/
theorem interrupted_release_complete (bits : Nat) (moves : List (LockManager.Move bits))
    (txn : TxnId) (before : Fin (2 ^ bits) → List (CriticalSection bits))
    (hothers : ∀ i, ∀ c ∈ before i, txn ≠ c.txn) :
    let self := LockManager.reached bits moves
    let out := self.releaseAllInterrupted txn before
    out.1.HoldsNothing txn ∧ out.1.waits.lookup txn = none ∧ out.2 = self.recordCount txn := by
  intro self out
  have hinv : self.Inv := LockManager.inv_reached bits moves
  have hclear : (self.enter (.clearWait txn)).Inv := hinv.enter _
  obtain ⟨hout, hwaits, hlisted, hcount⟩ :=
    hclear.sweepInterrupted hothers (List.nodup_finRange (2 ^ bits)) 0
  refine ⟨?_, ?_, ?_⟩
  · apply hout.holdsNothing_of_listed
    intro i
    rw [hlisted, if_pos (List.mem_finRange i)]
  · refine hwaits.trans ?_
    simp only [LockManager.enter, lookup_erase_eq, if_true]
  · rw [← hinv.releaseAll_recordCount txn, hinv.releaseAll_count txn, Fin.sum_univ_def]
    refine hcount.trans ?_
    rw [Nat.zero_add]
    rfl

theorem interrupted_release_complete_writer :
    let moves : List (LockManager.Move 1) := [.call (.tryAcquire ⟨1⟩ ⟨1⟩ .exclusive),
      .call (.tryAcquire ⟨1⟩ ⟨2⟩ .exclusive), .call (.request .sorted ⟨2⟩ ⟨2⟩ .shared)]
    let before : Fin (2 ^ 1) → List (CriticalSection 1) := fun _ => [.tryAcquire ⟨2⟩ ⟨1⟩ .shared]
    let out := (LockManager.reached 1 moves).releaseAllInterrupted ⟨1⟩ before
    out.1.HoldsNothing ⟨1⟩ ∧ out.2 = 2 ∧ out.1.waits.lookup ⟨2⟩ = some (⟨2⟩, .shared) := by
  intro moves before out
  obtain ⟨hnothing, _, _⟩ := interrupted_release_complete 1 moves ⟨1⟩ before
    (by simp [before, CriticalSection.txn])
  exact ⟨hnothing, by decide +kernel, by decide +kernel⟩

end LockDb
