import LockDb.Mode
import LockDb.Deadlock
import LockDb.Shared.Ledger
import Mathlib.Data.Fin.Basic

/-!
# The sharded lock table and its operations

The functions of the manager, on one shard and on the whole table. A table with
`2 ^ bits` shards has type `LockManager bits`, so that every shard index is in
range; mutexes are left to the modules on interleavings, and each function here
is one call that nobody interrupts.
-/

namespace LockDb

set_option autoImplicit false

open Shared Shared.Multimap

def DEADLOCK_VICTIM_POLICY : VictimPolicy := .youngest

/-- 2^64 divided by the golden ratio. -/
def FIB_HASH : UInt64 := 0x9E3779B97F4A7C15

structure Holder where
  txn : TxnId
  mode : LockMode
deriving DecidableEq, Repr

/-- The unordered holders of one resource (a struct with this single field). -/
abbrev LockEntry := List Holder

structure RangeHolder where
  txn : TxnId
  range : KeyRange
  mode : LockMode
deriving DecidableEq, Repr

/-- The unordered range holders of one space (a struct with this single field). -/
abbrev RangeSpace := List RangeHolder

structure ShardInner where
  locks : HashMap ResourceId LockEntry
  byTxn : HashMap TxnId (List ResourceId)
  ranges : HashMap ResourceId RangeSpace
  rangeByTxn : HashMap TxnId (List (ResourceId × KeyRange))

def heldBy (txn : TxnId) (h : Holder) : Bool := h.txn = txn

def rangeHeldBy (txn : TxnId) (range : KeyRange) (h : RangeHolder) : Bool :=
  h.txn = txn && h.range = range

def pointLedger : Ledger ResourceId TxnId ResourceId Holder where
  key res := res
  owner h := h.txn
  item res _ := res
  owns txn _ := heldBy txn
  key_item _ _ := rfl
  owns_iff := by simp [heldBy]

def rangeLedger : Ledger ResourceId TxnId (ResourceId × KeyRange) RangeHolder where
  key item := item.1
  owner h := h.txn
  item space h := (space, h.range)
  owns txn item := rangeHeldBy txn item.2
  key_item _ _ := rfl
  owns_iff := by
    intro txn item h
    obtain ⟨space, range⟩ := item
    simp [rangeHeldBy]

namespace ShardInner

def new : ShardInner := ⟨∅, ∅, ∅, ∅⟩

end ShardInner

/-- `try_grant_locked` once it has the entry of `res`, which is stored in `locks`. -/
def grantEntry (locks : HashMap ResourceId LockEntry) (byTxn : HashMap TxnId (List ResourceId))
    (txn : TxnId) (res : ResourceId) (mode : LockMode) (entry : LockEntry) :
    Bool × HashMap ResourceId LockEntry × HashMap TxnId (List ResourceId) :=
  match entry.findFinIdx? (heldBy txn) with
  | some pos =>
    let current := entry[pos].mode
    if current.covers mode then (true, locks, byTxn)
    else
      let target := current.join mode
      let blocked := entry.zipIdx.any fun (h, i) => i ≠ pos && !h.mode.compatibleWith target
      if blocked then (false, locks, byTxn)
      else (true, locks.insert res (entry.modify pos fun h => { h with mode := target }), byTxn)
  | none =>
    if entry.all fun h => h.mode.compatibleWith mode then
      (true, locks.insert res (entry ++ [⟨txn, mode⟩]), push byTxn txn res)
    else
      -- the entry had a holder, so it was not created by this call
      (false, locks, byTxn)

def tryGrantLocked (locks : HashMap ResourceId LockEntry) (byTxn : HashMap TxnId (List ResourceId))
    (txn : TxnId) (res : ResourceId) (mode : LockMode) :
    Bool × HashMap ResourceId LockEntry × HashMap TxnId (List ResourceId) :=
  let locks := orInsert locks res
  grantEntry locks byTxn txn res mode (list locks res)

def forgetResource (byTxn : HashMap TxnId (List ResourceId)) (txn : TxnId) (res : ResourceId) :
    HashMap TxnId (List ResourceId) :=
  forgetFirst (fun r => r = res) byTxn txn

def forgetRange (rangeByTxn : HashMap TxnId (List (ResourceId × KeyRange))) (txn : TxnId)
    (space : ResourceId) (range : KeyRange) : HashMap TxnId (List (ResourceId × KeyRange)) :=
  forgetFirst (fun item => item = (space, range)) rangeByTxn txn

namespace ShardInner

def tryGrant (s : ShardInner) (txn : TxnId) (res : ResourceId) (mode : LockMode) :
    ShardInner × Bool :=
  let (granted, locks, byTxn) := tryGrantLocked s.locks s.byTxn txn res mode
  ({ s with locks := locks, byTxn := byTxn }, granted)

def release (s : ShardInner) (txn : TxnId) (res : ResourceId) :
    ShardInner × Except LockError Unit :=
  match takeFirst (heldBy txn) s.locks res with
  | none => (s, .error .notHeld)
  | some locks => ({ s with locks := locks, byTxn := forgetResource s.byTxn txn res }, .ok ())

/-- The body of the shard loop of `release_all`, with its running count. -/
def sweep (s : ShardInner) (txn : TxnId) (released : Nat) : ShardInner × Nat :=
  let (locks, byTxn, released) := pointLedger.sweep txn s.locks s.byTxn released
  let (ranges, rangeByTxn, released) := rangeLedger.sweep txn s.ranges s.rangeByTxn released
  (⟨locks, byTxn, ranges, rangeByTxn⟩, released)

def tryAcquireRange (s : ShardInner) (txn : TxnId) (space : ResourceId) (range : KeyRange)
    (mode : LockMode) : ShardInner × Except LockError Unit :=
  let ranges := orInsert s.ranges space
  let rs := list ranges space
  let conflict := rs.any fun h =>
    h.txn ≠ txn && h.range.overlaps range && !h.mode.compatibleWith mode
  if conflict then ({ s with ranges := ranges }, .error .conflict)
  else
    ({ s with
        ranges := ranges.insert space (rs ++ [⟨txn, range, mode⟩])
        rangeByTxn := push s.rangeByTxn txn (space, range) }, .ok ())

def releaseRange (s : ShardInner) (txn : TxnId) (space : ResourceId) (range : KeyRange) :
    ShardInner × Except LockError Unit :=
  match takeFirst (rangeHeldBy txn range) s.ranges space with
  | none => (s, .error .notHeld)
  | some ranges =>
    ({ s with ranges := ranges, rangeByTxn := forgetRange s.rangeByTxn txn space range }, .ok ())

end ShardInner

abbrev WaitMap := HashMap TxnId (ResourceId × LockMode)

structure LockManager (bits : Nat) where
  shards : Fin (2 ^ bits) → ShardInner
  waits : WaitMap

inductive Acquisition where
  | granted
  | waiting
  | deadlock (d : Deadlock)
deriving DecidableEq, Repr

/-- The top `bits` bits of the wrapping product with `FIB_HASH`. -/
def shardIndex (bits : Nat) (res : ResourceId) : Fin (2 ^ bits) :=
  if h : bits = 0 then ⟨0, by simp [h]⟩
  else
    let hash := res.id * FIB_HASH
    ⟨hash.toNat >>> (64 - bits), by
      rw [Nat.shiftRight_eq_div_pow]
      apply Nat.div_lt_of_lt_mul
      calc hash.toNat < 2 ^ 64 := hash.toNat_lt
        _ ≤ 2 ^ (64 - bits + bits) := Nat.pow_le_pow_right (by omega) (by omega)
        _ = 2 ^ (64 - bits) * 2 ^ bits := Nat.pow_add _ _ _⟩

namespace LockManager
variable {bits : Nat}

def withShards (bits : Nat) : LockManager bits := ⟨fun _ => .new, ∅⟩

def lockShard (self : LockManager bits) (res : ResourceId) : ShardInner :=
  self.shards (shardIndex bits res)

def setShard (self : LockManager bits) (i : Fin (2 ^ bits)) (s : ShardInner) : LockManager bits :=
  { self with shards := Function.update self.shards i s }

def onShard {α : Type} (self : LockManager bits) (res : ResourceId)
    (f : ShardInner → ShardInner × α) : LockManager bits × α :=
  let out := f (self.lockShard res)
  (self.setShard (shardIndex bits res) out.1, out.2)

def tryAcquire (self : LockManager bits) (txn : TxnId) (res : ResourceId) (mode : LockMode) :
    LockManager bits × Except LockError Unit :=
  let (self, granted) := self.onShard res fun s => s.tryGrant txn res mode
  if granted then (self, .ok ()) else (self, .error .conflict)

def release (self : LockManager bits) (txn : TxnId) (res : ResourceId) :
    LockManager bits × Except LockError Unit :=
  self.onShard res fun s => s.release txn res

def cancelWait (self : LockManager bits) (txn : TxnId) : LockManager bits :=
  { self with waits := self.waits.erase txn }

/-- One turn of the shard loop of `release_all`. -/
def sweepShard (self : LockManager bits) (txn : TxnId) (i : Fin (2 ^ bits)) (released : Nat) :
    LockManager bits × Nat :=
  let out := (self.shards i).sweep txn released
  (self.setShard i out.1, out.2)

def releaseAll (self : LockManager bits) (txn : TxnId) : LockManager bits × Nat :=
  let self := { self with waits := self.waits.erase txn }
  (List.finRange (2 ^ bits)).foldl
    (fun (self, released) i => self.sweepShard txn i released) (self, 0)

def holdersBlocking (self : LockManager bits) (waiter : TxnId) (res : ResourceId)
    (mode : LockMode) : List TxnId :=
  let entry := list (self.lockShard res).locks res
  (entry.filter fun h => h.txn ≠ waiter && !h.mode.compatibleWith mode).map Holder.txn

/-- One turn of the loop that builds the wait-for graph. -/
def addWaiter (self : LockManager bits) (graph : WaitForGraph)
    (waiting : TxnId × ResourceId × LockMode) : WaitForGraph :=
  graph.addWaits waiting.1 (self.holdersBlocking waiting.1 waiting.2.1 waiting.2.2)

def buildWaitGraph (self : LockManager bits) (order : IterOrder TxnId (ResourceId × LockMode)) :
    WaitForGraph :=
  (order.iter self.waits).foldl self.addWaiter .new

/-- What `request` answers once the wait is registered and the graph is built. -/
def refusal (graph : WaitForGraph) (txn : TxnId) : Acquisition :=
  match graph.cycleFrom txn with
  | some cycle =>
    let victim := (WaitForGraph.pickVictim cycle DEADLOCK_VICTIM_POLICY).getD txn
    .deadlock ⟨victim, cycle⟩
  | none => .waiting

def request (self : LockManager bits) (order : IterOrder TxnId (ResourceId × LockMode))
    (txn : TxnId) (res : ResourceId) (mode : LockMode) : LockManager bits × Acquisition :=
  let (self, granted) := self.onShard res fun s => s.tryGrant txn res mode
  if granted then ({ self with waits := self.waits.erase txn }, .granted)
  else
    let self := { self with waits := self.waits.insert txn (res, mode) }
    (self, refusal (self.buildWaitGraph order) txn)

/-- What `find_deadlock` answers once the graph is built. -/
def scan (graph : WaitForGraph) (keyOrder : IterOrder TxnId (List TxnId)) : Option Deadlock := do
  let cycle ← graph.detectCycle keyOrder
  let victim ← WaitForGraph.pickVictim cycle DEADLOCK_VICTIM_POLICY
  return ⟨victim, cycle⟩

def findDeadlock (self : LockManager bits) (order : IterOrder TxnId (ResourceId × LockMode))
    (keyOrder : IterOrder TxnId (List TxnId)) : Option Deadlock :=
  scan (self.buildWaitGraph order) keyOrder

def waitingCount (self : LockManager bits) : Nat := self.waits.keys.card

def holderCount (self : LockManager bits) (res : ResourceId) : Nat :=
  (list (self.lockShard res).locks res).length

def modeHeld (self : LockManager bits) (txn : TxnId) (res : ResourceId) : Option LockMode :=
  ((list (self.lockShard res).locks res).find? (heldBy txn)).map Holder.mode

def tryAcquireRange (self : LockManager bits) (txn : TxnId) (space : ResourceId) (range : KeyRange)
    (mode : LockMode) : LockManager bits × Except LockError Unit :=
  self.onShard space fun s => s.tryAcquireRange txn space range mode

def releaseRange (self : LockManager bits) (txn : TxnId) (space : ResourceId) (range : KeyRange) :
    LockManager bits × Except LockError Unit :=
  self.onShard space fun s => s.releaseRange txn space range

def rangeCount (self : LockManager bits) (space : ResourceId) : Nat :=
  (list (self.lockShard space).ranges space).length

end LockManager

/-- One call of a public method, with the iteration orders it happens to meet. -/
inductive Op where
  | tryAcquire (txn : TxnId) (res : ResourceId) (mode : LockMode)
  | release (txn : TxnId) (res : ResourceId)
  | releaseAll (txn : TxnId)
  | request (order : IterOrder TxnId (ResourceId × LockMode)) (txn : TxnId) (res : ResourceId)
      (mode : LockMode)
  | cancelWait (txn : TxnId)
  | findDeadlock (order : IterOrder TxnId (ResourceId × LockMode))
      (keyOrder : IterOrder TxnId (List TxnId))
  | tryAcquireRange (txn : TxnId) (space : ResourceId) (range : KeyRange) (mode : LockMode)
  | releaseRange (txn : TxnId) (space : ResourceId) (range : KeyRange)

inductive Outcome where
  | result (r : Except LockError Unit)
  | count (n : Nat)
  | acquisition (a : Acquisition)
  | unit
  | found (d : Option Deadlock)
deriving DecidableEq

namespace LockManager
variable {bits : Nat}

def exec (self : LockManager bits) : Op → LockManager bits × Outcome
  | .tryAcquire txn res mode =>
    let out := self.tryAcquire txn res mode
    (out.1, .result out.2)
  | .release txn res =>
    let out := self.release txn res
    (out.1, .result out.2)
  | .releaseAll txn =>
    let out := self.releaseAll txn
    (out.1, .count out.2)
  | .request order txn res mode =>
    let out := self.request order txn res mode
    (out.1, .acquisition out.2)
  | .cancelWait txn => (self.cancelWait txn, .unit)
  | .findDeadlock order keyOrder => (self, .found (self.findDeadlock order keyOrder))
  | .tryAcquireRange txn space range mode =>
    let out := self.tryAcquireRange txn space range mode
    (out.1, .result out.2)
  | .releaseRange txn space range =>
    let out := self.releaseRange txn space range
    (out.1, .result out.2)

end LockManager

/-- Every public method of the manager that reads or changes the table. -/
inductive Method where
  | op (op : Op)
  | waitingCount
  | holderCount (res : ResourceId)
  | modeHeld (txn : TxnId) (res : ResourceId)
  | rangeCount (space : ResourceId)

inductive Answer where
  | outcome (o : Outcome)
  | count (n : Nat)
  | mode (m : Option LockMode)
deriving DecidableEq

def LockManager.perform {bits : Nat} (self : LockManager bits) :
    Method → LockManager bits × Answer
  | .op op =>
    let out := self.exec op
    (out.1, .outcome out.2)
  | .waitingCount => (self, .count self.waitingCount)
  | .holderCount res => (self, .count (self.holderCount res))
  | .modeHeld txn res => (self, .mode (self.modeHeld txn res))
  | .rangeCount space => (self, .count (self.rangeCount space))

end LockDb
