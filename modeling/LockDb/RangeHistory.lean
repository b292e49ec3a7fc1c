import LockDb.Bookkeeping
import Mathlib.Algebra.BigOperators.Finprod
import Mathlib.Data.Multiset.Filter

/-!
# Range locks as histories

All ranges of a space share one unordered vector, and a removal by anybody may
move any record. What a transaction's own calls add up to is how many locks it
has on each range; which mode a release drops is fixed only when there is one
mode to choose from.
-/

namespace LockDb

set_option autoImplicit false

open Shared Shared.Multimap

/-- A call of one transaction that changes its range locks, with the answer it got. -/
inductive RangeCall where
  | acquire (space : ResourceId) (range : KeyRange) (mode : LockMode)
      (result : Except LockError Unit)
  | release (space : ResourceId) (range : KeyRange) (result : Except LockError Unit)
  | releaseAll (released : Nat)
deriving DecidableEq

section Calls
variable {S : Type} (txn : TxnId)

def rangeCall (e : Event S Op Outcome) : Option RangeCall :=
  match e.op, e.out with
  | .tryAcquireRange t space range mode, .result r =>
    if t = txn then some (.acquire space range mode r) else none
  | .releaseRange t space range, .result r =>
    if t = txn then some (.release space range r) else none
  | .releaseAll t, .count n => if t = txn then some (.releaseAll n) else none
  | _, _ => none

/-- The range calls `txn` made itself, newest first. -/
def ownCalls (trace : List (Event S Op Outcome)) : List RangeCall := trace.filterMap (rangeCall txn)

end Calls

section Counts
variable (space : ResourceId) (range : KeyRange)

/-- How often `range` was acquired since everything was last released. -/
def acquireCount : List RangeCall → Nat
  | [] => 0
  | .acquire s r _ (.ok ()) :: calls =>
    if s = space ∧ r = range then acquireCount calls + 1 else acquireCount calls
  | .releaseAll _ :: _ => 0
  | _ :: calls => acquireCount calls

def releaseCount : List RangeCall → Nat
  | [] => 0
  | .release s r (.ok ()) :: calls =>
    if s = space ∧ r = range then releaseCount calls + 1 else releaseCount calls
  | .releaseAll _ :: _ => 0
  | _ :: calls => releaseCount calls

/-- The multisets of modes that the calls allow on `range`, when each release may drop
any one of the modes there are. -/
def allowedModes : List RangeCall → Set (Multiset LockMode)
  | [] => {0}
  | .acquire s r m (.ok ()) :: calls =>
    if s = space ∧ r = range then {held | ∃ old ∈ allowedModes calls, held = m ::ₘ old}
    else allowedModes calls
  | .release s r (.ok ()) :: calls =>
    if s = space ∧ r = range then {held | ∃ m, m ::ₘ held ∈ allowedModes calls}
    else allowedModes calls
  | .releaseAll _ :: _ => {0}
  | _ :: calls => allowedModes calls

variable {space range}

theorem card_of_allowed {calls : List RangeCall} {held : Multiset LockMode}
    (h : held ∈ allowedModes space range calls) :
    held.card + releaseCount space range calls = acquireCount space range calls := by
  induction calls generalizing held with
  | nil =>
    have hzero : held = 0 := h
    simp [hzero, releaseCount, acquireCount]
  | cons call calls ih =>
    cases call with
    | acquire s r m result =>
      cases result with
      | error e => exact ih h
      | ok v =>
        simp only [allowedModes, acquireCount, releaseCount] at h ⊢
        split at h
        · next heq =>
          obtain ⟨old, hold, rfl⟩ := h
          have := ih hold
          rw [if_pos heq, Multiset.card_cons]
          omega
        · next heq =>
          rw [if_neg heq]
          exact ih h
    | release s r result =>
      cases result with
      | error e => exact ih h
      | ok v =>
        simp only [allowedModes, acquireCount, releaseCount] at h ⊢
        split at h
        · next heq =>
          obtain ⟨m, hm⟩ := h
          have := ih hm
          rw [Multiset.card_cons] at this
          rw [if_pos heq]
          omega
        · next heq =>
          rw [if_neg heq]
          exact ih h
    | releaseAll n =>
      have hzero : held = 0 := h
      simp [hzero, releaseCount, acquireCount]

end Counts

/-- The modes of `txn`'s locks on exactly `range` among the records of one space. -/
def modesOn (l : RangeSpace) (txn : TxnId) (range : KeyRange) : Multiset LockMode :=
  ↑((l.filter (rangeHeldBy txn range)).map RangeHolder.mode)

section ModesOn
variable {l l' : RangeSpace}

theorem modesOn_perm (h : l.Perm l') (txn : TxnId) (range : KeyRange) :
    modesOn l txn range = modesOn l' txn range :=
  Multiset.coe_eq_coe.mpr ((h.filter _).map _)

theorem modesOn_cons (h : RangeHolder) (l : RangeSpace) (txn : TxnId) (range : KeyRange) :
    modesOn (h :: l) txn range =
      if h.txn = txn ∧ h.range = range then h.mode ::ₘ modesOn l txn range
      else modesOn l txn range := by
  unfold modesOn
  split
  · next heq =>
    have howns : rangeHeldBy txn range h = true := by simpa [rangeHeldBy] using heq
    rw [List.filter_cons_of_pos howns, List.map_cons, Multiset.cons_coe]
  · next hne =>
    have howns : ¬ rangeHeldBy txn range h = true := by simpa [rangeHeldBy] using hne
    rw [List.filter_cons_of_neg howns]

theorem modesOn_push (l : RangeSpace) (h : RangeHolder) (txn : TxnId) (range : KeyRange) :
    modesOn (l ++ [h]) txn range =
      if h.txn = txn ∧ h.range = range then h.mode ::ₘ modesOn l txn range
      else modesOn l txn range := by
  rw [modesOn_perm (List.perm_append_singleton h l), modesOn_cons]

theorem modesOn_others (l : RangeSpace) (txn t : TxnId) (range : KeyRange) :
    modesOn (rangeLedger.others txn l) t range = if t = txn then 0 else modesOn l t range := by
  simp only [modesOn, Ledger.others, List.filter_filter]
  split
  · next ht =>
    subst ht
    rw [List.filter_eq_nil_iff.mpr, List.map_nil, Multiset.coe_nil]
    intro h _
    simp only [rangeHeldBy, rangeLedger, Bool.and_eq_true, decide_eq_true_eq]
    exact fun hboth => of_decide_eq_true hboth.2 hboth.1.1
  · next ht =>
    congr 2
    apply List.filter_congr
    intro h _
    by_cases hown : h.txn = t <;> simp [rangeHeldBy, rangeLedger, hown, ht]

end ModesOn

namespace LockManager
variable {bits : Nat} {self : LockManager bits}

/-- The modes of `txn`'s locks on exactly `range` in `space`. -/
def rangeModes (self : LockManager bits) (txn : TxnId) (space : ResourceId) (range : KeyRange) :
    Multiset LockMode :=
  modesOn (self.rangeHolders space) txn range

/-- How many locks `txn` has on exactly `range` in `space`. -/
def rangeHeld (self : LockManager bits) (txn : TxnId) (space : ResourceId) (range : KeyRange) :
    Nat :=
  (self.rangeHolders space).countP (rangeHeldBy txn range)

theorem card_rangeModes (self : LockManager bits) (txn : TxnId) (space : ResourceId)
    (range : KeyRange) :
    (self.rangeModes txn space range).card = self.rangeHeld txn space range := by
  rw [rangeModes, modesOn, Multiset.coe_card, List.length_map, ← List.countP_eq_length_filter,
    rangeHeld]

theorem rangeHolders_onShard {α : Type} {space : ResourceId} {f : ShardInner → ShardInner × α}
    (hframe : ∀ s, s ≠ space → list (f (self.lockShard space)).1.ranges s =
      list (self.lockShard space).ranges s) (s : ResourceId) :
    (self.onShard space f).1.rangeHolders s =
      if s = space then list (f (self.lockShard space)).1.ranges space
      else self.rangeHolders s := by
  simp only [onShard, rangeHolders, lockShard_setShard]
  by_cases hs : s = space
  · subst hs
    rw [if_pos rfl, if_pos rfl]
  · rw [if_neg hs]
    split
    · next hi =>
      rw [hframe s hs]
      simp only [lockShard, hi]
    · rfl

theorem tryAcquireRange_rangeHolders {txn : TxnId} {space : ResourceId} {range : KeyRange}
    {mode : LockMode} (hok : (self.tryAcquireRange txn space range mode).2 = .ok ())
    (s : ResourceId) :
    (self.tryAcquireRange txn space range mode).1.rangeHolders s =
      if s = space then self.rangeHolders s ++ [⟨txn, range, mode⟩] else self.rangeHolders s := by
  have hcases := tryAcquireRange_cases (self.lockShard space) txn space range mode
  rcases hcases with ⟨_, _, _, heq⟩ | ⟨_, heq⟩
  · simp [tryAcquireRange, onShard, heq] at hok
  · have hlist : ∀ r,
        list ((self.lockShard space).tryAcquireRange txn space range mode).1.ranges r =
        if r = space then list (self.lockShard space).ranges space ++ [⟨txn, range, mode⟩]
        else list (self.lockShard space).ranges r := by
      intro r
      rw [heq]
      exact list_push _ _ _ _
    have hholders := @rangeHolders_onShard bits self (Except LockError Unit) space
      (fun s => s.tryAcquireRange txn space range mode) (fun r hr => (hlist r).trans (if_neg hr)) s
    refine hholders.trans ?_
    split
    · next hs =>
      rw [hlist, if_pos rfl, hs]
      rfl
    · rfl

/-- A release takes out one record of the transaction with that range, of whatever mode. -/
theorem releaseRange_rangeHolders {txn : TxnId} {space : ResourceId} {range : KeyRange}
    (hok : (self.releaseRange txn space range).2 = .ok ()) :
    (∃ mode, (⟨txn, range, mode⟩ :: (self.releaseRange txn space range).1.rangeHolders space).Perm
      (self.rangeHolders space)) ∧
    ∀ s, s ≠ space →
      (self.releaseRange txn space range).1.rangeHolders s = self.rangeHolders s := by
  cases htake : takeFirst (rangeHeldBy txn range) (self.lockShard space).ranges space with
  | none => simp [releaseRange, onShard, ShardInner.releaseRange, htake] at hok
  | some ranges =>
    have hranges : ((self.lockShard space).releaseRange txn space range).1.ranges = ranges := by
      simp only [ShardInner.releaseRange, htake]
    have hholders := @rangeHolders_onShard bits self (Except LockError Unit) space
      (fun s => s.releaseRange txn space range) fun s hs => by
        rw [hranges, list_takeFirst_of_ne htake hs]
    obtain ⟨⟨t, r, mode⟩, howns, hperm, _, _⟩ := takeFirst_some htake
    have heq : t = txn ∧ r = range := by simpa [rangeHeldBy] using howns
    obtain ⟨rfl, rfl⟩ := heq
    constructor
    · refine ⟨mode, ?_⟩
      rw [releaseRange, hholders, if_pos rfl, hranges]
      exact hperm
    · intro s hs
      rw [releaseRange, hholders, if_neg hs]

/-- A release succeeds exactly when there is such a record to take out. -/
theorem releaseRange_result (self : LockManager bits) (txn : TxnId) (space : ResourceId)
    (range : KeyRange) : (self.releaseRange txn space range).2 =
      if 0 < self.rangeHeld txn space range then .ok () else .error .notHeld := by
  have hresult : (self.releaseRange txn space range).2 =
      ((self.lockShard space).releaseRange txn space range).2 := rfl
  rw [hresult]
  cases htake : takeFirst (rangeHeldBy txn range) (self.lockShard space).ranges space with
  | none =>
    have hnone := takeFirst_eq_none_iff.mp htake
    have hzero : self.rangeHeld txn space range = 0 :=
      List.countP_eq_zero.mpr fun h hh => by simp [hnone h hh]
    simp [ShardInner.releaseRange, htake, hzero]
  | some ranges =>
    obtain ⟨h, howns, hperm, _, _⟩ := takeFirst_some htake
    have hmem : h ∈ self.rangeHolders space := hperm.mem_iff.mp List.mem_cons_self
    have hpos : 0 < self.rangeHeld txn space range := List.countP_pos_iff.mpr ⟨h, hmem, howns⟩
    simp [ShardInner.releaseRange, htake, hpos]

theorem rangeHolders_setShard {i : Fin (2 ^ bits)} {s : ShardInner}
    (hs : s.ranges = (self.shards i).ranges) :
    (self.setShard i s).rangeHolders = self.rangeHolders := by
  funext space
  simp only [rangeHolders, lockShard_setShard]
  split
  · next hi => rw [hs, lockShard, hi]
  · rfl

theorem grantStep_rangeHolders (self : LockManager bits) (txn : TxnId) (res : ResourceId)
    (mode : LockMode) : (self.grantStep txn res mode).1.rangeHolders = self.rangeHolders :=
  rangeHolders_setShard rfl

/-- Everything one call can do to the range locks of `txn`, by the call as `txn` sees it. -/
inductive RangeCase (self : LockManager bits) (txn : TxnId) :
    Option RangeCall → LockManager bits → Prop where
  | foreign {next : LockManager bits}
      (held : ∀ s r, next.rangeModes txn s r = self.rangeModes txn s r) :
      RangeCase self txn none next
  | acquired {space : ResourceId} {range : KeyRange} {mode : LockMode} {next : LockManager bits}
      (held : ∀ s r, next.rangeModes txn s r = if space = s ∧ range = r then
        mode ::ₘ self.rangeModes txn s r else self.rangeModes txn s r) :
      RangeCase self txn (some (.acquire space range mode (.ok ()))) next
  | conflict {space : ResourceId} {range : KeyRange} {mode : LockMode} {e : LockError} :
      RangeCase self txn (some (.acquire space range mode (.error e))) self
  | released {space : ResourceId} {range : KeyRange} {next : LockManager bits} (mode : LockMode)
      (held : ∀ s r, self.rangeModes txn s r = if space = s ∧ range = r then
        mode ::ₘ next.rangeModes txn s r else next.rangeModes txn s r) :
      RangeCase self txn (some (.release space range (.ok ()))) next
  | notHeld {space : ResourceId} {range : KeyRange} {e : LockError} :
      RangeCase self txn (some (.release space range (.error e))) self
  | releasedAll {n : Nat} {next : LockManager bits}
      (held : ∀ s r, next.rangeModes txn s r = 0) :
      RangeCase self txn (some (.releaseAll n)) next

theorem tryAcquireRange_rangeModes {u : TxnId} {space : ResourceId} {range : KeyRange}
    {mode : LockMode} (hok : (self.tryAcquireRange u space range mode).2 = .ok ())
    (txn : TxnId) (s : ResourceId) (r : KeyRange) :
    (self.tryAcquireRange u space range mode).1.rangeModes txn s r =
      if u = txn ∧ space = s ∧ range = r then mode ::ₘ self.rangeModes txn s r
      else self.rangeModes txn s r := by
  rw [rangeModes, tryAcquireRange_rangeHolders hok]
  by_cases hs : s = space
  · subst hs
    rw [if_pos rfl, modesOn_push]
    simp only [true_and, rangeModes]
  · rw [if_neg hs, if_neg fun hc => hs hc.2.1.symm, rangeModes]

theorem releaseRange_rangeModes {u : TxnId} {space : ResourceId} {range : KeyRange}
    (hok : (self.releaseRange u space range).2 = .ok ()) : ∃ mode, ∀ txn s r,
      self.rangeModes txn s r = if u = txn ∧ space = s ∧ range = r then
        mode ::ₘ (self.releaseRange u space range).1.rangeModes txn s r
      else (self.releaseRange u space range).1.rangeModes txn s r := by
  obtain ⟨⟨mode, hperm⟩, hframe⟩ := releaseRange_rangeHolders hok
  refine ⟨mode, fun txn s r => ?_⟩
  by_cases hs : s = space
  · subst hs
    rw [rangeModes, ← modesOn_perm hperm, modesOn_cons]
    simp only [true_and, rangeModes]
  · rw [if_neg fun hc => hs hc.2.1.symm, rangeModes, rangeModes, hframe s hs]

theorem Inv.releaseAll_rangeModes (h : self.Inv) (u txn : TxnId) (s : ResourceId) (r : KeyRange) :
    (self.releaseAll u).1.rangeModes txn s r = if txn = u then 0 else self.rangeModes txn s r := by
  rw [rangeModes, modesOn_perm (h.releaseAll_rangeHolders u s), modesOn_others]
  rfl

theorem Inv.range_cases (h : self.Inv) (op : Op) (txn : TxnId) :
    RangeCase self txn (rangeCall txn (⟨op, (self.exec op).2, (self.exec op).1⟩ : Event _ _ _))
      (self.exec op).1 := by
  have quiet : ∀ {next : LockManager bits}, next.rangeHolders = self.rangeHolders →
      RangeCase self txn none next := by
    intro next hnext
    apply RangeCase.foreign
    intro s r
    rw [rangeModes, rangeModes, hnext]
  cases op with
  | tryAcquire u res mode =>
    apply quiet
    simp only [LockManager.exec, tryAcquire_fst]
    exact self.grantStep_rangeHolders u res mode
  | release u res => exact quiet (rangeHolders_setShard (release_keeps_ranges _ _ _).1)
  | request order u res mode =>
    apply quiet
    simp only [LockManager.exec, request_eq]
    split
    · exact self.grantStep_rangeHolders u res mode
    · exact self.grantStep_rangeHolders u res mode
  | cancelWait u => exact quiet rfl
  | findDeadlock order keyOrder => exact quiet rfl
  | tryAcquireRange u space range mode =>
    simp only [rangeCall, LockManager.exec]
    cases hres : (self.tryAcquireRange u space range mode).2 with
    | error e =>
      rw [self.tryAcquireRange_refused (by simp [hres])]
      split
      · exact .conflict
      · exact quiet rfl
    | ok v =>
      have hmodes := tryAcquireRange_rangeModes hres txn
      split
      · next hu => exact .acquired (by simpa [hu] using hmodes)
      · next hu => exact .foreign (by simpa [hu] using hmodes)
  | releaseRange u space range =>
    simp only [rangeCall, LockManager.exec]
    cases hres : (self.releaseRange u space range).2 with
    | error e =>
      rw [self.releaseRange_refused (by simp [hres])]
      split
      · exact .notHeld
      · exact quiet rfl
    | ok v =>
      obtain ⟨mode, hmodes⟩ := releaseRange_rangeModes hres
      split
      · next hu => exact .released mode fun s r => by simpa [hu] using hmodes txn s r
      · next hu => exact .foreign fun s r => by simpa [hu] using (hmodes txn s r).symm
  | releaseAll u =>
    have hmodes := h.releaseAll_rangeModes u txn
    simp only [rangeCall, LockManager.exec]
    split
    · next hu => exact .releasedAll (by simpa [hu] using hmodes)
    · next hu => exact .foreign (by simpa [Ne.symm hu] using hmodes)

/-- Every transaction's range locks are among those its own calls allow. -/
def Tracked (trace : List (Event (LockManager bits) Op Outcome)) (self : LockManager bits) : Prop :=
  ∀ txn space range,
    self.rangeModes txn space range ∈ allowedModes space range (ownCalls txn trace)

theorem Tracked.exec {trace : List (Event (LockManager bits) Op Outcome)} (hinv : self.Inv)
    (h : Tracked trace self) (op : Op) :
    Tracked (⟨op, (self.exec op).2, (self.exec op).1⟩ :: trace) (self.exec op).1 := by
  intro txn space range
  have hold := h txn space range
  have hcase := hinv.range_cases op txn
  rw [ownCalls, List.filterMap_cons]
  generalize rangeCall txn _ = call at hcase ⊢
  generalize (self.exec op).1 = next at hcase ⊢
  cases hcase with
  | foreign held =>
    rw [held]
    exact hold
  | acquired held =>
    rw [held]
    simp only [allowedModes]
    split
    · exact ⟨_, hold, rfl⟩
    · exact hold
  | conflict => exact hold
  | released mode held =>
    rw [held] at hold
    simp only [allowedModes]
    split
    · next heq =>
      rw [if_pos heq] at hold
      exact ⟨mode, hold⟩
    · next hne =>
      rw [if_neg hne] at hold
      exact hold
  | notHeld => exact hold
  | releasedAll held => exact held space range

theorem tracked (bits : Nat) (ops : List Op) :
    let run := Run.record exec [] (.withShards bits) ops
    Tracked run.1 run.2 := by
  apply recorded_invariant (P := Tracked)
  · intro txn space range
    rfl
  · intro tr s op hinv h
    exact h.exec hinv op

/-- The records of a space are counted once under their transaction and range. -/
theorem rangeCount_eq (self : LockManager bits) (space : ResourceId) :
    self.rangeCount space =
      finsum fun p : TxnId × KeyRange => self.rangeHeld p.1 space p.2 := by
  let owners : Multiset (TxnId × KeyRange) :=
    (↑(self.rangeHolders space) : Multiset RangeHolder).map fun h => (h.txn, h.range)
  have hcount : ∀ p, self.rangeHeld p.1 space p.2 = owners.count p := by
    intro p
    rw [Multiset.count_map, ← Multiset.countP_eq_card_filter,
      Multiset.coe_countP, rangeHeld]
    apply List.countP_congr
    intro h _
    simp only [rangeHeldBy, Bool.and_eq_true, decide_eq_true_eq, Prod.ext_iff]
    exact and_congr eq_comm eq_comm
  have hsupport : Function.support (fun p : TxnId × KeyRange => self.rangeHeld p.1 space p.2) ⊆
      ↑owners.toFinset := by
    intro p hp
    rw [Function.mem_support, hcount, Multiset.count_ne_zero] at hp
    exact Multiset.mem_toFinset.mpr hp
  rw [finsum_eq_sum_of_support_subset _ hsupport]
  have hsum : ∑ p ∈ owners.toFinset, owners.count p = (self.rangeHolders space).length := by
    rw [Multiset.toFinset_sum_count_eq, Multiset.card_map, Multiset.coe_card]
  exact hsum.symm.trans (Finset.sum_congr rfl fun p _ => (hcount p).symm)

end LockManager

/-- No range lock is lost or kept twice: how many `txn` has on a range is how often it
acquired it less how often it released it, and `range_count` is the sum over everybody. -/
theorem range_locks_counted (bits : Nat) (ops : List Op) :
    let run := Run.record LockManager.exec [] (.withShards bits) ops
    (∀ txn space range,
      let held := run.2.rangeHeld txn space range
      let calls := ownCalls txn run.1
      held + releaseCount space range calls = acquireCount space range calls ∧
      ((run.2.releaseRange txn space range).2 = .ok () ↔ 0 < held) ∧
      ((run.2.releaseRange txn space range).2 = .error .notHeld ↔ ¬ 0 < held)) ∧
    ∀ space, run.2.rangeCount space =
      finsum fun p : TxnId × KeyRange => run.2.rangeHeld p.1 space p.2 := by
  intro run
  have htracked := LockManager.tracked bits ops
  refine ⟨fun txn space range => ?_, run.2.rangeCount_eq⟩
  intro held calls
  have hcard := card_of_allowed (htracked txn space range)
  rw [LockManager.card_rangeModes] at hcard
  refine ⟨hcard, ?_⟩
  rw [run.2.releaseRange_result txn space range]
  by_cases hpos : 0 < held
  · rw [if_pos hpos]
    simp [hpos]
  · rw [if_neg hpos]
    simp [hpos]

/-- The second transaction's range has nothing to do with the first one's, but letting go of it
moves the exclusive record before the shared one, and the next release drops that one. -/
theorem release_choice_depends_on_others :
    ¬ ∀ (bits : Nat) (ops ops' : List Op) (txn : TxnId),
      let run := Run.record LockManager.exec [] (.withShards bits) ops
      let run' := Run.record LockManager.exec [] (.withShards bits) ops'
      ownCalls txn run.1 = ownCalls txn run'.1 → ∀ space range,
        run.2.rangeModes txn space range = run'.2.rangeModes txn space range := by
  intro hsame
  have hmodes := hsame 4
    [.tryAcquireRange ⟨1⟩ ⟨7⟩ ⟨0, 10⟩ .shared, .tryAcquireRange ⟨1⟩ ⟨7⟩ ⟨0, 10⟩ .exclusive,
      .releaseRange ⟨1⟩ ⟨7⟩ ⟨0, 10⟩]
    [.tryAcquireRange ⟨2⟩ ⟨7⟩ ⟨20, 30⟩ .shared, .tryAcquireRange ⟨1⟩ ⟨7⟩ ⟨0, 10⟩ .shared,
      .tryAcquireRange ⟨1⟩ ⟨7⟩ ⟨0, 10⟩ .exclusive, .releaseRange ⟨2⟩ ⟨7⟩ ⟨20, 30⟩,
      .releaseRange ⟨1⟩ ⟨7⟩ ⟨0, 10⟩]
    ⟨1⟩ (by decide +kernel) ⟨7⟩ ⟨0, 10⟩
  exact absurd hmodes (by decide +kernel)

/-- Two runs in which `txn` makes the same range calls with the same answers leave it with
equally many locks on every range; the modes agree wherever its own calls fix them. -/
theorem range_locks_of_own_calls (bits bits' : Nat) (ops ops' : List Op) (txn : TxnId) :
    let run := Run.record LockManager.exec [] (.withShards bits) ops
    let run' := Run.record LockManager.exec [] (.withShards bits') ops'
    ownCalls txn run.1 = ownCalls txn run'.1 → ∀ space range,
      let allowed := allowedModes space range (ownCalls txn run.1)
      run.2.rangeHeld txn space range = run'.2.rangeHeld txn space range ∧
      run.2.rangeModes txn space range ∈ allowed ∧ run'.2.rangeModes txn space range ∈ allowed ∧
      (allowed.Subsingleton →
        run.2.rangeModes txn space range = run'.2.rangeModes txn space range) := by
  intro run run' hsame space range allowed
  have htracked : LockManager.Tracked run.1 run.2 := LockManager.tracked bits ops
  have htracked' : LockManager.Tracked run'.1 run'.2 := LockManager.tracked bits' ops'
  have hmodes := htracked txn space range
  have hmodes' := htracked' txn space range
  rw [← hsame] at hmodes'
  refine ⟨?_, hmodes, hmodes', fun hone => hone hmodes hmodes'⟩
  have hcard := card_of_allowed hmodes
  have hcard' := card_of_allowed hmodes'
  rw [← LockManager.card_rangeModes, ← LockManager.card_rangeModes]
  omega

/-- Transaction 1 takes a range twice in one mode and gives it back once. -/
theorem shared_range_kept :
    let run := Run.record LockManager.exec [] (.withShards 4)
      [.tryAcquireRange ⟨1⟩ ⟨7⟩ ⟨0, 10⟩ .shared, .tryAcquireRange ⟨1⟩ ⟨7⟩ ⟨0, 10⟩ .shared,
        .releaseRange ⟨1⟩ ⟨7⟩ ⟨0, 10⟩]
    let run' := Run.record LockManager.exec [] (.withShards 4)
      [.tryAcquireRange ⟨2⟩ ⟨7⟩ ⟨5, 30⟩ .shared, .tryAcquireRange ⟨1⟩ ⟨7⟩ ⟨0, 10⟩ .shared,
        .tryAcquireRange ⟨1⟩ ⟨7⟩ ⟨0, 10⟩ .shared, .releaseAll ⟨2⟩, .releaseRange ⟨1⟩ ⟨7⟩ ⟨0, 10⟩]
    run'.2.rangeHeld ⟨1⟩ ⟨7⟩ ⟨0, 10⟩ = 1 ∧
      run.2.rangeModes ⟨1⟩ ⟨7⟩ ⟨0, 10⟩ = run'.2.rangeModes ⟨1⟩ ⟨7⟩ ⟨0, 10⟩ := by
  intro run run'
  have hcalls : ownCalls ⟨1⟩ run.1 = [.release ⟨7⟩ ⟨0, 10⟩ (.ok ()),
      .acquire ⟨7⟩ ⟨0, 10⟩ .shared (.ok ()), .acquire ⟨7⟩ ⟨0, 10⟩ .shared (.ok ())] := by
    decide +kernel
  have hfixed : (allowedModes ⟨7⟩ ⟨0, 10⟩ (ownCalls ⟨1⟩ run.1)).Subsingleton := by
    have hone : ∀ held ∈ allowedModes ⟨7⟩ ⟨0, 10⟩ (ownCalls ⟨1⟩ run.1), held = {.shared} := by
      intro held h
      rw [hcalls] at h
      simp only [allowedModes, and_self, if_true] at h
      obtain ⟨mode, _, ⟨_, rfl, rfl⟩, hheld⟩ := h
      have hmode : mode ∈ (.shared ::ₘ .shared ::ₘ 0 : Multiset LockMode) :=
        hheld ▸ Multiset.mem_cons_self mode held
      obtain rfl : mode = .shared := by simpa using hmode
      exact (Multiset.cons_inj_right _).mp hheld
    intro held h held' h'
    rw [hone held h, hone held' h']
  have hagree := range_locks_of_own_calls 4 4 _ _ ⟨1⟩ (by decide +kernel : ownCalls ⟨1⟩ run.1 =
    ownCalls ⟨1⟩ run'.1) ⟨7⟩ ⟨0, 10⟩
  exact ⟨by decide +kernel, hagree.2.2.2 hfixed⟩

end LockDb
