import LockDb.RangeHistory

/-!
# The reference model of the range locks

The property tests keep one vector of records for each space, which they push to and swap-remove
from like the manager, with neither shards nor an index, and never drop an empty vector. Up
to a release of everything, which follows the index, the two agree record by record.
-/

namespace LockDb

set_option autoImplicit false

open Shared Shared.Multimap

/-- The triples of the tests are range records here. -/
structure RangeModel where
  spaces : HashMap ResourceId RangeSpace

namespace RangeModel

def empty : RangeModel := ⟨∅⟩

def applyAcquire (self : RangeModel) (txn : TxnId) (space : ResourceId) (range : KeyRange)
    (mode : LockMode) : RangeModel × Except LockError Unit :=
  let spaces := orInsert self.spaces space
  let holders := list spaces space
  let conflict := holders.any fun h =>
    h.txn ≠ txn && h.range.overlaps range && !h.mode.compatibleWith mode
  if conflict then (⟨spaces⟩, .error .conflict)
  else (⟨spaces.insert space (holders ++ [⟨txn, range, mode⟩])⟩, .ok ())

def applyRelease (self : RangeModel) (txn : TxnId) (space : ResourceId) (range : KeyRange) :
    RangeModel × Except LockError Unit :=
  match self.spaces.lookup space with
  | none => (self, .error .notHeld)
  | some holders =>
    match holders.findFinIdx? (rangeHeldBy txn range) with
    | none => (self, .error .notHeld)
    | some pos => (⟨self.spaces.insert space (swapRemove holders pos)⟩, .ok ())

/-- The model hears only of the range calls. -/
def answerRange (self : RangeModel) : Op → RangeModel × Option (Except LockError Unit)
  | .tryAcquireRange txn space range mode =>
    let out := self.applyAcquire txn space range mode
    (out.1, some out.2)
  | .releaseRange txn space range =>
    let out := self.applyRelease txn space range
    (out.1, some out.2)
  | _ => (self, none)

end RangeModel

namespace LockManager
variable {bits : Nat}

/-- Any call, of which only the answer to a range call is looked at. -/
def answerRange (self : LockManager bits) : Op → LockManager bits × Option (Except LockError Unit)
  | .tryAcquireRange txn space range mode =>
    let out := self.tryAcquireRange txn space range mode
    (out.1, some out.2)
  | .releaseRange txn space range =>
    let out := self.releaseRange txn space range
    (out.1, some out.2)
  | op => ((self.exec op).1, none)

end LockManager

/-- The same vector in every space. -/
def SameRanges {bits : Nat} (lm : LockManager bits) (model : RangeModel) : Prop :=
  ∀ space, lm.rangeHolders space = list model.spaces space

section Model
variable (model : RangeModel) (txn : TxnId) (space : ResourceId) (range : KeyRange)

/-- The model's acquire is that of a shard whose ranges are the model's vectors. -/
theorem RangeModel.applyAcquire_eq (mode : LockMode) :
    model.applyAcquire txn space range mode =
      let out := (⟨∅, ∅, model.spaces, ∅⟩ : ShardInner).tryAcquireRange txn space range mode
      (⟨out.1.ranges⟩, out.2) := by
  simp only [applyAcquire, ShardInner.tryAcquireRange]
  split <;> rfl

theorem RangeModel.applyRelease_list (s : ResourceId) :
    list (model.applyRelease txn space range).1.spaces s =
      if s = space then removeFirst (rangeHeldBy txn range) (list model.spaces s)
      else list model.spaces s := by
  unfold applyRelease
  split
  · next hnone =>
    by_cases hs : s = space
    · rw [if_pos hs, hs, list, hnone, Option.getD_none, removeFirst_of_none rfl]
    · rw [if_neg hs]
  · next holders hsome =>
    have hlist : list model.spaces space = holders := list_of_lookup hsome
    split
    · next hnone =>
      by_cases hs : s = space
      · rw [if_pos hs, hs, hlist, removeFirst_of_none hnone]
      · rw [if_neg hs]
    · next pos hpos =>
      simp only [list_insert]
      by_cases hs : s = space
      · rw [if_pos hs, if_pos hs, hs, hlist, removeFirst_of_some hpos]
      · rw [if_neg hs, if_neg hs]

theorem RangeModel.applyRelease_result : (model.applyRelease txn space range).2 =
    if 0 < (list model.spaces space).countP (rangeHeldBy txn range) then .ok ()
    else .error .notHeld := by
  unfold applyRelease
  split
  · next hnone => simp [list, hnone]
  · next holders hsome =>
    rw [list_of_lookup hsome]
    split
    · next hnone =>
      have hzero : holders.countP (rangeHeldBy txn range) = 0 :=
        List.countP_eq_zero.mpr fun x hx => by
          simpa using List.findFinIdx?_eq_none_iff.mp hnone x hx
      simp [hzero]
    · next pos hpos =>
      have hpos : 0 < holders.countP (rangeHeldBy txn range) :=
        List.countP_pos_iff.mpr ⟨_, List.getElem_mem pos.isLt,
          (List.findFinIdx?_eq_some_iff.mp hpos).1⟩
      simp [hpos]

end Model

section Simulation
variable {bits : Nat} {self : LockManager bits} {model : RangeModel}

theorem LockManager.releaseRange_list (self : LockManager bits) (txn : TxnId) (space : ResourceId)
    (range : KeyRange) (s : ResourceId) :
    (self.releaseRange txn space range).1.rangeHolders s =
      if s = space then removeFirst (rangeHeldBy txn range) (self.rangeHolders s)
      else self.rangeHolders s := by
  cases htake : takeFirst (rangeHeldBy txn range) (self.lockShard space).ranges space with
  | none =>
    have hnone := takeFirst_eq_none_iff.mp htake
    have hsame : (self.releaseRange txn space range).1 = self :=
      onShard_unchanged (by simp only [ShardInner.releaseRange, htake])
    rw [hsame]
    by_cases hs : s = space
    · subst hs
      have hidx : (self.rangeHolders s).findFinIdx? (rangeHeldBy txn range) = none := by
        rw [List.findFinIdx?_eq_none_iff]
        intro x hx
        simp [hnone x hx]
      rw [if_pos rfl, removeFirst_of_none hidx]
    · rw [if_neg hs]
  | some ranges =>
    have hranges : ((self.lockShard space).releaseRange txn space range).1.ranges = ranges := by
      simp only [ShardInner.releaseRange, htake]
    have hholders := @rangeHolders_onShard bits self (Except LockError Unit) space
      (fun s => s.releaseRange txn space range) fun s hs => by
        rw [hranges, list_takeFirst_of_ne htake hs]
    rw [LockManager.releaseRange, hholders, hranges]
    by_cases hs : s = space
    · rw [if_pos hs, if_pos hs, list_takeFirst htake, hs]
      rfl
    · rw [if_neg hs, if_neg hs]

/-- Point-lock calls and waits leave the ranges alone. -/
theorem LockManager.exec_rangeHolders (self : LockManager bits) {op : Op}
    (hacquire : ∀ txn space range mode, op ≠ .tryAcquireRange txn space range mode)
    (hrelease : ∀ txn space range, op ≠ .releaseRange txn space range)
    (hall : ∀ txn, op ≠ .releaseAll txn) : (self.exec op).1.rangeHolders = self.rangeHolders := by
  cases op with
  | tryAcquire txn res mode =>
    rw [exec, tryAcquire_fst]
    exact self.grantStep_rangeHolders txn res mode
  | release txn res => exact rangeHolders_setShard (release_keeps_ranges _ _ _).1
  | request order txn res mode =>
    simp only [exec, request_eq]
    split
    · exact self.grantStep_rangeHolders txn res mode
    · exact self.grantStep_rangeHolders txn res mode
  | cancelWait txn => rfl
  | findDeadlock order keyOrder => rfl
  | releaseAll txn => exact absurd rfl (hall txn)
  | tryAcquireRange txn space range mode => exact absurd rfl (hacquire txn space range mode)
  | releaseRange txn space range => exact absurd rfl (hrelease txn space range)

theorem SameRanges.tryAcquireRange (h : SameRanges self model) (txn : TxnId) (space : ResourceId)
    (range : KeyRange) (mode : LockMode) :
    (self.tryAcquireRange txn space range mode).2 =
        (model.applyAcquire txn space range mode).2 ∧
      SameRanges (self.tryAcquireRange txn space range mode).1
        (model.applyAcquire txn space range mode).1 := by
  have hlist : list (self.lockShard space).ranges space = list model.spaces space := h space
  have hshard := tryAcquireRange_cases (self.lockShard space) txn space range mode
  have hmodel := tryAcquireRange_cases ⟨∅, ∅, model.spaces, ∅⟩ txn space range mode
  rw [hlist] at hshard
  rw [model.applyAcquire_eq]
  rcases hshard with ⟨y, hy, hbad, heq⟩ | ⟨hfree, heq⟩
  · have hres : (self.tryAcquireRange txn space range mode).2 = .error .conflict :=
      congrArg Prod.snd heq
    rcases hmodel with ⟨_, _, _, hm⟩ | ⟨hfree, _⟩
    · rw [hres, hm, self.tryAcquireRange_refused (by simp [hres])]
      exact ⟨rfl, h⟩
    · exact absurd (hfree y hy) hbad
  · have hok : (self.tryAcquireRange txn space range mode).2 = .ok () := congrArg Prod.snd heq
    rcases hmodel with ⟨y, hy, hbad, _⟩ | ⟨_, hm⟩
    · exact absurd (hfree y hy) hbad
    · rw [hok, hm]
      refine ⟨rfl, fun s => ?_⟩
      rw [LockManager.tryAcquireRange_rangeHolders hok, h s, list_push]
      by_cases hs : s = space
      · rw [if_pos hs, if_pos hs, hs]
      · rw [if_neg hs, if_neg hs]

theorem SameRanges.releaseRange (h : SameRanges self model) (txn : TxnId) (space : ResourceId)
    (range : KeyRange) :
    (self.releaseRange txn space range).2 = (model.applyRelease txn space range).2 ∧
      SameRanges (self.releaseRange txn space range).1
        (model.applyRelease txn space range).1 := by
  refine ⟨?_, fun s => ?_⟩
  · rw [self.releaseRange_result, model.applyRelease_result, ← h space]
    rfl
  · rw [self.releaseRange_list, model.applyRelease_list, h s]

theorem SameRanges.answerRange (h : SameRanges self model) {op : Op}
    (hop : ∀ txn, op ≠ .releaseAll txn) :
    (self.answerRange op).2 = (model.answerRange op).2 ∧
      SameRanges (self.answerRange op).1 (model.answerRange op).1 := by
  cases op with
  | tryAcquireRange txn space range mode =>
    obtain ⟨hout, hnext⟩ := h.tryAcquireRange txn space range mode
    exact ⟨congrArg some hout, hnext⟩
  | releaseRange txn space range =>
    obtain ⟨hout, hnext⟩ := h.releaseRange txn space range
    exact ⟨congrArg some hout, hnext⟩
  | releaseAll txn => exact absurd rfl (hop txn)
  | tryAcquire txn res mode =>
    refine ⟨rfl, fun s => ?_⟩
    exact (congrFun (self.exec_rangeHolders (by simp) (by simp) hop) s).trans (h s)
  | release txn res =>
    refine ⟨rfl, fun s => ?_⟩
    exact (congrFun (self.exec_rangeHolders (by simp) (by simp) hop) s).trans (h s)
  | request order txn res mode =>
    refine ⟨rfl, fun s => ?_⟩
    exact (congrFun (self.exec_rangeHolders (by simp) (by simp) hop) s).trans (h s)
  | cancelWait txn => exact ⟨rfl, h⟩
  | findDeadlock order keyOrder => exact ⟨rfl, h⟩

end Simulation

/-- Mixed with any calls but releases of everything, the range calls get the model's answers on
every number of shards, and each space has the model's vector. -/
theorem ranges_match_model (bits : Nat) (ops : List Op)
    (hops : ∀ op ∈ ops, ∀ txn, op ≠ .releaseAll txn) :
    let run := replay LockManager.answerRange (.withShards bits) ops
    let model := replay RangeModel.answerRange .empty ops
    run.2 = model.2 ∧ ∀ space, run.1.rangeHolders space = list model.1.spaces space ∧
      run.1.rangeCount space = (list model.1.spaces space).length := by
  intro run model
  have hsim : run.2 = model.2 ∧ SameRanges run.1 model.1 := by
    apply replay_simulates (Q := fun op op' => op = op' ∧ ∀ txn, op ≠ .releaseAll txn)
    · rintro self model op _ h ⟨rfl, hop⟩
      exact h.answerRange hop
    · intro space
      simp [LockManager.withShards, LockManager.rangeHolders, LockManager.lockShard,
        ShardInner.new, RangeModel.empty]
    · exact List.forall₂_same.mpr fun op hop => ⟨rfl, hops op hop⟩
  obtain ⟨hout, hsame⟩ := hsim
  refine ⟨hout, fun space => ⟨hsame space, ?_⟩⟩
  rw [← hsame space]
  rfl

/-- A run in which both a range and a point lock are asked for and given back. -/
theorem ranges_match_model_mixed :
    let ops : List Op := [.tryAcquireRange ⟨1⟩ ⟨7⟩ ⟨0, 5⟩ .shared, .tryAcquire ⟨2⟩ ⟨7⟩ .exclusive,
      .tryAcquireRange ⟨2⟩ ⟨7⟩ ⟨4, 9⟩ .exclusive, .release ⟨2⟩ ⟨7⟩, .releaseRange ⟨1⟩ ⟨7⟩ ⟨0, 5⟩]
    (replay LockManager.answerRange (.withShards 4) ops).2 =
        [some (.ok ()), none, some (.error .conflict), none, some (.ok ())] ∧
      (replay LockManager.answerRange (.withShards 4) ops).2 =
        (replay RangeModel.answerRange .empty ops).2 := by
  intro ops
  exact ⟨by decide +kernel, (ranges_match_model 4 ops (by simp [ops])).1⟩

end LockDb
