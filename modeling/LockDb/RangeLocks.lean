import LockDb.Shard

/-!
# Range locks of one shard

A space may hold any number of ranges of one transaction, even equal ones.
Ranges of different transactions that overlap have compatible modes.
-/

namespace LockDb

set_option autoImplicit false

open Shared Shared.Multimap

def RangeHolder.Free (a b : RangeHolder) : Prop :=
  a.txn ≠ b.txn → a.range.overlaps b.range = true → a.mode.compatibleWith b.mode = true

theorem RangeHolder.Free.symm {a b : RangeHolder} (h : a.Free b) : b.Free a := by
  intro hne hover
  rw [LockMode.compatibleWith_comm]
  apply h hne.symm
  rw [KeyRange.overlaps_comm]
  exact hover

/-- The range half of a shard that owns the spaces `owned`. -/
structure RangeInv (owned : ResourceId → Prop) (s : ShardInner) : Prop where
  free : ∀ space, (list s.ranges space).Pairwise RangeHolder.Free
  indexed : rangeLedger.InStep s.ranges s.rangeByTxn
  routed : ∀ space, list s.ranges space ≠ [] → owned space
  rangesNoEmpty : NoEmpty s.ranges
  rangeByTxnNoEmpty : NoEmpty s.rangeByTxn

variable {owned : ResourceId → Prop} {s : ShardInner} {txn : TxnId} {space : ResourceId}
variable {range : KeyRange} {mode : LockMode}

/-- An attempt on a range either meets a foreign record in its way and changes
nothing, or adds one record. -/
theorem tryAcquireRange_cases (s : ShardInner) (txn : TxnId) (space : ResourceId) (range : KeyRange)
    (mode : LockMode) :
    (∃ h ∈ list s.ranges space, ¬ h.Free ⟨txn, range, mode⟩ ∧
      s.tryAcquireRange txn space range mode = (s, .error .conflict)) ∨
    ((∀ h ∈ list s.ranges space, h.Free ⟨txn, range, mode⟩) ∧
      s.tryAcquireRange txn space range mode =
        ({ s with
            ranges := push s.ranges space ⟨txn, range, mode⟩
            rangeByTxn := push s.rangeByTxn txn (space, range) }, .ok ())) := by
  have hlist : list (orInsert s.ranges space) space = list s.ranges space :=
    list_of_lookup (lookup_orInsert s.ranges space)
  simp only [ShardInner.tryAcquireRange, hlist, insert_orInsert]
  split
  · next hconflict =>
    obtain ⟨h, hh, hx⟩ := List.any_eq_true.mp hconflict
    simp only [Bool.and_eq_true, decide_eq_true_eq, Bool.not_eq_true'] at hx
    left
    refine ⟨h, hh, ?_, ?_⟩
    · intro hfree
      rw [hfree hx.1.1 hx.1.2] at hx
      exact Bool.noConfusion hx.2
    · rw [orInsert_of_list_ne_nil (List.ne_nil_of_mem hh)]
  · next hconflict =>
    right
    refine ⟨?_, rfl⟩
    intro h hh hne hover
    by_contra hx
    apply hconflict
    apply List.any_eq_true.mpr
    exact ⟨h, hh, by simpa [hne, hover] using hx⟩

theorem tryAcquireRange_refused (h : (s.tryAcquireRange txn space range mode).2 ≠ .ok ()) :
    (s.tryAcquireRange txn space range mode).1 = s := by
  rcases tryAcquireRange_cases s txn space range mode with ⟨_, _, _, heq⟩ | ⟨_, heq⟩
  · rw [heq]
  · rw [heq] at h
    exact absurd rfl h

theorem tryAcquireRange_refused_holders
    (h : (s.tryAcquireRange txn space range mode).2 ≠ .ok ()) : list s.ranges space ≠ [] := by
  rcases tryAcquireRange_cases s txn space range mode with ⟨_, hh, _, _⟩ | ⟨_, heq⟩
  · exact List.ne_nil_of_mem hh
  · rw [heq] at h
    exact absurd rfl h

theorem releaseRange_refused (h : (s.releaseRange txn space range).2 ≠ .ok ()) :
    (s.releaseRange txn space range).1 = s := by
  unfold ShardInner.releaseRange at h ⊢
  split
  · rfl
  · next ranges hsome => simp [hsome] at h

/-- Only records of other transactions decide; the caller's own ranges never do. -/
theorem tryAcquireRange_ok_iff :
    (s.tryAcquireRange txn space range mode).2 = .ok () ↔
      ∀ h ∈ list s.ranges space, h.txn ≠ txn → h.range.overlaps range = true →
        h.mode.compatibleWith mode = true := by
  rcases tryAcquireRange_cases s txn space range mode with ⟨h, hh, hbad, heq⟩ | ⟨hfree, heq⟩
  · rw [heq]
    simp only [reduceCtorEq, false_iff]
    intro hall
    exact hbad (hall h hh)
  · rw [heq]
    simp only [true_iff]
    exact hfree

theorem tryAcquireRange_conflict_iff :
    (s.tryAcquireRange txn space range mode).2 = .error .conflict ↔
      ∃ h ∈ list s.ranges space, ¬ h.Free ⟨txn, range, mode⟩ := by
  rcases tryAcquireRange_cases s txn space range mode with ⟨h, hh, hbad, heq⟩ | ⟨hfree, heq⟩
  · rw [heq]
    simp only [true_iff]
    exact ⟨h, hh, hbad⟩
  · rw [heq]
    simp only [reduceCtorEq, false_iff]
    intro hbad
    obtain ⟨h, hh, hx⟩ := hbad
    exact hx (hfree h hh)

theorem rangeInv_new (owned : ResourceId → Prop) : RangeInv owned .new where
  free space := by simp [ShardInner.new]
  indexed := rangeLedger.inStep_empty
  routed space h := by simp [ShardInner.new] at h
  rangesNoEmpty := noEmpty_empty
  rangeByTxnNoEmpty := noEmpty_empty

/-- A change to the point half does not matter here. -/
theorem RangeInv.congr {s' : ShardInner} (h : RangeInv owned s) (hr : s'.ranges = s.ranges)
    (hb : s'.rangeByTxn = s.rangeByTxn) : RangeInv owned s' where
  free := hr ▸ h.free
  indexed := by
    rw [hr, hb]
    exact h.indexed
  routed := hr ▸ h.routed
  rangesNoEmpty := hr ▸ h.rangesNoEmpty
  rangeByTxnNoEmpty := hb ▸ h.rangeByTxnNoEmpty

theorem RangeInv.tryAcquireRange (h : RangeInv owned s) (howned : owned space) :
    RangeInv owned (s.tryAcquireRange txn space range mode).1 := by
  rcases tryAcquireRange_cases s txn space range mode with ⟨_, _, _, heq⟩ | ⟨hfree, heq⟩
  · rw [heq]
    exact h
  · rw [heq]
    refine ⟨?_, ?_, ?_, h.rangesNoEmpty.push _ _, h.rangeByTxnNoEmpty.push _ _⟩
    · intro sp
      rw [list_push]
      split
      · apply List.pairwise_append.mpr
        refine ⟨h.free space, List.pairwise_singleton _ _, ?_⟩
        intro a ha b hb
        rw [List.mem_singleton.mp hb]
        exact hfree a ha
      · exact h.free sp
    · exact h.indexed.push space ⟨txn, range, mode⟩
    · intro sp hsp
      rw [list_push] at hsp
      split at hsp
      · next heq => exact heq ▸ howned
      · exact h.routed sp hsp

theorem RangeInv.releaseRange (h : RangeInv owned s) :
    RangeInv owned (s.releaseRange txn space range).1 := by
  unfold ShardInner.releaseRange
  split
  · exact h
  · next ranges htake =>
    obtain ⟨r₀, _, hperm, _, hne⟩ := takeFirst_some htake
    refine ⟨?_, ?_, ?_, hne h.rangesNoEmpty, h.rangeByTxnNoEmpty.forgetFirst _ _⟩
    · intro sp
      by_cases hsp : sp = space
      · subst hsp
        have hp := (hperm.pairwise_iff RangeHolder.Free.symm).mpr (h.free sp)
        exact (List.pairwise_cons.mp hp).2
      · rw [list_takeFirst_of_ne htake hsp]
        exact h.free sp
    · exact h.indexed.take (i := (space, range)) htake
    · intro sp hsp
      apply h.routed sp
      by_cases heq : sp = space
      · subst heq
        intro hnil
        rw [hnil] at hperm
        exact List.cons_ne_nil _ _ hperm.eq_nil
      · rwa [list_takeFirst_of_ne htake heq] at hsp

theorem sweep_ranges (s : ShardInner) (txn : TxnId) (n : Nat) : ∃ k,
    (s.sweep txn n).1.ranges = (rangeLedger.sweep txn s.ranges s.rangeByTxn k).1 ∧
    (s.sweep txn n).1.rangeByTxn = (rangeLedger.sweep txn s.ranges s.rangeByTxn k).2.1 :=
  ⟨_, rfl, rfl⟩

theorem RangeInv.sweep (h : RangeInv owned s) (n : Nat) : RangeInv owned (s.sweep txn n).1 := by
  obtain ⟨k, hranges, hindex⟩ := sweep_ranges s txn n
  have hlist := Ledger.sweep_list h.indexed txn k
  have hne := Ledger.sweep_noEmpty h.indexed txn k h.rangesNoEmpty h.rangeByTxnNoEmpty
  rw [← hranges] at hlist
  refine ⟨?_, ?_, ?_, hranges ▸ hne.1, hindex ▸ hne.2⟩
  · intro sp
    apply ((hlist sp).pairwise_iff RangeHolder.Free.symm).mpr
    exact (h.free sp).filter _
  · rw [hranges, hindex]
    exact h.indexed.sweep txn k
  · intro sp hsp
    apply h.routed sp
    intro hnil
    have hp := hlist sp
    rw [hnil] at hp
    exact hsp hp.eq_nil

end LockDb
