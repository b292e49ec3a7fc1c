import LockDb.RangeHistory

/-!
# Mutual exclusion over every interleaving

A run is any list of critical sections of any calls, started from the empty
table: nothing ties together the sections that one call would run in sequence.
-/

namespace LockDb

set_option autoImplicit false

open Shared Shared.Multimap

def interleaved (bits : Nat) (cs : List (CriticalSection bits)) : LockManager bits :=
  cs.foldl LockManager.enter (.withShards bits)

theorem interleaved_inv (bits : Nat) (cs : List (CriticalSection bits)) :
    (interleaved bits cs).Inv :=
  (LockManager.inv_withShards bits).foldl_enter cs

theorem EntryInv.sole {l : LockEntry} (h : EntryInv l) {a : Holder} (ha : a ∈ l)
    (hx : ∀ m, a.mode.compatibleWith m = false) : l = [a] := by
  have hall : ∀ b ∈ l, b = a := by
    intro b hb
    by_contra hne
    have htxn : a.txn ≠ b.txn := fun heq => hne (h.eq_of_txn ha hb heq).symm
    have hc := h.compat ha hb htxn
    rw [hx b.mode] at hc
    exact Bool.false_ne_true hc
  have hnodup : l.Nodup := h.unique.of_map
  rcases l with _ | ⟨x, _ | ⟨y, rest⟩⟩
  · simp at ha
  · rw [hall x (by simp)]
  · have hxy : x = y := (hall x (by simp)).trans (hall y (by simp)).symm
    simp [hxy] at hnodup

/-- Point locks: one record per transaction, compatible modes, and an exclusive
holder is the only one. -/
theorem mutual_exclusion (bits : Nat) (cs : List (CriticalSection bits)) (res : ResourceId) :
    (((interleaved bits cs).holders res).map Holder.txn).Nodup ∧
    (∀ a ∈ (interleaved bits cs).holders res, ∀ b ∈ (interleaved bits cs).holders res,
      a.txn ≠ b.txn → a.mode.compatibleWith b.mode = true) ∧
    (∀ a ∈ (interleaved bits cs).holders res, a.mode = .exclusive →
      (interleaved bits cs).holders res = [a]) := by
  have hentry := (interleaved_inv bits cs).entry res
  refine ⟨hentry.unique, ?_, ?_⟩
  · intro a ha b hb hne
    exact hentry.compat ha hb hne
  · intro a ha hx
    apply hentry.sole ha
    intro m
    rw [hx]
    exact LockMode.exclusive_compatibleWith m

namespace LockManager
variable {bits : Nat} {self : LockManager bits}

/-- A transaction is never in its own way: it may take any list of ranges that nobody else
opposes, and gets a record for each. -/
theorem foldl_ownRanges (txn : TxnId) (space : ResourceId) (rs : List (KeyRange × LockMode))
    (hfree : ∀ r ∈ rs, ∀ x ∈ self.rangeHolders space, x.Free ⟨txn, r.1, r.2⟩) :
    ((rs.map fun r => .tryAcquireRange txn space r.1 r.2).foldl enter self).rangeHolders space =
      self.rangeHolders space ++ rs.map fun r => ⟨txn, r.1, r.2⟩ := by
  induction rs generalizing self with
  | nil => simp
  | cons r rs ih =>
    have hok : (self.tryAcquireRange txn space r.1 r.2).2 = .ok () :=
      tryAcquireRange_ok_iff.mpr (hfree r List.mem_cons_self)
    have hnext : (self.enter (.tryAcquireRange txn space r.1 r.2)).rangeHolders space =
        self.rangeHolders space ++ [⟨txn, r.1, r.2⟩] := by
      rw [enter, tryAcquireRange_rangeHolders hok, if_pos rfl]
    rw [List.map_cons, List.foldl_cons, ih, hnext]
    · simp
    · intro r' hr' x hx
      rw [hnext] at hx
      rcases List.mem_append.mp hx with hx | hx
      · exact hfree r' (List.mem_cons_of_mem _ hr') x hx
      · rw [List.mem_singleton.mp hx]
        exact fun hne => absurd rfl hne

end LockManager

/-- Range locks: whoever shares a key has compatible modes. An attempt is decided by the records
of other transactions alone and puts its own record down, so that a transaction gets any
ranges that nobody else opposes, however often and in whatever modes it has them. -/
theorem phantom_protection (bits : Nat) (cs : List (CriticalSection bits)) (space : ResourceId) :
    (∀ key, ∀ a ∈ (interleaved bits cs).rangeHolders space,
      ∀ b ∈ (interleaved bits cs).rangeHolders space, a.txn ≠ b.txn →
      a.range.contains key = true → b.range.contains key = true →
      a.mode.compatibleWith b.mode = true) ∧
    (∀ txn range mode, ((interleaved bits cs).tryAcquireRange txn space range mode).2 = .ok () ↔
      ∀ h ∈ (interleaved bits cs).rangeHolders space, h.txn ≠ txn →
        h.range.overlaps range = true → h.mode.compatibleWith mode = true) ∧
    (∀ txn range mode, ((interleaved bits cs).tryAcquireRange txn space range mode).2 = .ok () →
      ∀ s, ((interleaved bits cs).tryAcquireRange txn space range mode).1.rangeHolders s =
        if s = space then (interleaved bits cs).rangeHolders s ++ [⟨txn, range, mode⟩]
        else (interleaved bits cs).rangeHolders s) ∧
    (∀ txn (rs : List (KeyRange × LockMode)),
      (∀ r ∈ rs, ∀ h ∈ (interleaved bits cs).rangeHolders space, h.txn ≠ txn →
        h.range.overlaps r.1 = true → h.mode.compatibleWith r.2 = true) →
      (interleaved bits
          (cs ++ rs.map fun r => .tryAcquireRange txn space r.1 r.2)).rangeHolders space =
        (interleaved bits cs).rangeHolders space ++ rs.map fun r => ⟨txn, r.1, r.2⟩) := by
  have hrange := (interleaved_inv bits cs (shardIndex bits space)).range
  refine ⟨?_, fun txn range mode => tryAcquireRange_ok_iff, ?_, ?_⟩
  · intro key a ha b hb hne hakey hbkey
    have hsymm : Std.Symm RangeHolder.Free := ⟨fun _ _ h => h.symm⟩
    have hfree : a.Free b := by
      apply (hrange.free space).forall ha hb
      intro heq
      exact hne (by rw [heq])
    exact hfree hne (KeyRange.overlaps_of_contains hakey hbkey)
  · intro txn range mode hok s
    exact LockManager.tryAcquireRange_rangeHolders hok s
  · intro txn rs hfree
    rw [interleaved, List.foldl_append]
    exact LockManager.foldl_ownRanges txn space rs hfree

end LockDb
