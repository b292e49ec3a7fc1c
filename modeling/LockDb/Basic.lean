import Mathlib.Order.Basic
import Mathlib.Order.Lattice

/-!
# Identifiers, errors and key ranges

Transaction and resource ids are opaque 64-bit numbers. A key range is stored as
its two endpoints; only `new` and `point` guarantee that they are in order.
-/

namespace LockDb

set_option autoImplicit false

structure TxnId where
  id : UInt64
deriving DecidableEq, Repr

structure ResourceId where
  id : UInt64
deriving DecidableEq, Repr

/-- Ids compare by number; a larger id is a transaction that started later. -/
instance : LinearOrder TxnId :=
  LinearOrder.lift' (fun t => t.id.toNat) fun a b h => by
    cases a
    cases b
    simpa [UInt64.toNat_inj] using h

inductive LockError where
  | conflict
  | notHeld
deriving DecidableEq, Repr

/-- The inclusive interval `[start, end]`; the second field is named `stop` because
`end` is a keyword here. -/
structure KeyRange where
  start : UInt64
  stop : UInt64
deriving DecidableEq, Repr

namespace KeyRange

def new (start stop : UInt64) : Option KeyRange :=
  if start ≤ stop then some ⟨start, stop⟩ else none

def point (key : UInt64) : KeyRange := ⟨key, key⟩

def contains (self : KeyRange) (key : UInt64) : Bool :=
  self.start ≤ key && key ≤ self.stop

def overlaps (self other : KeyRange) : Bool :=
  self.start ≤ other.stop && other.start ≤ self.stop

/-- The ranges a caller can build: what `new` accepts, and single keys. -/
inductive Built : KeyRange → Prop where
  | new {start stop : UInt64} {range : KeyRange} (h : new start stop = some range) : Built range
  | point (key : UInt64) : Built (point key)

theorem Built.ordered {range : KeyRange} (h : Built range) : range.start ≤ range.stop := by
  cases h with
  | @new start stop _ h =>
    unfold KeyRange.new at h
    split at h
    · next hle =>
      simp only [Option.some.injEq] at h
      subst h
      exact hle
    · simp at h
  | point key => exact UInt64.le_refl key

theorem overlaps_comm (a b : KeyRange) : a.overlaps b = b.overlaps a := by
  simp only [overlaps]
  exact Bool.and_comm _ _

theorem overlaps_of_contains {a b : KeyRange} {key : UInt64}
    (ha : a.contains key = true) (hb : b.contains key = true) : a.overlaps b = true := by
  simp only [contains, overlaps, Bool.and_eq_true, decide_eq_true_eq] at *
  exact ⟨UInt64.le_trans ha.1 hb.2, UInt64.le_trans hb.1 ha.2⟩

/-- Overlapping ranges with ordered endpoints share the larger of their two starts. -/
theorem contains_of_overlaps {a b : KeyRange} (ha : a.start ≤ a.stop) (hb : b.start ≤ b.stop)
    (h : a.overlaps b = true) : ∃ key, a.contains key = true ∧ b.contains key = true := by
  simp only [contains, overlaps, Bool.and_eq_true, decide_eq_true_eq] at *
  rcases UInt64.le_total a.start b.start with hab | hba
  · exact ⟨b.start, ⟨hab, h.2⟩, UInt64.le_refl _, hb⟩
  · exact ⟨a.start, ⟨UInt64.le_refl _, ha⟩, hba, h.1⟩

end KeyRange

end LockDb
