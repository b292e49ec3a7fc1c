import LockDb.Shared.LockTable

/-!
# Lock modes

The five multi-granularity modes with their compatibility and join tables, and
the laws of the lattice that the lock table relies on.
-/

namespace LockDb

set_option autoImplicit false

inductive LockMode where
  | intentionShared
  | intentionExclusive
  | shared
  | sharedIntentionExclusive
  | exclusive
deriving DecidableEq, Repr

namespace LockMode

def index : LockMode → Fin 5
  | intentionShared => 0
  | intentionExclusive => 1
  | shared => 2
  | sharedIntentionExclusive => 3
  | exclusive => 4

/-- Rows and columns are ordered IS, IX, S, SIX, X. -/
def COMPAT : Vector (Vector Bool 5) 5 := #v[
  #v[true, true, true, true, false],
  #v[true, true, false, false, false],
  #v[true, false, true, false, false],
  #v[true, false, false, false, false],
  #v[false, false, false, false, false]]

def compatibleWith (self other : LockMode) : Bool := COMPAT[self.index][other.index]

def JOIN : Vector (Vector LockMode 5) 5 := #v[
  #v[intentionShared, intentionExclusive, shared, sharedIntentionExclusive, exclusive],
  #v[intentionExclusive, intentionExclusive, sharedIntentionExclusive, sharedIntentionExclusive,
    exclusive],
  #v[shared, sharedIntentionExclusive, shared, sharedIntentionExclusive, exclusive],
  #v[sharedIntentionExclusive, sharedIntentionExclusive, sharedIntentionExclusive,
    sharedIntentionExclusive, exclusive],
  #v[exclusive, exclusive, exclusive, exclusive, exclusive]]

def join (self other : LockMode) : LockMode := JOIN[self.index][other.index]

/-- The source compares the two discriminants, which are the constructors' positions. -/
def covers (self other : LockMode) : Bool := (self.join other).ctorIdx == self.ctorIdx

theorem covers_iff {a b : LockMode} : a.covers b = true ↔ a.join b = a := by
  cases a <;> cases b <;> decide

theorem compatibleWith_comm (a b : LockMode) : a.compatibleWith b = b.compatibleWith a := by
  cases a <;> cases b <;> rfl

theorem join_comm (a b : LockMode) : a.join b = b.join a := by
  cases a <;> cases b <;> rfl

theorem join_assoc (a b c : LockMode) : (a.join b).join c = a.join (b.join c) := by
  cases a <;> cases b <;> cases c <;> rfl

theorem join_self (a : LockMode) : a.join a = a := by
  cases a <;> rfl

theorem compatibleWith_join (a b c : LockMode) :
    (a.join b).compatibleWith c = (a.compatibleWith c && b.compatibleWith c) := by
  cases a <;> cases b <;> cases c <;> rfl

theorem compatibleWith_join_right (a b c : LockMode) :
    a.compatibleWith (b.join c) = (a.compatibleWith b && a.compatibleWith c) := by
  rw [compatibleWith_comm, compatibleWith_join, compatibleWith_comm b, compatibleWith_comm c]

theorem exclusive_compatibleWith (a : LockMode) : exclusive.compatibleWith a = false := by
  cases a <;> rfl

end LockMode

/-- A stronger mode is larger: the privilege lattice. -/
instance : SemilatticeSup LockMode where
  sup := LockMode.join
  le a b := b.covers a = true
  le_refl a := LockMode.covers_iff.mpr (LockMode.join_self a)
  le_trans a b c hab hbc := by
    rw [LockMode.covers_iff] at *
    rw [← hbc, LockMode.join_assoc, hab]
  le_antisymm a b hab hba := by
    rw [LockMode.covers_iff] at *
    rw [← hba, LockMode.join_comm, hab]
  le_sup_left a b := by cases a <;> cases b <;> rfl
  le_sup_right a b := by cases a <;> cases b <;> rfl
  sup_le a b c hac hbc := by
    rw [LockMode.covers_iff] at *
    rw [← LockMode.join_assoc, hac, hbc]

instance : Shared.Compatibility LockMode where
  compat a b := a.compatibleWith b = true
  compat_symm h := by rwa [LockMode.compatibleWith_comm]
  compat_sup {a b c} := by
    change (a.join b).compatibleWith c = true ↔ _
    rw [LockMode.compatibleWith_join, Bool.and_eq_true]

namespace LockMode

theorem le_iff_covers {a b : LockMode} : a ≤ b ↔ b.covers a = true := Iff.rfl

theorem sup_eq_join (a b : LockMode) : a ⊔ b = a.join b := rfl

end LockMode

end LockDb
