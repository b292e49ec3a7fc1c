import LockDb.WaitFor

/-!
# Refusals and their blockers

A grant attempt checks the joined mode, or nothing at all when the requested
mode is covered; the edges of a waiter are computed from the requested mode
alone. Holders that are compatible with each other make the two agree.
-/

namespace LockDb

set_option autoImplicit false

open Shared Shared.Multimap

namespace LockManager
variable {bits : Nat} {self : LockManager bits} {txn u : TxnId} {res : ResourceId} {mode : LockMode}

theorem Inv.mem_holdersBlocking_iff (h : self.Inv) : u ∈ self.holdersBlocking txn res mode ↔
    u ≠ txn ∧ ∃ held, self.modeHeld u res = some held ∧ ¬ held.compatibleWith mode = true := by
  rw [mem_holdersBlocking]
  apply and_congr_right
  intro _
  apply exists_congr
  intro held
  rw [modeHeld_eq, (h.entry res).modeOf_iff]

theorem Inv.grantStep_iff (h : self.Inv) :
    (self.grantStep txn res mode).2 = true ↔ self.Grantable txn res mode := by
  rcases h.grantStep_cases txn res mode with ⟨free, _, hg, _⟩ | ⟨blocked, hg⟩
  · simp [hg, free]
  · simp [hg, blocked]

theorem Inv.holdersBlocking_nil_iff (h : self.Inv) :
    self.holdersBlocking txn res mode = [] ↔ self.Grantable txn res mode := by
  rw [List.eq_nil_iff_forall_not_mem]
  constructor
  · intro hnil u a hne hu
    by_contra hbad
    exact hnil u (h.mem_holdersBlocking_iff.mpr ⟨hne, a, hu, hbad⟩)
  · intro hfree u hu
    obtain ⟨hne, a, ha, hbad⟩ := h.mem_holdersBlocking_iff.mp hu
    exact hbad (hfree u a hne ha)

theorem Inv.waitsFor_iff (h : self.Inv) (hw : self.waits.lookup txn = some (res, mode)) :
    self.WaitsFor txn u ↔ u ∈ self.holdersBlocking txn res mode := by
  rw [h.mem_holdersBlocking_iff]
  constructor
  · intro hwaits
    obtain ⟨res', mode', held, hw', hne, hu, hbad⟩ := hwaits
    rw [hw] at hw'
    obtain ⟨rfl, rfl⟩ : res = res' ∧ mode = mode' := by simpa using hw'
    exact ⟨hne, held, hu, hbad⟩
  · intro hblock
    obtain ⟨hne, held, hu, hbad⟩ := hblock
    exact ⟨res, mode, held, hw, hne, hu, hbad⟩

theorem Inv.waiter_neighbors_nil (h : self.Inv) (hw : self.waits.lookup txn = some (res, mode))
    (order : IterOrder TxnId (ResourceId × LockMode)) :
    (self.buildWaitGraph order).neighbors txn = [] ↔ self.Grantable txn res mode := by
  rw [buildWaitGraph_neighbors, hw]
  exact h.holdersBlocking_nil_iff

end LockManager

end LockDb
