import LockDb.Shared.LockTable
import LockDb.Shared.Cycle

/-!
# Who waits for whom

A registered request waits for every other holder of its resource whose mode
excludes it. The edges are not stored: they follow the held modes and the
registered requests, and each lemma says which edges a change can add.
-/

namespace Shared

set_option autoImplicit false

universe u v w
variable {T : Type u} {R : Type v} {M : Type w} [SemilatticeSup M] [Compatibility M]

def WaitsFor (held : T → R → Option M) (waits : T → Option (R × M)) (t u : T) : Prop :=
  ∃ r m a, waits t = some (r, m) ∧ u ≠ t ∧ held u r = some a ∧ ¬ Compatibility.compat a m

section WaitsFor
variable {held held' : T → R → Option M} {waits waits' : T → Option (R × M)} {t u a b : T}
variable {c : List T}

theorem waitsFor_irrefl (t : T) : ¬ WaitsFor held waits t t := by
  intro hwaits
  rcases hwaits with ⟨_, _, _, _, hne, _⟩
  exact hne rfl

theorem WaitsFor.registered (h : WaitsFor held waits t u) : ∃ w, waits t = some w := by
  obtain ⟨r, m, _, hw, _⟩ := h
  exact ⟨(r, m), hw⟩

theorem waitsFor_of_none (h : waits t = none) (u : T) : ¬ WaitsFor held waits t u := by
  intro hwaits
  obtain ⟨w, hw⟩ := hwaits.registered
  rw [h] at hw
  simp at hw

theorem IsCycle.registered (h : IsCycle (WaitsFor held waits) c) (ht : t ∈ c) :
    ∃ w, waits t = some w := by
  obtain ⟨u, _, hu⟩ := h.exists_succ ht
  exact hu.registered

theorem WaitsFor.agree (hwaits : waits' a = waits a) (hheld : ∀ r, held' b r = held b r)
    (h : WaitsFor held' waits' a b) : WaitsFor held waits a b := by
  obtain ⟨r, m, x, hw, hne, hx, hbad⟩ := h
  exact ⟨r, m, x, hwaits ▸ hw, hne, hheld r ▸ hx, hbad⟩

theorem WaitsFor.shrink (hwaits : ∀ w, waits' a = some w → waits a = some w)
    (hheld : ∀ r x, held' b r = some x → held b r = some x)
    (h : WaitsFor held' waits' a b) : WaitsFor held waits a b := by
  obtain ⟨r, m, x, hw, hne, hx, hbad⟩ := h
  exact ⟨r, m, x, hwaits _ hw, hne, hheld r x hx, hbad⟩

/-- After a grant to a transaction that does not wait, every cycle is an old one without it. -/
theorem IsCycle.of_grant [DecidableEq T] [DecidableEq R] {r : R} {m : M} (hnone : waits' t = none)
    (hwaits : ∀ a, a ≠ t → waits' a = waits a)
    (h : IsCycle (WaitsFor (LockTable.heldGrant held t r m) waits') c) :
    t ∉ c ∧ IsCycle (WaitsFor held waits) c := by
  have ht : t ∉ c := h.notMem_of_sink fun b => waitsFor_of_none hnone b
  refine ⟨ht, h.of_notMem ht ?_⟩
  intro a b ha hb hab
  apply hab.agree (hwaits a ha)
  intro s
  simp [LockTable.heldGrant, hb]

theorem IsCycle.of_register (hwaits : ∀ a, a ≠ t → waits' a = waits a)
    (h : IsCycle (WaitsFor held waits') c) (ht : t ∉ c) : IsCycle (WaitsFor held waits) c := by
  apply h.of_notMem ht
  intro a b ha _ hab
  exact hab.agree (hwaits a ha) fun _ => rfl

end WaitsFor

end Shared
