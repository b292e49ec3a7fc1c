import LockDb.Shared.LockTable
import Mathlib.Order.Hom.Lattice

/-!
# Lock tables over a hierarchy

Resources stand above each other, and every mode demands an intention on all
resources above the one it is held on. Intentions follow joins, so a mode that
grew by an upgrade demands no more than its parts did. A lock table in which all
demands are met protects whole subtrees although only single resources are compared.
-/

namespace Shared

set_option autoImplicit false

universe u v w

structure IntentTable (T : Type u) {R : Type v} {M : Type w} [SemilatticeSup M] [Compatibility M]
    (above : R → R → Prop) (intent : SupHom M M) extends LockTable T R M where
  intended : ∀ {t : T} {r a : R} {m : M}, held t r = some m → above a r →
    ∃ b, held t a = some b ∧ intent m ≤ b

namespace IntentTable
variable {T : Type u} {R : Type v} {M : Type w} [SemilatticeSup M] [Compatibility M]
variable {above : R → R → Prop} {intent : SupHom M M}

open Compatibility LockTable

def Announced (L : IntentTable T above intent) (t : T) (r : R) (m : M) : Prop :=
  ∀ a, above a r → ∃ b, L.held t a = some b ∧ intent m ≤ b

def Clear (L : IntentTable T above intent) (t : T) (r : R) : Prop :=
  ∀ d, above r d → L.held t d = none

/-- A mode above excludes whatever its holder's intentions exclude below. -/
theorem compat_intent (L : IntentTable T above intent) {t u : T} {a d : R} {x y : M} (hne : t ≠ u)
    (habove : above a d) (hx : L.held t a = some x) (hy : L.held u d = some y) :
    compat x (intent y) := by
  obtain ⟨b, hb, hle⟩ := L.intended hy habove
  apply compat_symm
  apply compat_of_le hle
  exact compat_symm (L.compatible hne hx hb)

/-- Where two resources are comparable, whoever holds on one of them a mode that excludes all
others leaves nothing to anybody on the other, except what its own intentions let pass above. -/
theorem compat_of_comparable (L : IntentTable T above intent) {t u : T} {a b : R} {x y : M}
    (hne : t ≠ u) (hline : a = b ∨ above a b ∨ above b a) (hx : L.held t a = some x)
    (hy : L.held u b = some y) (halone : ∀ m, ¬ compat x m) : compat y (intent x) := by
  rcases hline with rfl | hab | hba
  · exact absurd (L.compatible hne hx hy) (halone y)
  · exact absurd (L.compat_intent hne hab hx hy) (halone (intent y))
  · exact L.compat_intent hne.symm hba hy hx

theorem Announced.raise {L : IntentTable T above intent} {t : T} {r : R} {m : M}
    (h : L.Announced t r m) : L.Announced t r (raise (L.held t r) m) := by
  intro a habove
  obtain ⟨b, hb, hle⟩ := h a habove
  refine ⟨b, hb, ?_⟩
  cases hr : L.held t r with
  | none => exact hle
  | some c =>
    obtain ⟨b', hb', hle'⟩ := L.intended hr habove
    have heq : b = b' := Option.some.inj (hb.symm.trans hb')
    subst heq
    calc intent (c ⊔ m) = intent c ⊔ intent m := map_sup intent c m
      _ ≤ b := sup_le hle' hle

variable [DecidableEq T] [DecidableEq R]

def grant (L : IntentTable T above intent) (t : T) (r : R) (m : M) (hfree : L.Grantable t r m)
    (hann : L.Announced t r m) : IntentTable T above intent where
  toLockTable := L.toLockTable.grant t r m hfree
  intended := by
    intro u s a k hk habove
    -- first the intention in the old table, then that it only got stronger
    have hold : ∃ b, L.held u a = some b ∧ intent k ≤ b := by
      by_cases heq : u = t ∧ s = r
      · obtain ⟨rfl, rfl⟩ := heq
        have hkr : k = Shared.raise (L.held u s) m := by
          simpa [LockTable.grant, heldGrant] using hk.symm
        rw [hkr]
        exact hann.raise a habove
      · apply L.intended _ habove
        simpa [LockTable.grant, heldGrant, heq] using hk
    obtain ⟨b, hb, hle⟩ := hold
    obtain ⟨b', hb', hle'⟩ := le_heldGrant hb t r m
    exact ⟨b', hb', le_trans hle hle'⟩

def drop (L : IntentTable T above intent) (t : T) (r : R) (hclear : L.Clear t r) :
    IntentTable T above intent where
  toLockTable := L.toLockTable.drop t r
  intended := by
    intro u s a k hk habove
    simp only [LockTable.drop, heldDrop] at hk ⊢
    split at hk
    · simp at hk
    · obtain ⟨b, hb, hle⟩ := L.intended hk habove
      refine ⟨b, ?_, hle⟩
      rw [if_neg]
      · exact hb
      · intro heq
        rcases heq with ⟨rfl, rfl⟩
        rw [hclear s habove] at hk
        simp at hk

def dropAll (L : IntentTable T above intent) (t : T) : IntentTable T above intent where
  toLockTable := L.toLockTable.dropAll t
  intended := by
    intro u s a k hk habove
    simp only [LockTable.dropAll, heldDropAll] at hk ⊢
    split at hk
    · simp at hk
    · next hu =>
      rw [if_neg hu]
      exact L.intended hk habove

end IntentTable

end Shared
