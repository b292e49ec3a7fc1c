import Mathlib.Order.Bounds.Basic
import Mathlib.Logic.Function.Basic
import Mathlib.Logic.Relation

/-!
# Lock tables over a lattice of modes

What a lock table is for, over any transactions, resources and modes: it says
which mode each transaction holds, and no two transactions hold modes that
exclude each other. The modes form a join semilattice; compatibility with a join
means compatibility with both parts, so a stronger mode excludes more.
-/

namespace Shared

set_option autoImplicit false

universe u v w

/-- A symmetric compatibility relation that respects joins. -/
class Compatibility (M : Type w) [SemilatticeSup M] where
  compat : M → M → Prop
  compat_symm : ∀ {a b : M}, compat a b → compat b a
  compat_sup : ∀ {a b c : M}, compat (a ⊔ b) c ↔ compat a c ∧ compat b c

section Compatibility
variable {M : Type w} [SemilatticeSup M] [Compatibility M]

open Compatibility

theorem compat_of_le {a b c : M} (h : a ≤ b) (hbc : compat b c) : compat a c := by
  rw [← sup_eq_right.mpr h] at hbc
  exact (compat_sup.mp hbc).1

end Compatibility

/-- Held modes, in which different transactions never exclude each other. -/
@[ext] structure LockTable (T : Type u) (R : Type v) (M : Type w) [SemilatticeSup M]
    [Compatibility M] where
  held : T → R → Option M
  compatible : ∀ {t u : T} {r : R} {a b : M}, t ≠ u → held t r = some a → held u r = some b →
    Compatibility.compat a b

/-- The mode a transaction ends up with when it is granted `m` on top of what it holds. -/
def raise {M : Type w} [SemilatticeSup M] (current : Option M) (m : M) : M :=
  match current with
  | some c => c ⊔ m
  | none => m

section Raise
variable {M : Type w} [SemilatticeSup M]

theorem le_raise (current : Option M) (m : M) : m ≤ raise current m := by
  cases current with
  | none => exact le_refl m
  | some c => exact le_sup_right

theorem le_raise_of_some {current : Option M} {c : M} (h : current = some c) (m : M) :
    c ≤ raise current m := by
  subst h
  exact le_sup_left

/-- The join of a list of modes, if there are any. -/
def joinAll : List M → Option M
  | [] => none
  | m :: ms => some (raise (joinAll ms) m)

end Raise

namespace LockTable
variable {T : Type u} {R : Type v} {M : Type w} [SemilatticeSup M] [Compatibility M]

open Compatibility

def Grantable (L : LockTable T R M) (t : T) (r : R) (m : M) : Prop :=
  ∀ u a, u ≠ t → L.held u r = some a → compat a m

/-- What `t` holds on `r` excludes nobody, so only the requested mode needs a check. -/
theorem compat_raise_iff (L : LockTable T R M) {t u : T} {r : R} {a : M} (hut : u ≠ t)
    (hu : L.held u r = some a) (m : M) : compat a (raise (L.held t r) m) ↔ compat a m := by
  constructor
  · intro h
    apply compat_symm
    exact compat_of_le (le_raise _ m) (compat_symm h)
  · intro h
    cases ht : L.held t r with
    | none => exact h
    | some c =>
      apply compat_symm
      exact compat_sup.mpr ⟨compat_symm (L.compatible hut hu ht), compat_symm h⟩

theorem grantable_iff_raise (L : LockTable T R M) (t : T) (r : R) (m : M) :
    L.Grantable t r m ↔ ∀ u a, u ≠ t → L.held u r = some a → compat a (raise (L.held t r) m) := by
  constructor
  · intro h u a hut hu
    exact (L.compat_raise_iff hut hu m).mpr (h u a hut hu)
  · intro h u a hut hu
    exact (L.compat_raise_iff hut hu m).mp (h u a hut hu)

variable [DecidableEq T] [DecidableEq R]

def heldGrant (held : T → R → Option M) (t : T) (r : R) (m : M) : T → R → Option M :=
  fun u s => if u = t ∧ s = r then some (raise (held t r) m) else held u s

def heldDrop (held : T → R → Option M) (t : T) (r : R) : T → R → Option M :=
  fun u s => if u = t ∧ s = r then none else held u s

def heldDropAll (held : T → R → Option M) (t : T) : T → R → Option M :=
  fun u s => if u = t then none else held u s

omit [SemilatticeSup M] [Compatibility M] in
theorem heldDrop_some {held : T → R → Option M} {t u : T} {r s : R} {m : M}
    (h : heldDrop held t r u s = some m) : held u s = some m := by
  unfold heldDrop at h
  split at h
  · simp at h
  · exact h

omit [DecidableEq R] [SemilatticeSup M] [Compatibility M] in
theorem heldDropAll_some {held : T → R → Option M} {t u : T} {s : R} {m : M}
    (h : heldDropAll held t u s = some m) : held u s = some m := by
  unfold heldDropAll at h
  split at h
  · simp at h
  · exact h

omit [Compatibility M] in
theorem le_heldGrant {held : T → R → Option M} {u : T} {s : R} {b : M} (h : held u s = some b)
    (t : T) (r : R) (m : M) : ∃ b', heldGrant held t r m u s = some b' ∧ b ≤ b' := by
  by_cases heq : u = t ∧ s = r
  · obtain ⟨rfl, rfl⟩ := heq
    exact ⟨raise (held u s) m, by simp [heldGrant], le_raise_of_some h m⟩
  · exact ⟨b, by simpa [heldGrant, heq] using h, le_refl b⟩

section GrantOrder
variable {held : T → R → Option M} {t u : T} {r s : R} {m n : M}

/-- Nobody else holds a mode on `r` that excludes `m`. -/
def Free (held : T → R → Option M) (t : T) (r : R) (m : M) : Prop :=
  ∀ u a, u ≠ t → held u r = some a → compat a m

/-- A grant stands in the way of another transaction only by the granted mode. -/
theorem free_heldGrant_iff : Free (heldGrant held t r m) u s n ↔
    Free held u s n ∧ (u ≠ t → s = r → compat m n) := by
  constructor
  · intro h
    constructor
    · intro v a hv ha
      obtain ⟨b, hb, hab⟩ := le_heldGrant ha t r m
      exact compat_of_le hab (h v b hv hb)
    · intro hut hsr
      have ht : heldGrant held t r m t s = some (raise (held t r) m) := by simp [heldGrant, hsr]
      exact compat_of_le (le_raise _ m) (h t _ (Ne.symm hut) ht)
  · intro h v a hv ha
    obtain ⟨hfree, hnew⟩ := h
    unfold heldGrant at ha
    split at ha
    · next heq =>
      obtain ⟨rfl, rfl⟩ := heq
      have hmn := hnew (Ne.symm hv) rfl
      cases hold : held v s with
      | none =>
        simp only [hold, raise, Option.some.injEq] at ha
        exact ha ▸ hmn
      | some c =>
        simp only [hold, raise, Option.some.injEq] at ha
        rw [← ha]
        exact compat_sup.mpr ⟨hfree v c hv hold, hmn⟩
    · exact hfree v a hv ha

omit [Compatibility M] in
theorem heldGrant_comm : heldGrant (heldGrant held t r m) u s n =
    heldGrant (heldGrant held u s n) t r m := by
  have hraise : raise (some (raise (held t r) m)) n = raise (some (raise (held t r) n)) m := by
    cases held t r with
    | none => exact sup_comm m n
    | some c => exact sup_right_comm c m n
  funext v q
  by_cases hsame : u = t ∧ s = r
  · obtain ⟨rfl, rfl⟩ := hsame
    simp only [heldGrant, and_self, if_true, hraise]
    split <;> rfl
  · have hother : ¬ (t = u ∧ r = s) := fun hc => hsame ⟨hc.1.symm, hc.2.symm⟩
    simp only [heldGrant, if_neg hsame, if_neg hother]
    split
    · next hvu =>
      rw [if_neg]
      intro hvt
      exact hsame ⟨hvu.1.symm.trans hvt.1, hvu.2.symm.trans hvt.2⟩
    · rfl

/-- Every grant of a list succeeds, one after the other. -/
def AllFree (held : T → R → Option M) : List (T × R × M) → Prop
  | [] => True
  | (t, r, m) :: cs => Free held t r m ∧ AllFree (heldGrant held t r m) cs

def grantAll (held : T → R → Option M) (cs : List (T × R × M)) : T → R → Option M :=
  cs.foldl (fun held c => heldGrant held c.1 c.2.1 c.2.2) held

/-- Whether a list of grants succeeds and what it leaves does not depend on its order. -/
theorem allFree_perm {cs ds : List (T × R × M)} (hperm : cs.Perm ds) :
    (AllFree held cs ↔ AllFree held ds) ∧ grantAll held cs = grantAll held ds := by
  induction hperm generalizing held with
  | nil => exact ⟨Iff.rfl, rfl⟩
  | cons c _ ih =>
    obtain ⟨hfree, hheld⟩ := @ih (heldGrant held c.1 c.2.1 c.2.2)
    exact ⟨and_congr_right fun _ => hfree, hheld⟩
  | swap c d cs =>
    have hcomm : heldGrant (heldGrant held d.1 d.2.1 d.2.2) c.1 c.2.1 c.2.2 =
        heldGrant (heldGrant held c.1 c.2.1 c.2.2) d.1 d.2.1 d.2.2 := heldGrant_comm
    constructor
    · simp only [AllFree, free_heldGrant_iff, hcomm]
      constructor
      · intro h
        obtain ⟨hd, ⟨hc, hdc⟩, hrest⟩ := h
        exact ⟨hc, ⟨hd, fun hne hr => compat_symm (hdc (Ne.symm hne) hr.symm)⟩, hrest⟩
      · intro h
        obtain ⟨hc, ⟨hd, hcd⟩, hrest⟩ := h
        exact ⟨hd, ⟨hc, fun hne hr => compat_symm (hcd (Ne.symm hne) hr.symm)⟩, hrest⟩
    · simp only [grantAll, List.foldl_cons, hcomm]
  | trans _ _ ih₁ ih₂ =>
    exact ⟨ih₁.1.trans ih₂.1, ih₁.2.trans ih₂.2⟩

end GrantOrder

def grant (L : LockTable T R M) (t : T) (r : R) (m : M) (h : L.Grantable t r m) :
    LockTable T R M where
  held := heldGrant L.held t r m
  compatible := by
    have hraise := (L.grantable_iff_raise t r m).mp h
    intro u v s a b huv hu hv
    simp only [heldGrant] at hu hv
    split at hu
    · next hut =>
      rw [if_neg fun hvt => huv (hut.1.trans hvt.1.symm)] at hv
      simp only [Option.some.injEq] at hu
      subst hu
      obtain ⟨rfl, rfl⟩ := hut
      exact compat_symm (hraise v b (Ne.symm huv) hv)
    · split at hv
      · next hvt =>
        simp only [Option.some.injEq] at hv
        subst hv
        obtain ⟨rfl, rfl⟩ := hvt
        exact hraise u a huv hu
      · exact L.compatible huv hu hv

def drop (L : LockTable T R M) (t : T) (r : R) : LockTable T R M where
  held := heldDrop L.held t r
  compatible := by
    intro u v s a b huv hu hv
    simp only [heldDrop] at hu hv
    split at hu
    · simp at hu
    · split at hv
      · simp at hv
      · exact L.compatible huv hu hv

def dropAll (L : LockTable T R M) (t : T) : LockTable T R M where
  held := heldDropAll L.held t
  compatible := by
    intro u v s a b huv hu hv
    simp only [heldDropAll] at hu hv
    split at hu
    · simp at hu
    · split at hv
      · simp at hv
      · exact L.compatible huv hu hv

inductive Step : LockTable T R M → LockTable T R M → Prop where
  | stay (L : LockTable T R M) : Step L L
  | grant (L : LockTable T R M) (t : T) (r : R) (m : M) (h : L.Grantable t r m) :
      Step L (L.grant t r m h)
  | drop (L : LockTable T R M) (t : T) (r : R) : Step L (L.drop t r)
  | dropAll (L : LockTable T R M) (t : T) : Step L (L.dropAll t)

end LockTable

end Shared
