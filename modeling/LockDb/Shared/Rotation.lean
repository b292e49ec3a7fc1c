import Mathlib.Data.Finset.Max
import Mathlib.Data.Int.ModEq
import Mathlib.Tactic.Ring

/-!
# Multiples of a number on a circle

The multiples of `a` are points on a circle of length `m`. When one multiple of
`a` is a short step ahead and another a short step back, a walk by these two
steps reaches every arc as long as the steps.
-/

namespace Shared

set_option autoImplicit false

/-- How far the `k`-th multiple of `a` is ahead of `p` on a circle of length `m`. -/
def ahead (m a p : ℤ) (k : ℕ) : ℤ := (k * a - p) % m

/-- `forth` multiples are a step ahead and `back` multiples a step back, neither longer than
`w`, and `n` multiples have room for both. -/
structure Steps (m a w : ℤ) (n forth back : ℕ) : Prop where
  ahead_pos : 0 < forth * a % m
  ahead_le : forth * a % m ≤ w
  behind_pos : 0 < -(back * a) % m
  behind_le : -(back * a) % m ≤ w
  fits : forth + back ≤ n

section Ahead
variable {m a p : ℤ} {k q : ℕ}

theorem ahead_nonneg (hm : 0 < m) : 0 ≤ ahead m a p k := Int.emod_nonneg _ hm.ne'

theorem ahead_lt (hm : 0 < m) : ahead m a p k < m := Int.emod_lt_of_pos _ hm

theorem emod_eq_of_modEq {x y : ℤ} (h : x ≡ y [ZMOD m]) (h0 : 0 ≤ y) (hy : y < m) : x % m = y := by
  rw [h.eq, Int.emod_eq_of_lt h0 hy]

theorem ahead_add (hm : 0 < m) (hq : -(q * a) % m ≤ ahead m a p k) :
    ahead m a p (k + q) = ahead m a p k - -(q * a) % m := by
  have hnonneg : 0 ≤ -(q * a) % m := Int.emod_nonneg _ hm.ne'
  have hlt := @ahead_lt m a p k hm
  apply emod_eq_of_modEq
  · have hcong : k * a - p - -(q * a) ≡ ahead m a p k - -(q * a) % m [ZMOD m] :=
      (Int.mod_modEq _ m).symm.sub (Int.mod_modEq _ m).symm
    convert hcong using 1
    push_cast
    ring
  · omega
  · omega

theorem ahead_sub (hm : 0 < m) (hk : q ≤ k) (hq : q * a % m ≤ ahead m a p k) :
    ahead m a p (k - q) = ahead m a p k - q * a % m := by
  have hnonneg : 0 ≤ q * a % m := Int.emod_nonneg _ hm.ne'
  have hlt := @ahead_lt m a p k hm
  apply emod_eq_of_modEq
  · have hcong : k * a - p - q * a ≡ ahead m a p k - q * a % m [ZMOD m] :=
      (Int.mod_modEq _ m).symm.sub (Int.mod_modEq _ m).symm
    convert hcong using 1
    push_cast [hk]
    ring
  · omega
  · omega

end Ahead

/-- Among the first `n` multiples one is ahead of `p` by less than `w`. -/
theorem Steps.reach {m a w : ℤ} {n forth back : ℕ} (h : Steps m a w n forth back) (hm : 0 < m)
    (hn : 0 < n) (p : ℤ) : ∃ k < n, ahead m a p k < w := by
  obtain ⟨k, hk, hleast⟩ := Finset.exists_min_image (Finset.range n) (ahead m a p)
    ⟨0, Finset.mem_range.mpr hn⟩
  rw [Finset.mem_range] at hk
  refine ⟨k, hk, ?_⟩
  by_contra hfar
  have hpos := h.ahead_pos
  have hstep := h.ahead_le
  have hpos' := h.behind_pos
  have hstep' := h.behind_le
  have hfits := h.fits
  -- the nearest multiple could still be moved closer, one way or the other
  by_cases hroom : k + back < n
  · have hcloser := hleast (k + back) (Finset.mem_range.mpr hroom)
    rw [ahead_add hm (by omega)] at hcloser
    omega
  · have hcloser := hleast (k - forth) (Finset.mem_range.mpr (by omega))
    rw [ahead_sub hm (by omega) (by omega)] at hcloser
    omega

/-- Wherever the walk starts, every one of the equally wide arcs is met. -/
theorem Steps.reach_arc {a w : ℤ} {arcs n forth back i : ℕ}
    (h : Steps (arcs * w) a w n forth back) (hw : 0 < w) (hn : 0 < n) (hi : i < arcs) (x : ℤ) :
    ∃ k < n, (x + k * a) % (arcs * w) / w = i := by
  have hlast : ((i : ℤ) + 1) * w ≤ arcs * w :=
    Int.mul_le_mul_of_nonneg_right (by omega) hw.le
  have hfirst : 0 ≤ (i : ℤ) * w := Int.mul_nonneg (Int.natCast_nonneg i) hw.le
  rw [add_one_mul] at hlast
  have hm : 0 < arcs * w := by omega
  obtain ⟨k, hk, hnear⟩ := h.reach hm hn (i * w - x)
  have hnonneg := @ahead_nonneg (arcs * w) a (i * w - x) k hm
  refine ⟨k, hk, ?_⟩
  have hplace : (x + k * a) % (arcs * w) = ahead (arcs * w) a (i * w - x) k + i * w := by
    apply emod_eq_of_modEq
    · have hcong := (Int.mod_modEq (k * a - (i * w - x)) (arcs * w)).symm.add_right (i * w)
      have hsum : k * a - (i * w - x) + i * w = x + k * a := by ring
      rwa [hsum] at hcong
    · omega
    · omega
  rw [hplace, Int.add_mul_ediv_right _ _ hw.ne', Int.ediv_eq_zero_of_lt hnonneg hnear, zero_add]

end Shared
