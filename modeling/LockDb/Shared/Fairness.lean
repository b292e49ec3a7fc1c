import Mathlib.Order.WellFounded
import Mathlib.Data.Set.Defs

/-!
# Fair schedules

A schedule is fair to a set of threads when each of them gets its turn again and
again. A system whose turns lower a rank or change nothing, and in which some
thread can always make a change, comes to its end under every fair schedule.
-/

namespace Shared

set_option autoImplicit false

universe u v w x
variable {S : Type u} {Op : Type v} {T : Type w}

def Fair (who : Set T) (turn : Nat → T) : Prop := ∀ t ∈ who, ∀ n, ∃ m, n ≤ m ∧ turn m = t

/-- The state before turn `n`. -/
def stateAt (step : S → Op → S) (schedule : Nat → Op) (init : S) : Nat → S
  | 0 => init
  | n + 1 => step (stateAt step schedule init n) (schedule n)

section StateAt
variable {step : S → Op → S} {schedule : Nat → Op} {init : S}

theorem stateAt_invariant {P : S → Prop} (h0 : P init) (hstep : ∀ s op, P s → P (step s op))
    (n : Nat) : P (stateAt step schedule init n) := by
  induction n with
  | zero => exact h0
  | succ n ih => exact hstep _ _ ih

/-- What holds at some time and is preserved holds from then on. -/
theorem stateAt_stable {P : S → Prop} (hstep : ∀ s op, P s → P (step s op)) {n : Nat}
    (h : P (stateAt step schedule init n)) (m : Nat) (hm : n ≤ m) :
    P (stateAt step schedule init m) := by
  induction hm with
  | refl => exact h
  | step _ ih => exact hstep _ _ ih

end StateAt

section Rank
variable {α : Type x} [Preorder α]

/-- Every turn lowers the rank or changes nothing. -/
def Descends (step : S → Op → S) (inv : S → Prop) (rank : S → α) : Prop :=
  ∀ s op, inv s → step s op = s ∨ rank (step s op) < rank s

/-- Until the end some thread changes something whenever its turn comes. -/
def Moves (step : S → Op → S) (inv done : S → Prop) (who : Set T) (agent : Op → T) : Prop :=
  ∀ s, inv s → ¬ done s → ∃ t ∈ who, ∀ op, agent op = t → step s op ≠ s

variable {step : S → Op → S} {schedule : Nat → Op} {init : S} {inv done : S → Prop}
variable {rank : S → α} {who : Set T} {agent : Op → T}

theorem Descends.same_or_lower (h : Descends step inv rank)
    (hinv : ∀ n, inv (stateAt step schedule init n)) (n d : Nat) :
    stateAt step schedule init (n + d) = stateAt step schedule init n ∨
    ∃ m, n ≤ m ∧ rank (stateAt step schedule init m) < rank (stateAt step schedule init n) := by
  induction d with
  | zero => exact .inl rfl
  | succ d ih =>
    rcases ih with hsame | hlower
    · rcases h _ (schedule (n + d)) (hinv (n + d)) with hstep | hstep
      · exact .inl (hstep.trans hsame)
      · rw [hsame] at hstep
        refine .inr ⟨n + d + 1, by omega, ?_⟩
        rw [stateAt, hsame]
        exact hstep
    · exact .inr hlower

/-- At the turn of a thread that can make a change the rank has become lower. -/
theorem Descends.lower_of_moves (h : Descends step inv rank)
    (hinv : ∀ n, inv (stateAt step schedule init n)) {t : T} (hfair : Fair who (agent ∘ schedule))
    (ht : t ∈ who) {n : Nat}
    (hmove : ∀ op, agent op = t → step (stateAt step schedule init n) op ≠
      stateAt step schedule init n) :
    ∃ m, n ≤ m ∧ rank (stateAt step schedule init m) < rank (stateAt step schedule init n) := by
  obtain ⟨m, hnm, hturn⟩ := hfair t ht n
  obtain ⟨d, rfl⟩ := Nat.exists_eq_add_of_le hnm
  rcases h.same_or_lower hinv n d with hsame | hlower
  · have hstep := (h _ (schedule (n + d)) (hinv n)).resolve_left (hmove _ hturn)
    refine ⟨n + d + 1, by omega, ?_⟩
    rw [stateAt, hsame]
    exact hstep
  · exact hlower

theorem Moves.reaches [WellFoundedLT α] (hmoves : Moves step inv done who agent)
    (hdescends : Descends step inv rank) (hinv : ∀ n, inv (stateAt step schedule init n))
    (hfair : Fair who (agent ∘ schedule)) (n : Nat) :
    ∃ m, n ≤ m ∧ done (stateAt step schedule init m) := by
  induction hr : rank (stateAt step schedule init n) using WellFoundedLT.induction generalizing n
  next r ih =>
    subst hr
    by_cases hdone : done (stateAt step schedule init n)
    · exact ⟨n, Nat.le_refl n, hdone⟩
    · obtain ⟨t, ht, hmove⟩ := hmoves _ (hinv n) hdone
      obtain ⟨k, hnk, hlower⟩ := hdescends.lower_of_moves hinv hfair ht hmove
      obtain ⟨m, hkm, hm⟩ := ih _ hlower k rfl
      exact ⟨m, Nat.le_trans hnk hkm, hm⟩

end Rank

end Shared
