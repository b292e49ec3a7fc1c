import LockDb.Shared.Transition

/-!
# Specifications that leave choices open

A specification says which answers a state allows to a call, and where each of them leads. A
system whose every step is one that the specification allows has only runs that it allows.
-/

namespace Shared

set_option autoImplicit false

universe u v w
variable {S A : Type u} {Op : Type v} {Out : Type w} {allows : A → Op → Out → A → Prop}

/-- Calls with their answers, from one state of the specification to another. -/
inductive Conforms (allows : A → Op → Out → A → Prop) : A → List (Op × Out) → A → Prop where
  | nil (a : A) : Conforms allows a [] a
  | cons {a b c : A} {op : Op} {out : Out} {calls : List (Op × Out)} (first : allows a op out b)
      (rest : Conforms allows b calls c) : Conforms allows a ((op, out) :: calls) c

theorem replay_conforms {step : S → Op → S × Out} {R : S → A → Prop}
    (hsim : ∀ s a op, R s a → ∃ b, allows a op (step s op).2 b ∧ R (step s op).1 b)
    {s : S} {a : A} (h0 : R s a) (ops : List Op) :
    ∃ b, Conforms allows a (ops.zip (replay step s ops).2) b ∧ R (replay step s ops).1 b := by
  induction ops generalizing s a with
  | nil => exact ⟨a, .nil a, h0⟩
  | cons op ops ih =>
    obtain ⟨b, hfirst, hb⟩ := hsim s a op h0
    obtain ⟨c, hrest, hc⟩ := ih hb
    exact ⟨c, .cons hfirst hrest, hc⟩

end Shared
