import Mathlib.Data.List.Forall2

/-!
# Runs of a deterministic transition system

A system is a step function together with the operations its environment may
issue in a state. A run keeps the whole trace, newest event first, so that laws
about "the last call" or "since then" can be stated by recursion on it.
-/

namespace Shared

set_option autoImplicit false

universe u v w
variable {S : Type u} {Op : Type v} {Out : Type w}

structure Event (S : Type u) (Op : Type v) (Out : Type w) where
  op : Op
  out : Out
  after : S

/-- A finite run from `init` that issues only operations the environment allows. -/
inductive Run (step : S → Op → S × Out) (allow : S → Op → Prop) (init : S) :
    List (Event S Op Out) → S → Prop where
  | start : Run step allow init [] init
  | step {trace : List (Event S Op Out)} {s : S} (run : Run step allow init trace s) (op : Op)
      (ok : allow s op) :
      Run step allow init (⟨op, (step s op).2, (step s op).1⟩ :: trace) (step s op).1

namespace Run
variable {step : S → Op → S × Out} {allow : S → Op → Prop} {init : S}
variable {trace : List (Event S Op Out)} {s : S}

/-- A property of states that every allowed step preserves holds after every run. -/
theorem invariant {P : S → Prop} (h0 : P init)
    (hstep : ∀ s op, allow s op → P s → P (step s op).1)
    (run : Run step allow init trace s) : P s := by
  induction run with
  | start => exact h0
  | step _ op ok ih => exact hstep _ op ok ih

theorem trace_invariant {P : List (Event S Op Out) → S → Prop} (h0 : P [] init)
    (hstep : ∀ trace s op, allow s op → P trace s →
      P (⟨op, (step s op).2, (step s op).1⟩ :: trace) (step s op).1)
    (run : Run step allow init trace s) : P trace s := by
  induction run with
  | start => exact h0
  | step _ op ok ih => exact hstep _ _ op ok ih

/-- The trace and the state after a list of operations, added to what came before. -/
def record (step : S → Op → S × Out) :
    List (Event S Op Out) → S → List Op → List (Event S Op Out) × S
  | trace, s, [] => (trace, s)
  | trace, s, op :: ops =>
    record step (⟨op, (step s op).2, (step s op).1⟩ :: trace) (step s op).1 ops

def Permits (step : S → Op → S × Out) (allow : S → Op → Prop) : S → List Op → Prop
  | _, [] => True
  | s, op :: ops => allow s op ∧ Permits step allow (step s op).1 ops

theorem permits_all (h : ∀ s op, allow s op) (s : S) (ops : List Op) :
    Permits step allow s ops := by
  induction ops generalizing s with
  | nil => trivial
  | cons op ops ih => exact ⟨h s op, ih _⟩

theorem recorded (run : Run step allow init trace s) {ops : List Op}
    (h : Permits step allow s ops) :
    Run step allow init (record step trace s ops).1 (record step trace s ops).2 := by
  induction ops generalizing trace s with
  | nil => exact run
  | cons op ops ih => exact ih (run.step op h.1) h.2

/-- Where everything is allowed, every list of operations makes a run. -/
theorem recorded_all (step : S → Op → S × Out) (init : S) (ops : List Op) :
    Run step (fun _ _ => True) init (record step [] init ops).1 (record step [] init ops).2 :=
  Run.start.recorded (permits_all (fun _ _ => trivial) init ops)

end Run

/-- Answers to a list of operations, in order, and the state they leave. -/
def replay (step : S → Op → S × Out) : S → List Op → S × List Out
  | s, [] => (s, [])
  | s, op :: ops =>
    let next := step s op
    let rest := replay step next.1 ops
    (rest.1, next.2 :: rest.2)

theorem replay_invariant {step : S → Op → S × Out} {P : S → Prop}
    (hstep : ∀ s op, P s → P (step s op).1) {s : S} (h0 : P s) (ops : List Op) :
    P (replay step s ops).1 := by
  induction ops generalizing s with
  | nil => exact h0
  | cons op ops ih => exact ih (hstep s op h0)

/-- Two systems whose related states give related answers to related operations, as long as the
first one's environment keeps to what it is allowed. -/
theorem replay_related {S' : Type u} {step : S → Op → S × Out} {step' : S' → Op → S' × Out}
    {R : S → S' → Prop} {Q : Op → Op → Prop} {E : Out → Out → Prop} {allow : S → Op → Prop}
    (hsim : ∀ s s' op op', R s s' → Q op op' → allow s op →
      E (step s op).2 (step' s' op').2 ∧ R (step s op).1 (step' s' op').1)
    {s : S} {s' : S'} (h0 : R s s') {ops ops' : List Op} (hops : List.Forall₂ Q ops ops')
    (hallow : Run.Permits step allow s ops) :
    List.Forall₂ E (replay step s ops).2 (replay step' s' ops').2 ∧
      R (replay step s ops).1 (replay step' s' ops').1 := by
  induction hops generalizing s s' with
  | nil => exact ⟨.nil, h0⟩
  | cons hop _ ih =>
    obtain ⟨hfirst, hrest⟩ := hallow
    obtain ⟨hout, hnext⟩ := hsim s s' _ _ h0 hop hfirst
    obtain ⟨houts, hend⟩ := ih hnext hrest
    exact ⟨.cons hout houts, hend⟩

/-- A simulation: two systems whose related states answer related operations alike and
stay related. -/
theorem replay_simulates {S' : Type u} {step : S → Op → S × Out} {step' : S' → Op → S' × Out}
    {R : S → S' → Prop} {Q : Op → Op → Prop}
    (hsim : ∀ s s' op op', R s s' → Q op op' →
      (step s op).2 = (step' s' op').2 ∧ R (step s op).1 (step' s' op').1)
    {s : S} {s' : S'} (h0 : R s s') {ops ops' : List Op} (hops : List.Forall₂ Q ops ops') :
    (replay step s ops).2 = (replay step' s' ops').2 ∧
      R (replay step s ops).1 (replay step' s' ops').1 := by
  have hallow : Run.Permits step (fun _ _ => True) s ops :=
    Run.permits_all (fun _ _ => trivial) s ops
  have hrelated := replay_related (E := Eq) (fun s s' op op' h hop _ => hsim s s' op op' h hop)
    h0 hops hallow
  rwa [List.forall₂_eq_eq_eq] at hrelated

theorem replay_outputs {S' : Type u} {step : S → Op → S × Out} {step' : S' → Op → S' × Out}
    {R : S → S' → Prop}
    (hsim : ∀ s s' op, R s s' → (step s op).2 = (step' s' op).2 ∧ R (step s op).1 (step' s' op).1)
    {s : S} {s' : S'} (h0 : R s s')
    (ops : List Op) : (replay step s ops).2 = (replay step' s' ops).2 := by
  have hsame : ∀ s s' op op', R s s' → op = op' →
      (step s op).2 = (step' s' op').2 ∧ R (step s op).1 (step' s' op').1 := by
    intro s s' op op' h heq
    rw [← heq]
    exact hsim s s' op h
  exact (replay_simulates hsame h0 (List.forall₂_refl ops)).1

end Shared
