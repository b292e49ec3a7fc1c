import LockDb.Shared.ThreadRuns
import Mathlib.Tactic.Choose

/-!
# Proof outlines of threads

An outline puts an assertion on the shared state at each point of a thread's program,
and the last one gives what the program is for. What the other threads rely on each
other to do must not break an assertion, and what the thread does itself must be among
what the others rely on. Here two programs share one outline: where it rules out what
an action would find, they need not go on alike.
-/

namespace Shared

set_option autoImplicit false

universe u v w x
variable {M : Type u} {S : Type v} {A : Type w}

/-- Whatever the others do, `K` goes on to hold. -/
def Stable (rely : S → S → Prop) (K : S → Prop) : Prop := ∀ s s', rely s s' → K s → K s'

/-- The programs do the same from any state with `K`, and end with the same result, for which
`post` holds. An action keeps its `guarantee`, and what follows it starts with an assertion
on the state it leaves. -/
inductive Prog.Outline (rely guarantee : S → S → Prop) (post : A → S → Prop) :
    (S → Prop) → Prog M S A → Prog M S A → Prop where
  | done {K : S → Prop} (a : A) (stable : Stable rely K) (ends : ∀ s, K s → post a s) :
      Outline rely guarantee post K (.done a) (.done a)
  | lock {K : S → Prop} {m : M} {rest rest' : Prog M S A}
      (next : Outline rely guarantee post K rest rest') :
      Outline rely guarantee post K (.lock m rest) (.lock m rest')
  | unlock {K : S → Prop} {m : M} {rest rest' : Prog M S A}
      (next : Outline rely guarantee post K rest rest') :
      Outline rely guarantee post K (.unlock m rest) (.unlock m rest')
  | act {K : S → Prop} {update : S → S} {rest rest' : S → Prog M S A} (stable : Stable rely K)
      (after : S → S → Prop) (ok : ∀ s, K s → guarantee s (update s) ∧ after s (update s))
      (next : ∀ s, K s → Outline rely guarantee post (after s) (rest s) (rest' s)) :
      Outline rely guarantee post K (.act update rest) (.act update rest')

namespace Prog
variable {rely guarantee : S → S → Prop} {post : A → S → Prop} {K : S → Prop}

theorem Outline.stable {p p' : Prog M S A} (h : p.Outline rely guarantee post K p') :
    Stable rely K := by
  induction h with
  | done _ stable _ => exact stable
  | lock _ ih => exact ih
  | unlock _ ih => exact ih
  | act stable _ _ _ _ => exact stable

/-- The assertion after an action may depend on the state the action found. -/
theorem Outline.of_act {update : S → S} {rest rest' : S → Prog M S A} (stable : Stable rely K)
    (h : ∀ s, K s → guarantee s (update s) ∧
      ∃ after : S → Prop, after (update s) ∧
        (rest s).Outline rely guarantee post after (rest' s)) :
    (Prog.act update rest).Outline rely guarantee post K (Prog.act update rest') := by
  choose! hguarantee after hafter hnext using h
  exact .act stable after (fun s hs => ⟨hguarantee s hs, hafter s hs⟩) hnext

end Prog

namespace Threads
variable {T : Type x} {rely guarantee : T → S → S → Prop} {post : T → A → S → Prop}
variable {c c' : Threads M S A T}

/-- Two sets of threads in the same situation, each thread at a point where its assertion
holds. -/
structure Outlined (rely guarantee : T → S → S → Prop) (post : T → A → S → Prop)
    (c c' : Threads M S A T) : Prop where
  state : c'.state = c.state
  owner : c'.owner = c.owner
  outline : ∀ t, ∃ K : S → Prop, K c.state ∧
    (c.prog t).Outline (rely t) (guarantee t) (post t) K (c'.prog t)

theorem Outlined.done_iff (h : Outlined rely guarantee post c c') (t : T) (a : A) :
    c.prog t = .done a ↔ c'.prog t = .done a := by
  obtain ⟨_, _, houtline⟩ := h.outline t
  generalize c.prog t = p, c'.prog t = p' at houtline
  cases houtline <;> simp

theorem Outlined.post_of_done (h : Outlined rely guarantee post c c') {t : T}
    {a : A} (ht : c.prog t = .done a) : post t a c.state := by
  obtain ⟨K, hK, houtline⟩ := h.outline t
  rw [ht] at houtline
  generalize c'.prog t = p' at houtline
  cases houtline with
  | done _ _ ends => exact ends c.state hK

variable [DecidableEq M] [DecidableEq T]

omit [DecidableEq M] in
/-- A step that leaves the state alone breaks no assertion. -/
theorem Outlined.move (h : Outlined rely guarantee post c c') {t : T} {K : S → Prop}
    {p p' : Prog M S A}
    (hK : K c.state) (hp : p.Outline (rely t) (guarantee t) (post t) K p') (u : T) :
    ∃ K : S → Prop, K c.state ∧ (Function.update c.prog t p u).Outline (rely u) (guarantee u)
      (post u) K (Function.update c'.prog t p' u) := by
  by_cases hu : u = t
  · subst hu
    exact ⟨K, hK, by simpa using hp⟩
  · obtain ⟨L, hL, houtline⟩ := h.outline u
    exact ⟨L, hL, by simpa [hu] using houtline⟩

theorem Outlined.takeTurn (h : Outlined rely guarantee post c c')
    (hfit : ∀ t u, t ≠ u → ∀ s s', guarantee t s s' → rely u s s') (t : T) :
    Outlined rely guarantee post (c.takeTurn t) (c'.takeTurn t) := by
  obtain ⟨K, hK, houtline⟩ := h.outline t
  generalize hp : c.prog t = p, hp' : c'.prog t = p' at houtline
  unfold Threads.takeTurn step
  rw [hp, hp']
  cases houtline with
  | done _ _ _ => exact h
  | @lock _ m _ _ next =>
    cases hm : c.owner m with
    | some _ =>
      simp only [h.owner, hm]
      exact h
    | none =>
      simp only [h.owner, hm]
      exact ⟨h.state, rfl, h.move hK next⟩
  | @unlock _ m _ _ next =>
    simp only [h.owner]
    exact ⟨h.state, rfl, h.move hK next⟩
  | @act _ update _ _ _ after ok next =>
    obtain ⟨hguarantee, hafter⟩ := ok c.state hK
    refine ⟨congrArg update h.state, h.owner, fun u => ?_⟩
    by_cases hu : u = t
    · subst hu
      exact ⟨after c.state, hafter, by simpa [h.state] using next c.state hK⟩
    · obtain ⟨L, hL, houtline⟩ := h.outline u
      refine ⟨L, ?_, by simpa [hu] using houtline⟩
      exact houtline.stable _ _ (hfit t u (Ne.symm hu) _ _ hguarantee) hL

/-- In every schedule both sets of threads go the same way. -/
theorem Outlined.run (h : Outlined rely guarantee post c c')
    (hfit : ∀ t u, t ≠ u → ∀ s s', guarantee t s s' → rely u s s') (schedule : List T) :
    Outlined rely guarantee post (c.run schedule) (c'.run schedule) := by
  induction schedule generalizing c c' with
  | nil => exact h
  | cons t schedule ih => exact ih (h.takeTurn hfit t)

end Threads

end Shared
