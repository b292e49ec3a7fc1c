import LockDb.Shared.Mutex

/-!
# Threads around one mutex

A monitor says what threads may do to the shared state, and when. Inside, which is
while a thread owns one chosen mutex, a mark tells how far that thread has come; the
state changes as the mark allows, and the mark moves on. Outside only what is always
free may happen. No part of the program reads the mark: it is there for the proofs.
-/

namespace Shared

set_option autoImplicit false

universe u v w x y

structure Monitor (M : Type u) (S : Type v) (A : Type w) (G : Type y) where
  mutex : M
  /-- The mark when nobody is inside. -/
  idle : G
  outside : S → S → Prop
  inside : G → S → S → G → Prop
  /-- With this mark a thread may go out, and this is what it still has to do. -/
  leave : G → Prog M S A → Prop

/-- The program keeps to the monitor, from outside or with a mark. -/
inductive Prog.Follows {M : Type u} {S : Type v} {A : Type w} {G : Type y} (w : Monitor M S A G) :
    Option G → Prog M S A → Prop where
  | done (a : A) : Follows w none (.done a)
  | lock {g : Option G} {m : M} {rest : Prog M S A} (hm : m ≠ w.mutex) (next : Follows w g rest) :
      Follows w g (.lock m rest)
  | unlock {g : Option G} {m : M} {rest : Prog M S A} (hm : m ≠ w.mutex) (next : Follows w g rest) :
      Follows w g (.unlock m rest)
  | enter {rest : Prog M S A} (next : Follows w (some w.idle) rest) :
      Follows w none (.lock w.mutex rest)
  | leave {g : G} {rest : Prog M S A} (ok : w.leave g rest) (next : Follows w none rest) :
      Follows w (some g) (.unlock w.mutex rest)
  | outside {update : S → S} {rest : S → Prog M S A} (ok : ∀ s, w.outside s (update s))
      (next : ∀ s, Follows w none (rest s)) : Follows w none (.act update rest)
  | inside {g : G} {update : S → S} {rest : S → Prog M S A} (mark : S → G)
      (ok : ∀ s, w.inside g s (update s) (mark s))
      (next : ∀ s, Follows w (some (mark s)) (rest s)) : Follows w (some g) (.act update rest)

namespace Threads
variable {M : Type u} {S : Type v} {A : Type w} {T : Type x} {G : Type y} [DecidableEq T]
variable {w : Monitor M S A G} {c c' : Threads M S A T} {g : G} {t u : T}

/-- The mark of a thread, `g` if it is the one inside. -/
def mark (w : Monitor M S A G) (c : Threads M S A T) (g : G) (t : T) : Option G :=
  if c.owner w.mutex = some t then some g else none

structure Monitored (w : Monitor M S A G) (c : Threads M S A T) (g : G) : Prop where
  follows : ∀ t, (c.prog t).Follows w (c.mark w g t)
  idle : c.owner w.mutex = none → g = w.idle

theorem monitored_start (w : Monitor M S A G) (state : S) {prog : T → Prog M S A}
    (h : ∀ t, (prog t).Follows w none) : Monitored w (start state prog) w.idle where
  follows t := by simpa [mark, start] using h t
  idle _ := rfl

theorem Monitored.not_done (h : Monitored w c g) (howner : c.owner w.mutex = some t) (a : A) :
    c.prog t ≠ .done a := by
  intro hdone
  have hfollows := h.follows t
  rw [hdone, mark, if_pos howner] at hfollows
  cases hfollows

variable [DecidableEq M]

/-- What a step of `t` does about the monitor. -/
inductive MonitoredStep (w : Monitor M S A G) (c : Threads M S A T) (t : T) (g : G) :
    Threads M S A T → G → Prop where
  | other {m : M} {rest : Prog M S A} {owner : M → Option T} (hm : m ≠ w.mutex)
      (hp : c.prog t = .lock m rest ∨ c.prog t = .unlock m rest)
      (same : owner w.mutex = c.owner w.mutex) :
      MonitoredStep w c t g ⟨c.state, owner, Function.update c.prog t rest⟩ g
  | enter {rest : Prog M S A} (hp : c.prog t = .lock w.mutex rest) (free : c.owner w.mutex = none) :
      MonitoredStep w c t g
        ⟨c.state, Function.update c.owner w.mutex (some t), Function.update c.prog t rest⟩ g
  | leave {rest : Prog M S A} (hp : c.prog t = .unlock w.mutex rest)
      (owned : c.owner w.mutex = some t) (ok : w.leave g rest) :
      MonitoredStep w c t g
        ⟨c.state, Function.update c.owner w.mutex none, Function.update c.prog t rest⟩ w.idle
  | outside {update : S → S} {rest : S → Prog M S A} (hp : c.prog t = .act update rest)
      (away : c.owner w.mutex ≠ some t) (ok : w.outside c.state (update c.state)) :
      MonitoredStep w c t g
        ⟨update c.state, c.owner, Function.update c.prog t (rest c.state)⟩ g
  | inside {update : S → S} {rest : S → Prog M S A} {g' : G} (hp : c.prog t = .act update rest)
      (owned : c.owner w.mutex = some t) (ok : w.inside g c.state (update c.state) g') :
      MonitoredStep w c t g
        ⟨update c.state, c.owner, Function.update c.prog t (rest c.state)⟩ g'

omit [DecidableEq M] in
/-- Nobody else notices a step, if the thread inside stays inside or is `t` itself. -/
theorem Monitored.others (h : Monitored w c g) {s : S} {owner : M → Option T} {p : Prog M S A}
    {g' : G}
    (howner : ∀ u, u ≠ t → (owner w.mutex = some u ↔ c.owner w.mutex = some u))
    (hmark : g' = g ∨ c.owner w.mutex = some t)
    (hown : p.Follows w (if owner w.mutex = some t then some g' else none)) (u : T) :
    (Function.update c.prog t p u).Follows w
      (mark w ⟨s, owner, Function.update c.prog t p⟩ g' u) := by
  by_cases hu : u = t
  · subst hu
    simpa only [mark, Function.update_self] using hown
  · rw [Function.update_of_ne hu, mark]
    have hfollows := h.follows u
    rw [mark] at hfollows
    by_cases hin : c.owner w.mutex = some u
    · have hsame : g' = g := by
        refine hmark.resolve_right fun ht => hu ?_
        exact Option.some.inj (hin.symm.trans ht)
      rw [if_pos ((howner u hu).mpr hin), hsame]
      rwa [if_pos hin] at hfollows
    · rw [if_neg (mt (howner u hu).mp hin)]
      rwa [if_neg hin] at hfollows

theorem Monitored.lock (h : Monitored w c g) {m : M} {rest : Prog M S A}
    (hp : c.prog t = .lock m rest) (free : c.owner m = none) :
    let c' : Threads M S A T :=
      ⟨c.state, Function.update c.owner m (some t), Function.update c.prog t rest⟩
    Monitored w c' g ∧ MonitoredStep w c t g c' g := by
  intro c'
  have hfollows := h.follows t
  rw [hp] at hfollows
  by_cases hm : m = w.mutex
  · subst hm
    have hidle : c.mark w g t = none := by simp [mark, free]
    rw [hidle] at hfollows
    cases hfollows with
    | lock hm _ => exact absurd rfl hm
    | enter next =>
      refine ⟨⟨h.others ?_ (.inl rfl) ?_, by simp [c']⟩, .enter hp free⟩
      · intro u hu
        simp [free, Ne.symm hu]
      · simpa [h.idle free] using next
  · have hsame : Function.update c.owner m (some t) w.mutex = c.owner w.mutex :=
      Function.update_of_ne (Ne.symm hm) _ _
    refine ⟨⟨h.others ?_ (.inl rfl) ?_, ?_⟩, .other hm (.inl hp) hsame⟩
    · exact fun u _ => by rw [hsame]
    · rw [hsame]
      generalize hg : c.mark w g t = mark at hfollows
      cases hfollows with
      | lock _ next => rwa [← hg, Threads.mark] at next
      | enter _ => exact absurd rfl hm
    · exact fun hnone => h.idle (hsame ▸ hnone)

theorem Monitored.unlock (h : Monitored w c g) {m : M} {rest : Prog M S A}
    (hp : c.prog t = .unlock m rest) :
    let c' : Threads M S A T :=
      ⟨c.state, Function.update c.owner m none, Function.update c.prog t rest⟩
    ∃ g', Monitored w c' g' ∧ MonitoredStep w c t g c' g' := by
  intro c'
  have hfollows := h.follows t
  rw [hp] at hfollows
  generalize hg : c.mark w g t = mark at hfollows
  cases hfollows with
  | unlock hm next =>
    have hsame : Function.update c.owner m none w.mutex = c.owner w.mutex :=
      Function.update_of_ne (Ne.symm hm) _ _
    refine ⟨g, ⟨h.others ?_ (.inl rfl) ?_, ?_⟩, .other hm (.inr hp) hsame⟩
    · exact fun u _ => by rw [hsame]
    · rw [hsame]
      rwa [← hg, Threads.mark] at next
    · exact fun hnone => h.idle (hsame ▸ hnone)
  | leave ok next =>
    rw [Threads.mark] at hg
    split at hg
    · next owned =>
      obtain rfl := Option.some.inj hg
      refine ⟨w.idle, ⟨h.others ?_ (.inr owned) ?_, fun _ => rfl⟩, .leave hp owned ok⟩
      · intro u hu
        simp [owned, Ne.symm hu]
      · simpa using next
    · simp at hg

theorem Monitored.act (h : Monitored w c g) {update : S → S} {rest : S → Prog M S A}
    (hp : c.prog t = .act update rest) :
    let c' : Threads M S A T :=
      ⟨update c.state, c.owner, Function.update c.prog t (rest c.state)⟩
    ∃ g', Monitored w c' g' ∧ MonitoredStep w c t g c' g' := by
  intro c'
  have hfollows := h.follows t
  rw [hp] at hfollows
  generalize hg : c.mark w g t = mark at hfollows
  rw [Threads.mark] at hg
  cases hfollows with
  | outside ok next =>
    have away : c.owner w.mutex ≠ some t := fun howner => by simp [howner] at hg
    refine ⟨g, ⟨h.others (fun _ _ => Iff.rfl) (.inl rfl) ?_, h.idle⟩, .outside hp away (ok _)⟩
    simpa [away] using next c.state
  | inside mark ok next =>
    split at hg
    · next owned =>
      obtain rfl := Option.some.inj hg
      refine ⟨mark c.state, ⟨h.others (fun _ _ => Iff.rfl) (.inr owned) ?_, ?_⟩,
        .inside hp owned (ok _)⟩
      · simpa [owned] using next c.state
      · simp [c', owned]
    · simp at hg

theorem Monitored.step (h : Monitored w c g) (hs : c.step t = some c') :
    ∃ g', Monitored w c' g' ∧ MonitoredStep w c t g c' g' := by
  cases step_cases hs with
  | lock hp free => exact ⟨g, h.lock hp free⟩
  | unlock hp => exact h.unlock hp
  | act hp => exact h.act hp

end Threads

end Shared
