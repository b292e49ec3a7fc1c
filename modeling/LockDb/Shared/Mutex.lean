import Mathlib.Logic.Function.Basic
import Mathlib.Data.List.Nodup

/-!
# Threads and mutexes

Threads run programs that lock and unlock mutexes and work on a shared state in
between; a mutex is not re-entrant, and guards are dropped in the reverse order.
When every thread locks in ascending ranks, some thread can always go on.
-/

namespace Shared

set_option autoImplicit false

universe u v w x

/-- What a thread still has to do, and in the end its result. An `act` updates the state, and
what follows it may depend on the state it found. -/
inductive Prog (M : Type u) (S : Type v) (A : Type w) where
  | done (a : A)
  | lock (m : M) (rest : Prog M S A)
  | unlock (m : M) (rest : Prog M S A)
  | act (update : S → S) (rest : S → Prog M S A)

namespace Prog
variable {M : Type u} {S : Type v} {A : Type w}

/-- The state a program leaves when no other thread runs, and its result. -/
def alone : Prog M S A → S → S × A
  | .done a, s => (s, a)
  | .lock _ rest, s => alone rest s
  | .unlock _ rest, s => alone rest s
  | .act update rest, s => alone (rest s) (update s)

/-- The result, once nothing is left to do. -/
def result : Prog M S A → Option A
  | .done a => some a
  | _ => none

theorem eq_done_of_result {p : Prog M S A} {a : A} (h : p.result = some a) : p = .done a := by
  cases p with
  | done b => exact congrArg done (Option.some.inj h)
  | lock => nomatch h
  | unlock => nomatch h
  | act => nomatch h

/-- With the guards `held`, latest first, the program locks only above their ranks, drops the
latest guard first and ends without one. -/
inductive Ordered (rank : M → Nat) : List M → Prog M S A → Prop where
  | done (a : A) : Ordered rank [] (.done a)
  | lock {held : List M} {m : M} {rest : Prog M S A} (above : ∀ h ∈ held, rank h < rank m)
      (next : Ordered rank (m :: held) rest) : Ordered rank held (.lock m rest)
  | unlock {held : List M} {m : M} {rest : Prog M S A} (next : Ordered rank held rest) :
      Ordered rank (m :: held) (.unlock m rest)
  | act {held : List M} {update : S → S} {rest : S → Prog M S A}
      (next : ∀ s, Ordered rank held (rest s)) : Ordered rank held (.act update rest)

end Prog

structure Threads (M : Type u) (S : Type v) (A : Type w) (T : Type x) where
  state : S
  owner : M → Option T
  prog : T → Prog M S A

namespace Threads
variable {M : Type u} {S : Type v} {A : Type w} {T : Type x} {c c' : Threads M S A T} {t u : T}
variable {rank : M → Nat} {held : List M} {m m' : M}

def start (state : S) (prog : T → Prog M S A) : Threads M S A T := ⟨state, fun _ => none, prog⟩

/-- The guards of a thread are the mutexes it owns, with descending ranks. -/
structure Guards (rank : M → Nat) (c : Threads M S A T) (t : T) (held : List M) : Prop where
  owned : ∀ m, m ∈ held ↔ c.owner m = some t
  ordered : (c.prog t).Ordered rank held
  ranks : held.Pairwise fun a b => rank b < rank a

def Disciplined (rank : M → Nat) (c : Threads M S A T) : Prop := ∀ t, ∃ held, Guards rank c t held

theorem disciplined_start (state : S) {prog : T → Prog M S A}
    (h : ∀ t, (prog t).Ordered rank []) : Disciplined rank (start state prog) := by
  intro t
  exact ⟨[], by simp [start], h t, List.Pairwise.nil⟩

/-- A thread waits only for mutexes that rank above those it owns. -/
theorem Disciplined.above (h : Disciplined rank c) (hm : c.owner m = some t) {rest : Prog M S A}
    (hp : c.prog t = .lock m' rest) : rank m < rank m' := by
  obtain ⟨held, hheld⟩ := h t
  have hordered := hheld.ordered
  rw [hp] at hordered
  cases hordered with
  | lock above _ => exact above m ((hheld.owned m).mpr hm)

theorem Disciplined.eq_of_rank (h : Disciplined rank c) (hm : c.owner m = some t)
    (hm' : c.owner m' = some t) (hrank : rank m = rank m') : m = m' := by
  obtain ⟨held, hheld⟩ := h t
  have hnodup : (held.map rank).Nodup := by
    rw [List.Nodup, List.pairwise_map]
    exact hheld.ranks.imp fun hlt => Nat.ne_of_gt hlt
  exact List.inj_on_of_nodup_map hnodup ((hheld.owned m).mpr hm) ((hheld.owned m').mpr hm') hrank

theorem Disciplined.owner_unfinished (h : Disciplined rank c) (hm : c.owner m = some t) (a : A) :
    c.prog t ≠ .done a := by
  intro hp
  obtain ⟨held, hheld⟩ := h t
  have hordered := hheld.ordered
  rw [hp] at hordered
  cases hordered with
  | done => simpa using (hheld.owned m).mpr hm

section Steps
variable [DecidableEq M] [DecidableEq T]

/-- The next step of a thread, unless it has finished or waits for a mutex. -/
def step (c : Threads M S A T) (t : T) : Option (Threads M S A T) :=
  match c.prog t with
  | .done _ => none
  | .lock m rest =>
    match c.owner m with
    | some _ => none
    | none => some ⟨c.state, Function.update c.owner m (some t), Function.update c.prog t rest⟩
  | .unlock m rest =>
    some ⟨c.state, Function.update c.owner m none, Function.update c.prog t rest⟩
  | .act update rest =>
    some ⟨update c.state, c.owner, Function.update c.prog t (rest c.state)⟩

/-- A schedule names the threads in the order of their turns; a turn of a thread that cannot
go on changes nothing. -/
def run (c : Threads M S A T) : List T → Threads M S A T
  | [] => c
  | t :: schedule => run ((c.step t).getD c) schedule

/-- What every step keeps holds after every schedule. -/
theorem run_invariant {P : Threads M S A T → Prop}
    (hstep : ∀ c c' t, P c → c.step t = some c' → P c') (h : P c) (schedule : List T) :
    P (c.run schedule) := by
  induction schedule generalizing c with
  | nil => exact h
  | cons t schedule ih =>
    unfold Threads.run
    apply ih
    cases hs : c.step t with
    | none => exact h
    | some c' => exact hstep c c' t h hs

/-- What one step of `t` can do. -/
inductive StepCase (c : Threads M S A T) (t : T) : Threads M S A T → Prop where
  | lock {m : M} {rest : Prog M S A} (hp : c.prog t = .lock m rest) (free : c.owner m = none) :
      StepCase c t ⟨c.state, Function.update c.owner m (some t), Function.update c.prog t rest⟩
  | unlock {m : M} {rest : Prog M S A} (hp : c.prog t = .unlock m rest) :
      StepCase c t ⟨c.state, Function.update c.owner m none, Function.update c.prog t rest⟩
  | act {update : S → S} {rest : S → Prog M S A} (hp : c.prog t = .act update rest) :
      StepCase c t ⟨update c.state, c.owner, Function.update c.prog t (rest c.state)⟩

theorem step_cases (h : c.step t = some c') : StepCase c t c' := by
  unfold step at h
  split at h
  · simp at h
  · next m rest hp =>
    split at h
    · simp at h
    · next free =>
      rw [← Option.some.inj h]
      exact .lock hp free
  · next m rest hp =>
    rw [← Option.some.inj h]
    exact .unlock hp
  · next update rest hp =>
    rw [← Option.some.inj h]
    exact .act hp

theorem Guards.lock (h : Guards rank c t held) {rest : Prog M S A} (hp : c.prog t = .lock m rest) :
    Guards rank ⟨c.state, Function.update c.owner m (some t), Function.update c.prog t rest⟩ t
      (m :: held) := by
  have hordered := h.ordered
  rw [hp] at hordered
  cases hordered with
  | lock above next =>
    refine ⟨?_, by simpa using next, List.pairwise_cons.mpr ⟨above, h.ranks⟩⟩
    intro x
    by_cases hx : x = m
    · simp [hx]
    · simp [hx, h.owned x]

theorem Guards.unlock (h : Guards rank c t held) {rest : Prog M S A}
    (hp : c.prog t = .unlock m rest) : c.owner m = some t ∧ ∃ held',
      Guards rank ⟨c.state, Function.update c.owner m none, Function.update c.prog t rest⟩ t
        held' := by
  have hordered := h.ordered
  rw [hp] at hordered
  cases hordered with
  | @unlock held' _ _ next =>
    obtain ⟨hm, hranks⟩ := List.pairwise_cons.mp h.ranks
    refine ⟨(h.owned m).mp List.mem_cons_self, held', ?_, by simpa using next, hranks⟩
    intro x
    by_cases hx : x = m
    · subst hx
      have hnot : x ∉ held' := fun hmem => Nat.lt_irrefl _ (hm x hmem)
      simpa using hnot
    · simp [hx, ← h.owned x]

omit [DecidableEq M] in
theorem Guards.act (h : Guards rank c t held) {update : S → S} {rest : S → Prog M S A}
    (hp : c.prog t = .act update rest) :
    Guards rank ⟨update c.state, c.owner, Function.update c.prog t (rest c.state)⟩ t held := by
  have hordered := h.ordered
  rw [hp] at hordered
  cases hordered with
  | act next => exact ⟨h.owned, by simpa using next c.state, h.ranks⟩

omit [DecidableEq M] in
/-- A step of another thread leaves a thread's guards alone. -/
theorem Guards.other (h : Guards rank c u held) (hu : u ≠ t) {s : S} {owner : M → Option T}
    {p : Prog M S A} (howner : ∀ m, owner m = some u ↔ c.owner m = some u) :
    Guards rank ⟨s, owner, Function.update c.prog t p⟩ u held := by
  refine ⟨fun m => (h.owned m).trans (howner m).symm, ?_, h.ranks⟩
  simpa [hu] using h.ordered

theorem Disciplined.step (h : Disciplined rank c) (hs : c.step t = some c') :
    Disciplined rank c' := by
  obtain ⟨own, hown⟩ := h t
  intro u
  obtain ⟨held, hheld⟩ := h u
  cases step_cases hs with
  | @lock m rest hp free =>
    by_cases hu : u = t
    · subst hu
      exact ⟨_, hown.lock hp⟩
    · refine ⟨held, hheld.other hu fun x => ?_⟩
      by_cases hx : x = m
      · simp [hx, free, Ne.symm hu]
      · simp [hx]
  | @unlock m rest hp =>
    obtain ⟨howner, held', hrest⟩ := hown.unlock hp
    by_cases hu : u = t
    · subst hu
      exact ⟨held', hrest⟩
    · refine ⟨held, hheld.other hu fun x => ?_⟩
      by_cases hx : x = m
      · simp [hx, howner, Ne.symm hu]
      · simp [hx]
  | act hp =>
    by_cases hu : u = t
    · subst hu
      exact ⟨own, hown.act hp⟩
    · exact ⟨held, hheld.other hu fun x => Iff.rfl⟩

theorem Disciplined.run (h : Disciplined rank c) (schedule : List T) :
    Disciplined rank (c.run schedule) :=
  run_invariant (fun _ _ _ h hs => h.step hs) h schedule

theorem step_or_waits (hp : ∀ a, c.prog t ≠ .done a) : (c.step t).isSome = true ∨
    ∃ m rest, c.prog t = .lock m rest ∧ ∃ u, c.owner m = some u := by
  unfold step
  split
  · next hdone => exact absurd hdone (hp _)
  · next m rest hlock =>
    cases howner : c.owner m with
    | none => exact .inl rfl
    | some u => exact .inr ⟨m, rest, hlock, u, howner⟩
  · exact .inl rfl
  · exact .inl rfl

/-- Whoever owns a mutex can go on or waits for one that ranks higher, so the highest that is
waited for has an owner who can go on. -/
theorem Disciplined.progress_of_owned (h : Disciplined rank c) {bound : Nat}
    (hbound : ∀ m, rank m < bound) {n : Nat} (hm : c.owner m = some t)
    (hn : bound - rank m ≤ n) : ∃ u, (c.step u).isSome = true := by
  induction n generalizing m t with
  | zero =>
    have := hbound m
    omega
  | succ n ih =>
    rcases step_or_waits (h.owner_unfinished hm) with hstep | ⟨m', rest, hp, u, hu⟩
    · exact ⟨t, hstep⟩
    · have hlt := h.above hm hp
      have := hbound m'
      exact ih hu (by omega)

theorem Disciplined.progress (h : Disciplined rank c) {bound : Nat} (hbound : ∀ m, rank m < bound)
    (hp : ∀ a, c.prog t ≠ .done a) : ∃ u, (c.step u).isSome = true := by
  rcases step_or_waits hp with hstep | ⟨m, _, _, u, hu⟩
  · exact ⟨t, hstep⟩
  · exact h.progress_of_owned hbound hu (Nat.le_refl _)

/-- A disciplined thread that runs alone is never stopped, and ends as `Prog.alone` says. -/
theorem Guards.run_alone (h : Guards rank c t held)
    (hfree : ∀ m, c.owner m = none ∨ c.owner m = some t) :
    ∃ n, (c.run (List.replicate n t)).prog t = .done ((c.prog t).alone c.state).2 ∧
      (c.run (List.replicate n t)).state = ((c.prog t).alone c.state).1 := by
  generalize hp : c.prog t = p
  induction p generalizing c held with
  | done a => exact ⟨0, hp, rfl⟩
  | lock m rest ih =>
    have hnone : c.owner m = none := by
      rcases hfree m with hnone | hown
      · exact hnone
      · have hordered := h.ordered
        rw [hp] at hordered
        cases hordered with
        | lock above _ => exact absurd (above m ((h.owned m).mpr hown)) (Nat.lt_irrefl _)
    obtain ⟨n, hdone, hstate⟩ := @ih _ _ (h.lock hp)
      (fun x => by by_cases hx : x = m <;> simp [hx, hfree x]) (by simp)
    have hstep : c.step t = some
        ⟨c.state, Function.update c.owner m (some t), Function.update c.prog t rest⟩ := by
      simp [step, hp, hnone]
    refine ⟨n + 1, ?_, ?_⟩
    · rwa [List.replicate_succ, run, hstep]
    · rwa [List.replicate_succ, run, hstep]
  | unlock m rest ih =>
    obtain ⟨_, held', hrest⟩ := h.unlock hp
    obtain ⟨n, hdone, hstate⟩ := @ih _ _ hrest
      (fun x => by by_cases hx : x = m <;> simp [hx, hfree x]) (by simp)
    have hstep : c.step t = some
        ⟨c.state, Function.update c.owner m none, Function.update c.prog t rest⟩ := by
      simp [step, hp]
    refine ⟨n + 1, ?_, ?_⟩
    · rwa [List.replicate_succ, run, hstep]
    · rwa [List.replicate_succ, run, hstep]
  | act update rest ih =>
    obtain ⟨n, hdone, hstate⟩ := @ih c.state _ _ (h.act hp) hfree (by simp)
    have hstep : c.step t = some
        ⟨update c.state, c.owner, Function.update c.prog t (rest c.state)⟩ := by
      simp [step, hp]
    refine ⟨n + 1, ?_, ?_⟩
    · rwa [List.replicate_succ, run, hstep]
    · rwa [List.replicate_succ, run, hstep]

end Steps

end Threads

end Shared
