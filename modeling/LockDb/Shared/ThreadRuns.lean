import LockDb.Shared.Mutex
import LockDb.Shared.Fairness
import Mathlib.Data.DFinsupp.WellFounded
import Mathlib.SetTheory.Ordinal.Rank

/-!
# Runs of threads

What holds of the programs of threads, and therefore of their runs: that results do not
show in them; an invariant that every action keeps; that the threads finish under a
fair schedule; and that each mutex protects a part of the state. When no action touches
a part whose mutex its thread does not own, steps of different threads commute, so
their order is not seen.
-/

namespace Shared

set_option autoImplicit false

universe u v w x y

namespace Prog
variable {M : Type u} {S : Type v} {A : Type w}

/-- Every action of the program keeps `P`. -/
inductive Keeps (P : S → Prop) : Prog M S A → Prop where
  | done (a : A) : Keeps P (.done a)
  | lock {m : M} {rest : Prog M S A} (next : Keeps P rest) : Keeps P (.lock m rest)
  | unlock {m : M} {rest : Prog M S A} (next : Keeps P rest) : Keeps P (.unlock m rest)
  | act {update : S → S} {rest : S → Prog M S A} (keeps : ∀ s, P s → P (update s))
      (next : ∀ s, Keeps P (rest s)) : Keeps P (.act update rest)

section Map
variable {B : Type x}

/-- The same steps, with another result. -/
def map (f : A → B) : Prog M S A → Prog M S B
  | .done a => .done (f a)
  | .lock m rest => .lock m (map f rest)
  | .unlock m rest => .unlock m (map f rest)
  | .act update rest => .act update fun s => map f (rest s)

end Map

/-- What a program may have left after its first step. -/
inductive Next : Prog M S A → Prog M S A → Prop where
  | lock (m : M) (rest : Prog M S A) : Next rest (.lock m rest)
  | unlock (m : M) (rest : Prog M S A) : Next rest (.unlock m rest)
  | act (update : S → S) (rest : S → Prog M S A) (s : S) : Next (rest s) (.act update rest)

instance : IsWellFounded (Prog M S A) Next := by
  refine ⟨⟨fun p => ?_⟩⟩
  induction p with
  | done a => exact ⟨_, fun q hq => nomatch hq⟩
  | lock m rest ih =>
    refine ⟨_, fun q hq => ?_⟩
    cases hq with
    | lock => exact ih
  | unlock m rest ih =>
    refine ⟨_, fun q hq => ?_⟩
    cases hq with
    | unlock => exact ih
  | act update rest ih =>
    refine ⟨_, fun q hq => ?_⟩
    cases hq with
    | act _ _ s => exact ih s

noncomputable def height (p : Prog M S A) : Ordinal := IsWellFounded.rank Next p

theorem height_lt {p q : Prog M S A} (h : Next q p) : q.height < p.height :=
  IsWellFounded.rank_lt_of_rel h

section Confined
variable {Part : M → Type y} (part : ∀ m, S → Part m)

/-- With the guards `held`, the program reads and writes only the parts that these protect. -/
inductive Confined : List M → Prog M S A → Prop where
  | done {held : List M} (a : A) : Confined held (.done a)
  | lock {held : List M} {m : M} {rest : Prog M S A} (next : Confined (m :: held) rest) :
      Confined held (.lock m rest)
  | unlock {held : List M} {m : M} {rest : Prog M S A} (next : Confined held rest) :
      Confined (m :: held) (.unlock m rest)
  | act {held : List M} {update : S → S} {rest : S → Prog M S A}
      (frame : ∀ s, ∀ m ∉ held, part m (update s) = part m s)
      (reads : ∀ s s', (∀ m ∈ held, part m s = part m s') →
        rest s = rest s' ∧ ∀ m ∈ held, part m (update s) = part m (update s'))
      (next : ∀ s, Confined held (rest s)) : Confined held (.act update rest)

end Confined

end Prog

namespace Threads
variable {M : Type u} {S : Type v} {A : Type w} {T : Type x} [DecidableEq M] [DecidableEq T]
variable {c c' : Threads M S A T} {t u : T} {rank : M → Nat}

theorem run_append (c : Threads M S A T) (before after : List T) :
    c.run (before ++ after) = (c.run before).run after := by
  induction before generalizing c with
  | nil => rfl
  | cons t before ih => exact ih _

section Map
variable {B : Type y} {f : A → B}

def map (f : A → B) (c : Threads M S A T) : Threads M S B T :=
  ⟨c.state, c.owner, fun t => (c.prog t).map f⟩

omit [DecidableEq M] in
theorem map_update (f : A → B) (c : Threads M S A T) (t : T) (p : Prog M S A) (s : S)
    (owner : M → Option T) :
    map f ⟨s, owner, Function.update c.prog t p⟩ =
      ⟨s, owner, Function.update (c.map f).prog t (p.map f)⟩ := by
  have hprog : (fun u => (Function.update c.prog t p u).map f) =
      Function.update (fun u => (c.prog u).map f) t (p.map f) := by
    funext u
    exact Function.apply_update (fun _ q => Prog.map f q) c.prog t p u
  simp only [map, hprog]

theorem step_map (f : A → B) (c : Threads M S A T) (t : T) :
    (c.map f).step t = (c.step t).map (map f) := by
  have hp : (c.map f).prog t = (c.prog t).map f := rfl
  unfold step
  rw [hp]
  cases c.prog t with
  | done a => rfl
  | lock m rest =>
    have howner : (c.map f).owner m = c.owner m := rfl
    simp only [Prog.map, howner]
    cases c.owner m with
    | some u => rfl
    | none => simp only [Option.map_some, map_update]; rfl
  | unlock m rest => simp only [Prog.map, Option.map_some, map_update]; rfl
  | act update rest => simp only [Prog.map, Option.map_some, map_update]; rfl

/-- The results do not show in a run. -/
theorem run_map (f : A → B) (c : Threads M S A T) (schedule : List T) :
    (c.map f).run schedule = (c.run schedule).map f := by
  induction schedule generalizing c with
  | nil => rfl
  | cons t schedule ih =>
    unfold run
    rw [step_map, ← ih]
    cases c.step t <;> rfl

end Map

section Keeps
variable {P : S → Prop}

theorem step_keeps (hprog : ∀ t, (c.prog t).Keeps P) (h : P c.state) (hs : c.step t = some c') :
    (∀ t, (c'.prog t).Keeps P) ∧ P c'.state := by
  have hown := hprog t
  have hupdate : ∀ {p : Prog M S A}, p.Keeps P → ∀ u, (Function.update c.prog t p u).Keeps P := by
    intro p hp u
    rw [Function.update_apply]
    split
    · exact hp
    · exact hprog u
  cases step_cases hs with
  | lock hp _ =>
    rw [hp] at hown
    cases hown with
    | lock next => exact ⟨hupdate next, h⟩
  | unlock hp =>
    rw [hp] at hown
    cases hown with
    | unlock next => exact ⟨hupdate next, h⟩
  | act hp =>
    rw [hp] at hown
    cases hown with
    | act keeps next => exact ⟨hupdate (next _), keeps _ h⟩

/-- What every action keeps holds at every time. -/
theorem run_keeps (hprog : ∀ t, (c.prog t).Keeps P) (h : P c.state) (schedule : List T) :
    P (c.run schedule).state := by
  have hrun := run_invariant (P := fun c : Threads M S A T => (∀ t, (c.prog t).Keeps P) ∧ P c.state)
    (fun _ _ _ h hs => step_keeps h.1 h.2 hs) ⟨hprog, h⟩ schedule
  exact hrun.2

end Keeps

section Finish

/-- A turn of `t`; nothing happens if it cannot go on. -/
def takeTurn (c : Threads M S A T) (t : T) : Threads M S A T := (c.step t).getD c

noncomputable def heights (c : Threads M S A T) (t : T) : Ordinal := (c.prog t).height

theorem step_next (hs : c.step t = some c') :
    (c'.prog t).Next (c.prog t) ∧ ∀ u, u ≠ t → c'.prog u = c.prog u := by
  cases step_cases hs with
  | @lock m rest hp _ =>
    rw [hp]
    simp only [Function.update_self]
    exact ⟨.lock m rest, fun u hu => Function.update_of_ne hu _ _⟩
  | @unlock m rest hp =>
    rw [hp]
    simp only [Function.update_self]
    exact ⟨.unlock m rest, fun u hu => Function.update_of_ne hu _ _⟩
  | @act update rest hp =>
    rw [hp]
    simp only [Function.update_self]
    exact ⟨.act update rest _, fun u hu => Function.update_of_ne hu _ _⟩

theorem heights_lt (hs : c.step t = some c') : c'.heights < c.heights := by
  obtain ⟨hnext, hothers⟩ := step_next hs
  refine Pi.lt_def.mpr ⟨fun u => ?_, t, Prog.height_lt hnext⟩
  by_cases hu : u = t
  · subst hu
    exact le_of_lt (Prog.height_lt hnext)
  · rw [heights, heights, hothers u hu]

theorem Disciplined.takeTurn (h : Disciplined rank c) (t : T) :
    Disciplined rank (c.takeTurn t) := by
  unfold Threads.takeTurn
  cases hs : c.step t with
  | none => exact h
  | some c' => exact h.step hs

theorem takeTurn_descends (inv : Threads M S A T → Prop) : Descends takeTurn inv heights := by
  intro c t _
  unfold takeTurn
  cases hs : c.step t with
  | none => exact .inl rfl
  | some c' => exact .inr (heights_lt hs)

theorem disciplined_moves {bound : Nat} (hbound : ∀ m, rank m < bound) :
    Moves takeTurn (Disciplined rank) (fun c : Threads M S A T => ∀ t, ∃ a, c.prog t = .done a)
      Set.univ id := by
  intro c h hunfinished
  push Not at hunfinished
  obtain ⟨t, ht⟩ := hunfinished
  obtain ⟨u, hu⟩ := h.progress hbound ht
  obtain ⟨c', hs⟩ := Option.isSome_iff_exists.mp hu
  refine ⟨u, trivial, ?_⟩
  rintro t rfl heq
  have hlt := heights_lt hs
  rw [id_eq] at hs
  rw [Threads.takeTurn, hs, Option.getD_some] at heq
  rw [heq] at hlt
  exact lt_irrefl _ hlt

/-- Finitely many disciplined threads finish under every fair schedule, and leave every mutex
free. -/
theorem Disciplined.finishes [Finite T] (h : Disciplined rank c) {bound : Nat}
    (hbound : ∀ m, rank m < bound) {schedule : Nat → T} (hfair : Fair Set.univ schedule) :
    ∃ n, ∀ m, n ≤ m → (∀ t, ∃ a, (stateAt Threads.takeTurn schedule c m).prog t = .done a) ∧
      ∀ x, (stateAt Threads.takeTurn schedule c m).owner x = none := by
  have hdisciplined : ∀ m, Disciplined rank (stateAt Threads.takeTurn schedule c m) :=
    stateAt_invariant h fun _ t hc => hc.takeTurn t
  obtain ⟨n, _, hn⟩ :=
    (disciplined_moves hbound).reaches (takeTurn_descends _) hdisciplined hfair 0
  have hdone : ∀ m, n ≤ m → ∀ t, ∃ a, (stateAt Threads.takeTurn schedule c m).prog t = .done a := by
    apply stateAt_stable (P := fun c : Threads M S A T => ∀ t, ∃ a, c.prog t = .done a)
    · intro c t hc
      obtain ⟨a, ha⟩ := hc t
      have hnone : c.step t = none := by simp [Threads.step, ha]
      rw [Threads.takeTurn, hnone]
      exact hc
    · exact hn
  refine ⟨n, fun m hm => ⟨hdone m hm, fun x => ?_⟩⟩
  by_contra howner
  obtain ⟨t, ht⟩ := Option.ne_none_iff_exists'.mp howner
  obtain ⟨a, ha⟩ := hdone m hm t
  exact (hdisciplined m).owner_unfinished ht a ha

end Finish

section Commute
variable {Part : M → Type y} {part : ∀ m, S → Part m} {held : List M}

/-- The guards of a thread are the mutexes it owns, and its program keeps to their parts. -/
structure Confines (part : ∀ m, S → Part m) (c : Threads M S A T) (t : T) (held : List M) :
    Prop where
  owned : ∀ m, m ∈ held ↔ c.owner m = some t
  nodup : held.Nodup
  confined : (c.prog t).Confined part held

/-- Every thread keeps to the parts that its guards protect. -/
def Separate (part : ∀ m, S → Part m) (c : Threads M S A T) : Prop :=
  ∀ t, ∃ held, Confines part c t held

omit [DecidableEq M] [DecidableEq T] in
theorem separate_start (state : S) {prog : T → Prog M S A}
    (h : ∀ t, (prog t).Confined part []) : Separate part (start state prog) := by
  intro t
  exact ⟨[], by simp [start], List.nodup_nil, h t⟩

theorem Confines.step (h : Confines part c t held) (hs : c.step t = some c') :
    ∃ held', Confines part c' t held' := by
  have hconfined := h.confined
  cases step_cases hs with
  | @lock m rest hp free =>
    rw [hp] at hconfined
    cases hconfined with
    | lock next =>
      have hnew : m ∉ held := fun hm => by simp [(h.owned m).mp hm] at free
      refine ⟨m :: held, fun x => ?_, List.nodup_cons.mpr ⟨hnew, h.nodup⟩, by simpa using next⟩
      by_cases hx : x = m
      · simp [hx]
      · simp [hx, h.owned x]
  | @unlock m rest hp =>
    rw [hp] at hconfined
    cases hconfined with
    | @unlock held' _ _ next =>
      obtain ⟨hnot, hnodup⟩ := List.nodup_cons.mp h.nodup
      refine ⟨held', fun x => ?_, hnodup, by simpa using next⟩
      by_cases hx : x = m
      · subst hx
        simpa using hnot
      · simp [hx, ← h.owned x]
  | act hp =>
    rw [hp] at hconfined
    cases hconfined with
    | act _ _ next => exact ⟨held, h.owned, h.nodup, by simpa using next c.state⟩

/-- Nobody else's ownership changes when `t` makes a step. -/
theorem Confines.step_owner (h : Confines part c t held) (hs : c.step t = some c') (hu : u ≠ t)
    (m : M) : c'.owner m = some u ↔ c.owner m = some u := by
  cases step_cases hs with
  | @lock x rest hp free =>
    by_cases hm : m = x
    · simp [hm, free, Ne.symm hu]
    · simp [hm]
  | @unlock x rest hp =>
    have hconfined := h.confined
    rw [hp] at hconfined
    cases hconfined with
    | unlock next =>
      have hx : c.owner x = some t := (h.owned x).mp List.mem_cons_self
      by_cases hm : m = x
      · simp [hm, hx, Ne.symm hu]
      · simp [hm]
  | act hp => rfl

theorem Separate.step (h : Separate part c) (hs : c.step t = some c') : Separate part c' := by
  intro u
  obtain ⟨own, hown⟩ := h t
  by_cases hu : u = t
  · subst hu
    exact hown.step hs
  · obtain ⟨held, hheld⟩ := h u
    refine ⟨held, fun m => (hheld.owned m).trans (hown.step_owner hs hu m).symm, hheld.nodup, ?_⟩
    rw [(step_next hs).2 u hu]
    exact hheld.confined

theorem Separate.run (h : Separate part c) (schedule : List T) :
    Separate part (c.run schedule) :=
  run_invariant (fun _ _ _ h hs => h.step hs) h schedule

omit [DecidableEq M] [DecidableEq T] in
theorem Confines.disjoint (h : Confines part c t held) {held' : List M}
    (h' : Confines part c u held') (hne : t ≠ u) {m : M} (hm : m ∈ held) : m ∉ held' := by
  intro hm'
  have howner := (h.owned m).mp hm
  rw [(h'.owned m).mp hm'] at howner
  exact hne (Option.some.inj howner).symm

omit [DecidableEq T] in
/-- Actions of two threads at once: neither sees what the other changes. -/
theorem Separate.acts_commute (h : Separate part c)
    (hext : ∀ s s', (∀ m, part m s = part m s') → s = s') (hne : t ≠ u) {f g : S → S}
    {k l : S → Prog M S A} (ht : c.prog t = .act f k) (hu : c.prog u = .act g l) :
    g (f c.state) = f (g c.state) ∧ k (g c.state) = k c.state ∧ l (f c.state) = l c.state := by
  obtain ⟨held, hheld⟩ := h t
  obtain ⟨held', hheld'⟩ := h u
  have hconfined := hheld.confined
  have hconfined' := hheld'.confined
  rw [ht] at hconfined
  rw [hu] at hconfined'
  cases hconfined with
  | act frame reads _ =>
    cases hconfined' with
    | act frame' reads' _ =>
      have hown : ∀ m ∈ held, part m (g c.state) = part m c.state := fun m hm =>
        frame' c.state m (hheld.disjoint hheld' hne hm)
      have hown' : ∀ m ∈ held', part m (f c.state) = part m c.state := fun m hm =>
        frame c.state m (hheld'.disjoint hheld (Ne.symm hne) hm)
      obtain ⟨hk, hf⟩ := reads _ _ hown
      obtain ⟨hl, hg⟩ := reads' _ _ hown'
      refine ⟨hext _ _ fun m => ?_, hk, hl⟩
      by_cases hm : m ∈ held
      · rw [frame' _ m (hheld.disjoint hheld' hne hm), hf m hm]
      · rw [frame _ m hm]
        by_cases hm' : m ∈ held'
        · exact hg m hm'
        · rw [frame' _ m hm', frame' _ m hm', frame _ m hm]

section Orders
variable {m m' : M} {rest rest' : Prog M S A} {update : S → S} {k : S → Prog M S A}

theorem lock_lock (hne : t ≠ u) (hp : c.prog t = .lock m rest) (hp' : c.prog u = .lock m' rest')
    (free : c.owner m = none) (free' : c.owner m' = none) (hm : m ≠ m') :
    ∃ c', step ⟨c.state, Function.update c.owner m (some t), Function.update c.prog t rest⟩ u =
        some c' ∧
      step ⟨c.state, Function.update c.owner m' (some u), Function.update c.prog u rest'⟩ t =
        some c' := by
  refine ⟨⟨c.state, Function.update (Function.update c.owner m (some t)) m' (some u),
    Function.update (Function.update c.prog t rest) u rest'⟩, ?_, ?_⟩
  · simp [step, hp', hne.symm, free', hm.symm]
  · simp [step, hp, hne, free, hm, Function.update_comm hm, Function.update_comm hne]

theorem lock_unlock (hne : t ≠ u) (hp : c.prog t = .lock m rest)
    (hp' : c.prog u = .unlock m' rest') (free : c.owner m = none) (hm : m ≠ m') :
    ∃ c', step ⟨c.state, Function.update c.owner m (some t), Function.update c.prog t rest⟩ u =
        some c' ∧
      step ⟨c.state, Function.update c.owner m' none, Function.update c.prog u rest'⟩ t =
        some c' := by
  refine ⟨⟨c.state, Function.update (Function.update c.owner m (some t)) m' none,
    Function.update (Function.update c.prog t rest) u rest'⟩, ?_, ?_⟩
  · simp [step, hp', hne.symm]
  · simp [step, hp, hne, free, hm, Function.update_comm hm, Function.update_comm hne]

theorem lock_act (hne : t ≠ u) (hp : c.prog t = .lock m rest) (hp' : c.prog u = .act update k)
    (free : c.owner m = none) :
    ∃ c', step ⟨c.state, Function.update c.owner m (some t), Function.update c.prog t rest⟩ u =
        some c' ∧
      step ⟨update c.state, c.owner, Function.update c.prog u (k c.state)⟩ t = some c' := by
  refine ⟨⟨update c.state, Function.update c.owner m (some t),
    Function.update (Function.update c.prog t rest) u (k c.state)⟩, ?_, ?_⟩
  · simp [step, hp', hne.symm]
  · simp [step, hp, hne, free, Function.update_comm hne]

theorem unlock_unlock (hne : t ≠ u) (hp : c.prog t = .unlock m rest)
    (hp' : c.prog u = .unlock m' rest') (hm : m ≠ m') :
    ∃ c', step ⟨c.state, Function.update c.owner m none, Function.update c.prog t rest⟩ u =
        some c' ∧
      step ⟨c.state, Function.update c.owner m' none, Function.update c.prog u rest'⟩ t =
        some c' := by
  refine ⟨⟨c.state, Function.update (Function.update c.owner m none) m' none,
    Function.update (Function.update c.prog t rest) u rest'⟩, ?_, ?_⟩
  · simp [step, hp', hne.symm]
  · simp [step, hp, hne, Function.update_comm hm, Function.update_comm hne]

theorem unlock_act (hne : t ≠ u) (hp : c.prog t = .unlock m rest)
    (hp' : c.prog u = .act update k) :
    ∃ c', step ⟨c.state, Function.update c.owner m none, Function.update c.prog t rest⟩ u =
        some c' ∧
      step ⟨update c.state, c.owner, Function.update c.prog u (k c.state)⟩ t = some c' := by
  refine ⟨⟨update c.state, Function.update c.owner m none,
    Function.update (Function.update c.prog t rest) u (k c.state)⟩, ?_, ?_⟩
  · simp [step, hp', hne.symm]
  · simp [step, hp, hne, Function.update_comm hne]

end Orders

omit [DecidableEq M] [DecidableEq T] in
theorem Separate.owner_of_unlock (h : Separate part c) {m : M} {rest : Prog M S A}
    (hp : c.prog t = .unlock m rest) : c.owner m = some t := by
  obtain ⟨held, hheld⟩ := h t
  have hconfined := hheld.confined
  rw [hp] at hconfined
  cases hconfined with
  | unlock _ => exact (hheld.owned m).mp List.mem_cons_self

/-- Two threads that can both go on may do so in either order, unless both are for one mutex. -/
theorem Separate.diamond (h : Separate part c)
    (hext : ∀ s s', (∀ m, part m s = part m s') → s = s') (hne : t ≠ u)
    {c₁ c₂ : Threads M S A T} (ht : c.step t = some c₁) (hu : c.step u = some c₂)
    (hlocks : ∀ m rest rest', c.prog t = .lock m rest → c.prog u ≠ .lock m rest') :
    ∃ c', c₁.step u = some c' ∧ c₂.step t = some c' := by
  cases step_cases ht with
  | @lock m rest hp free =>
    cases step_cases hu with
    | @lock m' rest' hp' free' =>
      have hm : m ≠ m' := fun heq => hlocks m rest rest' hp (heq ▸ hp')
      exact lock_lock hne hp hp' free free' hm
    | @unlock m' rest' hp' =>
      have hm : m ≠ m' := by
        rintro rfl
        simp [h.owner_of_unlock hp'] at free
      exact lock_unlock hne hp hp' free hm
    | act hp' => exact lock_act hne hp hp' free
  | @unlock m rest hp =>
    have howner := h.owner_of_unlock hp
    cases step_cases hu with
    | @lock m' rest' hp' free' =>
      have hm : m' ≠ m := by
        rintro rfl
        simp [howner] at free'
      obtain ⟨c', h₂, h₁⟩ := lock_unlock hne.symm hp' hp free' hm
      exact ⟨c', h₁, h₂⟩
    | @unlock m' rest' hp' =>
      have hm : m ≠ m' := by
        rintro rfl
        rw [h.owner_of_unlock hp'] at howner
        exact hne (Option.some.inj howner).symm
      exact unlock_unlock hne hp hp' hm
    | act hp' => exact unlock_act hne hp hp'
  | @act f k hp =>
    cases step_cases hu with
    | lock hp' free' =>
      obtain ⟨c', h₂, h₁⟩ := lock_act hne.symm hp' hp free'
      exact ⟨c', h₁, h₂⟩
    | unlock hp' =>
      obtain ⟨c', h₂, h₁⟩ := unlock_act hne.symm hp' hp
      exact ⟨c', h₁, h₂⟩
    | @act g l hp' =>
      obtain ⟨hstate, hk, hl⟩ := h.acts_commute hext hne hp hp'
      refine ⟨⟨g (f c.state), c.owner,
        Function.update (Function.update c.prog t (k c.state)) u (l c.state)⟩, ?_, ?_⟩
      · simp [Threads.step, hp', hne.symm, hl]
      · simp [Threads.step, hp, hne, hk, hstate, Function.update_comm hne]

end Commute

end Threads

end Shared
