import LockDb.FairWorkers

/-!
# The oldest worker

The victim of a deadlock is the youngest transaction of the cycle, so the oldest of all
is never one. Under a fair schedule its worker gets every lock of its list, whatever
the others ask for and however often they are aborted, and holds them all until it
releases them itself.
-/

namespace LockDb

set_option autoImplicit false

open Shared Shared.Multimap

namespace Workers
variable {bits : Nat} {plan : TxnId → List (ResourceId × LockMode)} {c next : Workers bits}
variable {turn : Turn} {t : TxnId}

/-- Where the worker of `t` stands if nobody else is about to release its locks. -/
structure Spared (plan : TxnId → List (ResourceId × LockMode)) (t : TxnId) (c : Workers bits) :
    Prop where
  orderly : Orderly plan c
  victims : ∀ u victim, (c.worker u).status = .aborting victim → t < victim
  sound : (c.worker t).status ≠ .failed
  list : (c.worker t).acquired ++ (c.worker t).todo = plan t
  held : (c.worker t).status ≠ .released → ∀ lock ∈ (c.worker t).acquired, Covered c.table t lock

theorem spared_init (bits : Nat) (plan : TxnId → List (ResourceId × LockMode)) (t : TxnId) :
    Spared plan t (init bits plan) where
  orderly := orderly_init bits plan
  victims := by simp [init]
  sound := by simp [init]
  list := by simp [init]
  held := by simp [init]

/-- Everything that matters to `t` is as before, but for the wait map and the other workers. -/
theorem Spared.frame (h : Spared plan t c) (horderly : Orderly plan next)
    (hvictims : ∀ u victim, (next.worker u).status = .aborting victim → t < victim)
    (hworker : next.worker t = c.worker t)
    (hcovers : ∀ lock, Covered c.table t lock → Covered next.table t lock) :
    Spared plan t next where
  orderly := horderly
  victims := hvictims
  sound := by rw [hworker]; exact h.sound
  list := by rw [hworker]; exact h.list
  held hs lock hlock := by
    rw [hworker] at hs hlock
    exact hcovers lock (h.held hs lock hlock)

theorem Spared.victims_update (h : Spared plan t c) (turn : Turn) {w : Worker}
    (hw : ∀ victim, w.status = .aborting victim → t < victim) (u victim : TxnId)
    (hu : (Function.update c.worker turn.txn w u).status = .aborting victim) : t < victim := by
  rw [Function.update_apply] at hu
  split at hu
  · exact hw victim hu
  · exact h.victims u victim hu

theorem Spared.granted (h : Spared plan t c) {res : ResourceId} {mode : LockMode}
    {todo : List (ResourceId × LockMode)} {table : LockManager bits}
    (hs : (c.worker turn.txn).status = .running)
    (ht : (c.worker turn.txn).todo = (res, mode) :: todo)
    (held : table.modeHeld = LockTable.heldGrant c.table.modeHeld turn.txn res mode)
    {w : Worker} (hw : w = { c.worker turn.txn with
      todo := todo, acquired := (c.worker turn.txn).acquired ++ [(res, mode)] })
    (horderly : Orderly plan ⟨table, Function.update c.worker turn.txn w⟩) :
    Spared plan t ⟨table, Function.update c.worker turn.txn w⟩ := by
  have hvictims := h.victims_update turn (w := w) fun victim hv => by simp [hw, hs] at hv
  by_cases htt : t = turn.txn
  · subst htt
    refine ⟨horderly, hvictims, ?_, ?_, ?_⟩
    · simp [hw, hs]
    · simp [hw, ← h.list, ht]
    · intro _ lock hlock
      simp only [Function.update_self, hw, List.mem_append, List.mem_singleton] at hlock
      rcases hlock with hlock | rfl
      · exact (h.held (by simp [hs]) lock hlock).of_grant held
      · refine ⟨_, by rw [held, LockTable.heldGrant, if_pos ⟨rfl, rfl⟩], ?_⟩
        exact LockMode.le_iff_covers.mp (le_raise _ mode)
  · apply h.frame horderly hvictims
    · exact Function.update_of_ne htt _ _
    · exact fun lock hlock => hlock.of_grant held

/-- Every member of a cycle has a list, so the victim is younger than the oldest of those. -/
theorem Orderly.lt_victim (h : Orderly plan c) (holdest : ∀ u, plan u ≠ [] → t ≤ u)
    {d : Deadlock} (report : Reported c.table.WaitsFor d) : t < d.victim := by
  obtain ⟨u, hu, hlt⟩ := report.younger
  obtain ⟨w, hw⟩ := LockManager.registered_of_cycle report.cycle hu
  obtain ⟨_, hhead⟩ := h.waiting u w hw
  have hplan : plan u ≠ [] := fun hplan => by simp [(h.idle u hplan).1] at hhead
  exact lt_of_le_of_lt (holdest u hplan) hlt

theorem Spared.step (h : Spared plan t c) (holdest : ∀ u, plan u ≠ [] → t ≤ u) (turn : Turn) :
    Spared plan t (c.step turn).1 := by
  have horderly := h.orderly.step turn
  have hcase := turn_cases h.orderly.inv turn
  generalize (c.step turn).1 = next at hcase horderly
  cases hcase with
  | ended hs =>
    have hvictims := h.victims_update turn
      (w := { c.worker turn.txn with status := .released }) fun victim hv => by simp at hv
    by_cases htt : t = turn.txn
    · subst htt
      exact ⟨horderly, hvictims, by simp, by simpa using h.list, by simp⟩
    · apply h.frame horderly hvictims
      · exact Function.update_of_ne htt _ _
      · exact fun lock hlock => releaseAll_covers h.orderly.inv hlock htt
  | granted hs ht _ held _ _ => exact h.granted hs ht held rfl horderly
  | waiting _ _ _ _ => exact h.frame horderly h.victims rfl fun _ hlock => hlock
  | @deadlock _ _ _ d hs _ _ report =>
    have hlt : t < d.victim := horderly.lt_victim holdest report
    have hvictims := h.victims_update turn
      (w := { c.worker turn.txn with status := .aborting d.victim }) fun victim hv => by
        obtain rfl : d.victim = victim := by simpa using hv
        exact hlt
    by_cases htt : t = turn.txn
    · subst htt
      refine ⟨horderly, hvictims, by simp, by simpa using h.list, ?_⟩
      intro _ lock hlock
      simp only [Function.update_self] at hlock
      exact h.held (by simp [hs]) lock hlock
    · exact h.frame horderly hvictims (Function.update_of_ne htt _ _) fun _ hlock => hlock
  | @aborted victim hs =>
    have hlt : t < victim := h.victims _ _ hs
    have hcovers : ∀ lock, Covered c.table t lock →
        Covered (c.table.releaseAll victim).1 t lock := fun lock hlock =>
      releaseAll_covers h.orderly.inv hlock (ne_of_lt hlt)
    have hvictims := h.victims_update turn
      (w := { c.worker turn.txn with
        status := if victim = turn.txn then .failed else .running }) fun u hu => by
          simp only at hu
          split at hu <;> simp at hu
    by_cases htt : t = turn.txn
    · subst htt
      have hne : victim ≠ turn.txn := ne_of_gt hlt
      refine ⟨horderly, hvictims, by simp [hne], by simpa using h.list, ?_⟩
      intro _ lock hlock
      simp only [Function.update_self] at hlock
      exact hcovers lock (h.held (by simp [hs]) lock hlock)
    · exact h.frame horderly hvictims (Function.update_of_ne htt _ _) hcovers
  | nothing _ => exact h

/-- Nobody but its own worker releases the locks of `t`, and that when its list is empty. -/
theorem Spared.releases (h : Spared plan t c) (hout : (c.step turn).2 = .releasedAll t) :
    turn.txn = t ∧ (c.worker t).status = .running ∧ (c.worker t).todo = [] := by
  cases hs : (c.worker turn.txn).status with
  | running =>
    cases htodo : (c.worker turn.txn).todo with
    | nil =>
      simp only [Workers.step, hs, htodo, Made.releasedAll.injEq] at hout
      subst hout
      exact ⟨rfl, hs, htodo⟩
    | cons lock todo => simp [Workers.step, hs, htodo] at hout
  | aborting victim =>
    simp only [Workers.step, hs, Made.releasedAll.injEq] at hout
    exact absurd (h.victims _ _ hs) (hout ▸ lt_irrefl _)
  | failed =>
    simp only [Workers.step, hs, Made.releasedAll.injEq] at hout
    exact absurd (hout ▸ hs) h.sound
  | released => simp [Workers.step, hs] at hout

theorem Spared.release_of_released (h : Spared plan t c)
    (hbefore : (c.worker t).status ≠ .released)
    (hafter : ((c.step turn).1.worker t).status = .released) :
    (c.step turn).2 = .releasedAll t := by
  have hcase := turn_cases h.orderly.inv turn
  generalize (c.step turn).1 = next at hcase hafter
  have hother : ∀ {w : Worker}, t ≠ turn.txn →
      (Function.update c.worker turn.txn w t).status ≠ .released := by
    intro w htt
    rwa [Function.update_of_ne htt]
  cases hcase with
  | ended hs =>
    by_cases htt : t = turn.txn
    · subst htt
      rcases hs with hs | ⟨hs, htodo⟩
      · exact absurd hs h.sound
      · simp only [Workers.step, hs, htodo]
    · exact absurd hafter (hother htt)
  | granted hs _ _ _ _ _ =>
    by_cases htt : t = turn.txn
    · subst htt
      simp [hs] at hafter
    · exact absurd hafter (hother htt)
  | waiting _ _ _ _ => exact absurd hafter hbefore
  | deadlock _ _ _ _ =>
    by_cases htt : t = turn.txn
    · subst htt
      simp at hafter
    · exact absurd hafter (hother htt)
  | aborted _ =>
    by_cases htt : t = turn.txn
    · subst htt
      simp only [Function.update_self] at hafter
      split at hafter <;> simp at hafter
    · exact absurd hafter (hother htt)
  | nothing _ => exact absurd hafter hbefore

theorem Spared.released_of_release (h : Spared plan t c)
    (hout : (c.step turn).2 = .releasedAll t) :
    ((c.step turn).1.worker t).status = .released := by
  obtain ⟨rfl, hs, htodo⟩ := h.releases hout
  simp [Workers.step, hs, htodo]

section Schedule
variable {schedule : Nat → Turn} (holdest : ∀ u, plan u ≠ [] → t ≤ u)
include holdest

theorem spared_before (n : Nat) : Spared plan t (before bits plan schedule n) :=
  stateAt_invariant (spared_init bits plan t) (fun _ turn h => h.step holdest turn) n

theorem exists_release {n : Nat}
    (hn : ((before bits plan schedule n).worker t).status = .released) :
    ∃ k, ((before bits plan schedule k).step (schedule k)).2 = .releasedAll t := by
  induction n with
  | zero => simp [before, stateAt, init] at hn
  | succ n ih =>
    by_cases hold : ((before bits plan schedule n).worker t).status = .released
    · exact ih hold
    · exact ⟨n, (spared_before holdest n).release_of_released hold hn⟩

/-- A worker that has released is not running again. -/
theorem not_running_of_release {n m : Nat}
    (hn : ((before bits plan schedule n).step (schedule n)).2 = .releasedAll t) (hnm : n < m) :
    ((before bits plan schedule m).worker t).status ≠ .running := by
  have hspared := @spared_before bits plan t schedule holdest
  have hnext := (hspared n).released_of_release hn
  have hlater : Orderly plan (before bits plan schedule m) ∧
      ((before bits plan schedule m).worker t).status = .released := by
    apply stateAt_stable (P := fun c => Orderly plan c ∧ (c.worker t).status = .released)
    · exact fun c turn h => ⟨h.1.step turn, released_step h.1.inv turn h.2⟩
    · exact ⟨(hspared (n + 1)).orderly, hnext⟩
    · exact hnm
  simp [hlater.2]

end Schedule

end Workers

/-- The oldest worker is never aborted: under a fair schedule `release_all` is called for it
once, by itself, at a time when it holds every lock of its list. -/
theorem oldest_worker_gets_all (bits : Nat) (plan : TxnId → List (ResourceId × LockMode))
    (schedule : Nat → Turn) (hfair : Fair {t | plan t ≠ []} (Turn.txn ∘ schedule)) (t : TxnId)
    (hplan : plan t ≠ []) (holdest : ∀ u, plan u ≠ [] → t ≤ u) :
    let now := Workers.before bits plan schedule
    ∃ n, (schedule n).txn = t ∧ (now n).worker t = ⟨[], plan t, .running⟩ ∧
      (∀ lock ∈ plan t, Covered (now n).table t lock) ∧
      ∀ m, ((now m).step (schedule m)).2 = .releasedAll t ↔ m = n := by
  intro now
  have hspared : ∀ n, Workers.Spared plan t (now n) := Workers.spared_before holdest
  obtain ⟨last, hlast⟩ := Workers.reaches_finished bits plan schedule hfair
  obtain ⟨n, hn⟩ := Workers.exists_release holdest (hlast t hplan)
  obtain ⟨hturn, hs, htodo⟩ := (hspared n).releases hn
  have hacquired : ((now n).worker t).acquired = plan t := by
    have hlist := (hspared n).list
    rwa [htodo, List.append_nil] at hlist
  refine ⟨n, hturn, ?_, ?_, ?_⟩
  · rw [← hacquired, ← htodo, ← hs]
  · rw [← hacquired]
    exact (hspared n).held (by simp [hs])
  · intro m
    constructor
    · intro hm
      obtain ⟨_, hs', _⟩ := (hspared m).releases hm
      rcases Nat.lt_trichotomy m n with hlt | heq | hgt
      · exact absurd hs (Workers.not_running_of_release holdest hm hlt)
      · exact heq
      · exact absurd hs' (Workers.not_running_of_release holdest hn hgt)
    · rintro rfl
      exact hn

theorem oldest_worker_gets_all_crossed :
    let now := Workers.before 2 crossedPlan alternating
    ∃ n, (now n).worker ⟨1⟩ = ⟨[], crossedPlan ⟨1⟩, .running⟩ ∧
      ∀ lock ∈ crossedPlan ⟨1⟩, Covered (now n).table ⟨1⟩ lock := by
  intro now
  have holdest : ∀ u, crossedPlan u ≠ [] → (⟨1⟩ : TxnId) ≤ u := by
    intro u hu
    unfold crossedPlan at hu
    split at hu
    · next h1 => rw [h1]
    · split at hu
      · next h2 => rw [h2]; decide
      · exact absurd rfl hu
  obtain ⟨n, _, hworker, hcovered, _⟩ := oldest_worker_gets_all 2 crossedPlan alternating
    alternating_fair ⟨1⟩ (by decide) holdest
  exact ⟨n, hworker, hcovered⟩

end LockDb
