import LockDb.Shared.Mutex
import Mathlib.Algebra.Order.BigOperators.Group.Finset

/-!
# What threads have to clear away

Threads put things into a shared state and take them out again; a thing may be there
several times. Each thread owes as many of a thing as it may have put there and has not
yet taken out. Programs that stop only when they owe nothing leave nothing behind,
however their steps are interleaved and whoever takes out what.
-/

namespace Shared

set_option autoImplicit false

universe u v w x y
variable {M : Type u} {S : Type v} {A : Type w} {I : Type y} {P : S → Prop} {there : S → I → Nat}

/-- The program owes `owes` and pays it: after an action nothing is left but what is owed then,
and what was there before and not owed. `P` is an invariant of the state. -/
inductive Prog.Pays (P : S → Prop) (there : S → I → Nat) : (I → Nat) → Prog M S A → Prop where
  | done {owes : I → Nat} (a : A) (paid : ∀ i, owes i = 0) : Pays P there owes (.done a)
  | lock {owes : I → Nat} {m : M} {rest : Prog M S A} (next : Pays P there owes rest) :
      Pays P there owes (.lock m rest)
  | unlock {owes : I → Nat} {m : M} {rest : Prog M S A} (next : Pays P there owes rest) :
      Pays P there owes (.unlock m rest)
  | act {owes : I → Nat} {update : S → S} {rest : S → Prog M S A} (after : S → I → Nat)
      (keeps : ∀ s, P s → P (update s))
      (owed : ∀ s, P s → ∀ i, there (update s) i ≤ after s i + (there s i - owes i))
      (next : ∀ s, Pays P there (after s) (rest s)) : Pays P there owes (.act update rest)

theorem Prog.Pays.mono {owes owes' : I → Nat} {p : Prog M S A} (h : p.Pays P there owes)
    (hless : ∀ i, owes' i ≤ owes i) : p.Pays P there owes' := by
  induction h with
  | done a paid => exact .done a fun i => Nat.eq_zero_of_le_zero (paid i ▸ hless i)
  | lock _ ih => exact .lock (ih hless)
  | unlock _ ih => exact .unlock (ih hless)
  | act after keeps owed next _ =>
    refine .act after keeps (fun s hs i => ?_) next
    have howed := owed s hs i
    have hi := hless i
    omega

namespace Threads
variable {T : Type x} {c c' : Threads M S A T} {owes : T → I → Nat} {t : T}

/-- Of nothing there is more in the state than the threads owe together. -/
structure Owed (P : S → Prop) (there : S → I → Nat) (c : Threads M S A T) (owes : T → I → Nat) :
    Prop where
  inv : P c.state
  pays : ∀ t, (c.prog t).Pays P there (owes t)
  owed : ∀ i, ∃ ts : Finset T, there c.state i ≤ ∑ t ∈ ts, owes t i

theorem Owed.nothing_left (h : Owed P there c owes) (hdone : ∀ t, ∃ a, c.prog t = .done a)
    (i : I) : there c.state i = 0 := by
  have hpaid : ∀ t, owes t i = 0 := by
    intro t
    obtain ⟨a, ha⟩ := hdone t
    have hpays := h.pays t
    rw [ha] at hpays
    cases hpays with
    | done _ paid => exact paid i
  obtain ⟨ts, hts⟩ := h.owed i
  have hsum : ∑ t ∈ ts, owes t i = 0 := Finset.sum_eq_zero fun t _ => hpaid t
  omega

variable [DecidableEq M] [DecidableEq T]

omit [DecidableEq M] in
theorem Owed.others (h : Owed P there c owes) {p : Prog M S A} {after : I → Nat}
    (hp : p.Pays P there after) (u : T) :
    (Function.update c.prog t p u).Pays P there (Function.update owes t after u) := by
  by_cases hu : u = t
  · subst hu
    simpa only [Function.update_self] using hp
  · simpa only [Function.update_of_ne hu] using h.pays u

omit [DecidableEq M] in
/-- What the others owe covers what was there and not owed by `t`. -/
theorem Owed.owed_update (h : Owed P there c owes) {after : I → Nat} {i : I} {n : Nat}
    (hn : n ≤ after i + (there c.state i - owes t i)) :
    ∃ ts : Finset T, n ≤ ∑ u ∈ ts, Function.update owes t after u i := by
  obtain ⟨ts, hts⟩ := h.owed i
  have hinsert : ∀ f : T → Nat, ∑ u ∈ insert t (ts.erase t), f u = f t + ∑ u ∈ ts.erase t, f u :=
    fun f => Finset.sum_insert (Finset.notMem_erase t ts)
  have hall : ∑ u ∈ ts, owes u i ≤ ∑ u ∈ insert t (ts.erase t), owes u i :=
    Finset.sum_le_sum_of_subset (Finset.subset_insert_iff.mpr (Finset.Subset.refl _))
  have hothers : ∑ u ∈ ts.erase t, Function.update owes t after u i =
      ∑ u ∈ ts.erase t, owes u i :=
    Finset.sum_congr rfl fun u hu => by rw [Function.update_of_ne (Finset.ne_of_mem_erase hu)]
  refine ⟨insert t (ts.erase t), ?_⟩
  rw [hinsert] at hall
  rw [hinsert, hothers, Function.update_self]
  omega

theorem Owed.step (h : Owed P there c owes) (hs : c.step t = some c') :
    ∃ owes', Owed P there c' owes' := by
  have hpays := h.pays t
  cases step_cases hs with
  | lock hp _ =>
    rw [hp] at hpays
    cases hpays with
    | lock next => exact ⟨_, h.inv, h.others next, by simpa using h.owed⟩
  | unlock hp =>
    rw [hp] at hpays
    cases hpays with
    | unlock next => exact ⟨_, h.inv, h.others next, by simpa using h.owed⟩
  | act hp =>
    rw [hp] at hpays
    cases hpays with
    | act after keeps owed next =>
      exact ⟨_, keeps _ h.inv, h.others (next c.state),
        fun i => h.owed_update (owed c.state h.inv i)⟩

theorem Owed.run (h : Owed P there c owes) (schedule : List T) :
    ∃ owes', Owed P there (c.run schedule) owes' :=
  run_invariant (P := fun c => ∃ owes, Owed P there c owes)
    (fun _ _ _ h hs => h.elim fun _ h => h.step hs) ⟨owes, h⟩ schedule

end Threads

end Shared
