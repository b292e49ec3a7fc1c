import LockDb.Shared.Serial

/-!
# Two-phase transactions are serializable

A transaction accesses an item under a guard, and guards of different transactions
on one item exclude each other unless both are for reading. Once a transaction has
given a guard up it takes no new one. The order in which transactions begin to give
up their guards is then an order in which they could have run one after the other.
Ids are used again: a transaction is its id with the number of its predecessors.
-/

namespace Shared

set_option autoImplicit false

universe u v w

/-- What has happened so far: how many transactions had each id before the current one, which
ones have begun to give up guards, first ones first, and the accesses, oldest first. -/
structure Journal (T : Type u) (D : Type v) (V : Type w) where
  epoch : T → Nat
  closed : List (T × Nat)
  history : List (Access (T × Nat) D V)

/-- Who may read an item, and with `true` who may write it. -/
abbrev Guards (T : Type u) (D : Type v) := T → D → Bool → Prop

def Guards.Exclusive {T : Type u} {D : Type v} (guards : Guards T D) : Prop :=
  ∀ {t u : T} {d : D} {w w' : Bool}, t ≠ u → guards t d w → guards u d w' → w = false ∧ w' = false

namespace Journal
variable {T : Type u} {D : Type v} {V : Type w} [DecidableEq T]

def start : Journal T D V := ⟨fun _ => 0, [], []⟩

section Defs
variable (j : Journal T D V)

/-- The transaction that has the id `t` now. -/
def current (t : T) : T × Nat := (t, j.epoch t)

/-- `t` begins to give up its guards, or goes on doing so. -/
def close (t : T) : Journal T D V :=
  if j.current t ∈ j.closed then j else { j with closed := j.closed ++ [j.current t] }

/-- A new transaction takes the id. -/
def renew (t : T) : Journal T D V := { j with epoch := Function.update j.epoch t (j.epoch t + 1) }

def record (t : T) (item : D) (written : Option V) : Journal T D V :=
  { j with history := j.history ++ [⟨j.current t, item, written⟩] }

/-- `x` has closed, and before `y` did. -/
def Before (x y : T × Nat) : Prop := x ∈ j.closed ∧ (y ∈ j.closed → [x, y].Sublist j.closed)

/-- The closed transactions in their order, then the others that accessed something. -/
def order : List (T × Nat) :=
  j.closed ++ ((j.history.map Access.txn).filter fun x => x ∉ j.closed).dedup

end Defs

/-- The invariant of a run of two-phase transactions. -/
structure Ordered (guards : Guards T D) (j : Journal T D V) : Prop where
  exclusive : guards.Exclusive
  guarded : ∀ a ∈ j.history,
    a.txn ∈ j.closed ∨ a.txn = j.current a.txn.1 ∧ guards a.txn.1 a.item a.writes
  later : ∀ a ∈ j.history, ∀ u w, guards u a.item w → a.writes = true ∨ w = true →
    a.txn ≠ j.current u → j.Before a.txn (j.current u)
  pairs : j.history.Pairwise fun a b => a.Conflicts b → j.Before a.txn b.txn
  nodup : j.closed.Nodup
  known : ∀ x ∈ j.closed, x.2 ≤ j.epoch x.1

variable {guards next : Guards T D} {j : Journal T D V} {t : T}

omit [DecidableEq T] in
theorem ordered_start (h : guards.Exclusive) : Ordered guards (start : Journal T D V) where
  exclusive := h
  guarded := by simp [start]
  later := by simp [start]
  pairs := by simp [start]
  nodup := by simp [start]
  known := by simp [start]

/-- A transaction that has not closed takes guards. -/
theorem Ordered.acquire (h : Ordered guards j) (hexcl : next.Exclusive)
    (hothers : ∀ u d w, u ≠ t → (next u d w ↔ guards u d w))
    (hown : ∀ d w, guards t d w → next t d w) (hopen : j.current t ∉ j.closed) :
    Ordered next j where
  exclusive := hexcl
  guarded a ha := by
    refine (h.guarded a ha).imp_right fun hold => ⟨hold.1, ?_⟩
    by_cases hat : a.txn.1 = t
    · rw [hat] at hold ⊢
      exact hown _ _ hold.2
    · exact (hothers _ _ _ hat).mpr hold.2
  later a ha u w hu hw hne := by
    by_cases hut : u = t
    · subst hut
      refine ⟨?_, fun hclosed => absurd hclosed hopen⟩
      -- an open transaction still has the guard of its access, which excludes the new one
      refine (h.guarded a ha).resolve_right fun hold => ?_
      have hau : a.txn.1 ≠ u := fun heq => hne (by rw [hold.1, heq])
      have hread := hexcl hau ((hothers _ _ _ hau).mpr hold.2) hu
      rcases hw with hw | hw
      · exact Bool.false_ne_true (hread.1.symm.trans hw)
      · exact Bool.false_ne_true (hread.2.symm.trans hw)
    · exact h.later a ha u w ((hothers u _ w hut).mp hu) hw hne
  pairs := h.pairs
  nodup := h.nodup
  known := h.known

omit [DecidableEq T] in
theorem Ordered.congr (h : Ordered guards j) (hsame : ∀ u d w, next u d w ↔ guards u d w) :
    Ordered next j := by
  have heq : next = guards := by
    funext u d w
    exact propext (hsame u d w)
  rwa [heq]

section Close

theorem mem_close {x : T × Nat} : x ∈ (j.close t).closed ↔ x ∈ j.closed ∨ x = j.current t := by
  unfold close
  split
  · next hmem =>
    constructor
    · exact .inl
    · rintro (hx | rfl)
      · exact hx
      · exact hmem
  · simp

theorem close_epoch : (j.close t).epoch = j.epoch := by
  unfold close
  split <;> rfl

theorem close_history : (j.close t).history = j.history := by
  unfold close
  split <;> rfl

theorem close_current (u : T) : (j.close t).current u = j.current u := by
  rw [current, close_epoch, current]

theorem Before.close {x y : T × Nat} (h : j.Before x y) : (j.close t).Before x y := by
  refine ⟨mem_close.mpr (.inl h.1), fun hy => ?_⟩
  unfold Journal.close at hy ⊢
  split
  · next hmem =>
    rw [if_pos hmem] at hy
    exact h.2 hy
  · next hmem =>
    rw [if_neg hmem] at hy
    rcases List.mem_append.mp hy with hy | hy
    · exact (h.2 hy).trans (List.sublist_append_left _ _)
    · rw [List.mem_singleton.mp hy]
      exact (List.singleton_sublist.mpr h.1).append (List.Sublist.refl [j.current t])

theorem close_nodup (h : j.closed.Nodup) : (j.close t).closed.Nodup := by
  unfold close
  split
  · exact h
  · next hmem =>
    rw [List.nodup_append]
    refine ⟨h, List.nodup_singleton _, ?_⟩
    intro x hx y hy heq
    rw [heq, List.mem_singleton.mp hy] at hx
    exact hmem hx

/-- A transaction gives up guards and closes. -/
theorem Ordered.close (h : Ordered guards j)
    (hothers : ∀ u d w, u ≠ t → (next u d w ↔ guards u d w))
    (hown : ∀ d w, next t d w → guards t d w) : Ordered next (j.close t) := by
  have hless : ∀ u d w, next u d w → guards u d w := by
    intro u d w hu
    by_cases hut : u = t
    · subst hut
      exact hown d w hu
    · exact (hothers u d w hut).mp hu
  refine ⟨?_, ?_, ?_, ?_, close_nodup h.nodup, ?_⟩
  · intro u v d w w' huv hu hv
    exact h.exclusive huv (hless _ _ _ hu) (hless _ _ _ hv)
  · intro a ha
    rw [close_history] at ha
    rw [close_current, mem_close]
    rcases h.guarded a ha with hclosed | ⟨hcur, hguard⟩
    · exact .inl (.inl hclosed)
    · by_cases hat : a.txn.1 = t
      · exact .inl (.inr (hat ▸ hcur))
      · exact .inr ⟨hcur, (hothers _ _ _ hat).mpr hguard⟩
  · intro a ha u w hu hw hne
    rw [close_history] at ha
    rw [close_current] at hne ⊢
    exact (h.later a ha u w (hless _ _ _ hu) hw hne).close
  · rw [close_history]
    exact h.pairs.imp fun hab hc => (hab hc).close
  · intro x hx
    rw [close_epoch]
    rcases mem_close.mp hx with hx | rfl
    · exact h.known x hx
    · exact Nat.le_refl _

end Close

section Renew

theorem renew_current_of_ne {u : T} (hu : u ≠ t) : (j.renew t).current u = j.current u := by
  simp [current, renew, hu]

/-- An id whose transaction has no guard left is used again. -/
theorem Ordered.renew (h : Ordered guards j) (hnone : ∀ d w, ¬ guards t d w) :
    Ordered guards (j.renew t) where
  exclusive := h.exclusive
  guarded a ha := by
    refine (h.guarded a ha).imp_right fun hold => ?_
    have hat : a.txn.1 ≠ t := fun heq => hnone _ _ (heq ▸ hold.2)
    exact ⟨by rw [renew_current_of_ne hat]; exact hold.1, hold.2⟩
  later a ha u w hu hw hne := by
    have hut : u ≠ t := fun heq => hnone _ _ (heq ▸ hu)
    rw [renew_current_of_ne hut] at hne ⊢
    exact h.later a ha u w hu hw hne
  pairs := h.pairs
  nodup := h.nodup
  known x hx := by
    have hle : x.2 ≤ j.epoch x.1 := h.known x hx
    by_cases hxt : x.1 = t
    · simp only [Journal.renew, hxt, Function.update_self] at hle ⊢
      omega
    · simpa only [Journal.renew, Function.update_of_ne hxt] using hle

end Renew

omit [DecidableEq T] in
/-- A transaction accesses an item it has a guard on. -/
theorem Ordered.record (h : Ordered guards j) {d : D} {written : Option V}
    (hguard : guards t d written.isSome) : Ordered guards (j.record t d written) where
  exclusive := h.exclusive
  guarded a ha := by
    rcases List.mem_append.mp ha with ha | ha
    · exact h.guarded a ha
    · rw [List.mem_singleton.mp ha]
      exact .inr ⟨rfl, hguard⟩
  later a ha u w hu hw hne := by
    rcases List.mem_append.mp ha with ha | ha
    · exact h.later a ha u w hu hw hne
    · rw [List.mem_singleton.mp ha] at hu hw hne
      have htu : t ≠ u := fun heq => hne (by rw [heq]; rfl)
      have hread := h.exclusive htu hguard hu
      rcases hw with hw | hw
      · exact absurd (hread.1.symm.trans hw) Bool.false_ne_true
      · exact absurd (hread.2.symm.trans hw) Bool.false_ne_true
  pairs := by
    refine List.pairwise_append.mpr ⟨h.pairs, List.pairwise_singleton _ _, ?_⟩
    intro a ha b hb hc
    rw [List.mem_singleton.mp hb] at hc ⊢
    obtain ⟨hne, hitem, hw⟩ := hc
    exact h.later a ha t written.isSome (hitem ▸ hguard) hw hne
  nodup := h.nodup
  known := h.known

section Serial

theorem order_nodup (h : j.closed.Nodup) : j.order.Nodup := by
  refine List.nodup_append.mpr ⟨h, List.nodup_dedup _, ?_⟩
  intro x hx y hy heq
  have hopen := (List.mem_filter.mp (List.mem_dedup.mp hy)).2
  exact of_decide_eq_true hopen (heq ▸ hx)

theorem mem_order {a : Access (T × Nat) D V} (ha : a ∈ j.history) : a.txn ∈ j.order := by
  unfold order
  by_cases hclosed : a.txn ∈ j.closed
  · exact List.mem_append_left _ hclosed
  · refine List.mem_append_right _ (List.mem_dedup.mpr (List.mem_filter.mpr ⟨?_, ?_⟩))
    · exact List.mem_map_of_mem ha
    · exact decide_eq_true hclosed

theorem Before.sublist_order {x : T × Nat} {b : Access (T × Nat) D V}
    (h : j.Before x b.txn) (hb : b ∈ j.history) : [x, b.txn].Sublist j.order := by
  unfold order
  by_cases hclosed : b.txn ∈ j.closed
  · exact (h.2 hclosed).trans (List.sublist_append_left _ _)
  · have hopen := (List.mem_append.mp (mem_order hb)).resolve_left hclosed
    exact (List.singleton_sublist.mpr h.1).append (List.singleton_sublist.mpr hopen)

variable [DecidableEq D]

/-- The transactions could have run one after the other, in the order in which they closed. -/
theorem Ordered.serializable (h : Ordered guards j) :
    History.Same j.history (History.serial j.order j.history) := by
  apply History.serial_same (order_nodup h.nodup)
  · exact fun a ha => mem_order ha
  · refine h.pairs.imp_of_mem ?_
    intro a b _ hb hab hc
    exact (hab hc).sublist_order hb

end Serial

end Journal

end Shared
