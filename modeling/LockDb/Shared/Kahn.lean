import LockDb.Shared.Cycle
import Mathlib.Algebra.BigOperators.Group.Finset.Basic
import Mathlib.Algebra.Order.BigOperators.Group.Finset

/-!
# Stripping vertices without predecessors

Kahn's search keeps, for each vertex, the number of edges into it from the vertices that
are left, and removes a vertex once that number is zero. What it cannot remove is
nonempty exactly when there is a cycle.
-/

namespace Shared

set_option autoImplicit false

open scoped BigOperators

universe u

structure Kahn (V : Type u) where
  indeg : V → Nat
  queue : List V
  removed : Nat

namespace Kahn
variable {V : Type u} [DecidableEq V]

/-- An edge into `m` goes. -/
def lower (s : Kahn V) (m : V) : Kahn V :=
  let d := s.indeg m - 1
  { s with
    indeg := Function.update s.indeg m d
    queue := if d = 0 then s.queue ++ [m] else s.queue }

/-- The loop over the queue; it answers the number of vertices it removed. -/
def loop (succ : V → List V) : Nat → Kahn V → Option Nat
  | 0, _ => none
  | fuel + 1, s =>
    match s.queue with
    | [] => some s.removed
    | n :: queue =>
      loop succ fuel ((succ n).foldl lower { s with queue := queue, removed := s.removed + 1 })

/-- Every vertex of `l` whose count reaches zero is queued, once. -/
theorem foldl_lower (l : List V) (s : Kahn V) (hcount : ∀ v, l.count v ≤ s.indeg v) :
    ∃ pushed : List V, pushed.Nodup ∧ (∀ v, v ∈ pushed ↔ v ∈ l ∧ s.indeg v = l.count v) ∧
      l.foldl lower s =
        ⟨fun v => s.indeg v - l.count v, s.queue ++ pushed, s.removed⟩ := by
  induction l generalizing s with
  | nil => exact ⟨[], List.nodup_nil, by simp, by simp⟩
  | cons m l ih =>
    have hm : l.count m + 1 ≤ s.indeg m := by simpa using hcount m
    have hother : ∀ v, v ≠ m → (m :: l).count v = l.count v := fun v hv =>
      List.count_cons_of_ne (Ne.symm hv)
    have hrest : ∀ v, l.count v ≤ (s.lower m).indeg v := by
      intro v
      by_cases hv : v = m
      · subst hv
        simp only [lower, Function.update_self]
        omega
      · rw [← hother v hv]
        simpa [lower, hv] using hcount v
    obtain ⟨pushed, hnodup, hmem, hfold⟩ := ih (s.lower m) hrest
    have hindeg : ∀ v, (s.lower m).indeg v - l.count v = s.indeg v - (m :: l).count v := by
      intro v
      by_cases hv : v = m
      · subst hv
        simp only [lower, Function.update_self, List.count_cons_self]
        omega
      · rw [hother v hv]
        simp [lower, hv]
    have hpushed : ∀ v, v ≠ m → (v ∈ pushed ↔ v ∈ m :: l ∧ s.indeg v = (m :: l).count v) := by
      intro v hv
      rw [hmem, hother v hv]
      simp [lower, hv]
    simp only [hindeg] at hfold
    by_cases hzero : s.indeg m - 1 = 0
    · have hnot : m ∉ l := List.count_eq_zero.mp (by omega)
      refine ⟨m :: pushed, ?_, ?_, ?_⟩
      · exact List.nodup_cons.mpr ⟨fun h => hnot ((hmem m).mp h).1, hnodup⟩
      · intro v
        by_cases hv : v = m
        · subst hv
          simp only [List.mem_cons, true_or, List.count_cons_self, true_and, true_iff]
          omega
        · rw [List.mem_cons, or_iff_right hv, hpushed v hv]
      · rw [List.foldl_cons, hfold]
        simp [lower, hzero]
    · refine ⟨pushed, hnodup, ?_, ?_⟩
      · intro v
        by_cases hv : v = m
        · subst hv
          rw [hmem]
          simp only [lower, Function.update_self, List.mem_cons, true_or, List.count_cons_self,
            true_and]
          constructor
          · intro h
            omega
          · intro h
            exact ⟨List.count_pos_iff.mp (by omega), by omega⟩
        · exact hpushed v hv
      · rw [List.foldl_cons, hfold]
        simp [lower, hzero]

/-- The edges given by the lists of successors. -/
def Edge (succ : V → List V) (a b : V) : Prop := b ∈ succ a

section Search
variable {succ : V → List V} {nodes left : Finset V} {s : Kahn V}

/-- The edges from `left` to `v`, with multiplicity. -/
def edgesInto (succ : V → List V) (left : Finset V) (v : V) : Nat := ∑ u ∈ left, (succ u).count v

theorem edgesInto_erase {n : V} (hn : n ∈ left) (v : V) :
    edgesInto succ left v = (succ n).count v + edgesInto succ (left.erase n) v :=
  (Finset.add_sum_erase left (fun u => (succ u).count v) hn).symm

theorem edgesInto_pos {v : V} (h : edgesInto succ left v ≠ 0) : ∃ u ∈ left, v ∈ succ u := by
  obtain ⟨u, hu, hcount⟩ := Finset.exists_ne_zero_of_sum_ne_zero h
  exact ⟨u, hu, List.count_pos_iff.mp (Nat.pos_of_ne_zero hcount)⟩

theorem notMem_of_edgesInto {v u : V} (h : edgesInto succ left v = 0) (hu : u ∈ left) :
    v ∉ succ u := by
  have hterm : (succ u).count v ≤ edgesInto succ left v :=
    Finset.single_le_sum (f := fun u => (succ u).count v) (fun _ _ => Nat.zero_le _) hu
  exact List.count_eq_zero.mp (by omega)

/-- One more edge, from `a` to `b`. -/
theorem edgesInto_snoc {next : V → List V} {a b : V} (ha : a ∈ left)
    (hnext : ∀ u, next u = if u = a then succ u ++ [b] else succ u) (v : V) :
    edgesInto next left v = edgesInto succ left v + if v = b then 1 else 0 := by
  have hothers : edgesInto next (left.erase a) v = edgesInto succ (left.erase a) v := by
    refine Finset.sum_congr rfl fun u hu => ?_
    rw [hnext, if_neg (Finset.ne_of_mem_erase hu)]
  rw [edgesInto_erase ha, edgesInto_erase ha, hothers, hnext, if_pos rfl, List.count_append,
    List.count_singleton']
  simp only [eq_comm (a := b)]
  omega

/-- `left` are the vertices not removed yet. -/
structure Inv (succ : V → List V) (nodes left : Finset V) (s : Kahn V) : Prop where
  removed : s.removed + left.card = nodes.card
  nodup : s.queue.Nodup
  indeg : ∀ v, s.indeg v = edgesInto succ left v
  queued : ∀ v, v ∈ s.queue ↔ v ∈ left ∧ s.indeg v = 0
  gone : ∀ v ∈ nodes, v ∉ left → s.indeg v = 0
  offCycle : ∀ v ∈ nodes, v ∉ left → ∀ c, IsCycle (Edge succ) c → v ∉ c

theorem Inv.next (h : Inv succ nodes left s) (hnodes : ∀ u, ∀ v ∈ succ u, u ∈ nodes ∧ v ∈ nodes)
    {n : V} {queue : List V} (hqueue : s.queue = n :: queue) :
    n ∈ left ∧ Inv succ nodes (left.erase n)
      ((succ n).foldl lower { s with queue := queue, removed := s.removed + 1 }) := by
  obtain ⟨hn, hzero⟩ := (h.queued n).mp (by simp [hqueue])
  obtain ⟨hnot, hnodup⟩ := List.nodup_cons.mp (hqueue ▸ h.nodup)
  have hinto : ∀ v, s.indeg v = (succ n).count v + edgesInto succ (left.erase n) v := by
    intro v
    rw [h.indeg, edgesInto_erase hn]
  obtain ⟨pushed, hpnodup, hpushed, hfold⟩ := foldl_lower (succ n)
    { s with queue := queue, removed := s.removed + 1 } fun v => by rw [hinto v]; omega
  have hself : n ∉ succ n := notMem_of_edgesInto (h.indeg n ▸ hzero) hn
  have hrest : ∀ v, v ∈ queue ↔ v ∈ left.erase n ∧ s.indeg v = 0 := by
    intro v
    have hv := h.queued v
    rw [hqueue, List.mem_cons] at hv
    rw [Finset.mem_erase]
    by_cases hvn : v = n
    · subst hvn
      simp [hnot]
    · rw [and_assoc, ← hv]
      simp [hvn]
  -- a vertex that loses its last edge still had one, so it was neither queued nor removed
  have hleft : ∀ v ∈ succ n, v ∈ left.erase n := by
    intro v hv
    have hpos : 0 < (succ n).count v := List.count_pos_iff.mpr hv
    refine Finset.mem_erase.mpr ⟨fun e => hself (e ▸ hv), ?_⟩
    by_contra hgone
    have hnone := h.gone v (hnodes n v hv).2 hgone
    rw [hinto v] at hnone
    omega
  refine ⟨hn, ?_⟩
  rw [hfold]
  refine ⟨?_, ?_, ?_, ?_, ?_, ?_⟩
  · have hcard := Finset.card_erase_add_one hn
    have hremoved := h.removed
    simp only
    omega
  · refine List.nodup_append'.mpr ⟨hnodup, hpnodup, ?_⟩
    intro v hv hvp
    have hvzero := ((hrest v).mp hv).2
    obtain ⟨hmem, heq⟩ := (hpushed v).mp hvp
    have hpos : 0 < (succ n).count v := List.count_pos_iff.mpr hmem
    simp only at heq
    omega
  · intro v
    simp only
    rw [hinto v]
    omega
  · intro v
    simp only
    rw [List.mem_append, hrest, hpushed]
    simp only
    constructor
    · intro hv
      rcases hv with ⟨hmem, hv⟩ | ⟨hmem, hv⟩
      · exact ⟨hmem, by omega⟩
      · exact ⟨hleft v hmem, by omega⟩
    · intro hv
      obtain ⟨hmem, hv⟩ := hv
      by_cases hedge : v ∈ succ n
      · exact .inr ⟨hedge, by have := hinto v; omega⟩
      · have hcount : (succ n).count v = 0 := List.count_eq_zero.mpr hedge
        exact .inl ⟨hmem, by omega⟩
  · intro v hv hgone
    simp only
    by_cases hvn : v = n
    · subst hvn
      omega
    · have hold := h.gone v hv fun hmem => hgone (Finset.mem_erase.mpr ⟨hvn, hmem⟩)
      omega
  · intro v hv hgone c hc hvc
    by_cases hvn : v = n
    · -- its predecessor on the cycle is removed, and no removed vertex is on a cycle
      subst hvn
      obtain ⟨u, hu, huv⟩ := hc.exists_pred hvc
      have hugone : u ∉ left := fun hmem => notMem_of_edgesInto (h.indeg v ▸ hzero) hmem huv
      exact h.offCycle u (hnodes u v huv).1 hugone c hc hu
    · exact h.offCycle v hv (fun hmem => hgone (Finset.mem_erase.mpr ⟨hvn, hmem⟩)) c hc hvc

theorem Inv.loop_ends {fuel : Nat} (h : Inv succ nodes left s)
    (hnodes : ∀ u, ∀ v ∈ succ u, u ∈ nodes ∧ v ∈ nodes) (hfuel : left.card < fuel) :
    ∃ removed, loop succ fuel s = some removed ∧
      (removed ≠ nodes.card ↔ ∃ c, IsCycle (Edge succ) c) := by
  induction fuel generalizing left s with
  | zero => omega
  | succ fuel ih =>
    unfold loop
    cases hqueue : s.queue with
    | cons n queue =>
      obtain ⟨hn, hnext⟩ := h.next hnodes hqueue
      have hcard := Finset.card_erase_add_one hn
      exact ih hnext (by omega)
    | nil =>
      refine ⟨s.removed, rfl, ?_⟩
      have hremoved := h.removed
      constructor
      · intro hne
        -- everything left has a predecessor that is left
        by_contra hnone
        have hacyclic : Acyclic (Edge succ) := fun c hc => hnone ⟨c, hc⟩
        obtain ⟨v, hv, hsource⟩ := hacyclic.exists_source left.finite_toSet
          (Finset.coe_nonempty.mpr (Finset.card_pos.mp (by omega)))
        have hpos : edgesInto succ left v ≠ 0 := by
          intro hzero
          have hmem := (h.queued v).mpr ⟨hv, (h.indeg v).trans hzero⟩
          simp [hqueue] at hmem
        obtain ⟨u, hu, huv⟩ := edgesInto_pos hpos
        exact hsource u hu huv
      · intro hcycle heq
        obtain ⟨c, hc⟩ := hcycle
        obtain ⟨v, hv⟩ := List.exists_mem_of_ne_nil c hc.ne_nil
        obtain ⟨w, _, hw⟩ := hc.exists_succ hv
        have hempty : left = ∅ := Finset.card_eq_zero.mp (by omega)
        exact h.offCycle v (hnodes v w hw).1 (by simp [hempty]) c hc hv

end Search

end Kahn

end Shared
