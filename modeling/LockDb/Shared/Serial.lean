import Mathlib.Data.List.Dedup
import Mathlib.Data.List.Nodup
import Mathlib.Logic.Function.Basic

/-!
# Histories of accesses and their serial order

Transactions read and write the items of a store. Two histories are the same when
they leave the same store and every transaction reads the same values in both.
Accesses of different transactions that touch different items, or only read,
can be exchanged; a history whose conflicts all follow one order of the transactions
is therefore the same as the one that runs the transactions one after the other.
-/

namespace Shared

set_option autoImplicit false

universe u v w

/-- A read of an item, or a write of a value to it. -/
structure Access (X : Type u) (D : Type v) (V : Type w) where
  txn : X
  item : D
  written : Option V

namespace Access
variable {X : Type u} {D : Type v} {V : Type w}

def writes (a : Access X D V) : Bool := a.written.isSome

/-- Accesses of different transactions to one item, of which one writes. -/
def Conflicts (a b : Access X D V) : Prop :=
  a.txn ≠ b.txn ∧ a.item = b.item ∧ (a.writes = true ∨ b.writes = true)

variable [DecidableEq D]

def apply (a : Access X D V) (store : D → V) : D → V :=
  match a.written with
  | none => store
  | some value => Function.update store a.item value

variable [DecidableEq X]

/-- What `x` reads with this access. -/
def readBy (a : Access X D V) (x : X) (store : D → V) : List V :=
  match a.written with
  | none => if a.txn = x then [store a.item] else []
  | some _ => []

end Access

namespace History
variable {X : Type u} {D : Type v} {V : Type w} [DecidableEq D] {l l' m : List (Access X D V)}

/-- The store after a history, oldest access first. -/
def run (store : D → V) (l : List (Access X D V)) : D → V :=
  l.foldl (fun store a => a.apply store) store

theorem run_append (store : D → V) (l m : List (Access X D V)) :
    run store (l ++ m) = run (run store l) m := List.foldl_append

variable [DecidableEq X]

/-- The values `x` reads, in order. -/
def reads (x : X) : (D → V) → List (Access X D V) → List V
  | _, [] => []
  | store, a :: l => a.readBy x store ++ reads x (a.apply store) l

theorem reads_append (x : X) (store : D → V) (l m : List (Access X D V)) :
    reads x store (l ++ m) = reads x store l ++ reads x (run store l) m := by
  induction l generalizing store with
  | nil => rfl
  | cons a l ih =>
    rw [List.cons_append, reads, ih, reads, List.append_assoc]
    rfl

/-- No store and no transaction can tell the two histories apart. -/
def Same (l m : List (Access X D V)) : Prop :=
  ∀ store, run store l = run store m ∧ ∀ x, reads x store l = reads x store m

theorem Same.refl (l : List (Access X D V)) : Same l l := fun _ => ⟨rfl, fun _ => rfl⟩

theorem Same.trans (h : Same l l') (h' : Same l' m) : Same l m := by
  intro store
  exact ⟨(h store).1.trans (h' store).1, fun x => ((h store).2 x).trans ((h' store).2 x)⟩

theorem Same.append_left (h : Same l l') (m : List (Access X D V)) : Same (m ++ l) (m ++ l') := by
  intro store
  constructor
  · rw [run_append, run_append, (h _).1]
  · intro x
    rw [reads_append, reads_append, (h _).2]

theorem Same.append_right (h : Same l l') (m : List (Access X D V)) : Same (l ++ m) (l' ++ m) := by
  intro store
  constructor
  · rw [run_append, run_append, (h _).1]
  · intro x
    rw [reads_append, reads_append, (h _).1, (h _).2]

section Swap
variable {a b : Access X D V}

omit [DecidableEq X] in
theorem apply_comm (hne : a.txn ≠ b.txn) (hfree : ¬ a.Conflicts b) (store : D → V) :
    b.apply (a.apply store) = a.apply (b.apply store) := by
  unfold Access.apply
  cases ha : a.written with
  | none => rfl
  | some v =>
    cases hb : b.written with
    | none => rfl
    | some w =>
      have hitem : a.item ≠ b.item := by
        intro heq
        exact hfree ⟨hne, heq, .inl (by simp [Access.writes, ha])⟩
      exact Function.update_comm hitem v w store

/-- An access does not change what another reads unless they conflict. -/
theorem readBy_apply (hne : a.txn ≠ b.txn) (hfree : ¬ a.Conflicts b) (x : X) (store : D → V) :
    b.readBy x (a.apply store) = b.readBy x store := by
  unfold Access.apply Access.readBy
  cases ha : a.written with
  | none => rfl
  | some v =>
    cases hb : b.written with
    | some w => rfl
    | none =>
      have hitem : a.item ≠ b.item := by
        intro heq
        exact hfree ⟨hne, heq, .inl (by simp [Access.writes, ha])⟩
      simp only [Function.update_of_ne (Ne.symm hitem)]

omit [DecidableEq D] [DecidableEq X] in
theorem conflicts_comm : a.Conflicts b ↔ b.Conflicts a := by
  unfold Access.Conflicts
  rw [ne_comm, eq_comm, Or.comm]

omit [DecidableEq D] in
theorem readBy_of_ne {x : X} (hx : a.txn ≠ x) (store : D → V) : a.readBy x store = [] := by
  unfold Access.readBy
  split
  · rw [if_neg hx]
  · rfl

theorem swap_same (hne : a.txn ≠ b.txn) (hfree : ¬ a.Conflicts b) : Same [a, b] [b, a] := by
  intro store
  have hfree' : ¬ b.Conflicts a := fun h => hfree (conflicts_comm.mpr h)
  refine ⟨apply_comm hne hfree store, ?_⟩
  intro x
  simp only [reads, List.append_nil, readBy_apply hne hfree, readBy_apply hne.symm hfree']
  -- one of the two is not an access of `x`
  by_cases hx : a.txn = x
  · rw [readBy_of_ne fun hb => hne (hx.trans hb.symm), List.append_nil, List.nil_append]
  · rw [readBy_of_ne hx, List.append_nil, List.nil_append]

/-- An access moves behind accesses of another transaction that it does not conflict with. -/
theorem move_same {x : X} (hne : a.txn ≠ x) (hl : ∀ b ∈ l, b.txn = x ∧ ¬ a.Conflicts b) :
    Same (a :: l) (l ++ [a]) := by
  induction l with
  | nil => exact .refl _
  | cons b l ih =>
    obtain ⟨hb, hfree⟩ := hl b List.mem_cons_self
    have hab : a.txn ≠ b.txn := fun heq => hne (heq.trans hb)
    have hfirst : Same (a :: b :: l) (b :: a :: l) := (swap_same hab hfree).append_right l
    have hrest : Same (b :: a :: l) (b :: (l ++ [a])) :=
      (ih fun c hc => hl c (List.mem_cons_of_mem b hc)).append_left [b]
    exact hfirst.trans hrest

end Swap

/-- A transaction whose accesses come after no conflicting one can be run first. -/
theorem pull_same {x : X}
    (hl : l.Pairwise fun a b => b.txn = x → ¬ a.Conflicts b) :
    Same l (l.filter (fun a => a.txn = x) ++ l.filter fun a => a.txn ≠ x) := by
  induction l with
  | nil => exact .refl _
  | cons a l ih =>
    obtain ⟨hfirst, hrest⟩ := List.pairwise_cons.mp hl
    have htail := (ih hrest).append_left [a]
    by_cases hx : a.txn = x
    · simpa [hx] using htail
    · refine htail.trans ?_
      have hmove : Same (a :: l.filter fun a => a.txn = x)
          (l.filter (fun a => a.txn = x) ++ [a]) := by
        apply move_same hx
        intro b hb
        have hbx : b.txn = x := of_decide_eq_true (List.mem_filter.mp hb).2
        exact ⟨hbx, hfirst b (List.mem_of_mem_filter hb) hbx⟩
      simpa [hx] using hmove.append_right (l.filter fun a => a.txn ≠ x)

/-- The transactions of `order`, one after the other, each with its own accesses. -/
def serial (order : List X) (l : List (Access X D V)) : List (Access X D V) :=
  order.flatMap fun x => l.filter fun a => a.txn = x

omit [DecidableEq D] in
theorem serial_filter {order : List X} {x : X} (hx : x ∉ order) :
    serial order (l.filter fun a => a.txn ≠ x) = serial order l := by
  unfold serial
  apply List.flatMap_congr
  intro y hy
  rw [List.filter_filter]
  apply List.filter_congr
  intro a _
  by_cases ha : a.txn = y
  · have hne : a.txn ≠ x := fun hax => hx (hax.symm.trans ha ▸ hy)
    simp [ha ▸ hne, ha]
  · simp [ha]

/-- A history whose conflicts follow `order` is the serial history in that order. -/
theorem serial_same {order : List X} (hnodup : order.Nodup) (hall : ∀ a ∈ l, a.txn ∈ order)
    (hl : l.Pairwise fun a b => a.Conflicts b → [a.txn, b.txn].Sublist order) :
    Same l (serial order l) := by
  induction order generalizing l with
  | nil =>
    have hnil : l = [] := List.eq_nil_iff_forall_not_mem.mpr fun a ha => by simpa using hall a ha
    rw [hnil]
    exact .refl _
  | cons x order ih =>
    obtain ⟨hx, hrest⟩ := List.nodup_cons.mp hnodup
    have hpull : Same l (l.filter (fun a => a.txn = x) ++ l.filter fun a => a.txn ≠ x) := by
      apply pull_same
      refine hl.imp ?_
      intro a b hab hbx hc
      -- nothing stands before the first transaction of the order
      rcases List.sublist_cons_iff.mp (hab hc) with hsub | ⟨r, hr, hsub⟩
      · exact hx (hbx ▸ hsub.subset (by simp))
      · obtain ⟨hax, rfl⟩ := List.cons.inj hr
        exact hc.1 (hax.trans hbx.symm)
    have hothers : Same (l.filter fun a => a.txn ≠ x)
        (serial order (l.filter fun a => a.txn ≠ x)) := by
      apply ih hrest
      · intro a ha
        obtain ⟨ham, hne⟩ := List.mem_filter.mp ha
        exact (List.mem_cons.mp (hall a ham)).resolve_left (of_decide_eq_true hne)
      · refine (hl.filter _).imp_of_mem ?_
        intro a b ha _ hab hc
        rcases List.sublist_cons_iff.mp (hab hc) with hsub | ⟨r, hr, _⟩
        · exact hsub
        · have hne : a.txn ≠ x := of_decide_eq_true (List.mem_filter.mp ha).2
          exact absurd (List.cons.inj hr).1 hne
    rw [serial_filter hx] at hothers
    exact hpull.trans (hothers.append_left _)

end History

end Shared
