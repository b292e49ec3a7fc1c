import LockDb.Shared.Multimap
import Mathlib.Algebra.BigOperators.Finprod

/-!
# Tables with a reverse index

A table keeps records under keys, and an index keeps, for each owner, one item
for each of its records. Both sides are unordered vectors. The index is in step
with the table when each item stands in it exactly as often as the table has a
record for it; a sweep that only follows the index then finds every record.
-/

namespace Shared

set_option autoImplicit false

universe u

/-- How the records of a table and the items of its reverse index correspond. -/
structure Ledger (K T I E : Type u) where
  key : I → K
  owner : E → T
  item : K → E → I
  owns : T → I → E → Bool
  key_item : ∀ k e, key (item k e) = k
  owns_iff : ∀ t i e, owns t i e = true ↔ owner e = t ∧ item (key i) e = i

namespace Ledger
variable {K T I E : Type u} [DecidableEq K] [DecidableEq T] [DecidableEq I]

open Multimap

/-- Each item of an owner counts the owner's records for that item. -/
def InStep (L : Ledger K T I E) (table : HashMap K (List E)) (index : HashMap T (List I)) : Prop :=
  ∀ t i, (list index t).count i = (list table (L.key i)).countP (L.owns t i)

/-- The loop of a sweep: for each item the first record it stands for is dropped and counted. -/
def dropItems (L : Ledger K T I E) (t : T) :
    List I → HashMap K (List E) → Nat → HashMap K (List E) × Nat
  | [], table, n => (table, n)
  | i :: is, table, n =>
    match takeFirst (L.owns t i) table (L.key i) with
    | none => dropItems L t is table n
    | some table' => dropItems L t is table' (n + 1)

def sweep (L : Ledger K T I E) (t : T) (table : HashMap K (List E)) (index : HashMap T (List I))
    (n : Nat) : HashMap K (List E) × HashMap T (List I) × Nat :=
  match index.lookup t with
  | none => (table, index, n)
  | some items =>
    let dropped := L.dropItems t items table n
    (dropped.1, index.erase t, dropped.2)

variable {L : Ledger K T I E} {table : HashMap K (List E)} {index : HashMap T (List I)}

omit [DecidableEq K] [DecidableEq T] [DecidableEq I] in
theorem owns_item (L : Ledger K T I E) (k : K) (e : E) :
    L.owns (L.owner e) (L.item k e) e = true := by
  rw [L.owns_iff, L.key_item]
  exact ⟨rfl, rfl⟩

theorem inStep_empty (L : Ledger K T I E) :
    L.InStep (∅ : HashMap K (List E)) (∅ : HashMap T (List I)) := by
  intro t i
  simp

theorem InStep.mem_iff (h : L.InStep table index) (t : T) (i : I) :
    i ∈ list index t ↔ ∃ e ∈ list table (L.key i), L.owns t i e = true := by
  rw [← List.count_pos_iff, h t i, List.countP_pos_iff]

theorem count_items (L : Ledger K T I E) (t : T) (i : I) (k : K) (l : List E) :
    ((l.filter fun e => L.owner e = t).map (L.item k)).count i =
      if k = L.key i then l.countP (L.owns t i) else 0 := by
  rw [List.count, List.countP_map, List.countP_filter]
  split
  · next hk =>
    apply List.countP_congr
    intro e _
    simp only [Function.comp_apply, Bool.and_eq_true, beq_iff_eq, decide_eq_true_eq, L.owns_iff, hk]
    exact And.comm
  · next hk =>
    rw [List.countP_eq_zero]
    intro e _ hc
    simp only [Function.comp_apply, Bool.and_eq_true, beq_iff_eq, decide_eq_true_eq] at hc
    exact hk (by rw [← hc.1, L.key_item])

theorem InStep.list_nil (h : L.InStep table index) {t : T}
    (hnone : ∀ k, ∀ e ∈ list table k, L.owner e ≠ t) : list index t = [] := by
  rw [List.eq_nil_iff_forall_not_mem]
  intro i hi
  obtain ⟨e, he, howns⟩ := (h.mem_iff t i).mp hi
  exact hnone _ e he ((L.owns_iff t i e).mp howns).1

/-- An owner's index is as long as the owner has records. -/
theorem InStep.length_eq (h : L.InStep table index) (t : T) :
    (list index t).length = ∑ k ∈ table.keys, (list table k).countP fun e => L.owner e = t := by
  have hitems : (↑(list index t) : Multiset I) = ∑ k ∈ table.keys,
      (↑(((list table k).filter fun e => L.owner e = t).map (L.item k)) : Multiset I) := by
    ext i
    simp only [Multiset.count_sum', Multiset.coe_count, count_items, h t i]
    rw [Finset.sum_ite_eq']
    split
    · rfl
    · next hk =>
      have hnone : table.lookup (L.key i) = none :=
        Finmap.lookup_eq_none.mpr fun hm => hk (Finmap.mem_keys.mpr hm)
      simp [list, hnone]
  have hcard := congrArg Multiset.card hitems
  simpa only [Multiset.card_sum, Multiset.coe_card, List.length_map,
    ← List.countP_eq_length_filter] using hcard

theorem InStep.push (h : L.InStep table index) (k : K) (e : E) :
    L.InStep (push table k e) (push index (L.owner e) (L.item k e)) := by
  intro t i
  have hold := h t i
  rw [list_push, list_push]
  by_cases ht : t = L.owner e
  · subst ht
    rw [if_pos rfl, List.count_append, hold, List.count_singleton]
    by_cases hi : L.item k e = i
    · subst hi
      rw [if_pos (L.key_item k e), List.countP_append, L.key_item, List.countP_singleton,
        owns_item L k e]
      simp
    · rw [if_neg (by simpa using hi)]
      split
      · next hk =>
        have hno : L.owns (L.owner e) i e = false := by
          rw [Bool.eq_false_iff, ne_eq, L.owns_iff, hk]
          exact fun hc => hi hc.2
        rw [List.countP_append, List.countP_singleton, hno, hk]
        simp
      · rfl
  · have hno : L.owns t i e = false := by
      rw [Bool.eq_false_iff, ne_eq, L.owns_iff]
      exact fun hc => ht hc.1.symm
    rw [if_neg ht, hold]
    split
    · next hk => simp [List.countP_append, hno, hk]
    · rfl

theorem InStep.insert (h : L.InStep table index) {k : K} {l : List E}
    (hl : ∀ t i, l.countP (L.owns t i) = (list table k).countP (L.owns t i)) :
    L.InStep (table.insert k l) index := by
  intro t i
  rw [list_insert, h t i]
  split
  · next hk => rw [hl, hk]
  · rfl

omit [DecidableEq T] [DecidableEq I] in
/-- A removal lowers the count of one item of one owner, and no other count. -/
theorem countP_takeFirst {t : T} {i : I} {table' : HashMap K (List E)}
    (htake : takeFirst (L.owns t i) table (L.key i) = some table') {u : T} {j : I} :
    (u = t ∧ j = i → (list table (L.key j)).countP (L.owns u j) =
      (list table' (L.key j)).countP (L.owns u j) + 1) ∧
    (¬ (u = t ∧ j = i) → (list table (L.key j)).countP (L.owns u j) =
      (list table' (L.key j)).countP (L.owns u j)) := by
  obtain ⟨e, he, hperm, _, _⟩ := takeFirst_some htake
  constructor
  · rintro ⟨rfl, rfl⟩
    rw [← hperm.countP_eq, List.countP_cons, if_pos he]
  · intro hne
    by_cases hk : L.key j = L.key i
    · have hno : ¬ L.owns u j e = true := by
        obtain ⟨howner, hitem⟩ := (L.owns_iff t i e).mp he
        rw [L.owns_iff, hk]
        intro howns
        rcases howns with ⟨hu, hj⟩
        exact hne ⟨hu.symm.trans howner, hj.symm.trans hitem⟩
      rw [hk, ← hperm.countP_eq, List.countP_cons, if_neg hno, Nat.add_zero]
    · rw [list_takeFirst_of_ne htake hk]

theorem InStep.take (h : L.InStep table index) {t : T} {i : I} {table' : HashMap K (List E)}
    (htake : takeFirst (L.owns t i) table (L.key i) = some table') :
    L.InStep table' (forgetFirst (fun j => j = i) index t) := by
  intro u j
  have hold := h u j
  obtain ⟨htaken, hkept⟩ := @countP_takeFirst _ _ _ _ _ L table t i table' htake u j
  rw [list_forgetFirst]
  by_cases hu : u = t
  · subst hu
    rw [if_pos rfl, removeFirst_count, hold]
    by_cases hj : j = i
    · rw [if_pos hj, htaken ⟨rfl, hj⟩, Nat.add_sub_cancel]
    · rw [if_neg hj, hkept fun hc => hj hc.2, Nat.sub_zero]
  · rw [if_neg hu, hold, hkept fun hc => hu hc.1]

def others (L : Ledger K T I E) (t : T) (l : List E) : List E :=
  l.filter fun e => L.owner e ≠ t

omit [DecidableEq K] [DecidableEq I] in
theorem others_cons_of_owner {t : T} {e : E} (he : L.owner e = t) (l : List E) :
    L.others t (e :: l) = L.others t l := by
  simp [others, he]

theorem dropItems_spec {t : T} {items : List I} {table : HashMap K (List E)} {n : Nat}
    (h : ∀ i, items.count i = (list table (L.key i)).countP (L.owns t i)) :
    (L.dropItems t items table n).2 = n + items.length ∧
    (∀ k, (list (L.dropItems t items table n).1 k).Perm (L.others t (list table k))) ∧
    (NoEmpty table → NoEmpty (L.dropItems t items table n).1) := by
  induction items generalizing table n with
  | nil =>
    refine ⟨rfl, fun k => ?_, fun hne => hne⟩
    have hnone : ∀ e ∈ list table k, L.owner e ≠ t := by
      intro e he howner
      have h0 := h (L.item k e)
      rw [L.key_item, List.count_nil, eq_comm, List.countP_eq_zero] at h0
      exact h0 e he (howner ▸ owns_item L k e)
    have hid : L.others t (list table k) = list table k := by
      simpa [others, List.filter_eq_self] using hnone
    rw [hid]
    exact List.Perm.refl _
  | cons i is ih =>
    -- the item is counted, so the table has a record for it
    have hpos : 0 < (list table (L.key i)).countP (L.owns t i) := by
      rw [← h i]
      simp
    obtain ⟨e₀, he₀, howns₀⟩ := List.countP_pos_iff.mp hpos
    cases htake : takeFirst (L.owns t i) table (L.key i) with
    | none =>
      have := takeFirst_eq_none_iff.mp htake e₀ he₀
      simp [howns₀] at this
    | some table' =>
      obtain ⟨e, he, hperm, hother, hne⟩ := takeFirst_some htake
      obtain ⟨howner, hitem⟩ := (L.owns_iff t i e).mp he
      have hrest : ∀ j, is.count j = (list table' (L.key j)).countP (L.owns t j) := by
        intro j
        have hj := h j
        obtain ⟨htaken, hkept⟩ := @countP_takeFirst _ _ _ _ _ L table t i table' htake t j
        by_cases hji : j = i
        · rw [htaken ⟨rfl, hji⟩, hji, List.count_cons_self] at hj
          rw [hji]
          omega
        · rwa [hkept fun hc => hji hc.2, List.count_cons_of_ne (Ne.symm hji)] at hj
      obtain ⟨hcount, hlists, hempty⟩ := @ih table' (n + 1) hrest
      simp only [dropItems, htake]
      refine ⟨by rw [hcount, List.length_cons]; omega, fun k => ?_, fun h0 => hempty (hne h0)⟩
      refine (hlists k).trans ?_
      by_cases hk : k = L.key i
      · subst hk
        have hf := hperm.filter fun e => decide (L.owner e ≠ t)
        have hcons := others_cons_of_owner howner (list table' (L.key i))
        unfold others at hcons ⊢
        rwa [hcons] at hf
      · rw [list_takeFirst_of_ne htake hk]

omit [DecidableEq T] [DecidableEq I] in
theorem dropItems_add (t : T) (items : List I) (table : HashMap K (List E)) (n : Nat) :
    L.dropItems t items table n =
      ((L.dropItems t items table 0).1, n + (L.dropItems t items table 0).2) := by
  induction items generalizing table n with
  | nil => rfl
  | cons i is ih =>
    simp only [dropItems]
    split
    · exact ih table n
    · next table' _ =>
      rw [ih table' (n + 1), ih table' (0 + 1)]
      simp only [Prod.mk.injEq, true_and]
      omega

omit [DecidableEq I] in
theorem sweep_add (t : T) (n : Nat) :
    L.sweep t table index n =
      ((L.sweep t table index 0).1, (L.sweep t table index 0).2.1,
        n + (L.sweep t table index 0).2.2) := by
  unfold sweep
  split
  · rfl
  · next items _ => simp only [dropItems_add t items table n]

omit [DecidableEq I] in
theorem sweep_eq (t : T) (n : Nat) :
    L.sweep t table index n =
      ((L.dropItems t (list index t) table n).1, index.erase t,
        (L.dropItems t (list index t) table n).2) := by
  unfold sweep
  cases hl : index.lookup t with
  | none => simp [list, hl, dropItems, erase_of_lookup_none hl]
  | some items => simp [list, hl]

omit [DecidableEq I] in
theorem sweep_of_lookup_none {t : T} (h : index.lookup t = none) (n : Nat) :
    L.sweep t table index n = (table, index, n) := by
  simp [sweep, h]

section Sweep
variable (h : L.InStep table index) (t : T) (n : Nat)
include h

theorem sweep_count : (L.sweep t table index n).2.2 = n + (list index t).length := by
  rw [sweep_eq]
  exact (dropItems_spec (h t)).1

/-- A sweep leaves each key with exactly the records of the other owners. -/
theorem sweep_list (k : K) :
    (list (L.sweep t table index n).1 k).Perm (L.others t (list table k)) := by
  rw [sweep_eq]
  exact (dropItems_spec (h t)).2.1 k

theorem sweep_noEmpty (htable : NoEmpty table) (hindex : NoEmpty index) :
    NoEmpty (L.sweep t table index n).1 ∧ NoEmpty (L.sweep t table index n).2.1 := by
  rw [sweep_eq]
  exact ⟨(dropItems_spec (h t)).2.2 htable, hindex.erase t⟩

theorem InStep.sweep : L.InStep (L.sweep t table index n).1 (L.sweep t table index n).2.1 := by
  intro u i
  rw [(sweep_list h t n (L.key i)).countP_eq, others, List.countP_filter, sweep_eq, list_erase]
  split
  · next hu =>
    subst hu
    rw [List.count_nil, eq_comm, List.countP_eq_zero]
    intro e _ hc
    simp only [Bool.and_eq_true, decide_eq_true_eq, L.owns_iff] at hc
    exact hc.2 hc.1.1
  · next hu =>
    rw [h u i]
    apply List.countP_congr
    intro e _
    simp only [Bool.and_eq_true, decide_eq_true_eq, L.owns_iff]
    exact ⟨fun hc => ⟨hc, fun ht => hu (hc.1.symm.trans ht)⟩, fun hc => hc.1⟩

end Sweep

end Ledger

section Routed
open Multimap
variable {ι K V : Type u} [Fintype ι] [DecidableEq ι] [DecidableEq K]
variable {maps : ι → HashMap K (List V)} {route : K → ι}

/-- A sum over all the tables of a family, each of which keeps only the keys routed to it. -/
theorem sum_routed (hroute : ∀ i k, list (maps i) k ≠ [] → route k = i) {f : List V → Nat}
    (hf : f [] = 0) : ∑ i, ∑ k ∈ (maps i).keys, f (list (maps i) k) =
      finsum fun k => f (list (maps (route k)) k) := by
  let all := Finset.univ.biUnion fun i => (maps i).keys
  have hkeys : ∀ i k, k ∉ (maps i).keys → list (maps i) k = [] := by
    intro i k hk
    rw [Finmap.mem_keys, ← Finmap.lookup_eq_none] at hk
    simp [list, hk]
  have hterm : ∀ i, ∑ k ∈ (maps i).keys, f (list (maps i) k) =
      ∑ k ∈ all, if i = route k then f (list (maps (route k)) k) else 0 := by
    intro i
    have hsub : (maps i).keys ⊆ all :=
      Finset.subset_biUnion_of_mem (fun i => (maps i).keys) (Finset.mem_univ i)
    rw [← Finset.sum_subset hsub]
    · refine Finset.sum_congr rfl fun k _ => ?_
      by_cases hi : i = route k
      · rw [if_pos hi, hi]
      · rw [if_neg hi, ← hf]
        by_contra hne
        exact hi (hroute i k fun hnil => hne (congrArg f hnil)).symm
    · intro k _ hk
      by_cases hi : i = route k
      · rw [if_pos hi, ← hi, hkeys i k hk, hf]
      · rw [if_neg hi]
  have hsupport : (Function.support fun k => f (list (maps (route k)) k)) ⊆ ↑all := by
    intro k hk
    refine Finset.mem_coe.mpr (Finset.mem_biUnion.mpr ⟨route k, Finset.mem_univ _, ?_⟩)
    by_contra hnot
    exact hk ((congrArg f (hkeys (route k) k hnot)).trans hf)
  rw [finsum_eq_sum_of_support_subset _ hsupport, Finset.sum_congr rfl fun i _ => hterm i,
    Finset.sum_comm]
  refine Finset.sum_congr rfl fun k _ => ?_
  rw [Finset.sum_ite_eq', if_pos (Finset.mem_univ _)]

end Routed

end Shared
