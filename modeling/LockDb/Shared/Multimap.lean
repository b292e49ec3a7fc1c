import Mathlib.Data.Finmap
import Mathlib.Data.List.Perm.Basic
import Mathlib.Data.List.Sort

/-!
# Hash maps and list-valued maps

A hash map is a finite map without an order; the order in which it is iterated
is a separate value, `IterOrder`, so that nothing can depend on one by accident.
A map from keys to unordered vectors drops a key as soon as its vector is empty.
-/

namespace Shared

set_option autoImplicit false

universe u v

abbrev HashMap (K : Type u) (V : Type v) := Finmap fun _ : K => V

section HashMap
variable {K : Type u} {V : Type v} [DecidableEq K]

theorem lookup_insert_eq (m : HashMap K V) (k j : K) (v : V) :
    (m.insert k v).lookup j = if j = k then some v else m.lookup j := by
  split
  · next h => subst h; exact Finmap.lookup_insert m
  · next h => exact Finmap.lookup_insert_of_ne m h

theorem lookup_erase_eq (m : HashMap K V) (k j : K) :
    (m.erase k).lookup j = if j = k then none else m.lookup j := by
  split
  · next h => subst h; exact Finmap.lookup_erase j m
  · next h => exact Finmap.lookup_erase_ne h

theorem erase_of_lookup_none {m : HashMap K V} {k : K} (h : m.lookup k = none) :
    m.erase k = m := by
  apply Finmap.ext_lookup
  intro j
  rw [lookup_erase_eq]
  split
  · next hj => rw [hj, h]
  · rfl

/-- `HashMap::retain`, deciding by the key. -/
def retain (p : K → Bool) (m : HashMap K V) : HashMap K V :=
  Finmap.keysLookupEquiv.symm ⟨
    (m.keys.filter fun k => p k, fun k => if p k then m.lookup k else none), by
    intro k
    simp only [Finset.mem_filter, Finmap.mem_keys, ← Finmap.lookup_isSome]
    split <;> simp_all⟩

theorem lookup_retain (p : K → Bool) (m : HashMap K V) (k : K) :
    (retain p m).lookup k = if p k then m.lookup k else none :=
  Finmap.keysLookupEquiv_symm_apply_lookup _ k

/-- A loop over `values_mut` that changes each value by itself. -/
def mapValues (f : V → V) (m : HashMap K V) : HashMap K V :=
  Finmap.keysLookupEquiv.symm ⟨(m.keys, fun k => (m.lookup k).map f), by
    intro k
    simp [Finmap.mem_keys, ← Finmap.lookup_isSome]⟩

theorem lookup_mapValues (f : V → V) (m : HashMap K V) (k : K) :
    (mapValues f m).lookup k = (m.lookup k).map f :=
  Finmap.keysLookupEquiv_symm_apply_lookup _ k

end HashMap

/-- One iteration order of the maps from `K` to `V`: every key of the map, once. -/
structure IterOrder (K : Type u) (V : Type v) where
  keys : HashMap K V → List K
  nodup : ∀ m, (keys m).Nodup
  mem_keys : ∀ m k, k ∈ keys m ↔ k ∈ m

namespace IterOrder
variable {K : Type u} {V : Type v} [DecidableEq K]

def iter (order : IterOrder K V) (m : HashMap K V) : List (K × V) :=
  (order.keys m).filterMap fun k => (m.lookup k).map fun v => (k, v)

theorem mem_iter (order : IterOrder K V) (m : HashMap K V) (k : K) (v : V) :
    (k, v) ∈ order.iter m ↔ m.lookup k = some v := by
  simp only [iter, List.mem_filterMap, Option.map_eq_some_iff, Prod.mk.injEq]
  constructor
  · intro hmem
    rcases hmem with ⟨j, _, w, hw, rfl, rfl⟩
    exact hw
  · intro h
    exact ⟨k, (order.mem_keys m k).mpr (Finmap.mem_of_lookup_eq_some h), v, h, rfl, rfl⟩

theorem iter_keys (order : IterOrder K V) (m : HashMap K V) :
    (order.iter m).map Prod.fst = order.keys m := by
  rw [iter, List.map_filterMap]
  have hall : ∀ k ∈ order.keys m,
      ((m.lookup k).map fun v => (k, v)).map Prod.fst = some k := by
    intro k hk
    obtain ⟨v, hv⟩ := Finmap.mem_iff.mp ((order.mem_keys m k).mp hk)
    simp [hv]
  rw [List.filterMap_congr hall, List.filterMap_some]

def sorted [LinearOrder K] : IterOrder K V where
  keys m := m.keys.val.liftOn (List.insertionSort (· ≤ ·)) fun l₁ l₂ h =>
    ((List.perm_insertionSort _ l₁).trans
      (h.trans (List.perm_insertionSort _ l₂).symm)).eq_of_pairwise
      (fun _ _ _ _ hab hba => le_antisymm hab hba)
      (List.pairwise_insertionSort _ l₁) (List.pairwise_insertionSort _ l₂)
  nodup m := by
    have h : ∀ s : Multiset K, s.Nodup → ∀ H, (s.liftOn (List.insertionSort (· ≤ ·)) H).Nodup := by
      intro s
      refine Quotient.inductionOn s fun l hl H => ?_
      exact (List.perm_insertionSort _ l).nodup_iff.mpr hl
    exact h _ m.keys.nodup _
  mem_keys m k := by
    have h : ∀ (s : Multiset K) H, k ∈ s.liftOn (List.insertionSort (· ≤ ·)) H ↔ k ∈ s := by
      intro s
      refine Quotient.inductionOn s fun l H => ?_
      exact (List.perm_insertionSort _ l).mem_iff
    exact (h _ _).trans Finmap.mem_keys

end IterOrder

section Vec
variable {α : Type u}

/-- `Vec::swap_remove`: the last element moves into the hole. -/
def swapRemove (l : List α) (i : Nat) : List α :=
  match l.getLast? with
  | none => l
  | some last => (l.set i last).dropLast

theorem swapRemove_split (a b : List α) (x : α) :
    (x :: swapRemove (a ++ x :: b) a.length).Perm (a ++ x :: b) := by
  rcases List.eq_nil_or_concat b with rfl | ⟨b, y, rfl⟩
  · have hs : swapRemove (a ++ [x]) a.length = a := by simp [swapRemove]
    rw [hs]
    exact (List.perm_append_singleton x a).symm
  · rw [List.concat_eq_append]
    have hs : swapRemove (a ++ x :: (b ++ [y])) a.length = a ++ y :: b := by
      have hl : (a ++ x :: (b ++ [y])).getLast? = some y := by simp [List.getLast?_cons]
      simp only [swapRemove, hl]
      rw [List.set_append_right _ _ (Nat.le_refl _), Nat.sub_self, List.set_cons_zero,
        ← List.cons_append, ← List.append_assoc, List.dropLast_concat]
    rw [hs]
    refine (List.Perm.trans ?_ List.perm_middle.symm)
    refine List.Perm.cons x ?_
    refine List.perm_middle.trans ?_
    rw [← List.append_assoc]
    exact (List.perm_append_singleton y (a ++ b)).symm

/-- What `iter().position(p)` returns: the first match, with no match before it. -/
theorem findFinIdx?_split {p : α → Bool} {l : List α} {i : Fin l.length}
    (h : l.findFinIdx? p = some i) :
    ∃ a b, l = a ++ l[i] :: b ∧ a.length = i ∧ p l[i] = true ∧ ∀ x ∈ a, p x = false := by
  obtain ⟨hp, hlt⟩ := List.findFinIdx?_eq_some_iff.mp h
  refine ⟨l.take i, l.drop (i + 1), ?_, ?_, hp, ?_⟩
  · simp
  · simp [Nat.le_of_lt i.isLt]
  · intro x hx
    obtain ⟨j, hj, rfl⟩ := List.mem_take_iff_getElem.mp hx
    have hji : j < i.val := by omega
    simpa using hlt ⟨j, by omega⟩ hji

def removeFirst (p : α → Bool) (l : List α) : List α :=
  match l.findFinIdx? p with
  | none => l
  | some i => swapRemove l i

theorem any_zipIdx_ne (a b : List α) (x : α) (q : α → Bool) :
    (a ++ x :: b).zipIdx.any (fun (y, i) => i ≠ a.length && q y) = (a ++ b).any q := by
  rw [Bool.eq_iff_iff]
  simp only [List.any_eq_true, Bool.and_eq_true, decide_eq_true_eq, Prod.exists,
    List.mk_mem_zipIdx_iff_getElem?]
  constructor
  · intro hany
    rcases hany with ⟨y, i, hy, hi, hq⟩
    refine ⟨y, ?_, hq⟩
    rcases Nat.lt_or_gt_of_ne hi with hlt | hgt
    · rw [List.getElem?_append_left hlt] at hy
      exact List.mem_append_left b (List.mem_of_getElem? hy)
    · obtain ⟨j, rfl⟩ : ∃ j, i = a.length + (j + 1) := ⟨i - a.length - 1, by omega⟩
      rw [List.getElem?_append_right (by omega), Nat.add_sub_cancel_left,
        List.getElem?_cons_succ] at hy
      exact List.mem_append_right a (List.mem_of_getElem? hy)
  · intro hany
    rcases hany with ⟨y, hy, hq⟩
    rcases List.mem_append.mp hy with hy | hy
    · obtain ⟨i, hi, hget⟩ := List.mem_iff_getElem.mp hy
      refine ⟨y, i, ?_, by omega, hq⟩
      rw [List.getElem?_append_left hi, List.getElem?_eq_getElem hi, hget]
    · obtain ⟨i, hi, hget⟩ := List.mem_iff_getElem.mp hy
      refine ⟨y, a.length + (i + 1), ?_, by omega, hq⟩
      rw [List.getElem?_append_right (by omega), Nat.add_sub_cancel_left, List.getElem?_cons_succ,
        List.getElem?_eq_getElem hi, hget]

theorem removeFirst_of_none {p : α → Bool} {l : List α} (h : l.findFinIdx? p = none) :
    removeFirst p l = l := by
  simp [removeFirst, h]

theorem removeFirst_of_some {p : α → Bool} {l : List α} {i : Fin l.length}
    (h : l.findFinIdx? p = some i) : removeFirst p l = swapRemove l i := by
  simp [removeFirst, h]

theorem swapRemove_perm {p : α → Bool} {l : List α} {i : Fin l.length}
    (h : l.findFinIdx? p = some i) : (l[i] :: swapRemove l i).Perm l := by
  obtain ⟨a, b, hl, hi, _, _⟩ := findFinIdx?_split h
  have hs := swapRemove_split a b l[i]
  rw [← hl, hi] at hs
  exact hs

theorem removeFirst_count [DecidableEq α] (v w : α) (l : List α) :
    (removeFirst (fun x => x = v) l).count w = l.count w - if w = v then 1 else 0 := by
  cases hi : l.findFinIdx? (fun x => decide (x = v)) with
  | none =>
    have hn : ∀ x ∈ l, x ≠ v := by simpa using List.findFinIdx?_eq_none_iff.mp hi
    rw [removeFirst_of_none hi]
    split
    · next hw =>
      have h0 : l.count w = 0 := List.count_eq_zero.mpr fun hm => hn w hm hw
      omega
    · rfl
  | some i =>
    have hv : l[i] = v := by simpa using (List.findFinIdx?_eq_some_iff.mp hi).1
    have hc := (swapRemove_perm hi).count_eq w
    rw [removeFirst_of_some hi]
    rw [List.count_cons, hv] at hc
    by_cases hw : w = v
    · subst hw
      simp only [BEq.rfl, if_true] at hc ⊢
      omega
    · have hvw : (v == w) = false := by simpa using fun h : v = w => hw h.symm
      rw [hvw] at hc
      simpa [hw] using hc

end Vec

namespace Multimap
variable {K : Type u} {V : Type v} [DecidableEq K]

def list (m : HashMap K (List V)) (k : K) : List V := (m.lookup k).getD []

def NoEmpty (m : HashMap K (List V)) : Prop := ∀ k, m.lookup k ≠ some []

/-- `m.entry(k).or_insert_with(Vec::new)`. -/
def orInsert (m : HashMap K (List V)) (k : K) : HashMap K (List V) :=
  match m.lookup k with
  | some _ => m
  | none => m.insert k []

/-- `m.entry(k).or_default().push(v)`. -/
def push (m : HashMap K (List V)) (k : K) (v : V) : HashMap K (List V) :=
  m.insert k (list m k ++ [v])

/-- Stores a vector, or removes the key when the vector has become empty. -/
def store (m : HashMap K (List V)) (k : K) (l : List V) : HashMap K (List V) :=
  if l.isEmpty then m.erase k else m.insert k l

def takeFirst (p : V → Bool) (m : HashMap K (List V)) (k : K) : Option (HashMap K (List V)) :=
  match m.lookup k with
  | none => none
  | some l =>
    match l.findFinIdx? p with
    | none => none
    | some i => some (store m k (swapRemove l i))

/-- Removes the first match under a key that is present, and the key once its vector is empty. -/
def forgetFirst (p : V → Bool) (m : HashMap K (List V)) (k : K) : HashMap K (List V) :=
  match m.lookup k with
  | none => m
  | some l => store m k (removeFirst p l)

@[simp] theorem list_empty (k : K) : list (∅ : HashMap K (List V)) k = [] := by
  simp [list]

theorem list_of_lookup {m : HashMap K (List V)} {k : K} {l : List V} (h : m.lookup k = some l) :
    list m k = l := by
  simp [list, h]

theorem lookup_orInsert (m : HashMap K (List V)) (k : K) :
    (orInsert m k).lookup k = some (list m k) := by
  unfold orInsert list
  split
  · next h => simp [h]
  · next h => simp [h]

theorem orInsert_of_list_ne_nil {m : HashMap K (List V)} {k : K} (h : list m k ≠ []) :
    orInsert m k = m := by
  unfold orInsert
  split
  · rfl
  · next hk => simp [list, hk] at h

theorem insert_orInsert (m : HashMap K (List V)) (k : K) (l : List V) :
    (orInsert m k).insert k l = m.insert k l := by
  unfold orInsert
  split
  · rfl
  · exact Finmap.insert_insert m

theorem list_insert (m : HashMap K (List V)) (k j : K) (l : List V) :
    list (m.insert k l) j = if j = k then l else list m j := by
  simp only [list, lookup_insert_eq]
  split <;> simp

theorem list_erase (m : HashMap K (List V)) (k j : K) :
    list (m.erase k) j = if j = k then [] else list m j := by
  simp only [list, lookup_erase_eq]
  split <;> simp

theorem list_push (m : HashMap K (List V)) (k j : K) (v : V) :
    list (push m k v) j = if j = k then list m k ++ [v] else list m j :=
  list_insert m k j _

theorem list_store (m : HashMap K (List V)) (k j : K) (l : List V) :
    list (store m k l) j = if j = k then l else list m j := by
  unfold store
  split
  · next h => rw [list_erase, List.isEmpty_iff.mp h]
  · rw [list_insert]

theorem lookup_store_of_ne (m : HashMap K (List V)) {k j : K} (l : List V) (h : j ≠ k) :
    (store m k l).lookup j = m.lookup j := by
  unfold store
  split
  · rw [lookup_erase_eq, if_neg h]
  · rw [lookup_insert_eq, if_neg h]

theorem noEmpty_empty : NoEmpty (∅ : HashMap K (List V)) := by
  intro k
  simp

theorem NoEmpty.lookup_none {m : HashMap K (List V)} (h : NoEmpty m) {k : K} (hl : list m k = []) :
    m.lookup k = none := by
  cases hk : m.lookup k with
  | none => rfl
  | some l =>
    rw [list_of_lookup hk] at hl
    exact absurd (hl ▸ hk) (h k)

theorem NoEmpty.list_ne_nil {m : HashMap K (List V)} (h : NoEmpty m) {k : K} (hk : k ∈ m) :
    list m k ≠ [] :=
  fun hl => Finmap.lookup_eq_none.mp (h.lookup_none hl) hk

theorem NoEmpty.eq_empty {m : HashMap K (List V)} (h : NoEmpty m) (hl : ∀ k, list m k = []) :
    m = ∅ := by
  apply Finmap.ext_lookup
  intro k
  rw [h.lookup_none (hl k), Finmap.lookup_empty]

theorem NoEmpty.ext {m m' : HashMap K (List V)} (h : NoEmpty m) (h' : NoEmpty m')
    (hl : ∀ k, list m k = list m' k) : m = m' := by
  apply Finmap.ext_lookup
  intro k
  cases hk : m'.lookup k with
  | none => rw [h.lookup_none ((hl k).trans (by simp [list, hk]))]
  | some l =>
    have hlist := (hl k).trans (list_of_lookup hk)
    cases hk' : m.lookup k with
    | none =>
      rw [list, hk', Option.getD_none] at hlist
      exact absurd (hlist ▸ hk) (h' k)
    | some l' => rw [← hlist, list_of_lookup hk']

theorem NoEmpty.insert {m : HashMap K (List V)} (h : NoEmpty m) {k : K} {l : List V} (hl : l ≠ []) :
    NoEmpty (m.insert k l) := by
  intro j
  rw [lookup_insert_eq]
  split
  · simpa using hl
  · exact h j

theorem NoEmpty.erase {m : HashMap K (List V)} (h : NoEmpty m) (k : K) : NoEmpty (m.erase k) := by
  intro j
  rw [lookup_erase_eq]
  split
  · simp
  · exact h j

theorem NoEmpty.store {m : HashMap K (List V)} (h : NoEmpty m) (k : K) (l : List V) :
    NoEmpty (store m k l) := by
  unfold Multimap.store
  split
  · exact h.erase k
  · next hl => exact h.insert (by simpa using hl)

theorem NoEmpty.push {m : HashMap K (List V)} (h : NoEmpty m) (k : K) (v : V) :
    NoEmpty (push m k v) :=
  h.insert (by simp)

theorem NoEmpty.forgetFirst {m : HashMap K (List V)} (h : NoEmpty m) (p : V → Bool) (k : K) :
    NoEmpty (forgetFirst p m k) := by
  unfold Multimap.forgetFirst
  split
  · exact h
  · exact h.store k _

theorem takeFirst_eq_none_iff {p : V → Bool} {m : HashMap K (List V)} {k : K} :
    takeFirst p m k = none ↔ ∀ v ∈ list m k, p v = false := by
  unfold takeFirst
  cases hk : m.lookup k with
  | none => simp [list, hk]
  | some l =>
    rw [list_of_lookup hk]
    cases hi : l.findFinIdx? p with
    | none => simpa [hi] using List.findFinIdx?_eq_none_iff.mp hi
    | some i =>
      have hp := (List.findFinIdx?_eq_some_iff.mp hi).1
      simp only [hi, reduceCtorEq, false_iff]
      intro h
      rw [h l[i] (List.getElem_mem _)] at hp
      exact Bool.false_ne_true hp

/-- What a successful removal does: one match is gone, up to order, and no other key changes. -/
theorem takeFirst_some {p : V → Bool} {m m' : HashMap K (List V)} {k : K}
    (h : takeFirst p m k = some m') :
    ∃ v, p v = true ∧ (v :: list m' k).Perm (list m k) ∧ (∀ j, j ≠ k → m'.lookup j = m.lookup j) ∧
      (NoEmpty m → NoEmpty m') := by
  unfold takeFirst at h
  cases hk : m.lookup k with
  | none => simp [hk] at h
  | some l =>
    cases hi : l.findFinIdx? p with
    | none => simp [hk, hi] at h
    | some i =>
      simp only [hk, hi, Option.some.injEq] at h
      subst h
      refine ⟨l[i], (List.findFinIdx?_eq_some_iff.mp hi).1, ?_, ?_, fun hm => hm.store k _⟩
      · rw [list_store, if_pos rfl, list_of_lookup hk]
        exact swapRemove_perm hi
      · intro j hj
        exact lookup_store_of_ne m _ hj

theorem list_takeFirst_of_ne {p : V → Bool} {m m' : HashMap K (List V)} {k j : K}
    (h : takeFirst p m k = some m') (hj : j ≠ k) : list m' j = list m j := by
  obtain ⟨_, _, _, hl, _⟩ := takeFirst_some h
  simp only [list, hl j hj]

theorem list_takeFirst {p : V → Bool} {m m' : HashMap K (List V)} {k : K}
    (h : takeFirst p m k = some m') : list m' k = removeFirst p (list m k) := by
  unfold takeFirst at h
  cases hk : m.lookup k with
  | none => simp [hk] at h
  | some l =>
    cases hi : l.findFinIdx? p with
    | none => simp [hk, hi] at h
    | some i =>
      simp only [hk, hi, Option.some.injEq] at h
      rw [← h, list_store, if_pos rfl, list_of_lookup hk, removeFirst_of_some hi]

theorem list_forgetFirst (p : V → Bool) (m : HashMap K (List V)) (k j : K) :
    list (forgetFirst p m k) j = if j = k then removeFirst p (list m k) else list m j := by
  unfold forgetFirst
  split
  · next h =>
    split
    · next hj => rw [hj, list, h, Option.getD_none, removeFirst_of_none rfl]
    · rfl
  · next l h => rw [list_store, list_of_lookup h]

end Multimap

end Shared
