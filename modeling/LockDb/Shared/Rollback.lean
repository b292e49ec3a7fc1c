import LockDb.Shared.Ledger

/-!
# Growing and shrinking back

One owner appends records to the vectors of a table and removes records of its own. A
removal moves the last record of a vector into the hole, and behind the records of
the other owners that is one of the same owner. So a sweep of the owner gives back the
table and the index from before, the order of the vectors included.
-/

namespace Shared

set_option autoImplicit false

universe u

section Vec
variable {α : Type u} {p : α → Bool}

theorem swapRemove_append (a b : List α) {i : Nat} (hi : i < b.length) :
    swapRemove (a ++ b) (a.length + i) = a ++ swapRemove b i := by
  have hb : b ≠ [] := List.ne_nil_of_length_pos (Nat.lt_of_le_of_lt (Nat.zero_le i) hi)
  have hlast : (a ++ b).getLast? = b.getLast? := List.getLast?_append_of_ne_nil a hb
  simp only [swapRemove, hlast]
  cases b.getLast? with
  | none => rfl
  | some last =>
    have hset : b.set i last ≠ [] := by simpa using hb
    simp only
    rw [List.set_append_right _ _ (Nat.le_add_right _ _), Nat.add_sub_cancel_left]
    exact List.dropLast_append_of_ne_nil hset

theorem removeFirst_split {l a b : List α} {x : α} (hl : l = a ++ x :: b) (hx : p x = true)
    (ha : ∀ y ∈ a, p y = false) : removeFirst p l = swapRemove l a.length := by
  subst hl
  have hlt : a.length < (a ++ x :: b).length := by simp
  have hfind : (a ++ x :: b).findFinIdx? p = some ⟨a.length, hlt⟩ := by
    refine List.findFinIdx?_eq_some_iff.mpr ⟨by simpa using hx, ?_⟩
    intro j hj
    have hja : j.val < a.length := hj
    simpa [List.getElem_append_left hja] using ha _ (List.getElem_mem hja)
  rw [removeFirst_of_some hfind]

theorem mem_of_mem_removeFirst {l : List α} {x : α} (h : x ∈ removeFirst p l) : x ∈ l := by
  cases hi : l.findFinIdx? p with
  | none => rwa [removeFirst_of_none hi] at h
  | some i =>
    rw [removeFirst_of_some hi] at h
    exact (swapRemove_perm hi).mem_iff.mp (List.mem_cons_of_mem _ h)

/-- A removal behind elements that do not match leaves them alone. -/
theorem removeFirst_append {a : List α} (ha : ∀ x ∈ a, p x = false) (b : List α) :
    removeFirst p (a ++ b) = a ++ removeFirst p b := by
  cases hi : b.findFinIdx? p with
  | none =>
    have hb := List.findFinIdx?_eq_none_iff.mp hi
    rw [removeFirst_of_none hi, removeFirst_of_none]
    refine List.findFinIdx?_eq_none_iff.mpr fun x hx => ?_
    rcases List.mem_append.mp hx with hx | hx
    · simp [ha x hx]
    · exact hb x hx
  | some i =>
    obtain ⟨c, d, hsplit, hlen, hp, hc⟩ := findFinIdx?_split hi
    have hl : a ++ b = (a ++ c) ++ b[i] :: d := by
      rw [List.append_assoc, ← hsplit]
    have hno : ∀ x ∈ a ++ c, p x = false := by
      intro x hx
      rcases List.mem_append.mp hx with hx | hx
      · exact ha x hx
      · exact hc x hx
    rw [removeFirst_split hl hp hno, removeFirst_of_some hi, List.length_append, hlen]
    exact swapRemove_append a b i.isLt

theorem split_behind {a b base own : List α} {x : α} (h : a ++ x :: b = base ++ own)
    (hx : x ∉ base) : ∃ c, a = base ++ c ∧ own = c ++ x :: b := by
  rcases List.append_eq_append_iff.mp h with ⟨c, hbase, hrest⟩ | ⟨c, ha, hown⟩
  · cases c with
    | nil => exact ⟨[], by simpa using hbase.symm, by simpa using hrest.symm⟩
    | cons y c =>
      obtain ⟨rfl, _⟩ := List.cons_eq_cons.mp hrest
      exact absurd (by simp [hbase]) hx
  · exact ⟨c, ha, hown⟩

end Vec

namespace Ledger
variable {K T I E : Type u} [DecidableEq K] [DecidableEq T] [DecidableEq I]

open Multimap

/-- In every vector the old records stand first and what follows is owned by `t`. -/
structure Grown (L : Ledger K T I E) (t : T) (old table : HashMap K (List E))
    (oldIndex index : HashMap T (List I)) : Prop where
  foreign : ∀ k, ∀ e ∈ list old k, L.owner e ≠ t
  lists : ∀ k, ∃ own, list table k = list old k ++ own ∧ ∀ e ∈ own, L.owner e = t
  index : ∀ u, u ≠ t → list index u = list oldIndex u

variable {L : Ledger K T I E} {t : T} {old table : HashMap K (List E)}
variable {oldIndex index : HashMap T (List I)}

omit [DecidableEq I] in
theorem grown_refl (foreign : ∀ k, ∀ e ∈ list table k, L.owner e ≠ t) :
    L.Grown t table table index index where
  foreign := foreign
  lists k := ⟨[], by simp, by simp⟩
  index _ _ := rfl

omit [DecidableEq I] in
theorem Grown.push (h : L.Grown t old table oldIndex index) (k : K) {e : E} (he : L.owner e = t) :
    L.Grown t old (push table k e) oldIndex (push index t (L.item k e)) where
  foreign := h.foreign
  lists j := by
    obtain ⟨own, hlist, hown⟩ := h.lists j
    rw [list_push]
    split
    · next hj =>
      subst hj
      refine ⟨own ++ [e], by rw [hlist, List.append_assoc], fun x hx => ?_⟩
      rcases List.mem_append.mp hx with hx | hx
      · exact hown x hx
      · rw [List.mem_singleton.mp hx, he]
    · exact ⟨own, hlist, hown⟩
  index u hu := by rw [list_push, if_neg hu, h.index u hu]

omit [DecidableEq I] in
/-- A record of `t` is changed in its place. -/
theorem Grown.replace (h : L.Grown t old table oldIndex index) {k : K} {a b : List E} {e e' : E}
    (hl : list table k = a ++ e :: b) (he : L.owner e = t) (he' : L.owner e' = t) :
    L.Grown t old (table.insert k (a ++ e' :: b)) oldIndex index where
  foreign := h.foreign
  lists j := by
    obtain ⟨own, hlist, hown⟩ := h.lists j
    rw [list_insert]
    split
    · next hj =>
      subst hj
      rw [hl] at hlist
      obtain ⟨c, rfl, rfl⟩ := split_behind hlist fun hmem => h.foreign j e hmem he
      refine ⟨c ++ e' :: b, by rw [List.append_assoc], fun x hx => ?_⟩
      rcases List.mem_append.mp hx with hx | hx
      · exact hown x (List.mem_append_left _ hx)
      · rcases List.mem_cons.mp hx with rfl | hx
        · exact he'
        · exact hown x (List.mem_append_right _ (List.mem_cons_of_mem _ hx))
    · exact ⟨own, hlist, hown⟩
  index := h.index

omit [DecidableEq T] [DecidableEq I] in
theorem takeFirst_behind {i : I} {table' : HashMap K (List E)}
    (foreign : ∀ k, ∀ e ∈ list old k, L.owner e ≠ t)
    (lists : ∀ k, ∃ own, list table k = list old k ++ own ∧ ∀ e ∈ own, L.owner e = t)
    (htake : takeFirst (L.owns t i) table (L.key i) = some table') (k : K) :
    ∃ own, list table' k = list old k ++ own ∧ ∀ e ∈ own, L.owner e = t := by
  obtain ⟨own, hlist, hown⟩ := lists k
  by_cases hk : k = L.key i
  · subst hk
    have hno : ∀ e ∈ list old (L.key i), L.owns t i e = false := by
      intro e he
      rw [Bool.eq_false_iff, ne_eq, L.owns_iff]
      exact fun howns => foreign _ e he howns.1
    refine ⟨removeFirst (L.owns t i) own, ?_, fun e he => hown e (mem_of_mem_removeFirst he)⟩
    rw [list_takeFirst htake, hlist, removeFirst_append hno]
  · exact ⟨own, by rw [list_takeFirst_of_ne htake hk, hlist], hown⟩

theorem Grown.take (h : L.Grown t old table oldIndex index) {i : I} {table' : HashMap K (List E)}
    (htake : takeFirst (L.owns t i) table (L.key i) = some table') :
    L.Grown t old table' oldIndex (forgetFirst (fun j => j = i) index t) where
  foreign := h.foreign
  lists := takeFirst_behind h.foreign h.lists htake
  index u hu := by rw [list_forgetFirst, if_neg hu, h.index u hu]

omit [DecidableEq T] [DecidableEq I] in
theorem dropItems_behind (foreign : ∀ k, ∀ e ∈ list old k, L.owner e ≠ t) (items : List I)
    (n : Nat) (lists : ∀ k, ∃ own, list table k = list old k ++ own ∧ ∀ e ∈ own, L.owner e = t)
    (k : K) : ∃ own, list (L.dropItems t items table n).1 k = list old k ++ own ∧
      ∀ e ∈ own, L.owner e = t := by
  induction items generalizing table n with
  | nil => exact lists k
  | cons i is ih =>
    simp only [dropItems]
    split
    · exact ih n lists
    · next table' htake => exact ih (n + 1) (takeFirst_behind foreign lists htake)

omit [DecidableEq I] in
theorem Grown.sweep (h : L.Grown t old table oldIndex index) (n : Nat) :
    L.Grown t old (L.sweep t table index n).1 oldIndex (L.sweep t table index n).2.1 := by
  rw [sweep_eq]
  refine ⟨h.foreign, dropItems_behind h.foreign _ n h.lists, fun u hu => ?_⟩
  rw [list_erase, if_neg hu, h.index u hu]

/-- A sweep gives back what was there before, in the old order. -/
theorem Grown.sweep_eq (h : L.Grown t old table oldIndex index) (hstep : L.InStep table index)
    (hold : L.InStep old oldIndex) (htable : NoEmpty table) (hindex : NoEmpty index)
    (hold' : NoEmpty old) (holdIndex : NoEmpty oldIndex) (n : Nat) :
    (L.sweep t table index n).1 = old ∧ (L.sweep t table index n).2.1 = oldIndex := by
  obtain ⟨htable', hindex'⟩ := sweep_noEmpty hstep t n htable hindex
  have hgrown := h.sweep n
  constructor
  · refine htable'.ext hold' fun k => ?_
    obtain ⟨own, hlist, hown⟩ := hgrown.lists k
    have hnone : own = [] := by
      rw [List.eq_nil_iff_forall_not_mem]
      intro e he
      have hmem : e ∈ L.others t (list table k) := by
        rw [← (sweep_list hstep t n k).mem_iff, hlist]
        exact List.mem_append_right _ he
      exact of_decide_eq_true (List.mem_filter.mp hmem).2 (hown e he)
    rw [hlist, hnone, List.append_nil]
  · refine hindex'.ext holdIndex fun u => ?_
    by_cases hu : u = t
    · subst hu
      rw [Ledger.sweep_eq, list_erase, if_pos rfl, hold.list_nil h.foreign]
    · exact hgrown.index u hu

end Ledger

end Shared
