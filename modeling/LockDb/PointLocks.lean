import LockDb.Shard

/-!
# Point locks of one shard

The invariant of a shard's holder lists and their reverse index, kept by every
critical section, and what each section does to the recorded modes.
-/

namespace LockDb

set_option autoImplicit false

open Shared Shared.Multimap

/-- The point-lock half of a shard that owns the resources `owned`. -/
structure PointInv (owned : ResourceId → Prop) (s : ShardInner) : Prop where
  entry : ∀ res, EntryInv (list s.locks res)
  indexed : pointLedger.InStep s.locks s.byTxn
  routed : ∀ res, list s.locks res ≠ [] → owned res
  locksNoEmpty : NoEmpty s.locks
  byTxnNoEmpty : NoEmpty s.byTxn

theorem countP_split (a b : LockEntry) (c d : LockMode) (u t : TxnId) :
    (a ++ ⟨t, d⟩ :: b).countP (heldBy u) = (a ++ ⟨t, c⟩ :: b).countP (heldBy u) := by
  simp [List.countP_append, List.countP_cons, heldBy]

section Invariant
variable {owned : ResourceId → Prop} {s : ShardInner} {txn : TxnId} {res : ResourceId}
variable {mode : LockMode}

theorem pointInv_new (owned : ResourceId → Prop) : PointInv owned .new where
  entry res := by
    simpa [ShardInner.new] using EntryInv.nil
  indexed := pointLedger.inStep_empty
  routed res h := by simp [ShardInner.new] at h
  locksNoEmpty := noEmpty_empty
  byTxnNoEmpty := noEmpty_empty

theorem PointInv.congr {s' : ShardInner} (h : PointInv owned s) (hl : s'.locks = s.locks)
    (hb : s'.byTxn = s.byTxn) : PointInv owned s' where
  entry := hl ▸ h.entry
  indexed := by
    rw [hl, hb]
    exact h.indexed
  routed := hl ▸ h.routed
  locksNoEmpty := hl ▸ h.locksNoEmpty
  byTxnNoEmpty := hb ▸ h.byTxnNoEmpty

theorem PointInv.tryGrant (h : PointInv owned s) (howned : owned res) :
    PointInv owned (s.tryGrant txn res mode).1 := by
  have hcase := tryGrant_cases s txn res mode
  generalize s.tryGrant txn res mode = out at hcase
  cases hcase with
  | covered _ _ => exact h
  | blocked _ _ _ _ => exact h
  | refused _ _ _ => exact h
  | @upgraded a b c hl hc hfree =>
    have hentry := h.entry res
    rw [hl] at hentry
    refine ⟨?_, ?_, ?_, ?_, h.byTxnNoEmpty⟩
    · intro r
      rw [list_insert]
      split
      · exact hentry.replace hfree
      · exact h.entry r
    · apply h.indexed.insert
      intro t i
      rw [hl]
      exact countP_split a b c _ t txn
    · intro r hr
      rw [list_insert] at hr
      split at hr
      · next heq => exact heq ▸ howned
      · exact h.routed r hr
    · exact h.locksNoEmpty.insert (by simp)
  | fresh hnew hfree =>
    refine ⟨?_, ?_, ?_, ?_, ?_⟩
    · intro r
      rw [list_push]
      split
      · exact ((h.entry res).cons hnew hfree).perm (List.perm_append_singleton _ _).symm
      · exact h.entry r
    · exact h.indexed.push res ⟨txn, mode⟩
    · intro r hr
      rw [list_push] at hr
      split at hr
      · next heq => exact heq ▸ howned
      · exact h.routed r hr
    · exact h.locksNoEmpty.push _ _
    · exact h.byTxnNoEmpty.push _ _

theorem PointInv.release (h : PointInv owned s) : PointInv owned (s.release txn res).1 := by
  unfold ShardInner.release
  split
  · exact h
  · next locks htake =>
    obtain ⟨r₀, _, hperm, _, hne⟩ := takeFirst_some htake
    refine ⟨?_, h.indexed.take (i := res) htake, ?_, hne h.locksNoEmpty,
      h.byTxnNoEmpty.forgetFirst _ _⟩
    · intro r
      by_cases hr : r = res
      · subst hr
        exact ((h.entry r).perm hperm.symm).tail
      · rw [list_takeFirst_of_ne htake hr]
        exact h.entry r
    · intro r hr
      apply h.routed r
      by_cases hrr : r = res
      · subst hrr
        intro hnil
        rw [hnil] at hperm
        exact List.cons_ne_nil _ _ hperm.eq_nil
      · rwa [list_takeFirst_of_ne htake hrr] at hr

theorem sweep_locks (s : ShardInner) (txn : TxnId) (n : Nat) :
    (s.sweep txn n).1.locks = (pointLedger.sweep txn s.locks s.byTxn n).1 := rfl

theorem PointInv.sweep (h : PointInv owned s) (n : Nat) : PointInv owned (s.sweep txn n).1 := by
  have hlist := Ledger.sweep_list h.indexed txn n
  have hne := Ledger.sweep_noEmpty h.indexed txn n h.locksNoEmpty h.byTxnNoEmpty
  refine ⟨?_, h.indexed.sweep txn n, ?_, hne.1, hne.2⟩
  · intro r
    rw [sweep_locks]
    exact ((h.entry r).filter _).perm (hlist r).symm
  · intro r hr
    rw [sweep_locks] at hr
    apply h.routed r
    intro hnil
    have hp := hlist r
    rw [hnil] at hp
    exact hr hp.eq_nil

theorem PointInv.byTxn_nodup (h : PointInv owned s) (txn : TxnId) :
    (list s.byTxn txn).Nodup := by
  apply List.nodup_iff_count_le_one.mpr
  intro r
  have hcount : (list s.byTxn txn).count r = (list s.locks r).countP (heldBy txn) :=
    h.indexed txn r
  rw [hcount, countP_heldBy]
  exact List.nodup_iff_count_le_one.mp (h.entry r).unique txn

end Invariant

section Effect
variable {owned : ResourceId → Prop} {s : ShardInner} {txn : TxnId} {res : ResourceId}
variable {mode : LockMode}

theorem tryGrant_refused (h : (s.tryGrant txn res mode).2 = false) :
    (s.tryGrant txn res mode).1 = s := by
  have hcase := tryGrant_cases s txn res mode
  generalize s.tryGrant txn res mode = out at hcase h
  cases hcase with
  | blocked _ _ _ _ => rfl
  | refused _ _ _ => rfl
  | covered _ _ => simp at h
  | upgraded _ _ _ => simp at h
  | fresh _ _ => simp at h

theorem tryGrant_false_holders (h : (s.tryGrant txn res mode).2 = false) :
    list s.locks res ≠ [] := by
  have hcase := tryGrant_cases s txn res mode
  generalize s.tryGrant txn res mode = out at hcase h
  cases hcase with
  | blocked hl _ _ _ => simp [hl]
  | refused _ hh _ => exact List.ne_nil_of_mem hh
  | covered _ _ => simp at h
  | upgraded _ _ _ => simp at h
  | fresh _ _ => simp at h

/-- The attempt succeeds exactly when nobody else's mode excludes the requested one. -/
theorem PointInv.tryGrant_iff (h : PointInv owned s) :
    (s.tryGrant txn res mode).2 = true ↔
      ∀ x ∈ list s.locks res, x.txn ≠ txn → x.mode.compatibleWith mode = true := by
  have hentry := h.entry res
  have hcase := tryGrant_cases s txn res mode
  generalize s.tryGrant txn res mode = out at hcase
  cases hcase with
  | covered hl hc =>
    simp only [true_iff]
    intro x hx hne
    rw [hl] at hentry hx
    have hown := hentry.others_compat (mem_others hx hne)
    rw [← LockMode.covers_iff.mp hc, LockMode.compatibleWith_join_right, Bool.and_eq_true] at hown
    exact hown.2
  | upgraded hl hc hfree =>
    simp only [true_iff]
    intro x hx hne
    rw [hl] at hx
    have hjoin := hfree x (mem_others hx hne)
    rw [LockMode.compatibleWith_join_right, Bool.and_eq_true] at hjoin
    exact hjoin.2
  | @blocked a b c x hl hc hx hbad =>
    simp only [Bool.false_eq_true, false_iff]
    intro hall
    rw [hl] at hentry hall
    have hmem : x ∈ a ++ ⟨txn, c⟩ :: b := List.perm_middle.mem_iff.mpr (List.mem_cons_of_mem _ hx)
    have hmode := hall x hmem (hentry.others_ne hx)
    rw [LockMode.compatibleWith_join_right, hentry.others_compat hx, hmode] at hbad
    simp at hbad
  | fresh hnew hfree =>
    simp only [true_iff]
    intro x hx _
    exact hfree x hx
  | @refused x hnew hx hbad =>
    simp only [Bool.false_eq_true, false_iff]
    intro hall
    rw [hall x hx (hnew x hx)] at hbad
    simp at hbad

theorem PointInv.tryGrant_modeOf (h : PointInv owned s) (howned : owned res)
    (hg : (s.tryGrant txn res mode).2 = true) (u : TxnId) (r : ResourceId) :
    modeOf (list (s.tryGrant txn res mode).1.locks r) u =
      if u = txn ∧ r = res then some (raise (modeOf (list s.locks res) txn) mode)
      else modeOf (list s.locks r) u := by
  have hnew : PointInv owned (s.tryGrant txn res mode).1 := h.tryGrant howned
  have hcase := tryGrant_cases s txn res mode
  generalize s.tryGrant txn res mode = out at hcase hg hnew
  cases hcase with
  | blocked _ _ _ _ => simp at hg
  | refused _ _ _ => simp at hg
  | covered hl hc =>
    split
    · next heq =>
      obtain ⟨rfl, rfl⟩ := heq
      have hm := h.entry r
      rw [hl] at hm ⊢
      rw [modeOf_split hm, raise, LockMode.sup_eq_join, LockMode.covers_iff.mp hc]
    · rfl
  | @upgraded a b c hl hc hfree =>
    have hold := h.entry res
    have hentry := hnew.entry res
    rw [list_insert, if_pos rfl] at hentry
    rw [hl] at hold ⊢
    rw [list_insert]
    by_cases hr : r = res
    · rw [if_pos hr, hr, hl]
      by_cases hu : u = txn
      · rw [if_pos ⟨hu, rfl⟩, hu, modeOf_split hentry, modeOf_split hold, raise,
        LockMode.sup_eq_join]
      · rw [if_neg fun hc => hu hc.1]
        apply modeOf_congr hold hentry
        intro m
        simp [hu]
    · rw [if_neg hr, if_neg fun hc => hr hc.2]
  | fresh hno hfree =>
    have hentry := hnew.entry res
    rw [list_push, if_pos rfl] at hentry
    rw [list_push]
    by_cases hr : r = res
    · rw [if_pos hr, hr]
      by_cases hu : u = txn
      · rw [if_pos ⟨hu, rfl⟩, hu, modeOf_eq_none_iff.mpr hno, raise]
        exact hentry.modeOf_iff.mpr (by simp)
      · rw [if_neg fun hc => hu hc.1]
        apply modeOf_congr (h.entry res) hentry
        intro m
        simp [hu]
    · rw [if_neg hr, if_neg fun hc => hr hc.2]

theorem release_notHeld_iff :
    (s.release txn res).2 = .error .notHeld ↔ modeOf (list s.locks res) txn = none := by
  rw [modeOf_eq_none_iff]
  unfold ShardInner.release
  split
  · next hnone => simpa [heldBy] using takeFirst_eq_none_iff.mp hnone
  · next locks hsome =>
    simp only [reduceCtorEq, false_iff]
    intro hall
    have hnone : takeFirst (heldBy txn) s.locks res = none :=
      takeFirst_eq_none_iff.mpr fun x hx => by simpa [heldBy] using hall x hx
    simp [hnone] at hsome

theorem release_refused (h : (s.release txn res).2 ≠ .ok ()) : (s.release txn res).1 = s := by
  unfold ShardInner.release at h ⊢
  split
  · rfl
  · next locks hsome => simp [hsome] at h

theorem PointInv.release_modeOf (h : PointInv owned s) (u : TxnId) (r : ResourceId) :
    modeOf (list (s.release txn res).1.locks r) u =
      if u = txn ∧ r = res then none else modeOf (list s.locks r) u := by
  unfold ShardInner.release
  split
  · next hnone =>
    split
    · next heq =>
      obtain ⟨rfl, rfl⟩ := heq
      rw [modeOf_eq_none_iff]
      simpa [heldBy] using takeFirst_eq_none_iff.mp hnone
    · rfl
  · next locks htake =>
    obtain ⟨x, hx, hperm, _, _⟩ := takeFirst_some htake
    have hxt : x.txn = txn := by simpa [heldBy] using hx
    by_cases hr : r = res
    · subst hr
      have hcons := (h.entry r).perm hperm.symm
      split
      · next heq =>
        rw [modeOf_eq_none_iff]
        intro y hy hyt
        apply (List.nodup_cons.mp hcons.unique).1
        rw [hxt, ← heq.1, ← hyt]
        exact List.mem_map_of_mem hy
      · next hne =>
        apply modeOf_congr (h.entry r) hcons.tail
        intro m
        rw [← hperm.mem_iff, List.mem_cons]
        constructor
        · exact Or.inr
        · intro hmem
          rcases hmem with rfl | hm
          · exact absurd ⟨hxt, rfl⟩ hne
          · exact hm
    · rw [list_takeFirst_of_ne htake hr, if_neg fun hc => hr hc.2]

theorem release_list (s : ShardInner) (txn : TxnId) (res r : ResourceId) :
    list (s.release txn res).1.locks r =
      if r = res then removeFirst (heldBy txn) (list s.locks r) else list s.locks r := by
  unfold ShardInner.release
  split
  · next hnone =>
    have hfind : (list s.locks res).findFinIdx? (heldBy txn) = none := by
      simpa [List.findFinIdx?_eq_none_iff] using takeFirst_eq_none_iff.mp hnone
    split
    · next hr => rw [hr, removeFirst_of_none hfind]
    · rfl
  · next locks htake =>
    split
    · next hr => rw [hr, list_takeFirst htake]
    · next hr => exact list_takeFirst_of_ne htake hr

theorem dropItems_list (txn : TxnId) {items : List ResourceId} (hnodup : items.Nodup)
    (table : HashMap ResourceId LockEntry) (n : Nat) (r : ResourceId) :
    list (pointLedger.dropItems txn items table n).1 r =
      if r ∈ items then removeFirst (heldBy txn) (list table r) else list table r := by
  induction items generalizing table n with
  | nil => rfl
  | cons i is ih =>
    obtain ⟨hi, hrest⟩ := List.nodup_cons.mp hnodup
    have hrelease := release_list ⟨table, ∅, ∅, ∅⟩ txn i r
    simp only [ShardInner.release] at hrelease
    have hown : takeFirst (pointLedger.owns txn i) table (pointLedger.key i) =
        takeFirst (heldBy txn) table i := rfl
    rw [Ledger.dropItems, hown]
    cases htake : takeFirst (heldBy txn) table i with
    | none =>
      simp only [htake] at hrelease ⊢
      rw [ih hrest]
      by_cases hr : r = i
      · subst hr
        simpa [hi] using hrelease
      · simp [hr]
    | some table' =>
      simp only [htake] at hrelease ⊢
      rw [ih hrest, hrelease]
      by_cases hr : r = i
      · subst hr
        simp [hi]
      · simp [hr]

/-- A sweep takes the transaction out of every holder list, in whatever order its index is. -/
theorem PointInv.sweep_locks_list (h : PointInv owned s) (n : Nat) (r : ResourceId) :
    list (s.sweep txn n).1.locks r = removeFirst (heldBy txn) (list s.locks r) := by
  have hnodup : (list s.byTxn txn).Nodup := h.byTxn_nodup txn
  rw [sweep_locks, Ledger.sweep_eq, dropItems_list txn hnodup]
  split
  · rfl
  · next hr =>
    have hfind : (list s.locks r).findFinIdx? (heldBy txn) = none := by
      rw [List.findFinIdx?_eq_none_iff]
      intro x hx hown
      exact hr ((h.indexed.mem_iff txn r).mpr ⟨x, hx, hown⟩)
    rw [removeFirst_of_none hfind]

theorem PointInv.sweep_modeOf (h : PointInv owned s) (n : Nat) (u : TxnId) (r : ResourceId) :
    modeOf (list (s.sweep txn n).1.locks r) u =
      if u = txn then none else modeOf (list s.locks r) u := by
  rw [sweep_locks, ← modeOf_others]
  have hp := Ledger.sweep_list h.indexed txn n r
  have hothers : EntryInv (pointLedger.others txn (list s.locks r)) := (h.entry r).filter _
  apply modeOf_congr hothers (hothers.perm hp.symm)
  intro m
  exact hp.mem_iff

end Effect

end LockDb
