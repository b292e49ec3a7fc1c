import LockDb.Manager

/-!
# One shard

What each critical section does to the holder lists of a shard, and the
invariant of a shard: no transaction is recorded twice for a resource, holders
of different transactions are compatible, and the reverse indexes are in step.
-/

namespace LockDb

set_option autoImplicit false

open Shared Shared.Multimap

def modeOf (l : LockEntry) (txn : TxnId) : Option LockMode :=
  (l.find? (heldBy txn)).map Holder.mode

/-- The records of one resource: each transaction once, all modes compatible. -/
structure EntryInv (l : LockEntry) : Prop where
  unique : (l.map Holder.txn).Nodup
  compatible : l.Pairwise fun a b => a.mode.compatibleWith b.mode = true

section Entry
variable {l l' : LockEntry} {t u : TxnId} {m : LockMode}

theorem modeOf_eq_none_iff : modeOf l t = none ↔ ∀ h ∈ l, h.txn ≠ t := by
  simp [modeOf, heldBy]

theorem mem_of_modeOf (h : modeOf l t = some m) : ⟨t, m⟩ ∈ l := by
  obtain ⟨r, hr, rfl⟩ := Option.map_eq_some_iff.mp h
  have ht : r.txn = t := by simpa [heldBy] using List.find?_some hr
  have hm := List.mem_of_find?_eq_some hr
  subst ht
  exact hm

theorem EntryInv.eq_of_txn (h : EntryInv l) {a b : Holder} (ha : a ∈ l) (hb : b ∈ l)
    (hab : a.txn = b.txn) : a = b :=
  List.inj_on_of_nodup_map h.unique ha hb hab

theorem EntryInv.modeOf_iff (h : EntryInv l) : modeOf l t = some m ↔ ⟨t, m⟩ ∈ l := by
  constructor
  · exact mem_of_modeOf
  · intro hm
    cases hl : modeOf l t with
    | none => exact absurd rfl (modeOf_eq_none_iff.mp hl _ hm)
    | some k =>
      have heq := h.eq_of_txn (mem_of_modeOf hl) hm rfl
      simp only [Holder.mk.injEq, true_and] at heq
      rw [heq]

theorem modeOf_congr (h : EntryInv l) (h' : EntryInv l') (hmem : ∀ m, ⟨t, m⟩ ∈ l' ↔ ⟨t, m⟩ ∈ l) :
    modeOf l' t = modeOf l t := by
  apply Option.ext
  intro m
  rw [h'.modeOf_iff, h.modeOf_iff, hmem]

theorem EntryInv.compat (h : EntryInv l) {a b : Holder} (ha : a ∈ l) (hb : b ∈ l)
    (hab : a.txn ≠ b.txn) : a.mode.compatibleWith b.mode = true := by
  have : Std.Symm fun a b : Holder => a.mode.compatibleWith b.mode = true := by
    constructor
    intro a b hc
    rwa [LockMode.compatibleWith_comm]
  exact h.compatible.forall ha hb fun hc => hab (by rw [hc])

theorem countP_heldBy (l : LockEntry) (t : TxnId) :
    l.countP (heldBy t) = (l.map Holder.txn).count t := by
  rw [List.count, List.countP_map]
  apply List.countP_congr
  intro h _
  simp [heldBy]

theorem EntryInv.nil : EntryInv [] := ⟨by simp, by simp⟩

theorem EntryInv.perm (h : EntryInv l) (hp : l.Perm l') : EntryInv l' := by
  constructor
  · exact (hp.map Holder.txn).nodup_iff.mp h.unique
  · apply (hp.pairwise_iff ?_).mp h.compatible
    intro a b hc
    rwa [LockMode.compatibleWith_comm]

theorem EntryInv.tail {a : Holder} (h : EntryInv (a :: l)) : EntryInv l := by
  constructor
  · exact (List.nodup_cons.mp h.unique).2
  · exact (List.pairwise_cons.mp h.compatible).2

theorem EntryInv.filter (h : EntryInv l) (p : Holder → Bool) : EntryInv (l.filter p) := by
  constructor
  · exact h.unique.sublist (List.filter_sublist.map _)
  · exact h.compatible.filter p

theorem EntryInv.cons {a : Holder} (h : EntryInv l) (hnew : ∀ b ∈ l, b.txn ≠ a.txn)
    (hfree : ∀ b ∈ l, b.mode.compatibleWith a.mode = true) : EntryInv (a :: l) := by
  constructor
  · apply List.nodup_cons.mpr
    refine ⟨?_, h.unique⟩
    intro hm
    obtain ⟨b, hb, hba⟩ := List.mem_map.mp hm
    exact hnew b hb hba
  · apply List.pairwise_cons.mpr
    refine ⟨?_, h.compatible⟩
    intro b hb
    rw [LockMode.compatibleWith_comm]
    exact hfree b hb

theorem EntryInv.replace {a b : LockEntry} {c d : LockMode} (h : EntryInv (a ++ ⟨t, c⟩ :: b))
    (hfree : ∀ x ∈ a ++ b, x.mode.compatibleWith d = true) : EntryInv (a ++ ⟨t, d⟩ :: b) := by
  have hcons : EntryInv (⟨t, c⟩ :: (a ++ b)) := h.perm List.perm_middle
  apply EntryInv.perm _ List.perm_middle.symm
  apply hcons.tail.cons _ hfree
  intro x hx heq
  exact (List.nodup_cons.mp hcons.unique).1 (heq ▸ List.mem_map_of_mem hx)

theorem modeOf_split {a b : LockEntry} {c : LockMode} (h : EntryInv (a ++ ⟨t, c⟩ :: b)) :
    modeOf (a ++ ⟨t, c⟩ :: b) t = some c :=
  h.modeOf_iff.mpr (by simp)

theorem modeOf_others (l : LockEntry) (t u : TxnId) :
    modeOf (pointLedger.others t l) u = if u = t then none else modeOf l u := by
  split
  · next hu =>
    rw [modeOf_eq_none_iff]
    intro h hm
    have hne : h.txn ≠ t := of_decide_eq_true (List.mem_filter.mp hm).2
    exact hu ▸ hne
  · next hu =>
    unfold modeOf Ledger.others
    rw [List.find?_filter]
    congr 2
    funext h
    by_cases hh : h.txn = u <;> simp [pointLedger, heldBy, hh, hu]

end Entry

section Split
variable {a b : LockEntry} {c : LockMode} {txn : TxnId} {x : Holder}

theorem mem_others (hx : x ∈ a ++ ⟨txn, c⟩ :: b) (hne : x.txn ≠ txn) : x ∈ a ++ b := by
  rcases List.mem_append.mp hx with hx | hx
  · exact List.mem_append_left b hx
  · rcases List.mem_cons.mp hx with rfl | hx
    · exact absurd rfl hne
    · exact List.mem_append_right a hx

theorem EntryInv.others_ne (h : EntryInv (a ++ ⟨txn, c⟩ :: b)) (hx : x ∈ a ++ b) : x.txn ≠ txn := by
  intro heq
  have hnodup := (h.perm List.perm_middle).unique
  apply (List.nodup_cons.mp hnodup).1
  simp only [← heq]
  exact List.mem_map_of_mem hx

theorem EntryInv.others_compat (h : EntryInv (a ++ ⟨txn, c⟩ :: b)) (hx : x ∈ a ++ b) :
    x.mode.compatibleWith c = true := by
  have hmem : x ∈ a ++ ⟨txn, c⟩ :: b := List.perm_middle.mem_iff.mpr (List.mem_cons_of_mem _ hx)
  exact h.compat hmem (b := ⟨txn, c⟩) (by simp) (h.others_ne hx)

end Split

/-- Everything an attempt to grant can do, by what the resource's holder list looks like. -/
inductive GrantCase (s : ShardInner) (txn : TxnId) (res : ResourceId) (mode : LockMode) :
    ShardInner × Bool → Prop where
  | covered {a b : LockEntry} {c : LockMode} (hl : list s.locks res = a ++ ⟨txn, c⟩ :: b)
      (hc : c.covers mode = true) : GrantCase s txn res mode (s, true)
  | upgraded {a b : LockEntry} {c : LockMode} (hl : list s.locks res = a ++ ⟨txn, c⟩ :: b)
      (hc : c.covers mode = false)
      (hfree : ∀ h ∈ a ++ b, h.mode.compatibleWith (c.join mode) = true) :
      GrantCase s txn res mode
        ({ s with locks := s.locks.insert res (a ++ ⟨txn, c.join mode⟩ :: b) }, true)
  | blocked {a b : LockEntry} {c : LockMode} {h : Holder}
      (hl : list s.locks res = a ++ ⟨txn, c⟩ :: b) (hc : c.covers mode = false) (hh : h ∈ a ++ b)
      (hx : h.mode.compatibleWith (c.join mode) = false) : GrantCase s txn res mode (s, false)
  | fresh (hnew : ∀ h ∈ list s.locks res, h.txn ≠ txn)
      (hfree : ∀ h ∈ list s.locks res, h.mode.compatibleWith mode = true) :
      GrantCase s txn res mode
        ({ s with locks := push s.locks res ⟨txn, mode⟩, byTxn := push s.byTxn txn res }, true)
  | refused {h : Holder} (hnew : ∀ h ∈ list s.locks res, h.txn ≠ txn)
      (hh : h ∈ list s.locks res) (hx : h.mode.compatibleWith mode = false) :
      GrantCase s txn res mode (s, false)

theorem tryGrant_cases (s : ShardInner) (txn : TxnId) (res : ResourceId) (mode : LockMode) :
    GrantCase s txn res mode (s.tryGrant txn res mode) := by
  have hkeep : list s.locks res ≠ [] →
    ({ s with locks := orInsert s.locks res } : ShardInner) = s := by
    intro hne
    rw [orInsert_of_list_ne_nil hne]
  have hent : list s.locks res = list (orInsert s.locks res) res :=
    (list_of_lookup (lookup_orInsert s.locks res)).symm
  simp only [ShardInner.tryGrant, tryGrantLocked]
  generalize list (orInsert s.locks res) res = entry at hent
  simp only [grantEntry, insert_orInsert]
  split
  · next pos hpos =>
    obtain ⟨a, b, hsplit, hlen, howner, _⟩ := findFinIdx?_split hpos
    have htxn : entry[pos].txn = txn := by simpa [heldBy] using howner
    have hrec : entry[pos] = ⟨txn, entry[pos].mode⟩ := by rw [← htxn]
    rw [hrec] at hsplit
    -- from here on only the split of the entry matters, not the index
    generalize entry[pos].mode = c at hsplit ⊢
    generalize pos.val = i at hlen ⊢
    subst hlen
    clear hpos howner htxn hrec
    subst hsplit
    have hne : list s.locks res ≠ [] := by simp [hent]
    split
    · next hc =>
      rw [hkeep hne]
      exact .covered hent hc
    · next hc =>
      have hc' : c.covers mode = false := by simpa using hc
      rw [any_zipIdx_ne a b ⟨txn, c⟩ fun h => !h.mode.compatibleWith (c.join mode)]
      split
      · next hb =>
        obtain ⟨h, hh, hx⟩ := List.any_eq_true.mp hb
        rw [hkeep hne]
        exact .blocked hent hc' hh (by simpa using hx)
      · next hb =>
        have hmod : (a ++ ⟨txn, c⟩ :: b).modify a.length (fun h => { h with mode := c.join mode }) =
            a ++ ⟨txn, c.join mode⟩ :: b := by
          rw [List.modify_eq_take_cons_drop (by simp)]
          simp
        rw [hmod]
        apply GrantCase.upgraded hent hc'
        intro h hh
        by_contra hx
        exact hb (List.any_eq_true.mpr ⟨h, hh, by simpa using hx⟩)
  · next hpos =>
    have hnew : ∀ h ∈ list s.locks res, h.txn ≠ txn := by
      rw [hent]
      intro h hh
      simpa [heldBy] using List.findFinIdx?_eq_none_iff.mp hpos h hh
    split
    · next hall =>
      rw [← hent]
      apply GrantCase.fresh hnew
      rw [hent]
      exact List.all_eq_true.mp hall
    · next hall =>
      obtain ⟨h, hh, hx⟩ : ∃ h ∈ list s.locks res, h.mode.compatibleWith mode = false := by
        rw [hent]
        simpa using hall
      rw [hkeep (List.ne_nil_of_mem hh)]
      exact .refused hnew hh hx

theorem grantEntry_congr {locks locks' : HashMap ResourceId LockEntry}
    {byTxn byTxn' : HashMap TxnId (List ResourceId)} {txn : TxnId} {res : ResourceId}
    {mode : LockMode} {entry : LockEntry} (h : list locks res = entry)
    (h' : list locks' res = entry) :
    (grantEntry locks byTxn txn res mode entry).1 =
        (grantEntry locks' byTxn' txn res mode entry).1 ∧
      list (grantEntry locks byTxn txn res mode entry).2.1 res =
        list (grantEntry locks' byTxn' txn res mode entry).2.1 res := by
  simp only [grantEntry]
  split
  · split
    · exact ⟨rfl, h.trans h'.symm⟩
    · split
      · exact ⟨rfl, h.trans h'.symm⟩
      · simp only [list_insert, if_true, and_self]
  · split
    · simp only [list_insert, if_true, and_self]
    · exact ⟨rfl, h.trans h'.symm⟩

/-- The decision and the new holder list depend on the old holder list alone. -/
theorem tryGrant_congr {s s' : ShardInner} {txn : TxnId} {res : ResourceId} {mode : LockMode}
    (h : list s.locks res = list s'.locks res) :
    (s.tryGrant txn res mode).2 = (s'.tryGrant txn res mode).2 ∧
      list (s.tryGrant txn res mode).1.locks res = list (s'.tryGrant txn res mode).1.locks res := by
  have hentry : ∀ s : ShardInner, list (orInsert s.locks res) res = list s.locks res := by
    intro s
    exact list_of_lookup (lookup_orInsert s.locks res)
  have hsame : list (orInsert s'.locks res) res = list (orInsert s.locks res) res := by
    rw [hentry, hentry, h]
  simp only [ShardInner.tryGrant, tryGrantLocked]
  rw [hsame]
  exact grantEntry_congr rfl hsame

theorem tryGrant_frame (s : ShardInner) {txn : TxnId} {res r : ResourceId} {mode : LockMode}
    (hr : r ≠ res) : list (s.tryGrant txn res mode).1.locks r = list s.locks r := by
  have hcase := tryGrant_cases s txn res mode
  generalize s.tryGrant txn res mode = out at hcase
  cases hcase with
  | upgraded _ _ _ => rw [list_insert, if_neg hr]
  | fresh _ _ => rw [list_push, if_neg hr]
  | covered _ _ => rfl
  | blocked _ _ _ _ => rfl
  | refused _ _ _ => rfl

end LockDb
