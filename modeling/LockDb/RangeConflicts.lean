import LockDb.RangeHistory

/-!
# What a range conflict means

Two ranges overlap by their endpoints. For ranges with ordered endpoints that is
the same as having a key in common; an inverted range has no key at all and may
still pass the test. `new` and `point` build ordered ranges only, a decoder that
fills in the two fields builds any.
-/

namespace LockDb

set_option autoImplicit false

open Shared Shared.Multimap

def KeyRange.Ordered (self : KeyRange) : Prop := self.start ≤ self.stop

instance (range : KeyRange) : Decidable range.Ordered :=
  inferInstanceAs (Decidable (range.start ≤ range.stop))

theorem KeyRange.ordered_of_contains {range : KeyRange} {key : UInt64}
    (h : range.contains key = true) : range.Ordered := by
  simp only [KeyRange.contains, Bool.and_eq_true, decide_eq_true_eq] at h
  exact UInt64.le_trans h.1 h.2

/-- Somebody else's record whose mode does not go with `mode`. -/
def RangeHolder.Opposes (h : RangeHolder) (txn : TxnId) (mode : LockMode) : Prop :=
  h.txn ≠ txn ∧ h.mode.compatibleWith mode = false

theorem RangeHolder.not_free_iff {h : RangeHolder} {txn : TxnId} {range : KeyRange}
    {mode : LockMode} : ¬ h.Free ⟨txn, range, mode⟩ ↔
      h.Opposes txn mode ∧ h.range.overlaps range = true := by
  simp only [RangeHolder.Free, RangeHolder.Opposes, Classical.not_imp, Bool.not_eq_true]
  tauto

namespace LockManager
variable {bits : Nat} {self : LockManager bits}

/-- Another transaction has a key of `range` under a mode that does not go with `mode`. -/
def SharesKey (self : LockManager bits) (txn : TxnId) (space : ResourceId) (range : KeyRange)
    (mode : LockMode) : Prop :=
  ∃ h ∈ self.rangeHolders space, h.Opposes txn mode ∧
    ∃ key, h.range.contains key = true ∧ range.contains key = true

/-- Opposing records pass the endpoint test, and inverted endpoints are the only reason. -/
def Misjudged (self : LockManager bits) (txn : TxnId) (space : ResourceId) (range : KeyRange)
    (mode : LockMode) : Prop :=
  (∃ h ∈ self.rangeHolders space, h.Opposes txn mode ∧ h.range.overlaps range = true) ∧
    (range.Ordered → ∀ h ∈ self.rangeHolders space, h.Opposes txn mode →
      h.range.overlaps range = true → ¬ h.range.Ordered)

theorem conflict_iff (self : LockManager bits) (txn : TxnId) (space : ResourceId)
    (range : KeyRange) (mode : LockMode) :
    (self.tryAcquireRange txn space range mode).2 = .error .conflict ↔
      ∃ h ∈ self.rangeHolders space, h.Opposes txn mode ∧ h.range.overlaps range = true := by
  have hiff : (self.tryAcquireRange txn space range mode).2 = .error .conflict ↔ _ :=
    tryAcquireRange_conflict_iff
  simp only [RangeHolder.not_free_iff] at hiff
  exact hiff

theorem sharesKey_iff {txn : TxnId} {space : ResourceId} {range : KeyRange} {mode : LockMode} :
    self.SharesKey txn space range mode ↔ range.Ordered ∧
      ∃ h ∈ self.rangeHolders space, h.Opposes txn mode ∧ h.range.overlaps range = true ∧
        h.range.Ordered := by
  constructor
  · intro hshares
    obtain ⟨h, hh, hopp, key, hkey, hrange⟩ := hshares
    exact ⟨KeyRange.ordered_of_contains hrange, h, hh, hopp,
      KeyRange.overlaps_of_contains hkey hrange, KeyRange.ordered_of_contains hkey⟩
  · intro hordered
    obtain ⟨hrange, h, hh, hopp, hover, hheld⟩ := hordered
    exact ⟨h, hh, hopp, KeyRange.contains_of_overlaps hheld hrange hover⟩

/-- A refusal means a common key exactly when inverted endpoints are not what caused it. -/
theorem conflict_exact_iff (self : LockManager bits) (txn : TxnId) (space : ResourceId)
    (range : KeyRange) (mode : LockMode) :
    ((self.tryAcquireRange txn space range mode).2 = .error .conflict ↔
      self.SharesKey txn space range mode) ↔ ¬ self.Misjudged txn space range mode := by
  rw [conflict_iff]
  constructor
  · intro hexact hbad
    obtain ⟨hover, hinverted⟩ := hbad
    obtain ⟨hrange, h, hh, hopp, hoverlap, hheld⟩ := sharesKey_iff.mp (hexact.mp hover)
    exact hinverted hrange h hh hopp hoverlap hheld
  · intro hfair
    constructor
    · intro hover
      by_contra hno
      rw [sharesKey_iff] at hno
      apply hfair
      refine ⟨hover, ?_⟩
      intro hrange h hh hopp hoverlap hheld
      exact hno ⟨hrange, h, hh, hopp, hoverlap, hheld⟩
    · intro hshares
      obtain ⟨_, h, hh, hopp, hover, _⟩ := sharesKey_iff.mp hshares
      exact ⟨h, hh, hopp, hover⟩

/-- A record is there before a critical section, or the section has just added it. -/
theorem Inv.record_origin (h : self.Inv) (c : CriticalSection bits) (space : ResourceId)
    {x : RangeHolder} (hx : x ∈ (self.enter c).rangeHolders space) :
    x ∈ self.rangeHolders space ∨ c = .tryAcquireRange x.txn space x.range x.mode := by
  cases c with
  | tryAcquire txn res mode =>
    rw [LockManager.enter, tryAcquire_fst, grantStep_rangeHolders] at hx
    exact .inl hx
  | requestGrant txn res mode =>
    rw [LockManager.enter, grantStep_rangeHolders] at hx
    exact .inl hx
  | registerWait txn res mode => exact .inl hx
  | clearWait txn => exact .inl hx
  | release txn res =>
    have hsame := rangeHolders_setShard (release_keeps_ranges (self.lockShard res) txn res).1
    exact .inl (hsame ▸ hx)
  | sweepShard txn i => exact .inl ((h.mem_sweepShard_rangeHolders txn i 0 space x).mp hx).1
  | tryAcquireRange txn s range mode =>
    by_cases hok : (self.tryAcquireRange txn s range mode).2 = .ok ()
    · rw [LockManager.enter, tryAcquireRange_rangeHolders hok] at hx
      split at hx
      · next hs =>
        rcases List.mem_append.mp hx with hx | hx
        · exact .inl hx
        · rw [List.mem_singleton.mp hx, hs]
          exact .inr rfl
      · exact .inl hx
    · rw [LockManager.enter, self.tryAcquireRange_refused hok] at hx
      exact .inl hx
  | releaseRange txn s range =>
    by_cases hok : (self.releaseRange txn s range).2 = .ok ()
    · obtain ⟨⟨mode, hperm⟩, hframe⟩ := releaseRange_rangeHolders hok
      rw [LockManager.enter] at hx
      by_cases hs : space = s
      · subst hs
        exact .inl (hperm.mem_iff.mp (List.mem_cons_of_mem _ hx))
      · rw [hframe space hs] at hx
        exact .inl hx
    · rw [LockManager.enter, self.releaseRange_refused hok] at hx
      exact .inl hx

/-- The ranges a move tries to acquire. -/
def Move.ranges : Move bits → List KeyRange
  | .call (.tryAcquireRange _ _ range _) => [range]
  | .critical (.tryAcquireRange _ _ range _) => [range]
  | _ => []

theorem sections_ranges (self : LockManager bits) {op : Op} {txn : TxnId} {space : ResourceId}
    {range : KeyRange} {mode : LockMode}
    (h : .tryAcquireRange txn space range mode ∈ self.sections op) :
    range ∈ (Move.call op : Move bits).ranges := by
  cases op with
  | tryAcquireRange u s r m =>
    simp only [sections, List.mem_singleton, CriticalSection.tryAcquireRange.injEq] at h
    simp [Move.ranges, h.2.2.1]
  | request order u res m =>
    simp only [sections, List.mem_cons, List.not_mem_nil, or_false, reduceCtorEq, false_or] at h
    split at h <;> simp at h
  | tryAcquire u res m => simp [sections] at h
  | release u res => simp [sections] at h
  | releaseAll u => simp [sections] at h
  | cancelWait u => simp [sections] at h
  | findDeadlock order keyOrder => simp [sections] at h
  | releaseRange u s r => simp [sections] at h

section Records
variable {P : KeyRange → Prop}

/-- Ranges in the table have been acquired, so what holds of those holds of the others. -/
theorem Inv.foldl_records (h : self.Inv) (hheld : ∀ space, ∀ x ∈ self.rangeHolders space, P x.range)
    (cs : List (CriticalSection bits))
    (hcs : ∀ txn space range mode, .tryAcquireRange txn space range mode ∈ cs → P range) :
    ∀ space, ∀ x ∈ (cs.foldl LockManager.enter self).rangeHolders space, P x.range := by
  induction cs generalizing self with
  | nil => exact hheld
  | cons c cs ih =>
    apply ih (h.enter c)
    · intro space x hx
      rcases h.record_origin c space hx with hx | hc
      · exact hheld space x hx
      · exact hcs x.txn space x.range x.mode (by simp [hc])
    · intro txn space range mode hmem
      exact hcs txn space range mode (List.mem_cons_of_mem _ hmem)

theorem reached_records {moves : List (Move bits)} (hmoves : ∀ m ∈ moves, ∀ r ∈ m.ranges, P r) :
    ∀ space, ∀ x ∈ (reached bits moves).rangeHolders space, P x.range := by
  have hrun : ∀ self : LockManager bits, self.Inv →
      (∀ space, ∀ x ∈ self.rangeHolders space, P x.range) →
      ∀ space, ∀ x ∈ (moves.foldl move self).rangeHolders space, P x.range := by
    induction moves with
    | nil =>
      intro self _ hheld
      exact hheld
    | cons m moves ih =>
      intro self h hheld
      have hfirst := hmoves m List.mem_cons_self
      have hrest : ∀ m ∈ moves, ∀ r ∈ m.ranges, P r := fun m hm =>
        hmoves m (List.mem_cons_of_mem _ hm)
      cases m with
      | call op =>
        apply ih hrest _ (h.exec op)
        rw [exec_sections]
        apply h.foldl_records hheld
        intro txn space range mode hmem
        exact hfirst range (sections_ranges self hmem)
      | critical c =>
        apply ih hrest _ (h.enter c)
        apply h.foldl_records hheld [c]
        intro txn space range mode hmem
        rw [List.mem_singleton] at hmem
        subst hmem
        exact hfirst range (by simp [Move.ranges])
  apply hrun _ (inv_withShards bits)
  intro space x hx
  simp [rangeHolders, lockShard, withShards, ShardInner.new] at hx

end Records

end LockManager

/-- A decoded range with inverted endpoints is refused although it has no key. -/
theorem inverted_range_refused :
    ¬ ∀ (bits : Nat) (moves : List (LockManager.Move bits)) (txn : TxnId) (space : ResourceId)
      (range : KeyRange) (mode : LockMode), let self := LockManager.reached bits moves
      (self.tryAcquireRange txn space range mode).2 = .error .conflict ↔
        self.SharesKey txn space range mode := by
  intro hexact
  have hiff := hexact 4 [.call (.tryAcquireRange ⟨2⟩ ⟨1⟩ ⟨0, 100⟩ .exclusive)] ⟨1⟩ ⟨1⟩ ⟨60, 40⟩
    .exclusive
  have hshares := hiff.mp (by decide +kernel)
  have hordered : KeyRange.Ordered ⟨60, 40⟩ := (LockManager.sharesKey_iff.mp hshares).1
  exact absurd hordered (by decide)

/-- In every reachable state a range is refused for a key that another transaction has in a
mode that does not go with the one asked for, except where inverted endpoints get in the
way; when all ranges of a run are ordered, they never do. -/
theorem conflict_means_shared_key (bits : Nat) (moves : List (LockManager.Move bits)) :
    let self := LockManager.reached bits moves
    (∀ txn space range mode,
      ((self.tryAcquireRange txn space range mode).2 = .error .conflict ↔
        self.SharesKey txn space range mode) ↔ ¬ self.Misjudged txn space range mode) ∧
    ((∀ m ∈ moves, ∀ range ∈ m.ranges, range.Ordered) → ∀ txn space range mode, range.Ordered →
      ((self.tryAcquireRange txn space range mode).2 = .error .conflict ↔
        self.SharesKey txn space range mode)) := by
  intro self
  refine ⟨self.conflict_exact_iff, ?_⟩
  intro hmoves txn space range mode hrange
  apply (self.conflict_exact_iff txn space range mode).mpr
  intro hbad
  obtain ⟨⟨h, hh, hopp, hover⟩, hinverted⟩ := hbad
  exact hinverted hrange h hh hopp hover (LockManager.reached_records hmoves space h hh)

end LockDb
