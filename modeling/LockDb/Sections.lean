import LockDb.RangeConflicts

/-!
# One critical section

Everything a critical section can do to the held modes, the range records and the
wait map. Each section works for one transaction: the others keep what they hold,
and only the sections that acquire give their own transaction anything.
-/

namespace LockDb

set_option autoImplicit false

open Shared Shared.Multimap

namespace CriticalSection
variable {bits : Nat}

/-- The transaction a section works for. -/
def txn : CriticalSection bits → TxnId
  | .tryAcquire txn _ _ => txn
  | .requestGrant txn _ _ => txn
  | .registerWait txn _ _ => txn
  | .clearWait txn => txn
  | .release txn _ => txn
  | .sweepShard txn _ => txn
  | .tryAcquireRange txn _ _ _ => txn
  | .releaseRange txn _ _ => txn

/-- The sections that may give their transaction a lock. -/
def acquires : CriticalSection bits → Bool
  | .tryAcquire _ _ _ => true
  | .requestGrant _ _ _ => true
  | .tryAcquireRange _ _ _ _ => true
  | _ => false

end CriticalSection

namespace LockManager
variable {bits : Nat} {self : LockManager bits}

/-- Everything one critical section can do. -/
inductive SectionCase (self : LockManager bits) : CriticalSection bits → LockManager bits → Prop
    where
  | granted {c : CriticalSection bits} {txn : TxnId} {res : ResourceId} {mode : LockMode}
      {next : LockManager bits} (hc : c = .tryAcquire txn res mode ∨ c = .requestGrant txn res mode)
      (free : self.Grantable txn res mode)
      (held : next.modeHeld = LockTable.heldGrant self.modeHeld txn res mode)
      (ranges : next.rangeHolders = self.rangeHolders) (waits : next.waits = self.waits) :
      SectionCase self c next
  | unchanged (c : CriticalSection bits) : SectionCase self c self
  | waited {c : CriticalSection bits} {next : LockManager bits}
      (held : next.modeHeld = self.modeHeld) (ranges : next.rangeHolders = self.rangeHolders)
      (waits : ∀ t, t ≠ c.txn → next.waits.lookup t = self.waits.lookup t) :
      SectionCase self c next
  | released {txn : TxnId} {res : ResourceId} {next : LockManager bits}
      (held : next.modeHeld = LockTable.heldDrop self.modeHeld txn res)
      (ranges : next.rangeHolders = self.rangeHolders) (waits : next.waits = self.waits) :
      SectionCase self (.release txn res) next
  | swept {txn : TxnId} {i : Fin (2 ^ bits)} {next : LockManager bits}
      (held : ∀ u r, next.modeHeld u r =
        if u = txn ∧ shardIndex bits r = i then none else self.modeHeld u r)
      (ranges : ∀ space x, x ∈ next.rangeHolders space ↔
        x ∈ self.rangeHolders space ∧ ¬ (x.txn = txn ∧ shardIndex bits space = i))
      (waits : next.waits = self.waits) : SectionCase self (.sweepShard txn i) next
  | rangeAcquired {txn : TxnId} {space : ResourceId} {range : KeyRange} {mode : LockMode}
      {next : LockManager bits} (held : next.modeHeld = self.modeHeld)
      (ranges : ∀ s, next.rangeHolders s =
        if s = space then self.rangeHolders s ++ [⟨txn, range, mode⟩] else self.rangeHolders s)
      (waits : next.waits = self.waits) :
      SectionCase self (.tryAcquireRange txn space range mode) next
  | rangeReleased {txn : TxnId} {space : ResourceId} {range : KeyRange} {mode : LockMode}
      {next : LockManager bits} (held : next.modeHeld = self.modeHeld)
      (perm : (⟨txn, range, mode⟩ :: next.rangeHolders space).Perm (self.rangeHolders space))
      (frame : ∀ s, s ≠ space → next.rangeHolders s = self.rangeHolders s)
      (waits : next.waits = self.waits) : SectionCase self (.releaseRange txn space range) next

theorem grantStep_case (h : self.Inv) {c : CriticalSection bits} {txn : TxnId} {res : ResourceId}
    {mode : LockMode} (hc : c = .tryAcquire txn res mode ∨ c = .requestGrant txn res mode) :
    SectionCase self c (self.grantStep txn res mode).1 := by
  have hranges := self.grantStep_rangeHolders txn res mode
  rcases h.grantStep_cases txn res mode with ⟨free, next, hg, held, waits⟩ | ⟨_, hg⟩
  · rw [hg] at hranges ⊢
    exact .granted hc free held hranges waits
  · rw [hg]
    exact .unchanged c

theorem Inv.enter_cases (h : self.Inv) (c : CriticalSection bits) :
    SectionCase self c (self.enter c) := by
  cases c with
  | tryAcquire txn res mode =>
    rw [LockManager.enter, tryAcquire_fst]
    exact grantStep_case h (.inl rfl)
  | requestGrant txn res mode => exact grantStep_case h (.inr rfl)
  | registerWait txn res mode =>
    refine .waited rfl rfl fun t ht => ?_
    exact (lookup_insert_eq _ _ _ _).trans (if_neg ht)
  | clearWait txn =>
    refine .waited rfl rfl fun t ht => ?_
    exact (lookup_erase_eq _ _ _).trans (if_neg ht)
  | release txn res =>
    have hranges := rangeHolders_setShard (release_keeps_ranges (self.lockShard res) txn res).1
    change (self.release txn res).1.rangeHolders = _ at hranges
    rw [LockManager.enter]
    rcases h.release_cases txn res with ⟨_, hr⟩ | ⟨_, next, hr, held, waits⟩
    · rw [hr]
      exact .unchanged _
    · rw [hr] at hranges ⊢
      exact .released held hranges waits
  | sweepShard txn i =>
    refine .swept ?_ ?_ rfl
    · exact h.sweepShard_modeHeld txn i 0
    · exact fun space x => h.mem_sweepShard_rangeHolders txn i 0 space x
  | tryAcquireRange txn space range mode =>
    rw [LockManager.enter]
    by_cases hok : (self.tryAcquireRange txn space range mode).2 = .ok ()
    · refine .rangeAcquired ?_ (tryAcquireRange_rangeHolders hok) rfl
      exact modeHeld_setShard (tryAcquireRange_keeps_locks _ _ _ _ _).1
    · rw [self.tryAcquireRange_refused hok]
      exact .unchanged _
  | releaseRange txn space range =>
    rw [LockManager.enter]
    by_cases hok : (self.releaseRange txn space range).2 = .ok ()
    · obtain ⟨⟨mode, hperm⟩, hframe⟩ := releaseRange_rangeHolders hok
      refine .rangeReleased ?_ hperm hframe rfl
      exact modeHeld_setShard (releaseRange_keeps_locks _ _ _ _).1
    · rw [self.releaseRange_refused hok]
      exact .unchanged _

section Others
variable {c : CriticalSection bits} {u : TxnId}

theorem Inv.enter_others_modeHeld (h : self.Inv) (hu : u ≠ c.txn) :
    (self.enter c).modeHeld u = self.modeHeld u := by
  funext r
  have hcase := h.enter_cases c
  generalize self.enter c = next at hcase
  cases hcase with
  | @granted _ txn _ _ _ hc _ held _ _ =>
    have hne : u ≠ txn := by
      rcases hc with rfl | rfl
      · exact hu
      · exact hu
    rw [held, LockTable.heldGrant, if_neg fun hut => hne hut.1]
  | unchanged => rfl
  | waited held _ _ => rw [held]
  | released held _ _ => rw [held, LockTable.heldDrop, if_neg fun hut => hu hut.1]
  | swept held _ _ => rw [held, if_neg fun hut => hu hut.1]
  | rangeAcquired held _ _ => rw [held]
  | rangeReleased held _ _ _ => rw [held]

theorem Inv.enter_others_ranges (h : self.Inv) {space : ResourceId} {x : RangeHolder}
    (hx : x.txn ≠ c.txn) :
    x ∈ (self.enter c).rangeHolders space ↔ x ∈ self.rangeHolders space := by
  have hcase := h.enter_cases c
  generalize self.enter c = next at hcase
  cases hcase with
  | granted _ _ _ ranges _ => rw [ranges]
  | unchanged => rfl
  | waited _ ranges _ => rw [ranges]
  | released _ ranges _ => rw [ranges]
  | swept _ ranges _ =>
    rw [ranges]
    exact and_iff_left fun hxt => hx hxt.1
  | @rangeAcquired txn _ range mode _ _ ranges _ =>
    rw [ranges]
    split
    · have hne : x ≠ ⟨txn, range, mode⟩ := fun heq => hx (congrArg RangeHolder.txn heq)
      simp [hne]
    · rfl
  | @rangeReleased txn s range mode _ _ perm frame _ =>
    by_cases hs : space = s
    · subst hs
      have hne : x ≠ ⟨txn, range, mode⟩ := fun heq => hx (congrArg RangeHolder.txn heq)
      rw [← perm.mem_iff, List.mem_cons, or_iff_right hne]
    · rw [frame space hs]

/-- An acquiring section takes nothing away. -/
theorem Inv.enter_acquires (h : self.Inv) (hc : c.acquires = true) :
    (∀ r m, self.modeHeld u r = some m → ∃ m', (self.enter c).modeHeld u r = some m' ∧ m ≤ m') ∧
    ∀ space, ∀ x ∈ self.rangeHolders space, x ∈ (self.enter c).rangeHolders space := by
  have hcase := h.enter_cases c
  generalize self.enter c = next at hcase
  have hsame : ∀ {next : LockManager bits}, next.modeHeld = self.modeHeld →
      ∀ r m, self.modeHeld u r = some m → ∃ m', next.modeHeld u r = some m' ∧ m ≤ m' := by
    intro next heq r m hm
    exact ⟨m, by rw [heq, hm], le_refl m⟩
  cases hcase with
  | granted _ _ held ranges _ =>
    refine ⟨fun r m hm => ?_, fun space x hx => by rwa [ranges]⟩
    rw [held]
    exact LockTable.le_heldGrant hm _ _ _
  | unchanged => exact ⟨hsame rfl, fun space x hx => hx⟩
  | waited held ranges _ => exact ⟨hsame held, fun space x hx => by rwa [ranges]⟩
  | rangeAcquired held ranges _ =>
    refine ⟨hsame held, fun space x hx => ?_⟩
    rw [ranges]
    split
    · exact List.mem_append_left _ hx
    · exact hx
  | released _ _ _ => simp [CriticalSection.acquires] at hc
  | swept _ _ _ => simp [CriticalSection.acquires] at hc
  | rangeReleased _ _ _ _ => simp [CriticalSection.acquires] at hc

/-- A section that does not acquire gives nothing. -/
theorem Inv.enter_releases (h : self.Inv) (hc : c.acquires = false) :
    (∀ r m, (self.enter c).modeHeld u r = some m → self.modeHeld u r = some m) ∧
    ∀ space, ∀ x ∈ (self.enter c).rangeHolders space, x ∈ self.rangeHolders space := by
  have hcase := h.enter_cases c
  generalize self.enter c = next at hcase
  cases hcase with
  | granted hg _ _ _ _ => rcases hg with rfl | rfl <;> simp [CriticalSection.acquires] at hc
  | unchanged => exact ⟨fun r m hm => hm, fun space x hx => hx⟩
  | waited held ranges _ =>
    exact ⟨fun r m hm => by rwa [held] at hm, fun space x hx => by rwa [ranges] at hx⟩
  | released held ranges _ =>
    refine ⟨fun r m hm => ?_, fun space x hx => by rwa [ranges] at hx⟩
    rw [held] at hm
    exact LockTable.heldDrop_some hm
  | swept held ranges _ =>
    refine ⟨fun r m hm => ?_, fun space x hx => ((ranges space x).mp hx).1⟩
    rw [held] at hm
    split at hm
    · simp at hm
    · exact hm
  | rangeAcquired _ _ _ => simp [CriticalSection.acquires] at hc
  | @rangeReleased txn s _ _ _ held perm frame _ =>
    refine ⟨fun r m hm => by rwa [held] at hm, fun space x hx => ?_⟩
    by_cases hs : space = s
    · subst hs
      exact perm.mem_iff.mp (List.mem_cons_of_mem _ hx)
    · rwa [frame space hs] at hx

end Others

end LockManager

end LockDb
