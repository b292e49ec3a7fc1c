import LockDb.FairWorkers
import LockDb.ScheduledDetection
import LockDb.Sections
import LockDb.Shared.Debts

/-!
# What is left when all threads have stopped

Threads that stop only after everything they acquired was released, each range as often
as it was acquired or by `release_all`, and only after `release_all` or `cancel_wait`
for each request that was not granted. Their calls interrupt each other at any step, a
`release_all` between any two of its shards. When all have stopped, the table is as it
was when it was new.
-/

namespace LockDb

set_option autoImplicit false

open Shared Shared.Multimap

/-- Something that a transaction may have in the table, a range more than once. -/
inductive Record where
  | lock (txn : TxnId) (res : ResourceId)
  | range (txn : TxnId) (space : ResourceId) (range : KeyRange)
  | wait (txn : TxnId)
deriving DecidableEq

namespace Record

def txn : Record → TxnId
  | .lock txn _ => txn
  | .range txn _ _ => txn
  | .wait txn => txn

/-- The mutex under which the record stands. -/
def slot (bits : Nat) : Record → Mutex bits
  | .lock _ res => .shard (shardIndex bits res)
  | .range _ space _ => .shard (shardIndex bits space)
  | .wait _ => .waits

end Record

/-- What a thread owes after a call, if it owed `owes` before. -/
def Method.debts (owes : Record → Nat) : Method → Answer → Record → Nat
  | .op (.tryAcquire txn res _), .outcome (.result (.ok _)) =>
    Function.update owes (.lock txn res) 1
  | .op (.request _ txn res _), .outcome (.acquisition .granted) =>
    Function.update (Function.update owes (.lock txn res) 1) (.wait txn) 0
  | .op (.request _ txn _ _), .outcome (.acquisition _) => Function.update owes (.wait txn) 1
  | .op (.tryAcquireRange txn space range _), .outcome (.result (.ok _)) =>
    Function.update owes (.range txn space range) (owes (.range txn space range) + 1)
  | .op (.release txn res), _ => Function.update owes (.lock txn res) 0
  | .op (.releaseRange txn space range), .outcome (.result (.ok _)) =>
    Function.update owes (.range txn space range) (owes (.range txn space range) - 1)
  | .op (.releaseRange txn space range), _ => Function.update owes (.range txn space range) 0
  | .op (.cancelWait txn), _ => Function.update owes (.wait txn) 0
  | .op (.releaseAll txn), _ => fun x => if x.txn = txn then 0 else owes x
  | _, _ => owes

/-- Whatever the answers, the client stops only when it owes nothing. -/
def Client.Tidy (owes : Record → Nat) : Client → Prop
  | .stop => ∀ x, owes x = 0
  | .call method next => ∀ answer, (next answer).Tidy (method.debts owes answer)

namespace LockManager
variable {bits : Nat} {self next : LockManager bits} {txn : TxnId} {res space : ResourceId}
variable {mode : LockMode} {range : KeyRange}

/-- How often a record is in the table. -/
def copies (self : LockManager bits) : Record → Nat
  | .lock txn res => (self.modeHeld txn res).isSome.toNat
  | .range txn space range => self.rangeHeld txn space range
  | .wait txn => (self.waits.lookup txn).isSome.toNat

theorem Inv.grantStep_copies (h : self.Inv) : (self.grantStep txn res mode).1.copies =
    if (self.grantStep txn res mode).2 then Function.update self.copies (.lock txn res) 1
    else self.copies := by
  have hranges := self.grantStep_rangeHolders txn res mode
  rcases h.grantStep_cases txn res mode with ⟨_, next, hg, held, waits⟩ | ⟨_, hg⟩
  · rw [hg] at hranges ⊢
    funext x
    cases x with
    | lock t r =>
      simp only [copies, held, LockTable.heldGrant, Function.update_apply, Record.lock.injEq,
        if_true]
      split <;> rfl
    | range t s r => simp [copies, rangeHeld, hranges]
    | wait t => simp [copies, waits]
  · rw [hg]
    rfl

theorem Inv.release_copies (h : self.Inv) :
    (self.release txn res).1.copies = Function.update self.copies (.lock txn res) 0 := by
  have hranges : (self.release txn res).1.rangeHolders = self.rangeHolders :=
    rangeHolders_setShard (release_keeps_ranges _ _ _).1
  rcases h.release_cases txn res with ⟨hnone, hr⟩ | ⟨_, next, hr, held, waits⟩
  · rw [hr, eq_comm, Function.update_eq_self_iff, copies, hnone]
    rfl
  · rw [hr] at hranges ⊢
    funext x
    cases x with
    | lock t r =>
      simp only [copies, held, LockTable.heldDrop, Function.update_apply, Record.lock.injEq]
      split <;> rfl
    | range t s r => simp [copies, rangeHeld, hranges]
    | wait t => simp [copies, waits]

theorem clearWait_copies : (self.enter (.clearWait txn)).copies =
    Function.update self.copies (.wait txn) 0 := by
  funext x
  cases x with
  | lock t r => rfl
  | range t s r => rfl
  | wait t =>
    simp only [copies, enter, lookup_erase_eq, Function.update_apply, Record.wait.injEq]
    split <;> rfl

theorem registerWait_copies : (self.enter (.registerWait txn res mode)).copies =
    Function.update self.copies (.wait txn) 1 := by
  funext x
  cases x with
  | lock t r => rfl
  | range t s r => rfl
  | wait t =>
    simp only [copies, enter, lookup_insert_eq, Function.update_apply, Record.wait.injEq]
    split <;> rfl

/-- The sweep of a shard takes out whatever stands there of the transaction. -/
theorem Inv.sweepShard_copies (h : self.Inv) (i : Fin (2 ^ bits)) (x : Record) :
    (self.enter (.sweepShard txn i)).copies x =
      if x.txn = txn ∧ x.slot bits = .shard i then 0 else self.copies x := by
  rw [← sweepShard_enter self txn i 0]
  cases x with
  | lock t r =>
    simp only [copies, h.sweepShard_modeHeld, Record.txn, Record.slot, Mutex.shard.injEq]
    split <;> rfl
  | range t s r =>
    have hperm := h.sweepShard_rangeHolders txn i 0 s
    simp only [copies, ← card_rangeModes, rangeModes, modesOn_perm hperm, Record.txn,
      Record.slot, Mutex.shard.injEq]
    by_cases hi : shardIndex bits s = i
    · rw [if_pos hi, modesOn_others]
      by_cases ht : t = txn <;> simp [hi, ht]
    · simp [hi]
  | wait t =>
    have hslot : Record.slot bits (.wait t) ≠ .shard i := by simp [Record.slot]
    rw [if_neg fun hc => hslot hc.2]
    rfl

theorem tryAcquireRange_copies : (self.tryAcquireRange txn space range mode).1.copies =
    if (self.tryAcquireRange txn space range mode).2 = .ok () then
      Function.update self.copies (.range txn space range)
        (self.copies (.range txn space range) + 1)
    else self.copies := by
  by_cases hok : (self.tryAcquireRange txn space range mode).2 = .ok ()
  · rw [if_pos hok]
    have hheld : (self.tryAcquireRange txn space range mode).1.modeHeld = self.modeHeld :=
      modeHeld_setShard (tryAcquireRange_keeps_locks _ _ _ _ _).1
    funext x
    cases x with
    | lock t r => simp [copies, hheld]
    | range t s r =>
      simp only [copies, ← card_rangeModes, tryAcquireRange_rangeModes hok, Function.update_apply,
        Record.range.injEq]
      by_cases hx : t = txn ∧ s = space ∧ r = range
      · obtain ⟨rfl, rfl, rfl⟩ := hx
        simp
      · have hx' : ¬ (txn = t ∧ space = s ∧ range = r) := fun hc =>
          hx ⟨hc.1.symm, hc.2.1.symm, hc.2.2.symm⟩
        rw [if_neg hx, if_neg hx']
    | wait t => rfl
  · rw [if_neg hok, self.tryAcquireRange_refused hok]

theorem releaseRange_copies : (self.releaseRange txn space range).1.copies =
    Function.update self.copies (.range txn space range)
      (self.copies (.range txn space range) - 1) := by
  have hresult := self.releaseRange_result txn space range
  split at hresult
  · have hheld : (self.releaseRange txn space range).1.modeHeld = self.modeHeld :=
      modeHeld_setShard (releaseRange_keeps_locks _ _ _ _).1
    obtain ⟨mode, hmodes⟩ := releaseRange_rangeModes hresult
    funext x
    cases x with
    | lock t r => simp [copies, hheld]
    | range t s r =>
      have hcard := congrArg Multiset.card (hmodes t s r)
      simp only [copies, ← card_rangeModes, Function.update_apply, Record.range.injEq]
      by_cases hx : t = txn ∧ s = space ∧ r = range
      · obtain ⟨rfl, rfl, rfl⟩ := hx
        simp only [and_self, if_true, Multiset.card_cons] at hcard ⊢
        omega
      · have hx' : ¬ (txn = t ∧ space = s ∧ range = r) := fun hc =>
          hx ⟨hc.1.symm, hc.2.1.symm, hc.2.2.symm⟩
        rw [if_neg hx'] at hcard
        rw [if_neg hx, hcard]
    | wait t => rfl
  · next hnone =>
    rw [self.releaseRange_refused (by simp [hresult]), eq_comm, Function.update_eq_self_iff]
    simp only [copies]
    omega

theorem Inv.eq_withShards_of_empty (h : self.Inv) (hnone : ∀ x, self.copies x = 0) :
    self = .withShards bits := by
  apply h.eq_withShards
  · intro t
    constructor
    · intro res
      simpa [copies] using hnone (.lock t res)
    · intro space y hy hyt
      have hzero := List.countP_eq_zero.mp (hnone (.range y.txn space y.range)) y hy
      simp [rangeHeldBy] at hzero
  · intro t
    simpa [copies] using hnone (.wait t)

end LockManager

namespace Program
variable {bits : Nat} {α : Type} {owes : Record → Nat}

abbrev Pays (owes : Record → Nat) (p : Program bits) : Prop :=
  Prog.Pays LockManager.Inv LockManager.copies owes p

theorem guarded_pays {m : Mutex bits} {f : LockManager bits → LockManager bits × α}
    {k : α → Program bits} (after : α → Record → Nat)
    (keeps : ∀ self : LockManager bits, self.Inv → (f self).1.Inv)
    (owed : ∀ self : LockManager bits, self.Inv → ∀ x, (f self).1.copies x ≤
      after (f self).2 x + (self.copies x - owes x))
    (hk : ∀ a, Pays (after a) (k a)) : Pays owes (guarded m f k) := by
  apply Prog.Pays.lock
  apply Prog.Pays.act (fun self => after (f self).2) keeps owed
  exact fun self => .unlock (hk _)

theorem owed_same (copies owes : Record → Nat) (x : Record) :
    copies x ≤ owes x + (copies x - owes x) := by
  omega

/-- One record changes, in the table and among the debts. -/
theorem owed_update {copies owes : Record → Nat} {y : Record} {n m : Nat}
    (hn : n ≤ m + (copies y - owes y)) (x : Record) :
    Function.update copies y n x ≤ Function.update owes y m x + (copies x - owes x) := by
  by_cases hx : x = y
  · subst hx
    simpa using hn
  · simpa [hx] using owed_same copies owes x

theorem read_pays {m : Mutex bits} {f : LockManager bits → α} {k : α → Program bits}
    (hk : ∀ a, Pays owes (k a)) : Pays owes (guarded m (fun self => (self, f self)) k) :=
  guarded_pays (fun _ => owes) (fun _ h => h) (fun _ _ x => owed_same _ _ x) hk

/-- The sweep of some shards pays what is owed of the transaction's records there. -/
theorem sweep_pays (txn : TxnId) {k : Nat → Program bits} (is : List (Fin (2 ^ bits)))
    (released : Nat)
    (hk : ∀ n, Pays (fun x => if x.txn = txn ∧ ∃ i ∈ is, x.slot bits = .shard i then 0
      else owes x) (k n)) :
    Pays owes (sweep txn k is released) := by
  induction is generalizing owes released with
  | nil => exact (hk released).mono fun x => by simp
  | cons i is ih =>
    apply guarded_pays fun _ x => if x.txn = txn ∧ x.slot bits = .shard i then 0 else owes x
    · intro self hinv
      rw [LockManager.sweepShard_enter]
      exact hinv.enter _
    · intro self hinv x
      rw [LockManager.sweepShard_enter, hinv.sweepShard_copies]
      split
      · exact Nat.zero_le _
      · exact owed_same _ _ x
    · refine fun n => ih n fun n => (hk n).mono fun x => ?_
      by_cases hcons : x.txn = txn ∧ ∃ j ∈ i :: is, x.slot bits = .shard j
      · obtain ⟨hxt, j, hj, hslot⟩ := hcons
        rcases List.mem_cons.mp hj with rfl | hj
        · simp [hxt, hslot]
        · rw [if_pos ⟨hxt, j, hj, hslot⟩]
          exact Nat.zero_le _
      · rw [if_neg hcons]
        split
        · exact Nat.zero_le _
        · split
          · exact Nat.zero_le _
          · exact Nat.le_refl _

theorem clearWait_pays (txn : TxnId) {k : Program bits}
    (hk : Pays (Function.update owes (.wait txn) 0) k) :
    Pays owes (guarded .waits
      (fun self => ({ self with waits := self.waits.erase txn }, ())) fun _ => k) := by
  apply guarded_pays fun _ => Function.update owes (.wait txn) 0
  · exact fun _ hinv => hinv.enter (.clearWait txn)
  · intro self _ x
    exact (congrFun self.clearWait_copies x).le.trans (owed_update (Nat.zero_le _) x)
  · exact fun _ => hk

theorem releaseAll_pays (txn : TxnId) {k : Nat → Program bits}
    (hk : ∀ n, Pays (fun x => if x.txn = txn then 0 else owes x) (k n)) :
    Pays owes (releaseAll txn k) := by
  apply clearWait_pays
  refine sweep_pays txn _ 0 fun n => (hk n).mono fun x => ?_
  by_cases hx : x.txn = txn
  · cases x with
    | lock t r => rw [if_pos ⟨hx, _, List.mem_finRange _, rfl⟩]; exact Nat.zero_le _
    | range t s r => rw [if_pos ⟨hx, _, List.mem_finRange _, rfl⟩]; exact Nat.zero_le _
    | wait t =>
      have ht : t = txn := hx
      simp [Record.slot, ht]
  · have hwait : x ≠ .wait txn := by
      rintro rfl
      exact hx rfl
    simp [hx, hwait]

theorem buildWaitGraph_pays {k : WaitForGraph → Program bits} (hk : ∀ graph, Pays owes (k graph))
    (ws : List (TxnId × ResourceId × LockMode)) (graph : WaitForGraph) :
    Pays owes (buildWaitGraph k ws graph) := by
  induction ws generalizing graph with
  | nil => exact hk graph
  | cons w ws ih => exact read_pays ih

/-- A call that is one section under one guard. -/
theorem section_pays {method : Method} {m : Mutex bits}
    {f : LockManager bits → LockManager bits × Except LockError Unit} {k : Answer → Program bits}
    (keeps : ∀ self : LockManager bits, self.Inv → (f self).1.Inv)
    (owed : ∀ self : LockManager bits, self.Inv → ∀ x, (f self).1.copies x ≤
      method.debts owes (.outcome (.result (f self).2)) x + (self.copies x - owes x))
    (hk : ∀ answer, Pays (method.debts owes answer) (k answer)) :
    Pays owes (guarded m f fun r => k (.outcome (.result r))) :=
  guarded_pays (fun r => method.debts owes (.outcome (.result r))) keeps owed fun _ => hk _

section Sections
variable (owes : Record → Nat) {self : LockManager bits} (hinv : self.Inv) (txn : TxnId)
variable (res space : ResourceId) (mode : LockMode) (range : KeyRange) (x : Record)

include hinv in
theorem tryAcquire_owed : (self.tryAcquire txn res mode).1.copies x ≤
    Method.debts owes (.op (.tryAcquire txn res mode))
      (.outcome (.result (self.tryAcquire txn res mode).2)) x + (self.copies x - owes x) := by
  rw [LockManager.tryAcquire_fst, hinv.grantStep_copies, LockManager.tryAcquire_eq]
  split
  · exact owed_update (Nat.le_add_right _ _) x
  · exact owed_same _ _ x

include hinv in
theorem release_owed : (self.release txn res).1.copies x ≤
    Method.debts owes (.op (.release txn res))
      (.outcome (.result (self.release txn res).2)) x + (self.copies x - owes x) := by
  rw [hinv.release_copies]
  exact owed_update (Nat.zero_le _) x

theorem tryAcquireRange_owed : (self.tryAcquireRange txn space range mode).1.copies x ≤
    Method.debts owes (.op (.tryAcquireRange txn space range mode))
      (.outcome (.result (self.tryAcquireRange txn space range mode).2)) x +
        (self.copies x - owes x) := by
  rw [LockManager.tryAcquireRange_copies]
  cases hr : (self.tryAcquireRange txn space range mode).2 with
  | ok v =>
    rw [if_pos rfl]
    exact owed_update (by omega) x
  | error e =>
    rw [if_neg (by simp)]
    exact owed_same _ _ x

/-- A range that was not released was not there. -/
theorem releaseRange_owed : (self.releaseRange txn space range).1.copies x ≤
    Method.debts owes (.op (.releaseRange txn space range))
      (.outcome (.result (self.releaseRange txn space range).2)) x +
        (self.copies x - owes x) := by
  rw [LockManager.releaseRange_copies]
  have hresult := self.releaseRange_result txn space range
  cases hr : (self.releaseRange txn space range).2 with
  | ok v => exact owed_update (by omega) x
  | error e =>
    have hnone : self.copies (.range txn space range) = 0 := by
      rw [hr] at hresult
      split at hresult
      · simp at hresult
      · exact Nat.eq_zero_of_not_pos ‹_›
    exact owed_update (by omega) x

end Sections

theorem request_pays (order : IterOrder TxnId (ResourceId × LockMode)) (txn : TxnId)
    (res : ResourceId) (mode : LockMode) {k : Acquisition → Program bits}
    (hgranted : Pays (Function.update (Function.update owes (.lock txn res) 1) (.wait txn) 0)
      (k .granted))
    (hrefused : ∀ a, a ≠ .granted → Pays (Function.update owes (.wait txn) 1) (k a)) :
    Pays owes (request order txn res mode k) := by
  apply Prog.Pays.lock
  apply guarded_pays fun granted => if granted then Function.update owes (.lock txn res) 1 else owes
  · exact fun _ hinv => hinv.grantStep txn res mode
  · intro self hinv x
    rw [hinv.grantStep_copies]
    split
    · exact owed_update (Nat.le_add_right _ _) x
    · exact owed_same _ _ x
  · intro granted
    cases granted with
    | true =>
      apply Prog.Pays.act fun _ =>
        Function.update (Function.update owes (.lock txn res) 1) (.wait txn) 0
      · exact fun _ hinv => hinv.enter (.clearWait txn)
      · intro self _ x
        exact (congrFun self.clearWait_copies x).le.trans (owed_update (Nat.zero_le _) x)
      · exact fun _ => .unlock hgranted
    | false =>
      apply Prog.Pays.act fun _ => Function.update owes (.wait txn) 1
      · exact fun _ hinv => hinv.enter (.registerWait txn res mode)
      · intro self _ x
        exact (congrFun self.registerWait_copies x).le.trans
          (owed_update (Nat.le_add_right _ _) x)
      · refine fun _ =>
          .act (fun _ => _) (fun _ h => h) (fun _ _ x => owed_same _ _ x) fun self => ?_
        refine buildWaitGraph_pays (fun graph => .unlock (hrefused _ ?_)) _ _
        exact refusal_ne_granted _ _

end Program

theorem Method.program_pays {bits : Nat} (method : Method) {owes : Record → Nat}
    {k : Answer → Program bits}
    (hk : ∀ answer, Program.Pays (method.debts owes answer) (k answer)) :
    Program.Pays owes (method.program k) := by
  cases method with
  | op op =>
    cases op with
    | tryAcquire txn res mode =>
      exact Program.section_pays (fun _ hinv => hinv.enter (.tryAcquire txn res mode))
        (fun _ hinv x => Program.tryAcquire_owed owes hinv txn res mode x) hk
    | release txn res =>
      exact Program.section_pays (fun _ hinv => hinv.enter (.release txn res))
        (fun _ hinv x => Program.release_owed owes hinv txn res x) hk
    | releaseAll txn => exact Program.releaseAll_pays txn fun n => hk (.outcome (.count n))
    | request order txn res mode =>
      refine Program.request_pays order txn res mode (k := fun a => k (.outcome (.acquisition a)))
        (hk (.outcome (.acquisition .granted))) fun a ha => ?_
      have hnext := hk (.outcome (.acquisition a))
      cases a with
      | granted => exact absurd rfl ha
      | waiting => exact hnext
      | deadlock d => exact hnext
    | cancelWait txn => exact Program.clearWait_pays txn (hk (.outcome .unit))
    | findDeadlock order keyOrder =>
      refine .lock (.act (fun _ => owes) (fun _ h => h) (fun _ _ x => Program.owed_same _ _ x)
        fun self => Program.buildWaitGraph_pays (fun graph => .unlock ?_) _ _)
      exact hk (.outcome (.found (LockManager.scan graph keyOrder)))
    | tryAcquireRange txn space range mode =>
      exact Program.section_pays (fun _ hinv => hinv.enter (.tryAcquireRange txn space range mode))
        (fun _ _ x => Program.tryAcquireRange_owed owes txn space mode range x) hk
    | releaseRange txn space range =>
      exact Program.section_pays (fun _ hinv => hinv.enter (.releaseRange txn space range))
        (fun _ _ x => Program.releaseRange_owed owes txn space range x) hk
  | waitingCount => exact Program.read_pays fun n => hk (.count n)
  | holderCount res => exact Program.read_pays fun n => hk (.count n)
  | modeHeld txn res => exact Program.read_pays fun m => hk (.mode m)
  | rangeCount space => exact Program.read_pays fun n => hk (.count n)

theorem Client.program_pays {bits : Nat} {client : Client} {owes : Record → Nat}
    (h : client.Tidy owes) : Program.Pays owes (client.program : Program bits) := by
  induction client generalizing owes with
  | stop => exact .done () h
  | call method next ih => exact method.program_pays fun answer => ih answer (h answer)

/-- Threads of which each cleans up after itself, in any schedule of their single steps: when all
have stopped, the table is as it was at first. -/
theorem tidy_threads_leave_nothing (bits : Nat) {T : Type} [DecidableEq T] (clients : T → Client)
    (htidy : ∀ t, (clients t).Tidy fun _ => 0) (schedule : List T) :
    let c := (Threads.start (.withShards bits) fun t => (clients t).program).run schedule
    (∀ t, c.prog t = .done ()) → c.state = .withShards bits := by
  intro c hdone
  have hstart : Threads.Owed LockManager.Inv LockManager.copies
      (Threads.start (.withShards bits) fun t => (clients t).program) fun _ _ => 0 := by
    refine ⟨LockManager.inv_withShards bits, fun t => Client.program_pays (htidy t), ?_⟩
    intro x
    refine ⟨∅, ?_⟩
    cases x <;> simp [Threads.start, LockManager.copies, LockManager.rangeHeld,
      LockManager.modeHeld, LockManager.rangeHolders, LockManager.lockShard,
      LockManager.withShards, ShardInner.new]
  obtain ⟨_, h⟩ := hstart.run schedule
  exact h.inv.eq_withShards_of_empty (h.nothing_left fun t => ⟨(), hdone t⟩)

/-- What is owed are records of the transaction. -/
def Record.Only (txn : TxnId) (owes : Record → Nat) : Prop :=
  ∀ x : Record, x.txn ≠ txn → owes x = 0

namespace Record.Only
variable {txn : TxnId} {owes : Record → Nat}

theorem nothing (txn : TxnId) : Only txn fun _ => 0 := fun _ _ => rfl

theorem update (h : Only txn owes) {y : Record} (hy : y.txn = txn) (n : Nat) :
    Only txn (Function.update owes y n) := by
  intro x hx
  have hne : x ≠ y := by
    rintro rfl
    exact hx hy
  rw [Function.update_of_ne hne]
  exact h x hx

theorem releaseAll (h : Only txn owes) (answer : Answer) :
    Method.debts owes (.op (.releaseAll txn)) answer = fun _ => 0 := by
  funext x
  by_cases hx : x.txn = txn
  · simp [Method.debts, hx]
  · simp [Method.debts, hx, h x hx]

end Record.Only

theorem Method.debts_mono {owes owes' : Record → Nat} (h : ∀ x, owes' x ≤ owes x) (method : Method)
    (answer : Answer) (x : Record) : method.debts owes' answer x ≤ method.debts owes answer x := by
  have hupdate : ∀ {owes owes' : Record → Nat} {y : Record} {n n' : Nat},
      (∀ x, owes' x ≤ owes x) → n' ≤ n → ∀ x,
        Function.update owes' y n' x ≤ Function.update owes y n x := by
    intro owes owes' y n n' h hn x
    simp only [Function.update_apply]
    split
    · exact hn
    · exact h x
  unfold Method.debts
  split
  · exact hupdate h (Nat.le_refl _) x
  · exact hupdate (hupdate h (Nat.le_refl _)) (Nat.le_refl _) x
  · exact hupdate h (Nat.le_refl _) x
  · exact hupdate h (Nat.add_le_add_right (h _) 1) x
  · exact hupdate h (Nat.le_refl _) x
  · exact hupdate h (Nat.sub_le_sub_right (h _) 1) x
  · exact hupdate h (Nat.le_refl _) x
  · exact hupdate h (Nat.le_refl _) x
  · split
    · exact Nat.le_refl _
    · exact h x
  · exact h x

/-- Whatever the answer, of a range that was given back one less is owed. -/
theorem Method.debts_releaseRange (owes : Record → Nat) (txn : TxnId) (space : ResourceId)
    (range : KeyRange) (answer : Answer) : ∃ n ≤ owes (.range txn space range) - 1,
      Method.debts owes (.op (.releaseRange txn space range)) answer =
        Function.update owes (.range txn space range) n := by
  cases answer with
  | outcome o =>
    cases o with
    | result r =>
      cases r with
      | ok _ => exact ⟨_, Nat.le_refl _, rfl⟩
      | error _ => exact ⟨0, Nat.zero_le _, rfl⟩
    | acquisition _ => exact ⟨0, Nat.zero_le _, rfl⟩
    | count _ => exact ⟨0, Nat.zero_le _, rfl⟩
    | unit => exact ⟨0, Nat.zero_le _, rfl⟩
    | found _ => exact ⟨0, Nat.zero_le _, rfl⟩
  | count _ => exact ⟨0, Nat.zero_le _, rfl⟩
  | mode _ => exact ⟨0, Nat.zero_le _, rfl⟩

namespace Client
variable {order : IterOrder TxnId (ResourceId × LockMode)} {txn : TxnId} {k : Bool → Client}
variable {owes : Record → Nat}

theorem Tidy.mono {client : Client} {owes owes' : Record → Nat} (h : client.Tidy owes)
    (hless : ∀ x, owes' x ≤ owes x) : client.Tidy owes' := by
  induction client generalizing owes owes' with
  | stop => exact fun x => Nat.eq_zero_of_le_zero (h x ▸ hless x)
  | call method next ih =>
    exact fun answer => ih answer (h answer) (method.debts_mono hless answer)

/-- While it asks, the thread owes records of its transaction and nothing else. -/
theorem tidy_request {res : ResourceId} {mode : LockMode} {next : Answer → Client}
    (hnext : ∀ answer owes, Record.Only txn owes → (next answer).Tidy owes)
    (howes : Record.Only txn owes) :
    (Client.call (.op (.request order txn res mode)) next).Tidy owes := by
  refine fun answer => hnext answer _ ?_
  cases answer with
  | outcome o =>
    cases o with
    | acquisition a =>
      cases a with
      | granted => exact (howes.update rfl 1).update rfl 0
      | waiting => exact howes.update rfl 1
      | deadlock d => exact howes.update rfl 1
    | result _ => exact howes
    | count _ => exact howes
    | unit => exact howes
    | found _ => exact howes
  | count _ => exact howes
  | mode _ => exact howes

theorem spinLoop_tidy (hk : ∀ ok owes, Record.Only txn owes → (k ok).Tidy owes)
    (res : ResourceId) (howes : Record.Only txn owes) (spins : Nat) :
    (spinLoop order txn res k spins).Tidy owes := by
  induction spins generalizing owes with
  | zero =>
    apply tidy_request _ howes
    intro answer owes howes
    split
    · exact hk true owes howes
    · exact hk false owes howes
  | succ spins ih =>
    apply tidy_request _ howes
    intro answer owes howes
    split
    · exact hk true owes howes
    · exact ih howes
    · exact hk false owes howes

theorem storm_tidy (spinBudget commits : Nat)
    (attempts : List (TxnId × ResourceId × ResourceId)) :
    (storm order spinBudget commits attempts).Tidy fun _ => 0 := by
  induction attempts generalizing commits with
  | nil => cases commits <;> exact fun _ => rfl
  | cons attempt attempts ih =>
    cases commits with
    | zero => exact fun _ => rfl
    | succ commits =>
      have hrelease : ∀ (ok : Bool) (owes : Record → Nat), Record.Only attempt.1 owes →
          (Client.call (.op (.releaseAll attempt.1)) fun _ =>
            storm order spinBudget (if ok then commits else commits + 1) attempts).Tidy owes := by
        intro ok owes howes answer
        rw [howes.releaseAll]
        exact ih _
      refine spinLoop_tidy (fun ok owes howes => ?_) _ (.nothing _) _
      cases ok with
      | true => exact spinLoop_tidy hrelease _ howes _
      | false => exact hrelease false owes howes

/-- Takes what it gets of some ranges and gives them back one by one, the last first. -/
def takeRanges (txn : TxnId) (space : ResourceId) (k : Client) :
    List (KeyRange × LockMode) → Client
  | [] => k
  | (range, mode) :: ranges => .call (.op (.tryAcquireRange txn space range mode)) fun
    | .outcome (.result (.ok _)) =>
      takeRanges txn space (.call (.op (.releaseRange txn space range)) fun _ => k) ranges
    | _ => takeRanges txn space k ranges

theorem takeRanges_tidy {space : ResourceId} {k : Client} (hk : k.Tidy owes)
    (ranges : List (KeyRange × LockMode)) : (takeRanges txn space k ranges).Tidy owes := by
  induction ranges generalizing k owes with
  | nil => exact hk
  | cons r ranges ih =>
    obtain ⟨range, mode⟩ := r
    have hgranted : (takeRanges txn space (.call (.op (.releaseRange txn space range)) fun _ => k)
        ranges).Tidy (Function.update owes (.range txn space range)
          (owes (.range txn space range) + 1)) := by
      refine ih fun answer => hk.mono fun x => ?_
      obtain ⟨n, hn, hdebts⟩ := Method.debts_releaseRange
        (Function.update owes (.range txn space range) (owes (.range txn space range) + 1))
        txn space range answer
      rw [Function.update_self] at hn
      rw [hdebts, Function.update_idem, Function.update_apply]
      split
      · next hx => exact hx ▸ hn
      · exact Nat.le_refl _
    intro answer
    cases answer with
    | outcome o =>
      cases o with
      | result r =>
        cases r with
        | ok _ => exact hgranted
        | error _ => exact ih hk
      | acquisition _ => exact ih hk
      | count _ => exact ih hk
      | unit => exact ih hk
      | found _ => exact ih hk
    | count _ => exact ih hk
    | mode _ => exact ih hk

end Client

/-- Both threads of the storm stop: one was deadlocked, the other had no spin left. One took a
range twice before and gave it back twice. -/
theorem tidy_threads_leave_nothing_crossed :
    let clients : Bool → Client
      | true => .takeRanges ⟨3⟩ ⟨1⟩ (crossedStorm true) [(⟨0, 10⟩, .shared), (⟨0, 10⟩, .shared)]
      | false => crossedStorm false
    let schedule := List.replicate 6 false ++ List.replicate 18 true ++ List.replicate 10 false ++
      List.replicate 19 true ++ List.replicate 6 false
    ((Threads.start (.withShards 0) fun t => ((clients t).program : Program 0)).run
      schedule).state = .withShards 0 := by
  intro clients schedule
  apply tidy_threads_leave_nothing 0 clients
  · intro t
    cases t with
    | false => exact Client.storm_tidy 0 1 _
    | true => exact Client.takeRanges_tidy (Client.storm_tidy 0 1 _) _
  · have hended : ∀ t, (((Threads.start (.withShards 0) fun t =>
        ((clients t).program : Program 0)).run schedule).prog t).result = some () := by
      decide +kernel
    exact fun t => Prog.eq_done_of_result (hended t)

end LockDb
