import LockDb.FlatMap
import LockDb.InterruptedRelease
import LockDb.Mutexes
import LockDb.RangeHistory
import LockDb.WaitFor
import LockDb.Shared.Outline

/-!
# What a thread knows of its own transactions

Each thread works for transactions of its own and remembers what its calls for them were
answered. Whatever the other threads do between any two of its steps, also between two
shards of a `release_all`, no answer contradicts what it remembers: nobody else takes
its locks away, and nobody else is let in beside them.
-/

namespace LockDb

set_option autoImplicit false

open Shared Shared.Multimap

section Logged
variable {bits : Nat} {α A B : Type} {f : A → B}

/-- What a thread has called and been answered, the first call first. -/
abbrev Log := List (Method × Answer)

/-- The program of a client that ends with its log. -/
def Client.logged {bits : Nat} (log : Log) : Client → Program bits Log
  | .stop => .done log
  | .call method next => method.program fun answer =>
    (next answer).logged (log ++ [(method, answer)])

theorem Program.sweep_map (txn : TxnId) (k : Nat → Program bits A) (is : List (Fin (2 ^ bits)))
    (released : Nat) :
    (sweep txn k is released).map f = sweep txn (fun n => (k n).map f) is released := by
  induction is generalizing released with
  | nil => rfl
  | cons i is ih => simp only [sweep, guarded, Prog.map, ih]

theorem Program.buildWaitGraph_map (k : WaitForGraph → Program bits A)
    (ws : List (TxnId × ResourceId × LockMode)) (graph : WaitForGraph) :
    (buildWaitGraph k ws graph).map f = buildWaitGraph (fun graph => (k graph).map f) ws graph := by
  induction ws generalizing graph with
  | nil => rfl
  | cons w ws ih => simp only [buildWaitGraph, onShard, guarded, Prog.map, ih]

theorem Method.program_map (method : Method) (k : Answer → Program bits A) :
    (method.program k).map f = method.program fun answer => (k answer).map f := by
  cases method with
  | op op =>
    cases op with
    | releaseAll txn =>
      simp only [program, Program.releaseAll, Program.guarded, Prog.map, Program.sweep_map]
    | request order txn res mode =>
      simp only [program, Program.request, Program.onShard, Program.guarded, Prog.map, apply_ite,
        Program.buildWaitGraph_map]
    | findDeadlock order keyOrder =>
      simp only [program, Program.findDeadlock, Prog.map, Program.buildWaitGraph_map]
    | _ => rfl
  | _ => rfl

/-- The log is only kept: without it the program is the client's. -/
theorem Client.logged_map (client : Client) (log : Log) :
    ((client.logged log : Program bits Log).map fun _ => ()) = client.program := by
  induction client generalizing log with
  | stop => rfl
  | call method next ih => simp only [logged, program, Method.program_map, ih]

end Logged

/-- The modes and ranges that a thread's own transactions hold, by what the thread was answered. -/
structure Known where
  locks : TxnId → ResourceId → Option LockMode
  ranges : ResourceId → Multiset RangeHolder

namespace Known

def nothing : Known := ⟨fun _ _ => none, fun _ => 0⟩

def grant (self : Known) (txn : TxnId) (res : ResourceId) (mode : LockMode) : Known :=
  { self with locks := LockTable.heldGrant self.locks txn res mode }

def drop (self : Known) (txn : TxnId) (res : ResourceId) : Known :=
  { self with locks := LockTable.heldDrop self.locks txn res }

def add (self : Known) (space : ResourceId) (x : RangeHolder) : Known :=
  { self with ranges := Function.update self.ranges space (x ::ₘ self.ranges space) }

def take (self : Known) (space : ResourceId) (x : RangeHolder) : Known :=
  { self with ranges := Function.update self.ranges space ((self.ranges space).erase x) }

def dropAll (self : Known) (txn : TxnId) : Known :=
  ⟨LockTable.heldDropAll self.locks txn,
    fun space => (self.ranges space).filter fun x => x.txn ≠ txn⟩

noncomputable def recordCount (self : Known) (txn : TxnId) : Nat :=
  Set.ncard {res | self.locks txn res ≠ none} +
    finsum fun space => (self.ranges space).countP fun x => x.txn = txn

/-- None of the thread's other transactions excludes the mode. -/
def Free (self : Known) (mine : TxnId → Prop) (txn : TxnId) (res : ResourceId)
    (mode : LockMode) : Prop :=
  ∀ u a, mine u → u ≠ txn → self.locks u res = some a → a.compatibleWith mode = true

/-- The answers a thread has to reckon with, and what it knows after each. -/
inductive Expects (mine : TxnId → Prop) (self : Known) : Method → Answer → Known → Prop where
  | acquired {txn : TxnId} {res : ResourceId} {mode : LockMode}
      (free : self.Free mine txn res mode) :
      Expects mine self (.op (.tryAcquire txn res mode)) (.outcome (.result (.ok ())))
        (self.grant txn res mode)
  | conflict {txn : TxnId} {res : ResourceId} {mode : LockMode}
      (uncovered : ∀ m, self.locks txn res = some m → m.covers mode = false) :
      Expects mine self (.op (.tryAcquire txn res mode))
        (.outcome (.result (.error .conflict))) self
  | granted {order : IterOrder TxnId (ResourceId × LockMode)} {txn : TxnId} {res : ResourceId}
      {mode : LockMode} (free : self.Free mine txn res mode) :
      Expects mine self (.op (.request order txn res mode)) (.outcome (.acquisition .granted))
        (self.grant txn res mode)
  | refused {order : IterOrder TxnId (ResourceId × LockMode)} {txn : TxnId} {res : ResourceId}
      {mode : LockMode} {a : Acquisition} (ha : a ≠ .granted)
      (uncovered : ∀ m, self.locks txn res = some m → m.covers mode = false) :
      Expects mine self (.op (.request order txn res mode)) (.outcome (.acquisition a)) self
  | released {txn : TxnId} {res : ResourceId} (was : self.locks txn res ≠ none) :
      Expects mine self (.op (.release txn res)) (.outcome (.result (.ok ()))) (self.drop txn res)
  | notHeld {txn : TxnId} {res : ResourceId} (none : self.locks txn res = none) :
      Expects mine self (.op (.release txn res)) (.outcome (.result (.error .notHeld))) self
  | releasedAll {txn : TxnId} :
      Expects mine self (.op (.releaseAll txn)) (.outcome (.count (self.recordCount txn)))
        (self.dropAll txn)
  | cancelled {txn : TxnId} : Expects mine self (.op (.cancelWait txn)) (.outcome .unit) self
  | found {order : IterOrder TxnId (ResourceId × LockMode)}
      {keyOrder : IterOrder TxnId (List TxnId)} (d : Option Deadlock) :
      Expects mine self (.op (.findDeadlock order keyOrder)) (.outcome (.found d)) self
  | rangeAcquired {txn : TxnId} {space : ResourceId} {range : KeyRange} {mode : LockMode}
      (free : ∀ y ∈ self.ranges space, y.Free ⟨txn, range, mode⟩) :
      Expects mine self (.op (.tryAcquireRange txn space range mode)) (.outcome (.result (.ok ())))
        (self.add space ⟨txn, range, mode⟩)
  | rangeConflict {txn : TxnId} {space : ResourceId} {range : KeyRange} {mode : LockMode} :
      Expects mine self (.op (.tryAcquireRange txn space range mode))
        (.outcome (.result (.error .conflict))) self
  | rangeReleased {txn : TxnId} {space : ResourceId} {range : KeyRange} (mode : LockMode)
      (mem : ⟨txn, range, mode⟩ ∈ self.ranges space) :
      Expects mine self (.op (.releaseRange txn space range)) (.outcome (.result (.ok ())))
        (self.take space ⟨txn, range, mode⟩)
  | rangeNotHeld {txn : TxnId} {space : ResourceId} {range : KeyRange}
      (none : ∀ mode, ⟨txn, range, mode⟩ ∉ self.ranges space) :
      Expects mine self (.op (.releaseRange txn space range))
        (.outcome (.result (.error .notHeld))) self
  | ownMode {txn : TxnId} {res : ResourceId} (own : mine txn) :
      Expects mine self (.modeHeld txn res) (.mode (self.locks txn res)) self
  | otherMode {txn : TxnId} {res : ResourceId} {m : Option LockMode} (other : ¬ mine txn)
      (compat : ∀ u a b, mine u → self.locks u res = some a → m = some b →
        a.compatibleWith b = true) :
      Expects mine self (.modeHeld txn res) (.mode m) self
  | holderCount {res : ResourceId} {n : Nat}
      (least : Set.ncard {u | mine u ∧ self.locks u res ≠ none} ≤ n)
      (alone : ∀ u, mine u → self.locks u res = some .exclusive → n = 1) :
      Expects mine self (.holderCount res) (.count n) self
  | waitingCount (n : Nat) : Expects mine self .waitingCount (.count n) self
  | rangeCount {space : ResourceId} {n : Nat} (least : (self.ranges space).card ≤ n) :
      Expects mine self (.rangeCount space) (.count n) self

/-- What the thread knows after the calls and answers of a log. -/
inductive Follows (mine : TxnId → Prop) : Known → Log → Known → Prop where
  | nil (self : Known) : Follows mine self [] self
  | cons {self next last : Known} {method : Method} {answer : Answer} {log : Log}
      (expects : self.Expects mine method answer next) (rest : Follows mine next log last) :
      Follows mine self ((method, answer) :: log) last

theorem Follows.snoc {mine : TxnId → Prop} {self next last : Known} {log : Log} {method : Method}
    {answer : Answer} (h : Follows mine self log next)
    (expects : next.Expects mine method answer last) :
    Follows mine self (log ++ [(method, answer)]) last := by
  induction h with
  | nil self => exact .cons expects (.nil last)
  | cons hfirst _ ih => exact .cons hfirst (ih expects)

end Known

/-- The transactions that a call may change. -/
def Method.changes : Method → TxnId → Prop
  | .op (.tryAcquire txn _ _), x => x = txn
  | .op (.release txn _), x => x = txn
  | .op (.releaseAll txn), x => x = txn
  | .op (.request _ txn _ _), x => x = txn
  | .op (.cancelWait txn), x => x = txn
  | .op (.tryAcquireRange txn _ _ _), x => x = txn
  | .op (.releaseRange txn _ _), x => x = txn
  | _, _ => False

/-- Two clients that make the same calls for their own transactions, as long as no answer
contradicts what they know. -/
inductive Client.Agrees (mine : TxnId → Prop) : Known → Client → Client → Prop where
  | stop (known : Known) : Agrees mine known .stop .stop
  | call {known : Known} {method : Method} {next next' : Answer → Client}
      (own : ∀ txn, method.changes txn → mine txn)
      (same : ∀ answer after, known.Expects mine method answer after →
        Agrees mine after (next answer) (next' answer)) :
      Agrees mine known (.call method next) (.call method next')

section Spares
variable {bits : Nat} {self next : LockManager bits} {mine : TxnId → Prop} [DecidablePred mine]

def LockManager.ownRanges (self : LockManager bits) (mine : TxnId → Prop) [DecidablePred mine]
    (space : ResourceId) : RangeSpace :=
  (self.rangeHolders space).filter fun x => mine x.txn

/-- The records of the transactions in `mine` are left alone. -/
structure Spares (mine : TxnId → Prop) [DecidablePred mine] (table next : LockManager bits) :
    Prop where
  inv : table.Inv → next.Inv
  locks : table.Inv → ∀ txn, mine txn → next.modeHeld txn = table.modeHeld txn
  ranges : table.Inv → ∀ space, (next.ownRanges mine space).Perm (table.ownRanges mine space)
  listed : ∀ txn, mine txn → next.listed txn = table.listed txn

theorem spares_refl (self : LockManager bits) : Spares mine self self where
  inv h := h
  locks _ _ _ := rfl
  ranges _ _ := List.Perm.refl _
  listed _ _ := rfl

/-- The ranges a section leaves alone, whatever it does to the order of the vectors. -/
theorem LockManager.Inv.enter_ownRanges (h : self.Inv) {c : CriticalSection bits}
    (hc : ¬ mine c.txn) (space : ResourceId) :
    ((self.enter c).ownRanges mine space).Perm (self.ownRanges mine space) := by
  unfold LockManager.ownRanges
  have hother : ∀ x : RangeHolder, x.txn = c.txn → ¬ mine x.txn := fun x hx hm => hc (hx ▸ hm)
  have hcase := h.enter_cases c
  generalize hnext : self.enter c = next at hcase
  cases hcase with
  | granted _ _ _ ranges _ => rw [ranges]
  | unchanged => exact List.Perm.refl _
  | waited _ ranges _ => rw [ranges]
  | released _ ranges _ => rw [ranges]
  | @swept txn i _ _ _ _ =>
    rw [← hnext]
    refine ((h.sweepShard_rangeHolders txn i 0 space).filter _).trans (List.Perm.of_eq ?_)
    split
    · rw [Ledger.others, List.filter_filter]
      apply List.filter_congr
      intro x _
      by_cases hx : x.txn = txn
      · simp [hother x hx]
      · simp [rangeLedger, hx]
    · rfl
  | @rangeAcquired txn s range mode _ _ ranges _ =>
    rw [ranges]
    split
    · simp [hother ⟨txn, range, mode⟩ rfl]
    · exact List.Perm.refl _
  | @rangeReleased txn s range mode _ _ perm frame _ =>
    by_cases hs : space = s
    · subst hs
      have hperm := perm.filter fun x => decide (mine x.txn)
      rwa [List.filter_cons_of_neg (by simpa using hother ⟨txn, range, mode⟩ rfl)] at hperm
    · rw [frame space hs]

theorem spares_enter {c : CriticalSection bits} (hc : ¬ mine c.txn) :
    Spares mine self (self.enter c) where
  inv h := h.enter c
  locks h _ htxn := h.enter_others_modeHeld fun heq => hc (heq ▸ htxn)
  ranges h := h.enter_ownRanges hc
  listed _ htxn := LockManager.listed_enter fun heq => hc (heq ▸ htxn)

end Spares

section Knows
variable {bits : Nat} {self next : LockManager bits} {mine : TxnId → Prop} [DecidablePred mine]
variable {known : Known} {txn : TxnId} {res : ResourceId} {mode : LockMode}

/-- What the thread remembers is what the table has. -/
structure Knows (mine : TxnId → Prop) [DecidablePred mine] (known : Known)
    (table : LockManager bits) : Prop where
  inv : table.Inv
  locks : ∀ txn, mine txn → table.modeHeld txn = known.locks txn
  ranges : ∀ space, known.ranges space = ↑(table.ownRanges mine space)

theorem knows_nothing (bits : Nat) : Knows mine .nothing (LockManager.withShards bits) where
  inv := LockManager.inv_withShards bits
  locks txn _ := by
    funext res
    simp [Known.nothing, LockManager.modeHeld, LockManager.lockShard, LockManager.withShards,
      ShardInner.new]
  ranges space := by
    simp [Known.nothing, LockManager.ownRanges, LockManager.rangeHolders, LockManager.lockShard,
      LockManager.withShards, ShardInner.new]

theorem knows_stable (known : Known) :
    Stable (Spares mine) (Knows mine known : LockManager bits → Prop) := by
  intro self next h hknows
  refine ⟨h.inv hknows.inv, fun txn own => ?_, fun space => ?_⟩
  · rw [h.locks hknows.inv txn own, hknows.locks txn own]
  · rw [hknows.ranges, Multiset.coe_eq_coe]
    exact (h.ranges hknows.inv space).symm

/-- Only the held modes and the ranges are known. -/
theorem Knows.of_same (h : Knows mine known self) (hinv : next.Inv)
    (held : next.modeHeld = self.modeHeld) (ranges : next.rangeHolders = self.rangeHolders) :
    Knows mine known next where
  inv := hinv
  locks txn own := by rw [held, h.locks txn own]
  ranges space := by rw [h.ranges, LockManager.ownRanges, LockManager.ownRanges, ranges]

theorem Knows.grant (h : Knows mine known self) (own : mine txn) (hinv : next.Inv)
    (held : next.modeHeld = LockTable.heldGrant self.modeHeld txn res mode)
    (ranges : next.rangeHolders = self.rangeHolders) :
    Knows mine (known.grant txn res mode) next where
  inv := hinv
  locks u hu := by
    funext r
    simp only [held, Known.grant, LockTable.heldGrant, h.locks txn own, h.locks u hu]
  ranges space := by
    simp only [Known.grant, h.ranges, LockManager.ownRanges, ranges]

theorem Knows.free (h : Knows mine known self) (free : self.Grantable txn res mode) :
    known.Free mine txn res mode := by
  intro u a hu hne ha
  exact free u a hne (by rw [h.locks u hu, ha])

theorem Knows.uncovered (h : Knows mine known self) (own : mine txn)
    (blocked : ¬ self.Grantable txn res mode) :
    ∀ m, known.locks txn res = some m → m.covers mode = false := by
  intro m hm
  rw [← h.locks txn own] at hm
  cases hcover : m.covers mode with
  | false => rfl
  | true => exact absurd (covered_grantable h.inv hm hcover) blocked

theorem Knows.mem_ranges (h : Knows mine known self) {space : ResourceId} {x : RangeHolder} :
    x ∈ known.ranges space ↔ x ∈ self.rangeHolders space ∧ mine x.txn := by
  rw [h.ranges, Multiset.mem_coe, LockManager.ownRanges, List.mem_filter, decide_eq_true_iff]

/-- The table of `self` after a call, and the answer, are as the thread has to reckon with. -/
def Foreseen (mine : TxnId → Prop) [DecidablePred mine] (known : Known) (method : Method)
    (out : LockManager bits × Answer) : Prop :=
  ∃ after, known.Expects mine method out.2 after ∧ Knows mine after out.1

theorem Knows.tryAcquire (h : Knows mine known self) (own : mine txn) (res : ResourceId)
    (mode : LockMode) : Foreseen mine known (.op (.tryAcquire txn res mode))
      (self.perform (.op (.tryAcquire txn res mode))) := by
  have hinv := h.inv.grantStep txn res mode
  have hranges := self.grantStep_rangeHolders txn res mode
  simp only [Foreseen, LockManager.perform, LockManager.exec, LockManager.tryAcquire_eq]
  rcases h.inv.grantStep_cases txn res mode with ⟨free, next, hg, held, _⟩ | ⟨blocked, hg⟩
  · rw [hg] at hinv hranges ⊢
    exact ⟨_, .acquired (h.free free), h.grant own hinv held hranges⟩
  · rw [hg]
    exact ⟨known, .conflict (h.uncovered own blocked), h⟩

theorem Knows.release (h : Knows mine known self) (own : mine txn) (res : ResourceId) :
    Foreseen mine known (.op (.release txn res)) (self.perform (.op (.release txn res))) := by
  have hinv : (self.release txn res).1.Inv := h.inv.enter (.release txn res)
  have hranges : (self.release txn res).1.rangeHolders = self.rangeHolders :=
    LockManager.rangeHolders_setShard (release_keeps_ranges _ _ _).1
  simp only [Foreseen, LockManager.perform, LockManager.exec]
  rcases h.inv.release_cases txn res with ⟨hnone, hr⟩ | ⟨hsome, next, hr, held, _⟩
  · rw [hr]
    exact ⟨known, .notHeld (by rw [← h.locks txn own, hnone]), h⟩
  · rw [hr] at hinv hranges ⊢
    refine ⟨_, .released (by rwa [← h.locks txn own]), hinv, fun u hu => ?_, fun space => ?_⟩
    · funext r
      simp only [held, Known.drop, LockTable.heldDrop, h.locks u hu]
    · simp only [Known.drop, h.ranges, LockManager.ownRanges, hranges]

theorem Knows.cancelWait (h : Knows mine known self) (txn : TxnId) :
    Foreseen mine known (.op (.cancelWait txn)) (self.perform (.op (.cancelWait txn))) :=
  ⟨known, .cancelled, h.of_same (h.inv.enter (.clearWait txn)) rfl rfl⟩

theorem Knows.tryAcquireRange (h : Knows mine known self) (own : mine txn) (space : ResourceId)
    (range : KeyRange) (mode : LockMode) :
    Foreseen mine known (.op (.tryAcquireRange txn space range mode))
      (self.perform (.op (.tryAcquireRange txn space range mode))) := by
  have hinv : (self.tryAcquireRange txn space range mode).1.Inv :=
    h.inv.exec (.tryAcquireRange txn space range mode)
  simp only [Foreseen, LockManager.perform, LockManager.exec]
  rcases tryAcquireRange_cases (self.lockShard space) txn space range mode with
    ⟨y, _, _, heq⟩ | ⟨hfree, heq⟩
  · have hres : (self.tryAcquireRange txn space range mode).2 = .error .conflict :=
      congrArg Prod.snd heq
    rw [hres, self.tryAcquireRange_refused (by simp [hres])]
    exact ⟨known, .rangeConflict, h⟩
  · have hok : (self.tryAcquireRange txn space range mode).2 = .ok () := congrArg Prod.snd heq
    have hheld : (self.tryAcquireRange txn space range mode).1.modeHeld = self.modeHeld :=
      LockManager.modeHeld_setShard (tryAcquireRange_keeps_locks _ _ _ _ _).1
    rw [hok]
    refine ⟨_, .rangeAcquired fun y hy => hfree y (h.mem_ranges.mp hy).1, hinv, ?_, fun s => ?_⟩
    · exact fun u hu => by rw [hheld, h.locks u hu]; rfl
    · simp only [LockManager.ownRanges, LockManager.tryAcquireRange_rangeHolders hok, Known.add,
        Function.update_apply]
      by_cases hs : s = space
      · subst hs
        simp only [if_true, List.filter_append, h.ranges, LockManager.ownRanges, Multiset.cons_coe,
          Multiset.coe_eq_coe, own, decide_true, List.filter_cons_of_pos, List.filter_nil]
        exact (List.perm_append_singleton _ _).symm
      · simp only [if_neg hs, h.ranges, LockManager.ownRanges]

theorem Knows.releaseRange (h : Knows mine known self) (own : mine txn) (space : ResourceId)
    (range : KeyRange) : Foreseen mine known (.op (.releaseRange txn space range))
      (self.perform (.op (.releaseRange txn space range))) := by
  have hinv : (self.releaseRange txn space range).1.Inv :=
    h.inv.exec (.releaseRange txn space range)
  have hresult := self.releaseRange_result txn space range
  simp only [Foreseen, LockManager.perform, LockManager.exec]
  split at hresult
  · obtain ⟨⟨mode, hperm⟩, hothers⟩ := LockManager.releaseRange_rangeHolders hresult
    have hheld : (self.releaseRange txn space range).1.modeHeld = self.modeHeld :=
      LockManager.modeHeld_setShard (releaseRange_keeps_locks _ _ _ _).1
    have hown := Multiset.coe_eq_coe.mpr (hperm.filter fun x => decide (mine x.txn))
    rw [List.filter_cons_of_pos (by simpa using own), ← Multiset.cons_coe] at hown
    have hranges : known.ranges space = ⟨txn, range, mode⟩ ::ₘ
        ↑((self.releaseRange txn space range).1.ownRanges mine space) :=
      (h.ranges space).trans hown.symm
    rw [hresult]
    refine ⟨_, .rangeReleased mode (by simp [hranges]), hinv, ?_, fun s => ?_⟩
    · exact fun u hu => by rw [hheld, h.locks u hu]; rfl
    · simp only [Known.take, Function.update_apply]
      by_cases hs : s = space
      · subst hs
        rw [if_pos rfl, hranges, Multiset.erase_cons_head]
      · rw [if_neg hs, h.ranges, LockManager.ownRanges, LockManager.ownRanges, hothers s hs]
  · next hnone =>
    rw [hresult, self.releaseRange_refused (by simp [hresult])]
    refine ⟨known, .rangeNotHeld fun mode hmem => hnone ?_, h⟩
    exact List.countP_pos_iff.mpr ⟨_, (h.mem_ranges.mp hmem).1, by simp [rangeHeldBy]⟩

theorem Knows.modeHeld (h : Knows mine known self) (txn : TxnId) (res : ResourceId) :
    Foreseen mine known (.modeHeld txn res) (self.perform (.modeHeld txn res)) := by
  refine ⟨known, ?_, h⟩
  simp only [LockManager.perform]
  by_cases own : mine txn
  · rw [h.locks txn own]
    exact .ownMode own
  · refine .otherMode own fun u a b hu ha hb => ?_
    rw [← h.locks u hu] at ha
    refine (self.table h.inv).compatible ?_ ha hb
    rintro rfl
    exact own hu

theorem Knows.holderCount (h : Knows mine known self) (res : ResourceId) :
    Foreseen mine known (.holderCount res) (self.perform (.holderCount res)) := by
  refine ⟨known, ?_, h⟩
  have hfinite : {t | self.modeHeld t res ≠ none}.Finite := by
    refine Set.Finite.subset (((self.holders res).map Holder.txn).toFinset.finite_toSet) ?_
    intro t ht
    rw [Set.mem_ofPred_eq, LockManager.modeHeld_eq, ne_eq, modeOf_eq_none_iff] at ht
    simpa using ht
  have hcount := h.inv.holderCount_eq res
  refine .holderCount ?_ fun u hu hx => ?_
  · rw [hcount]
    refine Set.ncard_le_ncard ?_ hfinite
    rintro t ⟨ht, hheld⟩
    rwa [Set.mem_ofPred_eq, h.locks t ht]
  · rw [← h.locks u hu] at hx
    have hone : {t | self.modeHeld t res ≠ none} = {u} := by
      ext t
      rw [Set.mem_ofPred_eq, Set.mem_singleton_iff]
      constructor
      · intro ht
        obtain ⟨b, hb⟩ := Option.ne_none_iff_exists'.mp ht
        by_contra hne
        have hcompat : LockMode.compatibleWith .exclusive b = true :=
          (self.table h.inv).compatible (Ne.symm hne) hx hb
        simp [LockMode.exclusive_compatibleWith] at hcompat
      · rintro rfl
        simp [hx]
    rw [hcount, hone, Set.ncard_singleton]

theorem Knows.rangeCount (h : Knows mine known self) (space : ResourceId) :
    Foreseen mine known (.rangeCount space) (self.perform (.rangeCount space)) := by
  refine ⟨known, .rangeCount ?_, h⟩
  rw [h.ranges, Multiset.coe_card]
  exact List.length_filter_le _ _

theorem Knows.recordCount_eq (h : Knows mine known self) (own : mine txn) :
    known.recordCount txn = self.recordCount txn := by
  rw [Known.recordCount, h.inv.recordCount_eq, h.locks txn own]
  congr 2
  funext space
  rw [h.ranges, Multiset.coe_countP, LockManager.ownRanges, List.countP_filter]
  refine List.countP_congr fun x _ => ?_
  by_cases hx : x.txn = txn <;> simp [hx, own]

theorem ownRanges_others (self : LockManager bits) (txn : TxnId) (space : ResourceId) :
    self.ownRanges (fun u => mine u ∧ u ≠ txn) space =
      (self.ownRanges mine space).filter fun x => x.txn ≠ txn := by
  rw [LockManager.ownRanges, LockManager.ownRanges, List.filter_filter]
  exact List.filter_congr fun x _ => by simp [Bool.and_comm]

/-- A `release_all` with the shards `is` before it: what the thread knows of its other
transactions, and how many records are counted and how many are still to come. -/
structure Sweeping (mine : TxnId → Prop) [DecidablePred mine] (known : Known) (txn : TxnId)
    (is : List (Fin (2 ^ bits))) (released : Nat) (table : LockManager bits) : Prop where
  inv : table.Inv
  locks : ∀ u, mine u → u ≠ txn → table.modeHeld u = known.locks u
  ranges : ∀ space, (known.dropAll txn).ranges space =
    ↑(table.ownRanges (fun u => mine u ∧ u ≠ txn) space)
  swept : ∀ i, i ∉ is → table.listed txn i = ([], [])
  count : released + (is.map fun i =>
    (table.listed txn i).1.length + (table.listed txn i).2.length).sum = known.recordCount txn

theorem sweeping_stable (own : mine txn) (known : Known) (is : List (Fin (2 ^ bits)))
    (released : Nat) :
    Stable (Spares mine) (Sweeping mine known txn is released : LockManager bits → Prop) := by
  intro self next h hsweeping
  have hlisted := h.listed txn own
  refine ⟨h.inv hsweeping.inv, fun u hu hne => ?_, fun space => ?_, ?_, ?_⟩
  · rw [h.locks hsweeping.inv u hu, hsweeping.locks u hu hne]
  · rw [hsweeping.ranges, Multiset.coe_eq_coe, ownRanges_others, ownRanges_others]
    exact ((h.ranges hsweeping.inv space).filter _).symm
  · rw [hlisted]
    exact hsweeping.swept
  · rw [hlisted]
    exact hsweeping.count

theorem Knows.sweeping (h : Knows mine known self) (own : mine txn) :
    Sweeping mine known txn (List.finRange (2 ^ bits)) 0 (self.enter (.clearWait txn)) where
  inv := h.inv.enter _
  locks u hu _ := h.locks u hu
  ranges space := by
    simp only [Known.dropAll, h.ranges, Multiset.filter_coe, ownRanges_others]
    rfl
  swept i hi := absurd (List.mem_finRange i) hi
  count := by
    rw [h.recordCount_eq own, ← h.inv.releaseAll_recordCount, h.inv.releaseAll_count,
      Fin.sum_univ_def, Nat.zero_add]
    rfl

theorem Sweeping.sweepShard {i : Fin (2 ^ bits)} {is : List (Fin (2 ^ bits))} {released : Nat}
    (h : Sweeping mine known txn (i :: is) released self) (hi : i ∉ is) :
    Sweeping mine known txn is (self.sweepShard txn i released).2
      (self.sweepShard txn i released).1 := by
  have hlisted : ∀ j, (self.sweepShard txn i released).1.listed txn j =
      if j = i then ([], []) else self.listed txn j := by
    intro j
    simp only [LockManager.listed, LockManager.sweepShard, LockManager.setShard,
      Function.update_apply]
    split
    · exact ShardInner.listed_sweep_self _ _ _
    · rfl
  refine ⟨?_, fun u hu hne => ?_, fun space => ?_, fun j hj => ?_, ?_⟩
  · rw [LockManager.sweepShard_enter]
    exact h.inv.enter _
  · rw [LockManager.sweepShard_enter, h.inv.enter_others_modeHeld hne, h.locks u hu hne]
  · rw [h.ranges, Multiset.coe_eq_coe, LockManager.sweepShard_enter]
    exact (h.inv.enter_ownRanges (c := .sweepShard txn i) (fun hm => hm.2 rfl) space).symm
  · rw [hlisted]
    split
    · rfl
    · next hne => exact h.swept j fun hmem => (List.mem_cons.mp hmem).elim hne hj
  · have hcount := h.count
    have hsweep := h.inv.sweep_count txn i released
    have hrest : (is.map fun j => ((self.sweepShard txn i released).1.listed txn j).1.length +
        ((self.sweepShard txn i released).1.listed txn j).2.length) =
        is.map fun j => (self.listed txn j).1.length + (self.listed txn j).2.length := by
      refine List.map_congr_left fun j hj => ?_
      have hne : j ≠ i := fun heq => hi (heq ▸ hj)
      rw [hlisted, if_neg hne]
    rw [hrest, ← hcount, List.map_cons, List.sum_cons]
    simp only [LockManager.sweepShard, hsweep, LockManager.listed]
    omega

theorem Sweeping.knows {released : Nat} (h : Sweeping mine known txn [] released self) :
    released = known.recordCount txn ∧ Knows mine (known.dropAll txn) self := by
  have hnothing : self.HoldsNothing txn :=
    h.inv.holdsNothing_of_listed fun i => h.swept i List.not_mem_nil
  refine ⟨by simpa using h.count, h.inv, fun u hu => ?_, fun space => ?_⟩
  · funext r
    simp only [Known.dropAll, LockTable.heldDropAll]
    split
    · next heq => rw [heq, hnothing.1]
    · next hne => rw [h.locks u hu hne]
  · rw [h.ranges, LockManager.ownRanges, LockManager.ownRanges]
    refine congrArg _ (List.filter_congr fun x hx => ?_)
    simp [hnothing.2 space x hx]

end Knows

section Outline
variable {bits : Nat} {T : Type} [DecidableEq T] {works : TxnId → T} {t : T} {known : Known}
variable {A : Type} {K : LockManager bits → Prop} {post : A → LockManager bits → Prop}
variable {txn : TxnId}

namespace Program
variable {α : Type}

/-- An outline of a thread that works for the transactions which `works` gives to it. -/
abbrev Outline (works : TxnId → T) (t : T) (post : A → LockManager bits → Prop)
    (K : LockManager bits → Prop) (p p' : Program bits A) : Prop :=
  Prog.Outline (Spares fun x => works x = t)
    (fun table next => ∀ u, u ≠ t → Spares (fun x => works x = u) table next) post K p p'

theorem spares_others {c : CriticalSection bits} (own : works c.txn = t)
    (self : LockManager bits) (u : T) (hu : u ≠ t) :
    Spares (fun x => works x = u) self (self.enter c) :=
  spares_enter fun heq => hu (heq.symm.trans own)

theorem guarded_outline {m : Mutex bits} {f : LockManager bits → LockManager bits × α}
    {k k' : α → Program bits A} (stable : Stable (Spares fun x => works x = t) K)
    (h : ∀ self, K self → (∀ u, u ≠ t → Spares (fun x => works x = u) self (f self).1) ∧
      ∃ after : LockManager bits → Prop, after (f self).1 ∧
        Outline works t post after (k (f self).2) (k' (f self).2)) :
    Outline works t post K (guarded m f k) (guarded m f k') := by
  apply Prog.Outline.lock
  apply Prog.Outline.of_act stable
  intro self hself
  obtain ⟨hspares, after, hafter, hnext⟩ := h self hself
  exact ⟨hspares, after, hafter, .unlock hnext⟩

theorem read_outline {m : Mutex bits} {f : LockManager bits → α} {k k' : α → Program bits A}
    (stable : Stable (Spares fun x => works x = t) K)
    (hk : ∀ a, Outline works t post K (k a) (k' a)) :
    Outline works t post K (guarded m (fun self => (self, f self)) k)
      (guarded m (fun self => (self, f self)) k') :=
  guarded_outline stable fun self hself => ⟨fun _ _ => spares_refl self, K, hself, hk _⟩

theorem buildWaitGraph_outline {k k' : WaitForGraph → Program bits A}
    (stable : Stable (Spares fun x => works x = t) K)
    (hk : ∀ graph, Outline works t post K (k graph) (k' graph))
    (ws : List (TxnId × ResourceId × LockMode)) (graph : WaitForGraph) :
    Outline works t post K (buildWaitGraph k ws graph) (buildWaitGraph k' ws graph) := by
  induction ws generalizing graph with
  | nil => exact hk graph
  | cons w ws ih => exact read_outline stable ih

/-- A call that is one section under one guard. -/
theorem section_outline {method : Method} {m : Mutex bits}
    {f : LockManager bits → LockManager bits × α} {answer : α → Answer}
    {k k' : Answer → Program bits A}
    (hf : ∀ self, Knows (fun x => works x = t) known self →
      Foreseen (fun x => works x = t) known method ((f self).1, answer (f self).2))
    (hspares : ∀ self u, u ≠ t → Spares (fun x => works x = u) self (f self).1)
    (hk : ∀ answer after, known.Expects (fun x => works x = t) method answer after →
      Outline works t post (Knows (fun x => works x = t) after) (k answer) (k' answer)) :
    Outline works t post (Knows (fun x => works x = t) known) (guarded m f fun a => k (answer a))
      (guarded m f fun a => k' (answer a)) := by
  apply guarded_outline (knows_stable known)
  intro self hself
  obtain ⟨after, hexpects, hafter⟩ := hf self hself
  exact ⟨hspares self, _, hafter, hk _ after hexpects⟩

/-- The shard loop leads from any point of the sweep to a state in which the thread knows that
nothing is left, and counts what it knew of. -/
theorem sweep_outline (own : works txn = t) {k k' : Nat → Program bits A}
    (hk : Outline works t post (Knows (fun x => works x = t) (known.dropAll txn))
      (k (known.recordCount txn)) (k' (known.recordCount txn)))
    {is : List (Fin (2 ^ bits))} (hnodup : is.Nodup) {released : Nat} {self : LockManager bits}
    (h : Sweeping (fun x => works x = t) known txn is released self) :
    ∃ after : LockManager bits → Prop, after self ∧
      Outline works t post after (sweep txn k is released) (sweep txn k' is released) := by
  induction is generalizing released self with
  | nil =>
    obtain ⟨rfl, hknows⟩ := h.knows
    exact ⟨_, hknows, hk⟩
  | cons i is ih =>
    obtain ⟨hi, hrest⟩ := List.nodup_cons.mp hnodup
    refine ⟨_, h, guarded_outline (sweeping_stable own known _ _) fun s hs => ⟨fun u hu => ?_, ?_⟩⟩
    · rw [LockManager.sweepShard_enter]
      exact spares_others own s u hu
    · exact ih hrest (hs.sweepShard hi)

theorem releaseAll_outline (own : works txn = t) {k k' : Nat → Program bits A}
    (hk : Outline works t post (Knows (fun x => works x = t) (known.dropAll txn))
      (k (known.recordCount txn)) (k' (known.recordCount txn))) :
    Outline works t post (Knows (fun x => works x = t) known)
      (releaseAll txn k) (releaseAll txn k') := by
  apply guarded_outline (knows_stable known)
  intro self hself
  refine ⟨spares_others (c := .clearWait txn) own self, ?_⟩
  exact sweep_outline own hk (List.nodup_finRange _) (hself.sweeping own)

theorem request_outline (own : works txn = t) (order : IterOrder TxnId (ResourceId × LockMode))
    (res : ResourceId) (mode : LockMode) {k k' : Acquisition → Program bits A}
    (hk : ∀ a after, known.Expects (fun x => works x = t) (.op (.request order txn res mode))
      (.outcome (.acquisition a)) after →
      Outline works t post (Knows (fun x => works x = t) after) (k a) (k' a)) :
    Outline works t post (Knows (fun x => works x = t) known) (request order txn res mode k)
      (request order txn res mode k') := by
  apply Prog.Outline.lock
  apply guarded_outline (knows_stable known)
  intro self hself
  refine ⟨spares_others (c := .requestGrant txn res mode) own self, ?_⟩
  have hinv := hself.inv.grantStep txn res mode
  have hranges := self.grantStep_rangeHolders txn res mode
  rcases hself.inv.grantStep_cases txn res mode with ⟨free, next, hg, held, _⟩ | ⟨blocked, hg⟩
  · rw [hg] at hinv hranges ⊢
    refine ⟨_, hself.grant own hinv held hranges, ?_⟩
    apply Prog.Outline.of_act (knows_stable _)
    intro s hs
    refine ⟨spares_others (c := .clearWait txn) own s, _, hs.of_same (hs.inv.enter (.clearWait txn))
      rfl rfl, ?_⟩
    exact .unlock (hk _ _ (.granted (hself.free free)))
  · rw [hg]
    refine ⟨_, hself, ?_⟩
    apply Prog.Outline.of_act (knows_stable _)
    intro s hs
    refine ⟨spares_others (c := .registerWait txn res mode) own s, _,
      hs.of_same (hs.inv.enter (.registerWait txn res mode)) rfl rfl, ?_⟩
    apply Prog.Outline.of_act (knows_stable _)
    intro s hs
    refine ⟨fun _ _ => spares_refl s, _, hs, ?_⟩
    refine buildWaitGraph_outline (knows_stable _) (fun graph => .unlock (hk _ _ ?_)) _ _
    exact .refused (refusal_ne_granted _ _) (hself.uncovered own blocked)

end Program

theorem Method.program_outline {method : Method} (own : ∀ x, method.changes x → works x = t)
    {k k' : Answer → Program bits A}
    (hk : ∀ answer after, known.Expects (fun x => works x = t) method answer after →
      Program.Outline works t post (Knows (fun x => works x = t) after) (k answer) (k' answer)) :
    Program.Outline works t post (Knows (fun x => works x = t) known) (method.program k)
      (method.program k') := by
  cases method with
  | op op =>
    cases op with
    | tryAcquire txn res mode =>
      have howns : works txn = t := own txn rfl
      exact Program.section_outline (fun self h => h.tryAcquire howns res mode)
        (Program.spares_others (c := .tryAcquire txn res mode) howns) hk
    | release txn res =>
      have howns : works txn = t := own txn rfl
      exact Program.section_outline (fun self h => h.release howns res)
        (Program.spares_others (c := .release txn res) howns) hk
    | releaseAll txn => exact Program.releaseAll_outline (own txn rfl) (hk _ _ .releasedAll)
    | request order txn res mode =>
      exact Program.request_outline (own txn rfl) order res mode fun a after => hk _ after
    | cancelWait txn =>
      have howns : works txn = t := own txn rfl
      exact Program.section_outline (fun self h => h.cancelWait txn)
        (Program.spares_others (c := .clearWait txn) howns) hk
    | findDeadlock order keyOrder =>
      apply Prog.Outline.lock
      apply Prog.Outline.of_act (knows_stable known)
      intro self hself
      refine ⟨fun _ _ => spares_refl self, _, hself, ?_⟩
      exact Program.buildWaitGraph_outline (knows_stable _)
        (fun graph => .unlock (hk _ _ (.found _))) _ _
    | tryAcquireRange txn space range mode =>
      have howns : works txn = t := own txn rfl
      exact Program.section_outline (fun self h => h.tryAcquireRange howns space range mode)
        (Program.spares_others (c := .tryAcquireRange txn space range mode) howns) hk
    | releaseRange txn space range =>
      have howns : works txn = t := own txn rfl
      exact Program.section_outline (fun self h => h.releaseRange howns space range)
        (Program.spares_others (c := .releaseRange txn space range) howns) hk
  | waitingCount =>
    exact Program.read_outline (knows_stable known) fun n => hk _ _ (.waitingCount n)
  | holderCount res =>
    exact Program.section_outline (fun self h => h.holderCount res)
      (fun self _ _ => spares_refl self) hk
  | modeHeld txn res =>
    exact Program.section_outline (fun self h => h.modeHeld txn res)
      (fun self _ _ => spares_refl self) hk
  | rangeCount space =>
    exact Program.section_outline (fun self h => h.rangeCount space)
      (fun self _ _ => spares_refl self) hk

/-- A thread that keeps its log knows, when it stops, what the log says. -/
theorem Client.Agrees.outline {client client' : Client}
    (h : client.Agrees (fun x => works x = t) known client') {log : Log}
    (hlog : Known.Follows (fun x => works x = t) .nothing log known) :
    Program.Outline works t
      (fun log table => ∃ known, Known.Follows (fun x => works x = t) .nothing log known ∧
        Knows (fun x => works x = t) known table)
      (Knows (fun x => works x = t) known) (client.logged log : Program bits Log)
      (client'.logged log) := by
  induction h generalizing log with
  | stop known => exact .done log (knows_stable known) fun self hself => ⟨known, hlog, hself⟩
  | call own _ ih =>
    exact Method.program_outline own fun answer after hexpects =>
      ih answer after hexpects (hlog.snoc hexpects)

end Outline

/-- Threads that each work for transactions of their own, in any schedule of their single steps,
each keeping a log of its calls and their answers: whatever a thread would do after an answer
that contradicts what it knows, the run is the same, and when it has stopped, its
transactions hold what its log says. -/
theorem own_transactions_known (bits : Nat) {T : Type} [DecidableEq T] (works : TxnId → T)
    (clients clients' : T → Client)
    (hagree : ∀ t, (clients t).Agrees (fun x => works x = t) .nothing (clients' t))
    (schedule : List T) :
    let c := (Threads.start (.withShards bits) fun t => (clients t).logged []).run schedule
    let c' := (Threads.start (.withShards bits) fun t => (clients' t).logged []).run schedule
    (Threads.start (.withShards bits) fun t => (clients t).program).run schedule =
      c.map (fun _ => ()) ∧
    (c'.state = c.state ∧ c'.owner = c.owner ∧
      ∀ t log, c.prog t = .done log ↔ c'.prog t = .done log) ∧
    ∀ t log, c.prog t = .done log →
      ∃ known, Known.Follows (fun x => works x = t) .nothing log known ∧
        ∀ txn, works txn = t → c.state.modeHeld txn = known.locks txn ∧
          ∀ space x, x.txn = txn → (c.state.rangeHolders space).count x =
            (known.ranges space).count x := by
  intro c c'
  have hstart : Threads.Outlined (fun t => Spares fun x => works x = t)
      (fun t table next => ∀ u, u ≠ t → Spares (fun x => works x = u) table next)
      (fun t log table => ∃ known, Known.Follows (fun x => works x = t) .nothing log known ∧
        Knows (fun x => works x = t) known table)
      (Threads.start (.withShards bits) fun t => (clients t).logged [])
      (Threads.start (.withShards bits) fun t => (clients' t).logged []) :=
    ⟨rfl, rfl, fun t => ⟨_, knows_nothing bits, (hagree t).outline (.nil _)⟩⟩
  have h := hstart.run (fun t u hne _ _ hguarantee => hguarantee u (Ne.symm hne)) schedule
  refine ⟨?_, ⟨h.state, h.owner, h.done_iff⟩, fun t log ht => ?_⟩
  · rw [← Threads.run_map]
    simp only [Threads.map, Threads.start, Client.logged_map]
  · obtain ⟨known, hlog, hknows⟩ := h.post_of_done ht
    refine ⟨known, hlog, fun txn own => ⟨hknows.locks txn own, fun space x hx => ?_⟩⟩
    rw [hknows.ranges, Multiset.coe_count, LockManager.ownRanges, List.count_filter]
    simpa [hx] using own

namespace Client
variable {mine : TxnId → Prop} {txn : TxnId} {panic panic' : Client}

/-- A thread of the stress test on shared and exclusive locks. It panics when it cannot release
what it was granted. -/
def mixed (txn : TxnId) (panic : Client) : List (ResourceId × LockMode) → Client
  | [] => .stop
  | (res, mode) :: rest => .call (.op (.tryAcquire txn res mode)) fun
    | .outcome (.result (.ok _)) => .call (.op (.release txn res)) fun
      | .outcome (.result (.ok _)) => mixed txn panic rest
      | _ => panic
    | _ => mixed txn panic rest

/-- A thread of the model-checked test on exclusive locks. It panics when it is not the only
holder of the lock it was granted, or cannot release it. -/
def exclusive (txn : TxnId) (res : ResourceId) (panic : Client) : Client :=
  .call (.op (.tryAcquire txn res .exclusive)) fun
    | .outcome (.result (.ok _)) => .call (.holderCount res) fun
      | .count 1 => .call (.op (.release txn res)) fun
        | .outcome (.result (.ok _)) => .stop
        | _ => panic
      | _ => panic
    | _ => .stop

theorem mixed_agrees (own : mine txn) (known : Known) (locks : List (ResourceId × LockMode)) :
    (mixed txn panic locks).Agrees mine known (mixed txn panic' locks) := by
  induction locks generalizing known with
  | nil => exact .stop known
  | cons lock locks ih =>
    obtain ⟨res, mode⟩ := lock
    refine .call (fun x hx => hx ▸ own) fun answer after h => ?_
    cases h with
    | conflict _ => exact ih known
    | acquired _ =>
      refine .call (fun x hx => hx ▸ own) fun answer after h => ?_
      cases h with
      | released _ => exact ih _
      | notHeld none => simp [Known.grant, LockTable.heldGrant] at none

theorem exclusive_agrees (own : mine txn) (res : ResourceId) (known : Known) :
    (exclusive txn res panic).Agrees mine known (exclusive txn res panic') := by
  refine .call (fun x hx => hx ▸ own) fun answer after h => ?_
  cases h with
  | conflict _ => exact .stop _
  | acquired _ =>
    have hheld : (known.grant txn res .exclusive).locks txn res = some .exclusive := by
      simp only [Known.grant, LockTable.heldGrant, and_self, if_true]
      cases known.locks txn res with
      | none => rfl
      | some m => cases m <;> rfl
    refine .call (fun x hx => False.elim hx) fun answer after h => ?_
    cases h with
    | holderCount _ alone =>
      obtain rfl := alone txn own hheld
      refine .call (fun x hx => hx ▸ own) fun answer after h => ?_
      cases h with
      | released _ => exact .stop _
      | notHeld none => simp [hheld] at none

end Client

/-- A thread of the stress test and one of the model-checked test. -/
def testers (panic : Client) (second : Bool) : Client :=
  if second then .exclusive ⟨2⟩ ⟨1⟩ panic
  else .mixed ⟨1⟩ panic [(⟨1⟩, .shared), (⟨2⟩, .exclusive)]

theorem testers_agree (panic panic' : Client) (second : Bool) :
    (testers panic second).Agrees (fun x => decide (x = ⟨2⟩) = second) .nothing
      (testers panic' second) := by
  cases second
  · exact Client.mixed_agrees (by decide) _ _
  · exact Client.exclusive_agrees (by decide) _ _

/-- It makes no difference what they would do in a panic, and what the second one was answered is
what the table has of it. -/
theorem own_transactions_known_tests :
    let panic : Client := .call .waitingCount fun _ => .stop
    let schedule := [true, false, true, true, false, false, false] ++ List.replicate 6 true
    let c := (Threads.start (LockManager.withShards 0) fun t =>
      (testers .stop t).logged []).run schedule
    let c' := (Threads.start (LockManager.withShards 0) fun t =>
      (testers panic t).logged []).run schedule
    let log : Log := [(.op (.tryAcquire ⟨2⟩ ⟨1⟩ .exclusive), .outcome (.result (.ok ()))),
      (.holderCount ⟨1⟩, .count 1),
      (.op (.release ⟨2⟩ ⟨1⟩), .outcome (.result (.ok ())))]
    c'.state = c.state ∧ c.prog true = .done log ∧
      ∃ known, Known.Follows (fun x => decide (x = ⟨2⟩) = true) .nothing log known ∧
        c.state.modeHeld ⟨2⟩ = known.locks ⟨2⟩ := by
  intro panic schedule c c' log
  have hdone : c.prog true = .done log := rfl
  obtain ⟨_, ⟨hstate, _, _⟩, hknown⟩ := own_transactions_known 0 (fun x => decide (x = ⟨2⟩))
    (testers .stop) (testers panic) (testers_agree .stop panic) schedule
  obtain ⟨known, hlog, hholds⟩ := hknown true log hdone
  exact ⟨hstate, hdone, known, hlog, (hholds ⟨2⟩ (by decide)).1⟩

end LockDb
