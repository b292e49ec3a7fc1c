import LockDb.TwoPhase
import LockDb.Blockers
import LockDb.AtWait
import LockDb.Bookkeeping
import LockDb.RangeHistory
import LockDb.Shared.Fairness
import Mathlib.Data.Prod.Lex
import Mathlib.Data.Finite.Prod
import Mathlib.Data.Fintype.Powerset
import Mathlib.Data.DFinsupp.WellFounded
import Mathlib.Order.CompletePartialOrder

/-!
# Workers under a fair schedule

Workers that acquire with the documented loop always come to an end when each of
them gets its turn again and again, whatever they ask for. Every turn either changes
nothing or brings the end nearer: a worker gets on with its list, or a victim loses
its locks, or someone learns of a deadlock or begins to wait. And some turn changes
something, since the waiters either form a cycle, which the next request of one of
them reports, or one of them waits for nobody.
-/

namespace LockDb

set_option autoImplicit false

open Shared Shared.Multimap

instance : Finite TxnId :=
  Finite.of_injective (fun t => t.id.toFin) fun a b h => by
    cases a
    cases b
    simpa [UInt64.toFin_inj] using h

instance : Finite ResourceId :=
  Finite.of_injective (fun r => r.id.toFin) fun a b h => by
    cases a
    cases b
    simpa [UInt64.toFin_inj] using h

namespace LockManager
variable {bits : Nat} {self : LockManager bits} {txn : TxnId} {res : ResourceId} {mode : LockMode}

theorem enter_registerWait_same (h : self.waits.lookup txn = some (res, mode)) :
    self.enter (.registerWait txn res mode) = self := by
  have hwaits : self.waits.insert txn (res, mode) = self.waits := by
    apply Finmap.ext_lookup
    intro t
    rw [lookup_insert_eq]
    split
    · next ht => rw [ht, h]
    · rfl
  rw [enter, hwaits]

theorem request_rangeHolders (self : LockManager bits)
    (order : IterOrder TxnId (ResourceId × LockMode)) (txn : TxnId) (res : ResourceId)
    (mode : LockMode) : (self.request order txn res mode).1.rangeHolders = self.rangeHolders := by
  rw [← self.grantStep_rangeHolders txn res mode, request_eq]
  split <;> rfl

theorem Inv.releaseAll_no_ranges (h : self.Inv) (hnone : ∀ space, self.rangeHolders space = [])
    (txn : TxnId) (space : ResourceId) : (self.releaseAll txn).1.rangeHolders space = [] := by
  have hperm := h.releaseAll_rangeHolders txn space
  rw [hnone] at hperm
  exact hperm.eq_nil

theorem Inv.eq_withShards (h : self.Inv) (hnone : ∀ t, self.HoldsNothing t)
    (hwaits : ∀ t, self.waits.lookup t = none) : self = .withShards bits := by
  have hempty : self.waits = ∅ := by
    apply Finmap.ext_lookup
    intro t
    rw [hwaits, Finmap.lookup_empty]
  cases self
  simp only at hempty
  rw [hempty, withShards]
  congr
  funext i
  exact h.shards_eq_new hnone i

end LockManager

namespace Workers
variable {bits : Nat} {c next : Workers bits} {turn : Turn}

/-- Everything a turn can do. -/
inductive TurnCase (c : Workers bits) (turn : Turn) : Workers bits → Prop where
  | ended (hs : (c.worker turn.txn).status = .failed ∨
        (c.worker turn.txn).status = .running ∧ (c.worker turn.txn).todo = []) :
      TurnCase c turn ⟨(c.table.releaseAll turn.txn).1, Function.update c.worker turn.txn
        { c.worker turn.txn with status := .released }⟩
  | granted {res : ResourceId} {mode : LockMode} {todo : List (ResourceId × LockMode)}
      {table : LockManager bits} (hs : (c.worker turn.txn).status = .running)
      (ht : (c.worker turn.txn).todo = (res, mode) :: todo)
      (free : c.table.Grantable turn.txn res mode)
      (held : table.modeHeld = LockTable.heldGrant c.table.modeHeld turn.txn res mode)
      (waits : table.waits = c.table.waits.erase turn.txn)
      (ranges : table.rangeHolders = c.table.rangeHolders) :
      TurnCase c turn ⟨table, Function.update c.worker turn.txn
        { c.worker turn.txn with
          todo := todo, acquired := (c.worker turn.txn).acquired ++ [(res, mode)] }⟩
  | waiting {res : ResourceId} {mode : LockMode} {todo : List (ResourceId × LockMode)}
      (hs : (c.worker turn.txn).status = .running)
      (ht : (c.worker turn.txn).todo = (res, mode) :: todo)
      (blocked : ¬ c.table.Grantable turn.txn res mode)
      (avoids : ∀ cycle,
        IsCycle (c.table.enter (.registerWait turn.txn res mode)).WaitsFor cycle →
          turn.txn ∉ cycle) :
      TurnCase c turn ⟨c.table.enter (.registerWait turn.txn res mode), c.worker⟩
  | deadlock {res : ResourceId} {mode : LockMode} {todo : List (ResourceId × LockMode)}
      {d : Deadlock} (hs : (c.worker turn.txn).status = .running)
      (ht : (c.worker turn.txn).todo = (res, mode) :: todo)
      (blocked : ¬ c.table.Grantable turn.txn res mode)
      (report : Reported (c.table.enter (.registerWait turn.txn res mode)).WaitsFor d) :
      TurnCase c turn ⟨c.table.enter (.registerWait turn.txn res mode),
        Function.update c.worker turn.txn
          { c.worker turn.txn with status := .aborting d.victim }⟩
  | aborted {victim : TxnId} (hs : (c.worker turn.txn).status = .aborting victim) :
      TurnCase c turn ⟨(c.table.releaseAll victim).1, Function.update c.worker turn.txn
        { c.worker turn.txn with status := if victim = turn.txn then .failed else .running }⟩
  | nothing (hs : (c.worker turn.txn).status = .released) : TurnCase c turn c

theorem turn_cases (hinv : c.table.Inv) (turn : Turn) : TurnCase c turn (c.step turn).1 := by
  cases hs : (c.worker turn.txn).status with
  | running =>
    cases ht : (c.worker turn.txn).todo with
    | nil =>
      simp only [step, hs, ht]
      have hcase : TurnCase c turn _ := .ended (.inr ⟨hs, ht⟩)
      simpa only [ht] using hcase
    | cons lock todo =>
      obtain ⟨res, mode⟩ := lock
      simp only [step, hs, ht]
      have hranges := c.table.request_rangeHolders turn.order turn.txn res mode
      rcases hinv.request_cases turn.order turn.txn res mode with
        ⟨free, table, hr, held, waits⟩ | ⟨blocked, hr⟩
      · rw [hr] at hranges ⊢
        exact .granted hs ht free held waits hranges
      · rw [hr]
        have hnext : (c.table.enter (.registerWait turn.txn res mode)).Inv := hinv.enter _
        generalize hanswer : LockManager.refusal
          ((c.table.enter (.registerWait turn.txn res mode)).buildWaitGraph turn.order)
          turn.txn = answer
        cases answer with
        | granted => exact absurd hanswer (refusal_ne_granted _ _)
        | waiting =>
          simp only [Worker.answered, Function.update_eq_self]
          refine .waiting hs ht blocked fun cycle hcycle => ?_
          refine @LockManager.Inv.refusal_waiting _ _ hnext turn.order _ ?_ _ hcycle
          intro d hd
          rw [hanswer] at hd
          simp at hd
        | deadlock d => exact .deadlock hs ht blocked (hnext.refusal_deadlock hanswer).1
  | aborting victim =>
    simp only [step, hs]
    exact .aborted hs
  | failed =>
    simp only [step, hs]
    exact .ended (.inl hs)
  | released =>
    simp only [step, hs]
    exact .nothing hs

theorem step_inv (hinv : c.table.Inv) (turn : Turn) : (c.step turn).1.table.Inv := by
  have hcase := c.step_cases turn
  generalize c.step turn = out at hcase
  cases hcase with
  | released victim _ _ _ => exact hinv.releaseAll victim
  | granted res mode _ _ _ _ => exact hinv.exec (.request turn.order turn.txn res mode)
  | refused res mode _ _ _ _ _ => exact hinv.exec (.request turn.order turn.txn res mode)
  | nothing => exact hinv

section Rank

/-- What a worker has left to do. -/
def effort (w : Worker) : Nat :=
  w.todo.length +
    match w.status with
    | .running => 2
    | .aborting _ => 2
    | .failed => 1
    | .released => 0

def holdings (c : Workers bits) : Set (TxnId × ResourceId) :=
  {p | c.table.modeHeld p.1 p.2 ≠ none}

open Classical in
/-- A worker that is about to abort a victim has learnt something, unless the victim has lost
its locks meanwhile: then the worker has to ask once more. -/
noncomputable def errand (held : Set (TxnId × ResourceId)) (t : TxnId) : Status → Nat
  | .running => 1
  | .aborting victim => if victim = t ∨ ∃ r, (victim, r) ∈ held then 0 else 2
  | _ => 0

noncomputable def errands (c : Workers bits) (t : TxnId) : Nat :=
  errand c.holdings t (c.worker t).status

def unregistered (c : Workers bits) : Set TxnId :=
  {t | ∃ w ∈ (c.worker t).todo.head?, c.table.waits.lookup t ≠ some w}

/-- What the first component measures is never undone; what a later one measures may be, but
only when an earlier one has become lower. -/
noncomputable def rank (c : Workers bits) :
    (TxnId → Nat) ×ₗ Set (TxnId × ResourceId) ×ₗ (TxnId → Nat) ×ₗ Set TxnId :=
  toLex (fun t => effort (c.worker t), toLex (c.holdings, toLex (c.errands, c.unregistered)))

theorem rank_lt_of_effort (hothers : ∀ t, t ≠ turn.txn → next.worker t = c.worker t)
    (hown : effort (next.worker turn.txn) < effort (c.worker turn.txn)) : next.rank < c.rank := by
  refine Prod.Lex.toLex_lt_toLex.mpr (.inl (Pi.lt_def.mpr ⟨fun t => ?_, turn.txn, hown⟩))
  by_cases ht : t = turn.txn
  · rw [ht]
    exact Nat.le_of_lt hown
  · exact Nat.le_of_eq (congrArg effort (hothers t ht))

theorem rank_lt_of_holdings (heffort : ∀ t, effort (next.worker t) = effort (c.worker t))
    (hless : next.holdings < c.holdings) : next.rank < c.rank :=
  Prod.Lex.toLex_lt_toLex.mpr (.inr ⟨funext heffort, Prod.Lex.toLex_lt_toLex.mpr (.inl hless)⟩)

theorem rank_lt_of_errand (heffort : ∀ t, effort (next.worker t) = effort (c.worker t))
    (hsame : next.holdings = c.holdings)
    (hothers : ∀ t, t ≠ turn.txn → next.worker t = c.worker t)
    (hown : next.errands turn.txn < c.errands turn.txn) : next.rank < c.rank := by
  refine Prod.Lex.toLex_lt_toLex.mpr (.inr ⟨funext heffort, ?_⟩)
  refine Prod.Lex.toLex_lt_toLex.mpr (.inr ⟨hsame, ?_⟩)
  refine Prod.Lex.toLex_lt_toLex.mpr (.inl (Pi.lt_def.mpr ⟨fun t => ?_, turn.txn, hown⟩))
  by_cases ht : t = turn.txn
  · rw [ht]
    exact Nat.le_of_lt hown
  · have herrands : next.errands t = c.errands t := by
      rw [errands, errands, hothers t ht, hsame]
    exact Nat.le_of_eq herrands

theorem rank_lt_of_unregistered (hworker : next.worker = c.worker)
    (hsame : next.holdings = c.holdings) (hless : next.unregistered < c.unregistered) :
    next.rank < c.rank := by
  have herrands : next.errands = c.errands := by
    funext t
    rw [errands, errands, hworker, hsame]
  refine Prod.Lex.toLex_lt_toLex.mpr (.inr ⟨by rw [hworker], ?_⟩)
  refine Prod.Lex.toLex_lt_toLex.mpr (.inr ⟨hsame, ?_⟩)
  exact Prod.Lex.toLex_lt_toLex.mpr (.inr ⟨herrands, hless⟩)

theorem effort_update {w : Worker} (hw : effort w = effort (c.worker turn.txn)) (t : TxnId) :
    effort (Function.update c.worker turn.txn w t) = effort (c.worker t) := by
  rw [Function.update_apply]
  split
  · next ht => rw [ht, hw]
  · rfl

end Rank

section Descent

theorem registerWait_lower {res : ResourceId} {mode : LockMode}
    {todo : List (ResourceId × LockMode)} (ht : (c.worker turn.txn).todo = (res, mode) :: todo)
    (hnew : c.table.waits.lookup turn.txn ≠ some (res, mode)) :
    rank ⟨c.table.enter (.registerWait turn.txn res mode), c.worker⟩ < c.rank := by
  apply rank_lt_of_unregistered
  · rfl
  · rfl
  · refine Set.ssubset_iff_of_subset ?_ |>.mpr ⟨turn.txn, ⟨(res, mode), by simp [ht], hnew⟩, ?_⟩
    · intro t hmem
      obtain ⟨w, hw, hlookup⟩ := hmem
      refine ⟨w, hw, fun hold => hlookup ?_⟩
      simp only [LockManager.enter, lookup_insert_eq]
      split
      · next htt =>
        subst htt
        simp only [ht, List.head?_cons, Option.mem_some_iff] at hw
        rw [hw]
      · exact hold
    · intro hmem
      obtain ⟨w, hw, hlookup⟩ := hmem
      simp only [ht, List.head?_cons, Option.mem_some_iff] at hw
      refine hlookup ?_
      simp only [LockManager.enter, lookup_insert_eq, hw, if_true]

/-- The victim of a cycle holds something, since somebody waits for it. -/
theorem victim_holds {table : LockManager bits} {d : Deadlock}
    (report : Reported table.WaitsFor d) : ∃ r, table.modeHeld d.victim r ≠ none := by
  have hreach := report.cycle.transGen_self report.victim_mem
  obtain ⟨_, _, hwait⟩ := Relation.TransGen.tail'_iff.mp hreach
  obtain ⟨res, mode, held, _, _, hheld, _⟩ := hwait
  exact ⟨res, by simp [hheld]⟩

theorem releaseAll_holdings (hinv : c.table.Inv) {victim : TxnId} {worker : TxnId → Worker} :
    holdings ⟨(c.table.releaseAll victim).1, worker⟩ = {p ∈ c.holdings | p.1 ≠ victim} := by
  ext p
  simp only [holdings, hinv.releaseAll_modeHeld, LockTable.heldDropAll, Set.mem_ofPred_eq]
  by_cases hp : p.1 = victim
  · simp [hp]
  · simp [hp]

theorem aborted_lower (hinv : c.table.Inv) {victim : TxnId}
    (hs : (c.worker turn.txn).status = .aborting victim) :
    rank ⟨(c.table.releaseAll victim).1, Function.update c.worker turn.txn
      { c.worker turn.txn with status := if victim = turn.txn then .failed else .running }⟩ <
        c.rank := by
  by_cases hself : victim = turn.txn
  · apply rank_lt_of_effort
    · intro t ht
      exact Function.update_of_ne ht _ _
    · simp [effort, hs, hself]
  · rw [if_neg hself]
    have heffort : effort { c.worker turn.txn with status := .running } =
        effort (c.worker turn.txn) := by simp [effort, hs]
    by_cases hholds : ∃ r, (victim, r) ∈ c.holdings
    · apply rank_lt_of_holdings
      · exact effort_update heffort
      · obtain ⟨r, hr⟩ := hholds
        rw [releaseAll_holdings hinv]
        exact (Set.ssubset_iff_of_subset (Set.sep_subset _ _)).mpr
          ⟨(victim, r), hr, fun hmem => hmem.2 rfl⟩
    · have hsame : ∀ worker, holdings ⟨(c.table.releaseAll victim).1, worker⟩ = c.holdings := by
        intro worker
        rw [releaseAll_holdings hinv, Set.sep_eq_self_iff_mem_true]
        intro p hp hvictim
        exact hholds ⟨p.2, hvictim ▸ hp⟩
      apply rank_lt_of_errand
      · exact effort_update heffort
      · exact hsame _
      · intro t ht
        exact Function.update_of_ne ht _ _
      · simp [errands, errand, hs, hself, hholds]

theorem step_lower (hinv : c.table.Inv) (turn : Turn) :
    (c.step turn).1 = c ∨ (c.step turn).1.rank < c.rank := by
  have hcase := turn_cases hinv turn
  generalize (c.step turn).1 = next at hcase
  cases hcase with
  | ended hs =>
    refine .inr (rank_lt_of_effort (fun t ht => Function.update_of_ne ht _ _) ?_)
    rcases hs with hs | ⟨hs, _⟩
    · simp [effort, hs]
    · simp [effort, hs]
  | granted hs ht _ _ _ _ =>
    refine .inr (rank_lt_of_effort (fun t ht => Function.update_of_ne ht _ _) ?_)
    simp [effort, hs, ht]
  | @waiting res mode todo hs ht _ _ =>
    by_cases hnew : c.table.waits.lookup turn.txn = some (res, mode)
    · exact .inl (by rw [LockManager.enter_registerWait_same hnew])
    · exact .inr (registerWait_lower ht hnew)
  | @deadlock _ _ _ d hs _ _ report =>
    refine .inr (rank_lt_of_errand (effort_update ?_) rfl
      (fun t ht => Function.update_of_ne ht _ _) ?_)
    · simp [effort, hs]
    · obtain ⟨r, hr⟩ := victim_holds report
      have hmem : ∃ r, (d.victim, r) ∈ c.holdings := ⟨r, hr⟩
      simp only [errands, errand, hs, Function.update_self]
      rw [if_pos (.inr hmem)]
      exact Nat.one_pos
  | aborted hs => exact .inr (aborted_lower hinv hs)
  | nothing _ => exact .inl rfl

end Descent

/-- What holds between turns. -/
structure Orderly (plan : TxnId → List (ResourceId × LockMode)) (c : Workers bits) : Prop where
  inv : c.table.Inv
  waiting : ∀ t w, c.table.waits.lookup t = some w →
    (c.worker t).status.sound = true ∧ (c.worker t).todo.head? = some w
  holding : ∀ t r, c.table.modeHeld t r ≠ none → (c.worker t).status ≠ .released ∧ plan t ≠ []
  idle : ∀ t, plan t = [] → (c.worker t).todo = [] ∧
    ((c.worker t).status = .running ∨ (c.worker t).status = .released)
  noRanges : ∀ space, c.table.rangeHolders space = []

def Finished (plan : TxnId → List (ResourceId × LockMode)) (c : Workers bits) : Prop :=
  ∀ t, plan t ≠ [] → (c.worker t).status = .released

section Progress
variable {plan : TxnId → List (ResourceId × LockMode)}

theorem orderly_init (bits : Nat) (plan : TxnId → List (ResourceId × LockMode)) :
    Orderly plan (init bits plan) where
  inv := LockManager.inv_withShards bits
  waiting := by simp [init, LockManager.withShards]
  holding := by
    simp [init, LockManager.modeHeld, LockManager.lockShard, LockManager.withShards, ShardInner.new]
  idle t ht := ⟨ht, .inl rfl⟩
  noRanges := by
    simp [init, LockManager.rangeHolders, LockManager.lockShard, LockManager.withShards,
      ShardInner.new]

theorem Orderly.planned (h : Orderly plan c) {t : TxnId} {res : ResourceId} {mode : LockMode}
    {todo : List (ResourceId × LockMode)} (ht : (c.worker t).todo = (res, mode) :: todo) :
    plan t ≠ [] := by
  intro hplan
  rw [(h.idle t hplan).1] at ht
  simp at ht

/-- A worker's turn after which somebody's locks and wait are gone. -/
theorem Orderly.releaseAll (h : Orderly plan c) {victim : TxnId} {status : Status}
    (hsound : turn.txn ≠ victim → status = .running)
    (hreleased : status = .released → turn.txn = victim)
    (hidle : plan turn.txn = [] → status = .running ∨ status = .released) :
    Orderly plan ⟨(c.table.releaseAll victim).1, Function.update c.worker turn.txn
      { c.worker turn.txn with status := status }⟩ where
  inv := h.inv.releaseAll victim
  waiting t w hw := by
    rw [LockManager.releaseAll_waits, lookup_erase_eq] at hw
    split at hw
    · simp at hw
    · next hne =>
      by_cases ht : t = turn.txn
      · subst ht
        simp only [Function.update_self, hsound hne]
        exact ⟨rfl, (h.waiting _ w hw).2⟩
      · simp only [Function.update_of_ne ht]
        exact h.waiting t w hw
  holding t r hheld := by
    simp only [h.inv.releaseAll_modeHeld, LockTable.heldDropAll] at hheld
    split at hheld
    · simp at hheld
    · next hne =>
      refine ⟨?_, (h.holding t r hheld).2⟩
      by_cases ht : t = turn.txn
      · subst ht
        simp only [Function.update_self]
        exact fun heq => hne (hreleased heq)
      · simp only [Function.update_of_ne ht]
        exact (h.holding t r hheld).1
  idle t ht := by
    by_cases htt : t = turn.txn
    · subst htt
      simp only [Function.update_self]
      exact ⟨(h.idle _ ht).1, hidle ht⟩
    · simp only [Function.update_of_ne htt]
      exact h.idle t ht
  noRanges := h.inv.releaseAll_no_ranges h.noRanges victim

theorem Orderly.granted (h : Orderly plan c) {res : ResourceId} {mode : LockMode}
    {todo : List (ResourceId × LockMode)} {table : LockManager bits} {w : Worker}
    (hinv : table.Inv) (hs : w.status = .running)
    (ht : (c.worker turn.txn).todo = (res, mode) :: todo)
    (held : table.modeHeld = LockTable.heldGrant c.table.modeHeld turn.txn res mode)
    (waits : table.waits = c.table.waits.erase turn.txn)
    (ranges : table.rangeHolders = c.table.rangeHolders) :
    Orderly plan ⟨table, Function.update c.worker turn.txn w⟩ where
  inv := hinv
  waiting t w hw := by
    rw [waits, lookup_erase_eq] at hw
    split at hw
    · simp at hw
    · next hne =>
      simp only [Function.update_of_ne hne]
      exact h.waiting t w hw
  holding t r hheld := by
    by_cases htt : t = turn.txn
    · subst htt
      simp [hs, h.planned ht]
    · simp only [Function.update_of_ne htt]
      rw [held, LockTable.heldGrant, if_neg fun heq => htt heq.1] at hheld
      exact h.holding t r hheld
  idle t hplan := by
    have hne : t ≠ turn.txn := fun heq => h.planned ht (heq ▸ hplan)
    simp only [Function.update_of_ne hne]
    exact h.idle t hplan
  noRanges := by
    rw [ranges]
    exact h.noRanges

theorem Orderly.refused (h : Orderly plan c) {res : ResourceId} {mode : LockMode}
    {todo : List (ResourceId × LockMode)} {status : Status}
    (ht : (c.worker turn.txn).todo = (res, mode) :: todo) (hs : status.sound = true) :
    Orderly plan ⟨c.table.enter (.registerWait turn.txn res mode), Function.update c.worker
      turn.txn { c.worker turn.txn with status := status }⟩ where
  inv := h.inv.enter (.registerWait turn.txn res mode)
  waiting t w hw := by
    simp only [LockManager.enter, lookup_insert_eq] at hw
    split at hw
    · next htt =>
      subst htt
      simp only [Function.update_self]
      exact ⟨hs, by rw [ht, List.head?_cons, hw]⟩
    · next hne =>
      simp only [Function.update_of_ne hne]
      exact h.waiting t w hw
  holding t r hheld := by
    refine ⟨?_, (h.holding t r hheld).2⟩
    by_cases htt : t = turn.txn
    · subst htt
      simp only [Function.update_self]
      rintro rfl
      exact Bool.false_ne_true hs
    · simp only [Function.update_of_ne htt]
      exact (h.holding t r hheld).1
  idle t hplan := by
    have hne : t ≠ turn.txn := fun heq => h.planned ht (heq ▸ hplan)
    simp only [Function.update_of_ne hne]
    exact h.idle t hplan
  noRanges := h.noRanges

theorem Orderly.step (h : Orderly plan c) (turn : Turn) : Orderly plan (c.step turn).1 := by
  have hcase := turn_cases h.inv turn
  have hinv : (c.step turn).1.table.Inv := step_inv h.inv turn
  generalize (c.step turn).1 = next at hcase hinv
  cases hcase with
  | ended hs => exact h.releaseAll (fun hne => absurd rfl hne) (fun _ => rfl) fun _ => .inr rfl
  | granted hs ht _ held waits ranges => exact h.granted hinv hs ht held waits ranges
  | waiting hs ht _ _ =>
    have hsound : (c.worker turn.txn).status.sound = true := by rw [hs]; rfl
    have hnext := h.refused ht hsound
    rwa [Function.update_eq_self] at hnext
  | deadlock hs ht _ _ => exact h.refused ht rfl
  | aborted hs =>
    apply h.releaseAll
    · exact fun hne => if_neg (Ne.symm hne)
    · split <;> simp
    · intro hplan
      have hidle := (h.idle _ hplan).2
      simp [hs] at hidle
  | nothing _ => exact h

/-- A turn that changes nothing is that of a worker that has ended or waits in vain. -/
theorem stays_cases (hinv : c.table.Inv) (h : (c.step turn).1 = c) :
    (c.worker turn.txn).status = .released ∨ ∃ res mode,
      ¬ c.table.Grantable turn.txn res mode ∧
      c.table.waits.lookup turn.txn = some (res, mode) ∧
      ∀ cycle, IsCycle c.table.WaitsFor cycle → turn.txn ∉ cycle := by
  have hcase := turn_cases hinv turn
  generalize hnext : (c.step turn).1 = next at hcase
  have hworker : ∀ {table : LockManager bits} {w : Worker},
      next = ⟨table, Function.update c.worker turn.txn w⟩ → c.worker turn.txn = w := by
    intro table w heq
    rw [← h, hnext, heq]
    exact Function.update_self _ _ _
  cases hcase with
  | ended hs =>
    have hw := congrArg Worker.status (hworker rfl)
    exact .inl hw
  | granted hs ht _ _ _ _ =>
    have hw := congrArg Worker.todo (hworker rfl)
    rw [ht] at hw
    exact absurd hw (List.cons_ne_self _ _)
  | @waiting res mode todo hs ht blocked avoids =>
    have htable : c.table.enter (.registerWait turn.txn res mode) = c.table :=
      congrArg Workers.table (hnext.symm.trans h)
    rw [htable] at avoids
    refine .inr ⟨res, mode, blocked, ?_, avoids⟩
    rw [← htable]
    exact Finmap.lookup_insert _
  | deadlock hs _ _ _ =>
    have hw := congrArg Worker.status (hworker rfl)
    rw [hs] at hw
    simp at hw
  | @aborted victim hs =>
    have hw := congrArg Worker.status (hworker rfl)
    rw [hs] at hw
    simp only at hw
    split at hw <;> simp at hw
  | nothing hs => exact .inl hs

/-- As long as some worker has not ended, there is one whose turn changes something. -/
theorem orderly_moves : Moves (fun c turn => (step c turn).1) (@Orderly bits plan)
    (Finished plan) {t | plan t ≠ []} Turn.txn := by
  intro c h hunfinished
  by_contra hstuck
  push Not at hstuck
  have hwaits : ∀ t, plan t ≠ [] → (c.worker t).status ≠ .released → ∃ res mode,
      ¬ c.table.Grantable t res mode ∧ c.table.waits.lookup t = some (res, mode) ∧
      ∀ cycle, IsCycle c.table.WaitsFor cycle → t ∉ cycle := by
    intro t hplan hs
    obtain ⟨turn, rfl, hstay⟩ := hstuck t hplan
    exact (stays_cases h.inv hstay).resolve_left hs
  have hacyclic : Acyclic c.table.WaitsFor := by
    intro cycle hcycle
    obtain ⟨t, ht⟩ := List.exists_mem_of_ne_nil cycle hcycle.ne_nil
    obtain ⟨w, hw⟩ := LockManager.registered_of_cycle hcycle ht
    obtain ⟨hsound, hhead⟩ := h.waiting t w hw
    have hplan : plan t ≠ [] := fun hplan => by simp [(h.idle t hplan).1] at hhead
    have hs : (c.worker t).status ≠ .released := fun hs => by simp [hs, Status.sound] at hsound
    obtain ⟨_, _, _, _, havoids⟩ := hwaits t hplan hs
    exact havoids cycle hcycle ht
  have hsome : {t | plan t ≠ [] ∧ (c.worker t).status ≠ .released}.Nonempty := by
    unfold Finished at hunfinished
    push Not at hunfinished
    exact hunfinished
  -- whoever waits for nobody that is still at work could be granted its lock
  obtain ⟨t, ⟨hplan, hs⟩, hsink⟩ := hacyclic.exists_sink (Set.toFinite _) hsome
  obtain ⟨res, mode, hblocked, hlookup, _⟩ := hwaits t hplan hs
  rw [← h.inv.holdersBlocking_nil_iff] at hblocked
  obtain ⟨u, hu⟩ := List.exists_mem_of_ne_nil _ hblocked
  obtain ⟨_, held, hheld, _⟩ := h.inv.mem_holdersBlocking_iff.mp hu
  obtain ⟨hs', hplan'⟩ := h.holding u res (by simp [hheld])
  exact hsink u ⟨hplan', hs'⟩ ((h.inv.waitsFor_iff hlookup).mpr hu)

theorem released_step (hinv : c.table.Inv) (turn : Turn) {t : TxnId}
    (hs : (c.worker t).status = .released) : ((c.step turn).1.worker t).status = .released := by
  have hcase := turn_cases hinv turn
  generalize (c.step turn).1 = next at hcase
  by_cases ht : t = turn.txn
  · subst ht
    cases hcase with
    | ended hs' => simp
    | granted hs' _ _ _ _ _ => simp [hs] at hs'
    | waiting hs' _ _ _ => simp [hs] at hs'
    | deadlock hs' _ _ _ => simp [hs] at hs'
    | aborted hs' => simp [hs] at hs'
    | nothing _ => exact hs
  · cases hcase with
    | ended _ => simpa [ht] using hs
    | granted _ _ _ _ _ _ => simpa [ht] using hs
    | waiting _ _ _ _ => exact hs
    | deadlock _ _ _ _ => simpa [ht] using hs
    | aborted _ => simpa [ht] using hs
    | nothing _ => exact hs

theorem Finished.step (hinv : c.table.Inv) (h : Finished plan c) (turn : Turn) :
    Finished plan (c.step turn).1 := fun t hplan => released_step hinv turn (h t hplan)

/-- When all workers have ended, nothing is left in the table. -/
theorem Orderly.eq_withShards (h : Orderly plan c) (hfinished : Finished plan c) :
    c.table = .withShards bits := by
  apply h.inv.eq_withShards
  · intro t
    refine ⟨fun r => ?_, fun space x hx => ?_⟩
    · by_contra hheld
      obtain ⟨hs, hplan⟩ := h.holding t r hheld
      exact hs (hfinished t hplan)
    · rw [h.noRanges] at hx
      simp at hx
  · intro t
    by_contra hwaits
    obtain ⟨w, hw⟩ := Option.ne_none_iff_exists'.mp hwaits
    obtain ⟨hsound, hhead⟩ := h.waiting t w hw
    have hplan : plan t ≠ [] := fun hplan => by simp [(h.idle t hplan).1] at hhead
    simp [hfinished t hplan, Status.sound] at hsound

/-- The state before turn `n`. -/
def before (bits : Nat) (plan : TxnId → List (ResourceId × LockMode)) (schedule : Nat → Turn) :
    Nat → Workers bits :=
  stateAt (fun c turn => (step c turn).1) schedule (init bits plan)

theorem orderly_before (bits : Nat) (plan : TxnId → List (ResourceId × LockMode))
    (schedule : Nat → Turn) (n : Nat) : Orderly plan (before bits plan schedule n) :=
  stateAt_invariant (orderly_init bits plan) (fun _ turn h => h.step turn) n

theorem reaches_finished (bits : Nat) (plan : TxnId → List (ResourceId × LockMode))
    (schedule : Nat → Turn) (hfair : Fair {t | plan t ≠ []} (Turn.txn ∘ schedule)) :
    ∃ n, Finished plan (before bits plan schedule n) := by
  have hdescends : Descends (fun c turn => (step c turn).1) (@Orderly bits plan) rank := by
    intro c turn h
    exact step_lower h.inv turn
  obtain ⟨n, _, hn⟩ := orderly_moves.reaches hdescends (orderly_before bits plan schedule) hfair 0
  exact ⟨n, hn⟩

end Progress

end Workers

/-- Under every schedule that gives each worker its turn again and again, all workers come to
an end, and then the table is as it was at first. -/
theorem fair_workers_finish (bits : Nat) (plan : TxnId → List (ResourceId × LockMode))
    (schedule : Nat → Turn) (hfair : Fair {t | plan t ≠ []} (Turn.txn ∘ schedule)) :
    ∃ n, ∀ m, n ≤ m →
      let c := Workers.before bits plan schedule m
      (∀ t, plan t ≠ [] → (c.worker t).status = .released) ∧ c.table = .withShards bits := by
  obtain ⟨n, hn⟩ := Workers.reaches_finished bits plan schedule hfair
  refine ⟨n, fun m hm => ?_⟩
  have horderly := Workers.orderly_before bits plan schedule
  have hfinished : Workers.Orderly plan (Workers.before bits plan schedule m) ∧
      Workers.Finished plan (Workers.before bits plan schedule m) := by
    apply stateAt_stable (P := fun c => Workers.Orderly plan c ∧ Workers.Finished plan c)
    · exact fun c turn h => ⟨h.1.step turn, h.2.step h.1.inv turn⟩
    · exact ⟨horderly n, hn⟩
    · exact hm
  exact ⟨hfinished.2, (horderly m).eq_withShards hfinished.2⟩

def alternating (n : Nat) : Turn := ⟨if n % 2 = 0 then ⟨1⟩ else ⟨2⟩, .sorted⟩

theorem alternating_fair : Fair {t | crossedPlan t ≠ []} (Turn.txn ∘ alternating) := by
  intro t ht n
  unfold crossedPlan at ht
  by_cases h1 : t = ⟨1⟩
  · exact ⟨2 * n, by omega, by simp [alternating, h1]⟩
  · by_cases h2 : t = ⟨2⟩
    · have hodd : (2 * n + 1) % 2 = 1 := by omega
      exact ⟨2 * n + 1, by omega, by simp [alternating, h2, hodd]⟩
    · simp [h1, h2] at ht

theorem fair_workers_finish_crossed : ∃ n, ∀ m, n ≤ m →
    let c := Workers.before 2 crossedPlan alternating m
    (∀ t, crossedPlan t ≠ [] → (c.worker t).status = .released) ∧ c.table = .withShards 2 :=
  fair_workers_finish 2 crossedPlan alternating alternating_fair

end LockDb
