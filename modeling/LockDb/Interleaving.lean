import LockDb.Detection
import LockDb.Shared.Snapshot

/-!
# Detection while other threads run

`request` and `find_deadlock` hold the wait mutex from start to end, but they
lock one shard at a time, for the grant attempt and for each waited resource.
Between these moments other threads run any sections that do not take the wait
mutex. A configuration is the shared table and how far the holder of the wait
mutex has come.
-/

namespace LockDb

set_option autoImplicit false

open Shared Shared.Multimap Relation

/-- Where the thread that holds the wait mutex stands. A build keeps who asked (nobody for
`find_deadlock`), the waiters still to read, and the graph; `start` is the table when the
build began and is read by no step. -/
inductive Phase (bits : Nat) where
  | idle
  | granting (txn : TxnId) (res : ResourceId) (mode : LockMode)
  | granted (txn : TxnId)
  | refused (txn : TxnId) (res : ResourceId) (mode : LockMode)
  | building (asker : Option TxnId) (todo : List (TxnId × ResourceId × LockMode))
      (graph : WaitForGraph) (start : LockManager bits)

def Phase.isIdle {bits : Nat} : Phase bits → Bool
  | .idle => true
  | _ => false

def Phase.pending {bits : Nat} :
    Phase bits → Option (Option TxnId × List (TxnId × ResourceId × LockMode))
  | .building asker todo _ _ => some (asker, todo)
  | _ => none

theorem Phase.building_of_pending {bits : Nat} {phase : Phase bits} {asker : Option TxnId}
    {todo : List (TxnId × ResourceId × LockMode)} (h : phase.pending = some (asker, todo)) :
    ∃ graph start, phase = .building asker todo graph start := by
  cases phase with
  | building asker' todo' graph start =>
    simp only [pending, Option.some.injEq, Prod.mk.injEq] at h
    obtain ⟨rfl, rfl⟩ := h
    exact ⟨graph, start, rfl⟩
  | idle => simp [pending] at h
  | granting _ _ _ => simp [pending] at h
  | granted _ => simp [pending] at h
  | refused _ _ _ => simp [pending] at h

structure Config (bits : Nat) where
  table : LockManager bits
  phase : Phase bits

/-- One atomic step: a section of another thread, a call that takes the free wait mutex,
or the next step of the call that holds it. -/
inductive Action (bits : Nat) where
  | other (c : CriticalSection bits)
  | clearWait (txn : TxnId)
  | request (txn : TxnId) (res : ResourceId) (mode : LockMode)
  | findDeadlock (order : IterOrder TxnId (ResourceId × LockMode))
  | proceed (order : IterOrder TxnId (ResourceId × LockMode))
      (keyOrder : IterOrder TxnId (List TxnId))

/-- The section takes no wait mutex, and no `try_acquire` is issued for a registered transaction. -/
def CriticalSection.Unlocked {bits : Nat} (self : LockManager bits) : CriticalSection bits → Prop
  | .tryAcquire txn _ _ => self.waits.lookup txn = none
  | .release _ _ => True
  | .sweepShard _ _ => True
  | .tryAcquireRange _ _ _ _ => True
  | .releaseRange _ _ _ => True
  | .requestGrant _ _ _ => False
  | .registerWait _ _ _ => False
  | .clearWait _ => False

namespace Config
variable {bits : Nat}

def init (bits : Nat) : Config bits := ⟨.withShards bits, .idle⟩

def answer (asker : Option TxnId) (graph : WaitForGraph) (keyOrder : IterOrder TxnId (List TxnId)) :
    Outcome :=
  match asker with
  | none => .found (LockManager.scan graph keyOrder)
  | some txn => .acquisition (LockManager.refusal graph txn)

/-- The next step of the thread that holds the wait mutex. -/
def proceed (self : Config bits) (order : IterOrder TxnId (ResourceId × LockMode))
    (keyOrder : IterOrder TxnId (List TxnId)) : Config bits × Outcome :=
  match self.phase with
  | .idle => (self, .unit)
  | .granting txn res mode =>
    let (table, granted) := self.table.grantStep txn res mode
    if granted then (⟨table, .granted txn⟩, .unit) else (⟨table, .refused txn res mode⟩, .unit)
  | .granted txn => (⟨self.table.enter (.clearWait txn), .idle⟩, .acquisition .granted)
  | .refused txn res mode =>
    let table := self.table.enter (.registerWait txn res mode)
    (⟨table, .building (some txn) (order.iter table.waits) .new table⟩, .unit)
  | .building asker (w :: todo) graph start =>
    (⟨self.table, .building asker todo (self.table.addWaiter graph w) start⟩, .unit)
  | .building asker [] graph _ => (⟨self.table, .idle⟩, answer asker graph keyOrder)

def step (self : Config bits) : Action bits → Config bits × Outcome
  | .other c => ({ self with table := self.table.enter c }, .unit)
  | .clearWait txn => ({ self with table := self.table.enter (.clearWait txn) }, .unit)
  | .request txn res mode => ({ self with phase := .granting txn res mode }, .unit)
  | .findDeadlock order =>
    ({ self with phase := .building none (order.iter self.table.waits) .new self.table }, .unit)
  | .proceed order keyOrder => self.proceed order keyOrder

def Allowed (self : Config bits) : Action bits → Prop
  | .other c => c.Unlocked self.table
  | .clearWait _ => self.phase.isIdle
  | .request _ _ _ => self.phase.isIdle
  | .findDeadlock _ => self.phase.isIdle
  | .proceed _ _ => True

end Config

section Unlocked
variable {bits : Nat} {self : LockManager bits} {c : CriticalSection bits}

theorem unlocked_waits (hc : c.Unlocked self) : (self.enter c).waits = self.waits := by
  cases c with
  | tryAcquire txn res mode =>
    rw [LockManager.enter, LockManager.tryAcquire_fst]
    rfl
  | release txn res => rfl
  | sweepShard txn i => rfl
  | tryAcquireRange txn space range mode => rfl
  | releaseRange txn space range => rfl
  | requestGrant txn res mode => exact False.elim hc
  | registerWait txn res mode => exact False.elim hc
  | clearWait txn => exact False.elim hc

theorem unlocked_modeHeld (hinv : self.Inv) (hc : c.Unlocked self) {u : TxnId}
    (hu : self.Registered u) {r : ResourceId} {m : LockMode}
    (hm : (self.enter c).modeHeld u r = some m) : self.modeHeld u r = some m := by
  cases c with
  | tryAcquire txn res mode =>
    rw [LockManager.enter, LockManager.tryAcquire_fst] at hm
    rcases hinv.grantStep_cases txn res mode with ⟨_, next, hg, held, _⟩ | ⟨_, hg⟩
    · rw [hg, held] at hm
      have hne : u ≠ txn := by
        rintro rfl
        obtain ⟨w, hw⟩ := hu
        rw [show self.waits.lookup u = none from hc] at hw
        simp at hw
      simpa [LockTable.heldGrant, hne] using hm
    · rwa [hg] at hm
  | release txn res =>
    rw [LockManager.enter] at hm
    rcases hinv.release_cases txn res with ⟨_, hr⟩ | ⟨_, next, hr, held, _⟩
    · rwa [hr] at hm
    · rw [hr, held] at hm
      exact LockTable.heldDrop_some hm
  | sweepShard txn i =>
    rw [LockManager.enter, hinv.sweepShard_modeHeld] at hm
    split at hm
    · simp at hm
    · exact hm
  | tryAcquireRange txn space range mode =>
    have hsame : (self.enter (.tryAcquireRange txn space range mode)).modeHeld = self.modeHeld :=
      LockManager.modeHeld_setShard (tryAcquireRange_keeps_locks _ _ _ _ _).1
    rwa [hsame] at hm
  | releaseRange txn space range =>
    have hsame : (self.enter (.releaseRange txn space range)).modeHeld = self.modeHeld :=
      LockManager.modeHeld_setShard (releaseRange_keeps_locks _ _ _ _).1
    rwa [hsame] at hm
  | requestGrant txn res mode => exact False.elim hc
  | registerWait txn res mode => exact False.elim hc
  | clearWait txn => exact False.elim hc

theorem unlocked_waitsFor (hinv : self.Inv) (hc : c.Unlocked self) {a b : TxnId}
    (hb : self.Registered b) (hab : (self.enter c).WaitsFor a b) : self.WaitsFor a b := by
  rw [LockManager.waitsFor_eq] at *
  apply hab.shrink
  · intro w hw
    rwa [unlocked_waits hc] at hw
  · intro r x hx
    exact unlocked_modeHeld hinv hc hb hx

end Unlocked

/-- A build reads the relation one waiter at a time; `start` is where it began. -/
structure Building {bits : Nat} (table : LockManager bits)
    (todo : List (TxnId × ResourceId × LockMode)) (graph : WaitForGraph)
    (start : LockManager bits) : Prop where
  waits : start.waits = table.waits
  todo_waits : ∀ w ∈ todo, table.waits.lookup w.1 = some w.2
  irrefl : ∀ t, ¬ graph.Waits t t
  snapshot : Snapshot table.Registered start.WaitsFor table.WaitsFor graph.Waits fun t =>
    ∃ w ∈ todo, w.1 = t

section Building
variable {bits : Nat} {table start : LockManager bits} {todo : List (TxnId × ResourceId × LockMode)}
variable {graph : WaitForGraph}

theorem waitsFor_source (self : LockManager bits) {a b : TxnId} (h : self.WaitsFor a b) :
    self.Registered a := by
  obtain ⟨res, mode, _, hw, _⟩ := h
  exact ⟨(res, mode), hw⟩

theorem building_start (table : LockManager bits)
    (order : IterOrder TxnId (ResourceId × LockMode)) :
    Building table (order.iter table.waits) .new table where
  waits := rfl
  todo_waits w hw := (order.mem_iter _ _ _).mp hw
  irrefl t := LockManager.not_waits_new t t
  snapshot := by
    apply Snapshot.begin_all
    · intro a b hab
      exact waitsFor_source table hab
    · exact LockManager.not_waits_new
    · rintro a ⟨w, hw⟩
      exact ⟨(a, w), (order.mem_iter _ _ _).mpr hw, rfl⟩

theorem Building.other (hinv : table.Inv) (h : Building table todo graph start)
    {c : CriticalSection bits} (hc : c.Unlocked table) :
    Building (table.enter c) todo graph start := by
  have hwaits := unlocked_waits hc
  have hregistered : (table.enter c).Registered = table.Registered := by
    funext t
    simp only [LockManager.Registered, hwaits]
  refine ⟨h.waits.trans hwaits.symm, ?_, h.irrefl, ?_⟩
  · intro w hw
    rw [hwaits]
    exact h.todo_waits w hw
  · rw [hregistered]
    apply h.snapshot.lose
    · intro a b hb hab
      exact unlocked_waitsFor hinv hc hb hab
    · intro a b hab
      rw [← hregistered]
      exact waitsFor_source _ hab

theorem Building.read (hinv : table.Inv) {w : TxnId × ResourceId × LockMode}
    (h : Building table (w :: todo) graph start) :
    Building table todo (table.addWaiter graph w) start := by
  have hw : table.waits.lookup w.1 = some w.2 := h.todo_waits w List.mem_cons_self
  -- what is read now are the edges out of `w.1` in the present table
  have hread : ∀ u, u ∈ table.holdersBlocking w.1 w.2.1 w.2.2 ↔ table.WaitsFor w.1 u := by
    intro u
    rw [LockManager.mem_holdersBlocking]
    constructor
    · intro hholds
      rcases hholds with ⟨hne, held, hh, hbad⟩
      exact ⟨w.2.1, w.2.2, held, hw, hne, (hinv.entry w.2.1).modeOf_iff.mpr hh, hbad⟩
    · intro hwaits
      rcases hwaits with ⟨res, mode, held, hw', hne, hh, hbad⟩
      have heq : w.2 = (res, mode) := Option.some.inj (hw.symm.trans hw')
      rw [heq]
      exact ⟨hne, held, mem_of_modeOf hh, hbad⟩
  have hgraph : ∀ a b, (table.addWaiter graph w).Waits a b ↔
      graph.Waits a b ∨ (a = w.1 ∧ table.WaitsFor w.1 b) := by
    intro a b
    rw [LockManager.addWaiter_waits, hread]
  refine ⟨h.waits, fun v hv => h.todo_waits v (List.mem_cons_of_mem w hv), ?_, ?_⟩
  · intro t ht
    rcases (hgraph t t).mp ht with ht | ⟨rfl, ht⟩
    · exact h.irrefl t ht
    · rw [LockManager.waitsFor_eq] at ht
      exact waitsFor_irrefl _ ht
  · apply h.snapshot.read ⟨w.2, hw⟩ hgraph
    rintro a ⟨v, hv, rfl⟩
    rcases List.mem_cons.mp hv with rfl | hv
    · exact .inl rfl
    · exact .inr ⟨v, hv, rfl⟩

end Building

structure Sound {bits : Nat} (c : Config bits) : Prop where
  inv : c.table.Inv
  building : ∀ asker todo graph start, c.phase = .building asker todo graph start →
    Building c.table todo graph start

section Sound
variable {bits : Nat} {c : Config bits}

theorem sound_of_not_building (hinv : c.table.Inv)
    (hphase : ∀ asker todo graph start, c.phase ≠ .building asker todo graph start) : Sound c where
  inv := hinv
  building asker todo graph start heq := absurd heq (hphase asker todo graph start)

theorem sound_of_building {asker : Option TxnId} {todo : List (TxnId × ResourceId × LockMode)}
    {graph : WaitForGraph} {table start : LockManager bits} (hinv : table.Inv)
    (h : Building table todo graph start) : Sound ⟨table, .building asker todo graph start⟩ where
  inv := hinv
  building _ _ _ _ heq := by
    simp only [Phase.building.injEq] at heq
    obtain ⟨_, rfl, rfl, rfl⟩ := heq
    exact h

theorem Sound.proceed (h : Sound c) (order : IterOrder TxnId (ResourceId × LockMode))
    (keyOrder : IterOrder TxnId (List TxnId)) : Sound (c.proceed order keyOrder).1 := by
  obtain ⟨table, phase⟩ := c
  have hinv : table.Inv := h.inv
  cases phase with
  | idle => exact h
  | granting txn res mode =>
    have hgrant := hinv.grantStep txn res mode
    have heq : (Config.proceed ⟨table, .granting txn res mode⟩ order keyOrder).1 =
        if (table.grantStep txn res mode).2 then ⟨(table.grantStep txn res mode).1, .granted txn⟩
        else ⟨(table.grantStep txn res mode).1, .refused txn res mode⟩ := by
      unfold Config.proceed
      split <;> simp_all
      split <;> rfl
    rw [heq]
    split
    · exact sound_of_not_building hgrant (by simp)
    · exact sound_of_not_building hgrant (by simp)
  | granted txn =>
    exact sound_of_not_building (hinv.enter (.clearWait txn)) (by simp [Config.proceed])
  | refused txn res mode => exact sound_of_building (hinv.enter _) (building_start _ order)
  | building asker todo graph start =>
    cases todo with
    | cons w todo => exact sound_of_building hinv ((h.building _ _ _ _ rfl).read hinv)
    | nil => exact sound_of_not_building hinv (by simp [Config.proceed])

theorem Sound.step (h : Sound c) {action : Action bits} (ok : c.Allowed action) :
    Sound (c.step action).1 := by
  cases action with
  | other s =>
    refine ⟨h.inv.enter s, ?_⟩
    intro asker todo graph start heq
    exact (h.building asker todo graph start heq).other h.inv ok
  | clearWait txn =>
    refine sound_of_not_building (h.inv.enter (.clearWait txn)) fun asker todo graph start heq => ?_
    have hidle : c.phase.isIdle = true := ok
    simp only [Config.step] at heq
    simp [heq, Phase.isIdle] at hidle
  | request txn res mode => exact sound_of_not_building h.inv (by simp [Config.step])
  | findDeadlock order => exact sound_of_building h.inv (building_start c.table order)
  | proceed order keyOrder => exact h.proceed order keyOrder

theorem run_sound {trace : List (Event (Config bits) (Action bits) Outcome)}
    (run : Run Config.step Config.Allowed (Config.init bits) trace c) : Sound c := by
  apply run.invariant (P := Sound)
  · exact sound_of_not_building (LockManager.inv_withShards bits) (by simp [Config.init])
  · intro c action ok h
    exact h.step ok

/-- The build under way began with some event, on the table `start` as it was then. -/
theorem build_began {trace : List (Event (Config bits) (Action bits) Outcome)}
    (run : Run Config.step Config.Allowed (Config.init bits) trace c) {asker : Option TxnId}
    {todo : List (TxnId × ResourceId × LockMode)} {graph : WaitForGraph} {start : LockManager bits}
    (hphase : c.phase = .building asker todo graph start) :
    ∃ e ∈ trace, ∃ order : IterOrder TxnId (ResourceId × LockMode),
      e.after = ⟨start, .building asker (order.iter start.waits) .new start⟩ := by
  induction run generalizing todo graph with
  | start => simp [Config.init] at hphase
  | @step trace c run action ok ih =>
    have hold : ∀ {todo' graph'}, c.phase = .building asker todo' graph' start →
        ∃ e ∈ (⟨action, (c.step action).2, (c.step action).1⟩ :: trace :
          List (Event (Config bits) (Action bits) Outcome)),
          ∃ order : IterOrder TxnId (ResourceId × LockMode),
            e.after = ⟨start, .building asker (order.iter start.waits) .new start⟩ := by
      intro todo' graph' hc
      obtain ⟨e, he, horder⟩ := ih hc
      exact ⟨e, List.mem_cons_of_mem _ he, horder⟩
    cases action with
    | other s => exact hold hphase
    | clearWait txn => exact hold hphase
    | request txn res mode => simp [Config.step] at hphase
    | findDeadlock order =>
      simp only [Config.step, Phase.building.injEq] at hphase
      obtain ⟨rfl, _, _, rfl⟩ := hphase
      exact ⟨_, List.mem_cons_self, order, rfl⟩
    | proceed order keyOrder =>
      obtain ⟨table, phase⟩ := c
      cases phase with
      | idle => simp [Config.step, Config.proceed] at hphase
      | granting txn res mode =>
        simp only [Config.step, Config.proceed] at hphase
        split at hphase <;> simp at hphase
      | granted txn => simp [Config.step, Config.proceed] at hphase
      | refused txn res mode =>
        simp only [Config.step, Config.proceed, Phase.building.injEq] at hphase
        obtain ⟨rfl, _, _, rfl⟩ := hphase
        exact ⟨_, List.mem_cons_self, order, rfl⟩
      | building asker' todo' graph' start' =>
        cases todo' with
        | nil => simp [Config.step, Config.proceed] at hphase
        | cons w todo' =>
          simp only [Config.step, Config.proceed, Phase.building.injEq] at hphase
          obtain ⟨rfl, _, _, rfl⟩ := hphase
          exact hold rfl

/-- A build that was interrupted anywhere answers for cycles as an atomic one: what it
reports was there when it began, and what is there when it ends is found. -/
theorem interrupted_build {trace : List (Event (Config bits) (Action bits) Outcome)}
    (run : Run Config.step Config.Allowed (Config.init bits) trace c) {asker : Option TxnId}
    {graph : WaitForGraph} {start : LockManager bits}
    (hphase : c.phase = .building asker [] graph start)
    (order : IterOrder TxnId (ResourceId × LockMode)) (keyOrder : IterOrder TxnId (List TxnId)) :
    (∃ e ∈ trace, ∃ order' : IterOrder TxnId (ResourceId × LockMode),
      e.after = ⟨start, .building asker (order'.iter start.waits) .new start⟩) ∧
    (∀ d, (c.step (.proceed order keyOrder)).2 = .found (some d) ∨
        (c.step (.proceed order keyOrder)).2 = .acquisition (.deadlock d) →
      IsCycle start.WaitsFor d.cycle) ∧
    (∀ cycle, IsCycle c.table.WaitsFor cycle → IsCycle graph.Waits cycle ∧
      (asker = none → ∃ d, (c.step (.proceed order keyOrder)).2 = .found (some d)) ∧
      (∀ txn, asker = some txn → (∃ t ∈ cycle, ReflTransGen c.table.WaitsFor txn t) →
        ∃ d, (c.step (.proceed order keyOrder)).2 = .acquisition (.deadlock d))) := by
  have hbuilding := (run_sound run).building _ _ _ _ hphase
  have hsnapshot := hbuilding.snapshot
  simp only [List.not_mem_nil, false_and, exists_false] at hsnapshot
  have hanswer : (c.step (.proceed order keyOrder)).2 = Config.answer asker graph keyOrder := by
    simp [Config.step, Config.proceed, hphase]
  rw [hanswer]
  refine ⟨build_began run hphase, ?_, ?_⟩
  · intro d hd
    apply hsnapshot.cycle_at_start
    cases asker with
    | none => exact (scan_some hbuilding.irrefl (by simpa [Config.answer] using hd)).cycle
    | some txn =>
      exact (refusal_deadlock hbuilding.irrefl (by simpa [Config.answer] using hd)).1.cycle
  · intro cycle hcycle
    have hread := hsnapshot.cycle_was_read hcycle
    refine ⟨hread, ?_, ?_⟩
    · rintro rfl
      cases hscan : LockManager.scan graph keyOrder with
      | none => exact absurd hread (scan_none hbuilding.irrefl hscan cycle)
      | some d => exact ⟨d, by simp [Config.answer, hscan]⟩
    · rintro txn rfl ⟨t, ht, hreach⟩
      by_contra hno
      have hmiss : ∀ d, LockManager.refusal graph txn ≠ .deadlock d := by
        intro d hd
        exact hno ⟨d, by simp [Config.answer, hd]⟩
      exact refusal_waiting hmiss hread ht (hsnapshot.path_was_read hcycle ht hreach)

end Sound

/-- Transaction 2 closes a cycle; another thread runs between the two reads of its build. -/
def interruptedRequest : List (Action 2) :=
  [.other (.tryAcquire ⟨1⟩ ⟨1⟩ .exclusive), .other (.tryAcquire ⟨2⟩ ⟨2⟩ .exclusive),
    .request ⟨1⟩ ⟨2⟩ .exclusive, .proceed .sorted .sorted, .proceed .sorted .sorted,
    .proceed .sorted .sorted, .proceed .sorted .sorted, .request ⟨2⟩ ⟨1⟩ .exclusive,
    .proceed .sorted .sorted, .proceed .sorted .sorted, .proceed .sorted .sorted,
    .other (.tryAcquire ⟨3⟩ ⟨3⟩ .shared), .proceed .sorted .sorted]

theorem interrupted_build_crossed :
    let run := Run.record Config.step [] (Config.init 2) interruptedRequest
    ∃ start graph, run.2.phase = .building (some ⟨2⟩) [] graph start ∧
      (run.2.step (.proceed .sorted .sorted)).2 = .acquisition (.deadlock ⟨⟨2⟩, [⟨2⟩, ⟨1⟩]⟩) ∧
      IsCycle start.WaitsFor [⟨2⟩, ⟨1⟩] := by
  intro run
  have hrun : Run Config.step Config.Allowed (Config.init 2) run.1 run.2 := by
    have hunlocked : ∀ {c : Config 2} {txn : TxnId} {res : ResourceId} {mode : LockMode},
        c.table.waits.lookup txn = none → c.Allowed (.other (.tryAcquire txn res mode)) :=
      fun h => h
    have hidle : ∀ {c : Config 2} {txn : TxnId} {res : ResourceId} {mode : LockMode},
        c.phase.isIdle = true → c.Allowed (.request txn res mode) := fun h => h
    refine Run.start.recorded ⟨hunlocked ?_, hunlocked ?_, hidle ?_, trivial, trivial, trivial,
      trivial, hidle ?_, trivial, trivial, trivial, hunlocked ?_, trivial, trivial⟩
    all_goals decide +kernel
  have hpending : run.2.phase.pending = some (some ⟨2⟩, []) := by decide +kernel
  obtain ⟨graph, start, hphase⟩ := Phase.building_of_pending hpending
  have hanswer : (run.2.step (.proceed .sorted .sorted)).2 =
    .acquisition (.deadlock ⟨⟨2⟩, [⟨2⟩, ⟨1⟩]⟩) := by
    decide +kernel
  exact ⟨start, graph, hphase, hanswer,
    (interrupted_build hrun hphase .sorted .sorted).2.1 _ (.inr hanswer)⟩

section Uninterrupted
variable {bits : Nat}

def Completes (self : Config bits) (actions : List (Action bits)) (last : Config bits)
    (out : Outcome) : Prop :=
  (replay Config.step self actions).1 = last ∧
    (replay Config.step self actions).2.getLast? = some out

variable {self next last : Config bits} {action : Action bits} {actions : List (Action bits)}
variable {out : Outcome}

theorem Completes.cons (hnext : (self.step action).1 = next) (h : Completes next actions last out) :
    Completes self (action :: actions) last out := by
  subst hnext
  refine ⟨h.1, ?_⟩
  rw [replay, List.getLast?_cons, h.2]
  rfl

variable (order : IterOrder TxnId (ResourceId × LockMode)) (keyOrder : IterOrder TxnId (List TxnId))

theorem build_uninterrupted (table : LockManager bits) (asker : Option TxnId)
    (todo : List (TxnId × ResourceId × LockMode)) (graph : WaitForGraph)
    (start : LockManager bits) :
    Completes ⟨table, .building asker todo graph start⟩
      (List.replicate (todo.length + 1) (.proceed order keyOrder)) ⟨table, .idle⟩
      (Config.answer asker (todo.foldl table.addWaiter graph) keyOrder) := by
  induction todo generalizing graph with
  | nil => exact ⟨rfl, rfl⟩
  | cons w todo ih =>
    rw [List.length_cons, List.replicate_succ]
    exact (ih (table.addWaiter graph w)).cons rfl

/-- Without interruption the steps of `find_deadlock` are the atomic call. -/
theorem findDeadlock_uninterrupted (table : LockManager bits) :
    ∃ n, Completes ⟨table, .idle⟩
      (.findDeadlock order :: List.replicate n (.proceed order keyOrder))
      ⟨table, .idle⟩ (.found (table.findDeadlock order keyOrder)) := by
  have hbuild := build_uninterrupted order keyOrder table none (order.iter table.waits) .new table
  exact ⟨_, hbuild.cons rfl⟩

theorem request_uninterrupted (table : LockManager bits) (txn : TxnId) (res : ResourceId)
    (mode : LockMode) :
    ∃ n, Completes ⟨table, .idle⟩
      (.request txn res mode :: List.replicate n (.proceed order keyOrder))
      ⟨(table.request order txn res mode).1, .idle⟩
      (.acquisition (table.request order txn res mode).2) := by
  have hgranting : (Config.step ⟨table, .idle⟩ (.request txn res mode)).1 =
      ⟨table, .granting txn res mode⟩ := rfl
  rw [LockManager.request_eq]
  cases hg : (table.grantStep txn res mode).2 with
  | true =>
    have hgrant : (Config.step ⟨table, .granting txn res mode⟩ (.proceed order keyOrder)).1 =
        ⟨(table.grantStep txn res mode).1, .granted txn⟩ := by
      simp [Config.step, Config.proceed, hg]
    have hdone :
        Completes ⟨(table.grantStep txn res mode).1, .granted txn⟩ [.proceed order keyOrder]
        ⟨(table.grantStep txn res mode).1.enter (.clearWait txn), .idle⟩ (.acquisition .granted) :=
      ⟨rfl, rfl⟩
    exact ⟨2, (hdone.cons hgrant).cons hgranting⟩
  | false =>
    have hrefuse : (Config.step ⟨table, .granting txn res mode⟩ (.proceed order keyOrder)).1 =
        ⟨(table.grantStep txn res mode).1, .refused txn res mode⟩ := by
      simp [Config.step, Config.proceed, hg]
    generalize (table.grantStep txn res mode).1 = table' at hrefuse ⊢
    have hregister : (Config.step ⟨table', .refused txn res mode⟩ (.proceed order keyOrder)).1 =
        ⟨table'.enter (.registerWait txn res mode), .building (some txn)
          (order.iter (table'.enter (.registerWait txn res mode)).waits) .new
          (table'.enter (.registerWait txn res mode))⟩ := rfl
    have hbuild :=
      build_uninterrupted order keyOrder (table'.enter (.registerWait txn res mode)) (some txn)
      (order.iter (table'.enter (.registerWait txn res mode)).waits) .new
      (table'.enter (.registerWait txn res mode))
    exact ⟨_ + 2, ((hbuild.cons hregister).cons hrefuse).cons hgranting⟩

end Uninterrupted

end LockDb
