import LockDb.InterruptedDetection
import LockDb.Mutexes
import LockDb.Shared.Monitor

/-!
# Deadlocks under every schedule of threads

Threads that take point locks with `request`, and that call `release_all` for a
transaction when its request was answered with a deadlock. Every locking of a mutex,
every access under it and every unlocking is a step of its own. Whoever owns the wait
mutex is as far as some phase of the interrupted calls says, so that their law holds
here: when nobody owns it, each deadlock has a member that is about to be released.
-/

namespace LockDb

set_option autoImplicit false

open Shared Shared.Multimap

namespace Client

/-- Asks for an exclusive lock until it is granted, or the answer is a deadlock, or there was
no spin left to wait. -/
def spinLoop (order : IterOrder TxnId (ResourceId × LockMode)) (txn : TxnId)
    (res : ResourceId) (k : Bool → Client) : Nat → Client
  | 0 => .call (.op (.request order txn res .exclusive)) fun
    | .outcome (.acquisition .granted) => k true
    | _ => k false
  | spins + 1 => .call (.op (.request order txn res .exclusive)) fun
    | .outcome (.acquisition .granted) => k true
    | .outcome (.acquisition .waiting) => spinLoop order txn res k spins
    | _ => k false

/-- `acquire_pair` of the stress test. -/
def acquirePair (order : IterOrder TxnId (ResourceId × LockMode)) (txn : TxnId)
    (first second : ResourceId) (spinBudget : Nat) (k : Bool → Client) : Client :=
  spinLoop order txn first
    (fun ok => if ok then spinLoop order txn second k spinBudget else k false) spinBudget

/-- A thread of the stress test that still has to commit `commits` times; each attempt has an id
of its own and locks a pair of resources. -/
def storm (order : IterOrder TxnId (ResourceId × LockMode)) (spinBudget : Nat) :
    Nat → List (TxnId × ResourceId × ResourceId) → Client
  | 0, _ => .stop
  | _ + 1, [] => .stop
  | commits + 1, (txn, first, second) :: attempts =>
    acquirePair order txn first second spinBudget fun ok =>
      .call (.op (.releaseAll txn)) fun _ =>
        storm order spinBudget (if ok then commits else commits + 1) attempts

end Client

/-- No `try_acquire`, and after a deadlock the transaction gives everything up. -/
def Client.Heeds : Client → Prop
  | .stop => True
  | .call method next =>
    (∀ txn res mode, method ≠ .op (.tryAcquire txn res mode)) ∧
    (∀ order txn res mode d, method = .op (.request order txn res mode) →
      ∃ rest, next (.outcome (.acquisition (.deadlock d))) = .call (.op (.releaseAll txn)) rest) ∧
    ∀ answer, (next answer).Heeds

namespace Client
variable {order : IterOrder TxnId (ResourceId × LockMode)} {txn : TxnId} {k : Bool → Client}

theorem heeds_request {res : ResourceId} {mode : LockMode} {next : Answer → Client}
    (hdeadlock : ∀ d, ∃ rest,
      next (.outcome (.acquisition (.deadlock d))) = .call (.op (.releaseAll txn)) rest)
    (hnext : ∀ answer, (next answer).Heeds) :
    (Client.call (.op (.request order txn res mode)) next).Heeds := by
  refine ⟨by simp, ?_, hnext⟩
  rintro _ _ _ _ d heq
  obtain ⟨rfl, rfl, rfl, rfl⟩ := by simpa using heq
  exact hdeadlock d

theorem spinLoop_heeds (hk : ∀ ok, (k ok).Heeds)
    (hfalse : ∃ rest, k false = .call (.op (.releaseAll txn)) rest) (res : ResourceId)
    (spins : Nat) : (spinLoop order txn res k spins).Heeds := by
  induction spins with
  | zero =>
    apply heeds_request fun _ => hfalse
    intro answer
    split
    · exact hk true
    · exact hk false
  | succ spins ih =>
    apply heeds_request fun _ => hfalse
    intro answer
    split
    · exact hk true
    · exact ih
    · exact hk false

theorem storm_heeds (spinBudget commits : Nat)
    (attempts : List (TxnId × ResourceId × ResourceId)) :
    (storm order spinBudget commits attempts).Heeds := by
  induction attempts generalizing commits with
  | nil => cases commits <;> exact trivial
  | cons attempt attempts ih =>
    cases commits with
    | zero => exact trivial
    | succ commits =>
      have hrelease : ∀ ok : Bool, (Client.call (.op (.releaseAll attempt.1)) fun _ =>
          storm order spinBudget (if ok then commits else commits + 1) attempts).Heeds :=
        fun ok => ⟨by simp, by simp, fun _ => ih _⟩
      apply spinLoop_heeds
      · intro ok
        cases ok with
        | true => exact spinLoop_heeds hrelease ⟨_, rfl⟩ _ _
        | false => exact hrelease false
      · exact ⟨_, rfl⟩

end Client

section Monitor
variable {bits : Nat}

/-- What threads do without the wait mutex. -/
def Away (self next : LockManager bits) : Prop :=
  next = self ∨ ∃ c : CriticalSection bits, c.Unlocked self ∧ next = self.enter c

/-- What a thread does with the wait mutex, and how far it has come then. A request that was
refused reads the waits again before it begins to build. -/
inductive Under : Phase bits → LockManager bits → LockManager bits → Phase bits → Prop where
  | stay (self : LockManager bits) : Under .idle self self .idle
  | clear (txn : TxnId) (self : LockManager bits) :
      Under .idle self (self.enter (.clearWait txn)) .idle
  | request {txn : TxnId} {res : ResourceId} {mode : LockMode} {self next : LockManager bits}
      {phase : Phase bits} (order : IterOrder TxnId (ResourceId × LockMode))
      (keyOrder : IterOrder TxnId (List TxnId))
      (h : (Config.proceed ⟨self, .granting txn res mode⟩ order keyOrder).1 = ⟨next, phase⟩) :
      Under .idle self next phase
  | proceed {self next : LockManager bits} {phase phase' : Phase bits}
      (order : IterOrder TxnId (ResourceId × LockMode)) (keyOrder : IterOrder TxnId (List TxnId))
      (h : Config.proceed ⟨self, phase⟩ order keyOrder = (⟨next, phase'⟩, .unit) ∨
        Config.proceed ⟨self, phase⟩ order keyOrder = (⟨next, phase'⟩, .acquisition .granted)) :
      Under phase self next phase'
  | begin {asker : Option TxnId} {phase : Phase bits} (self : LockManager bits)
      (order : IterOrder TxnId (ResourceId × LockMode)) (h : phase.answering = asker) :
      Under phase self self (.building asker (order.iter self.waits) .new self)

/-- Where a call gives the wait mutex back, and what its thread must do next. -/
def Leaves : Phase bits → Program bits → Prop
  | .idle, _ => True
  | .building none [] _ _, _ => True
  | .building (some txn) [] graph _, rest =>
    ∀ d, LockManager.refusal graph txn = .deadlock d → ∃ k, rest = Program.releaseAll txn k
  | _, _ => False

def waitMonitor (bits : Nat) : Monitor (Mutex bits) (LockManager bits) Unit (Phase bits) where
  mutex := .waits
  idle := .idle
  outside := Away
  inside := Under
  leave := Leaves

theorem shard_ne (i : Fin (2 ^ bits)) : Mutex.shard i ≠ (waitMonitor bits).mutex := by
  simp [waitMonitor]

end Monitor

namespace Program
variable {bits : Nat} {α : Type} {g : Option (Phase bits)}

abbrev Follows (g : Option (Phase bits)) (p : Program bits) : Prop :=
  Prog.Follows (waitMonitor bits) g p

theorem onShard_follows {i : Fin (2 ^ bits)} {f : LockManager bits → LockManager bits × α}
    {k : α → Program bits} (hf : ∀ self, Away self (f self).1) (hk : ∀ a, Follows none (k a)) :
    Follows none (guarded (.shard i) f k) := by
  apply Prog.Follows.lock (shard_ne _)
  apply Prog.Follows.outside hf
  exact fun self => .unlock (shard_ne _) (hk _)

theorem onShard_away {i : Fin (2 ^ bits)} {f : LockManager bits → LockManager bits × α}
    {k : α → Program bits} (c : CriticalSection bits) (hc : ∀ self, c.Unlocked self)
    (hf : ∀ self, (f self).1 = self.enter c) (hk : ∀ a, Follows none (k a)) :
    Follows none (guarded (.shard i) f k) :=
  onShard_follows (fun self => .inr ⟨c, hc self, hf self⟩) hk

theorem read_follows {i : Fin (2 ^ bits)} {f : LockManager bits → α} {k : α → Program bits}
    (hk : ∀ a, Follows none (k a)) :
    Follows none (guarded (.shard i) (fun self => (self, f self)) k) :=
  onShard_follows (fun _ => .inl rfl) hk

theorem sweep_follows (txn : TxnId) {k : Nat → Program bits} (hk : ∀ n, Follows none (k n))
    (is : List (Fin (2 ^ bits))) (released : Nat) : Follows none (sweep txn k is released) := by
  induction is generalizing released with
  | nil => exact hk released
  | cons i is ih =>
    exact onShard_away (.sweepShard txn i) (fun _ => trivial)
      (fun self => self.sweepShard_enter txn i released) ih

/-- A call that changes or reads the wait registry and nothing else. -/
theorem waits_follows {f : LockManager bits → LockManager bits × α} {k : α → Program bits}
    (hf : ∀ self, Under .idle self (f self).1 .idle) (hk : ∀ a, Follows none (k a)) :
    Follows none (guarded .waits f k) := by
  apply Prog.Follows.enter
  apply Prog.Follows.inside (fun _ => Phase.idle) hf
  exact fun self => .leave trivial (hk _)

theorem buildWaitGraph_follows {asker : Option TxnId} {start : LockManager bits}
    {k : WaitForGraph → Program bits}
    (hk : ∀ graph, Follows (some (.building asker [] graph start)) (k graph))
    (todo : List (TxnId × ResourceId × LockMode)) (graph : WaitForGraph) :
    Follows (some (.building asker todo graph start)) (buildWaitGraph k todo graph) := by
  induction todo generalizing graph with
  | nil => exact hk graph
  | cons w todo ih =>
    apply Prog.Follows.lock (shard_ne _)
    apply Prog.Follows.inside fun self => .building asker todo (self.addWaiter graph w) start
    · exact fun self => .proceed .sorted .sorted (.inl rfl)
    · exact fun self => .unlock (shard_ne _) (ih _)

theorem beginBuild_follows (order : IterOrder TxnId (ResourceId × LockMode)) {phase : Phase bits}
    {k : WaitForGraph → Program bits}
    (hk : ∀ graph start,
      Follows (some (.building phase.answering [] graph start)) (k graph)) :
    Follows (some phase) (.act id fun self => buildWaitGraph k (order.iter self.waits) .new) := by
  apply Prog.Follows.inside fun self => .building phase.answering (order.iter self.waits) .new self
  · exact fun self => .begin self order rfl
  · exact fun self => buildWaitGraph_follows (fun graph => hk graph self) _ _

theorem request_follows (order : IterOrder TxnId (ResourceId × LockMode)) (txn : TxnId)
    (res : ResourceId) (mode : LockMode) {k : Acquisition → Program bits}
    (hk : ∀ a, Follows none (k a))
    (hdeadlock : ∀ d, ∃ rest, k (.deadlock d) = releaseAll txn rest) :
    Follows none (request order txn res mode k) := by
  apply Prog.Follows.enter
  apply Prog.Follows.lock (shard_ne _)
  apply Prog.Follows.inside fun self =>
    if (self.grantStep txn res mode).2 then .granted txn else .refused txn res mode
  · intro self
    have hdecided : (Config.proceed ⟨self, .granting txn res mode⟩ .sorted .sorted).1 =
        ⟨(self.grantStep txn res mode).1,
          if (self.grantStep txn res mode).2 then .granted txn else .refused txn res mode⟩ := by
      simp only [Config.proceed]
      split <;> rfl
    exact .request .sorted .sorted hdecided
  · intro self
    apply Prog.Follows.unlock (shard_ne _)
    dsimp only
    split
    · apply Prog.Follows.inside fun _ => Phase.idle
      · exact fun self => Under.proceed .sorted .sorted (.inr rfl)
      · exact fun self => .leave trivial (hk .granted)
    · apply Prog.Follows.inside fun self =>
        (Config.proceed ⟨self, .refused txn res mode⟩ order .sorted).1.phase
      · exact fun self => Under.proceed order .sorted (.inl rfl)
      · refine fun self => beginBuild_follows order fun graph start => .leave ?_ (hk _)
        intro d hd
        rw [hd]
        exact hdeadlock d

end Program

section Follows
variable {bits : Nat}

theorem Method.program_follows {method : Method} {k : Answer → Program bits}
    (hk : ∀ a, Program.Follows none (k a))
    (htry : ∀ txn res mode, method ≠ .op (.tryAcquire txn res mode))
    (hdeadlock : ∀ order txn res mode d, method = .op (.request order txn res mode) →
      ∃ rest, k (.outcome (.acquisition (.deadlock d))) = Program.releaseAll txn rest) :
    Program.Follows none (method.program k) := by
  cases method with
  | op op =>
    cases op with
    | tryAcquire txn res mode => exact absurd rfl (htry txn res mode)
    | release txn res =>
      exact Program.onShard_away (.release txn res) (fun _ => trivial) (fun _ => rfl)
        fun r => hk (.outcome (.result r))
    | releaseAll txn =>
      rw [Method.program, Program.releaseAll]
      apply Program.waits_follows fun self => .clear txn self
      exact fun _ => Program.sweep_follows txn (fun n => hk (.outcome (.count n))) _ _
    | request order txn res mode =>
      apply Program.request_follows order txn res mode fun a => hk (.outcome (.acquisition a))
      exact fun d => hdeadlock order txn res mode d rfl
    | cancelWait txn =>
      exact Program.waits_follows (fun self => .clear txn self) fun _ => hk (.outcome .unit)
    | findDeadlock order keyOrder =>
      apply Prog.Follows.enter
      refine Program.beginBuild_follows order fun graph start => .leave trivial ?_
      exact hk (.outcome (.found (LockManager.scan graph keyOrder)))
    | tryAcquireRange txn space range mode =>
      exact Program.onShard_away (.tryAcquireRange txn space range mode) (fun _ => trivial)
        (fun _ => rfl) fun r => hk (.outcome (.result r))
    | releaseRange txn space range =>
      exact Program.onShard_away (.releaseRange txn space range) (fun _ => trivial)
        (fun _ => rfl) fun r => hk (.outcome (.result r))
  | waitingCount => exact Program.waits_follows (fun self => .stay self) fun n => hk (.count n)
  | holderCount res => exact Program.read_follows fun n => hk (.count n)
  | modeHeld txn res => exact Program.read_follows fun m => hk (.mode m)
  | rangeCount space => exact Program.read_follows fun n => hk (.count n)

theorem Client.program_follows {client : Client} (h : client.Heeds) :
    Program.Follows none (client.program : Program bits) := by
  induction client with
  | stop => exact .done ()
  | call method next ih =>
    obtain ⟨htry, hdeadlock, hnext⟩ := h
    refine Method.program_follows (fun a => ih a (hnext a)) htry ?_
    rintro order txn res mode d rfl
    obtain ⟨rest, hrest⟩ := hdeadlock order txn res mode d rfl
    exact ⟨_, by rw [hrest]; rfl⟩

end Follows

section Steps
variable {bits : Nat} {self next : LockManager bits} {phase phase' : Phase bits}
variable {told : TxnId → Prop}

theorem Away.keeps (h : Away self next) (hsound : Sound ⟨self, phase⟩)
    (hnoticed : Config.Noticed told ⟨self, phase⟩) :
    Sound ⟨next, phase⟩ ∧ Config.Noticed told ⟨next, phase⟩ := by
  rcases h with rfl | ⟨s, hunlocked, rfl⟩
  · exact ⟨hsound, hnoticed⟩
  · have hallowed : Config.Allowed ⟨self, phase⟩ (.other s) := hunlocked
    exact ⟨hsound.step hallowed,
      hnoticed.step hsound hallowed (fun _ hx _ _ => hx) (by simp [Config.step])⟩

theorem Under.sound (hsound : Sound ⟨self, phase⟩) (h : Under phase self next phase') :
    Sound ⟨next, phase'⟩ := by
  cases h with
  | stay _ => exact hsound
  | clear txn _ =>
    have hnext : Sound (Config.step ⟨self, .idle⟩ (.clearWait txn)).1 := hsound.step rfl
    exact hnext
  | request order keyOrder h =>
    rw [← h]
    refine Sound.proceed ?_ order keyOrder
    exact sound_of_not_building hsound.inv (by simp)
  | proceed order keyOrder h =>
    have hnext := hsound.proceed order keyOrder
    rcases h with h | h
    · rwa [h] at hnext
    · rwa [h] at hnext
  | begin _ order _ => exact sound_of_building hsound.inv (building_start self order)

theorem Under.noticed (hsound : Sound ⟨self, phase⟩) (hnoticed : Config.Noticed told ⟨self, phase⟩)
    (h : Under phase self next phase') : Config.Noticed told ⟨next, phase'⟩ := by
  cases h with
  | stay _ => exact hnoticed
  | clear txn _ => exact hnoticed.mono rfl (fun _ ht => ht) fun _ hc => (cycle_of_clearWait hc).2
  | request order keyOrder h =>
    rw [← h]
    refine Config.Noticed.grant hsound.inv ?_ (fun _ ht => ht) order keyOrder
    exact hnoticed.mono rfl (fun _ ht => ht) fun _ hc => hc
  | proceed order keyOrder h =>
    have hnext : (Config.proceed ⟨self, phase⟩ order keyOrder).1.Noticed told := by
      refine hnoticed.proceed hsound order keyOrder (fun _ ht _ => ht) ?_
      rcases h with h | h
      · simp [h]
      · simp [h]
    rcases h with h | h
    · rwa [h] at hnext
    · rwa [h] at hnext
  | begin _ order h =>
    intro cycle hc
    obtain ⟨t, ht, hasker⟩ := hnoticed cycle hc
    exact ⟨t, ht, hasker.imp_left fun heq => h ▸ heq⟩

/-- When a call gives the wait mutex back, whoever it answers with a deadlock heeds it. -/
theorem Leaves.noticed {rest : Program bits} {told' : TxnId → Prop} (h : Leaves phase rest)
    (hsound : Sound ⟨self, phase⟩) (hnoticed : Config.Noticed told ⟨self, phase⟩)
    (htold : ∀ x, told x → told' x) (hrest : ∀ x k, rest = Program.releaseAll x k → told' x) :
    Config.Noticed told' ⟨self, .idle⟩ := by
  cases phase with
  | idle => exact hnoticed.imp htold
  | granting _ _ _ => exact h.elim
  | granted _ => exact h.elim
  | refused _ _ _ => exact h.elim
  | building asker todo graph start =>
    cases todo with
    | cons _ _ => cases asker <;> exact h.elim
    | nil =>
      apply Config.Noticed.buildEnds hsound hnoticed
      · exact fun x hx _ => htold x hx
      · rintro x d rfl hd
        obtain ⟨k, hk⟩ := h d hd
        exact hrest x k hk

end Steps

section Heeded
variable {bits : Nat} {T : Type} {c c' : Threads (Mutex bits) (LockManager bits) Unit T}
variable {phase : Phase bits} {x : TxnId} {t u : T}

/-- `t` calls `release_all` for `x`, and has not cleared the wait of `x` yet. -/
def Releasing (c : Threads (Mutex bits) (LockManager bits) Unit T) (x : TxnId) (t : T) : Prop :=
  (∃ k, c.prog t = Program.releaseAll x k) ∨
    c.owner .waits = some t ∧ ∃ k, .lock .waits (c.prog t) = Program.releaseAll x k

theorem Releasing.next (h : Releasing c x t) : (∃ rest, c.prog t = .lock .waits rest) ∨
    c.owner .waits = some t ∧
      ∃ rest, c.prog t = .act (fun self => self.enter (.clearWait x)) rest := by
  rcases h with ⟨k, hk⟩ | ⟨howner, k, hk⟩
  · exact .inl ⟨_, hk⟩
  · exact .inr ⟨howner, _, (Prog.lock.inj hk).2⟩

theorem not_releasing_of_unlock {m : Mutex bits} {rest : Program bits}
    (hp : c.prog t = .unlock m rest) (x : TxnId) : ¬ Releasing c x t := by
  intro h
  rcases h.next with ⟨_, hnext⟩ | ⟨_, _, hnext⟩
  · simp [hp] at hnext
  · simp [hp] at hnext

theorem not_releasing_of_lock {m : Mutex bits} {rest : Program bits} (hm : m ≠ .waits)
    (hp : c.prog t = .lock m rest) (x : TxnId) : ¬ Releasing c x t := by
  intro h
  rcases h.next with ⟨_, hnext⟩ | ⟨_, _, hnext⟩
  · rw [hp] at hnext
    exact hm (Prog.lock.inj hnext).1
  · simp [hp] at hnext

theorem not_releasing_of_act {update : LockManager bits → LockManager bits}
    {rest : LockManager bits → Program bits} (away : c.owner .waits ≠ some t)
    (hp : c.prog t = .act update rest) (x : TxnId) : ¬ Releasing c x t := by
  intro h
  rcases h.next with ⟨_, hnext⟩ | ⟨howner, _⟩
  · simp [hp] at hnext
  · exact away howner

variable [DecidableEq T] {s : LockManager bits} {owner : Mutex bits → Option T} {p : Program bits}

theorem Releasing.other (h : Releasing c x u) (hu : u ≠ t)
    (howner : c.owner .waits = some u → owner .waits = some u) :
    Releasing ⟨s, owner, Function.update c.prog t p⟩ x u := by
  unfold Releasing
  simp only [Function.update_of_ne hu]
  exact h.imp_right fun hin => ⟨howner hin.1, hin.2⟩

theorem releasing_others (hnot : ∀ x, ¬ Releasing c x t)
    (howner : ∀ u, u ≠ t → c.owner .waits = some u → owner .waits = some u) (x : TxnId)
    (h : ∃ u, Releasing c x u) : ∃ u, Releasing ⟨s, owner, Function.update c.prog t p⟩ x u := by
  obtain ⟨u, hu⟩ := h
  have hne : u ≠ t := by
    rintro rfl
    exact hnot x hu
  exact ⟨u, hu.other hne (howner u hne)⟩

/-- Whoever takes the wait mutex in order to release goes on releasing. -/
theorem releasing_enter {rest : Program bits} (hp : c.prog t = .lock .waits rest)
    (free : c.owner .waits = none) (howner : owner .waits = some t) (x : TxnId)
    (h : ∃ u, Releasing c x u) :
    ∃ u, Releasing ⟨s, owner, Function.update c.prog t rest⟩ x u := by
  obtain ⟨u, hu⟩ := h
  refine ⟨u, ?_⟩
  have hout : c.owner .waits ≠ some u := by simp [free]
  by_cases hut : u = t
  · subst hut
    obtain ⟨k, hk⟩ := hu.resolve_right fun hin => hout hin.1
    refine .inr ⟨howner, k, ?_⟩
    simp only [Function.update_self]
    exact hp.symm.trans hk
  · exact hu.other hut fun hin => absurd hin hout

/-- The invariant of a run of such threads; `phase` is how far the owner of the wait mutex is. -/
structure Heeded (c : Threads (Mutex bits) (LockManager bits) Unit T) (phase : Phase bits) :
    Prop where
  monitored : Threads.Monitored (waitMonitor bits) c phase
  sound : Sound ⟨c.state, phase⟩
  noticed : Config.Noticed (fun x => ∃ t, Releasing c x t) ⟨c.state, phase⟩

theorem Heeded.step (h : Heeded c phase) (hs : c.step t = some c') :
    ∃ phase', Heeded c' phase' := by
  obtain ⟨phase', hmonitored, hstep⟩ := h.monitored.step hs
  suffices h' : Sound ⟨c'.state, phase'⟩ ∧
      Config.Noticed (fun x => ∃ t, Releasing c' x t) ⟨c'.state, phase'⟩ from
    ⟨phase', hmonitored, h'.1, h'.2⟩
  cases hstep with
  | @other m rest owner hm hp same =>
    refine ⟨h.sound, h.noticed.imp (releasing_others ?_ fun u _ howner => same.trans howner)⟩
    rcases hp with hp | hp
    · exact not_releasing_of_lock hm hp
    · exact not_releasing_of_unlock hp
  | @enter rest hp free =>
    exact ⟨h.sound, h.noticed.imp (releasing_enter hp free (by simp [waitMonitor]))⟩
  | @leave rest hp owned ok =>
    refine ⟨sound_of_not_building h.sound.inv (by simp [waitMonitor]), ?_⟩
    refine Leaves.noticed ok h.sound h.noticed ?_ ?_
    · apply releasing_others (not_releasing_of_unlock hp)
      intro u hu howner
      exact absurd (Option.some.inj (howner.symm.trans owned)) hu
    · intro x k hk
      exact ⟨t, .inl ⟨k, by simp [hk]⟩⟩
  | @outside update rest hp away ok =>
    obtain ⟨hsound, hnoticed⟩ := Away.keeps ok h.sound h.noticed
    exact ⟨hsound, hnoticed.imp (releasing_others (not_releasing_of_act away hp) fun _ _ => id)⟩
  | @inside update rest _ hp owned ok =>
    refine ⟨Under.sound h.sound ok, ?_⟩
    intro cycle hc
    obtain ⟨x, hx, hnoticed⟩ := Under.noticed h.sound h.noticed ok cycle hc
    refine ⟨x, hx, hnoticed.imp_right ?_⟩
    rintro ⟨u, hu⟩
    refine ⟨u, hu.other ?_ id⟩
    rintro rfl
    rcases hu.next with ⟨_, hnext⟩ | ⟨_, _, hnext⟩
    · simp [hp] at hnext
    · -- its wait is cleared now, so that `x` is on no cycle
      have hupdate := (Prog.act.inj (hp.symm.trans hnext)).1
      simp only [hupdate] at hc
      exact (cycle_of_clearWait hc).1 hx

theorem Heeded.run (h : Heeded c phase) (schedule : List T) :
    ∃ phase', Heeded (c.run schedule) phase' :=
  Threads.run_invariant (P := fun c => ∃ phase, Heeded c phase)
    (fun _ _ _ h hs => h.elim fun _ h => h.step hs) ⟨phase, h⟩ schedule

theorem heeded_start (bits : Nat) {clients : T → Client} (h : ∀ t, (clients t).Heeds) :
    Heeded (Threads.start (.withShards bits) fun t => (clients t).program) .idle where
  monitored := Threads.monitored_start (waitMonitor bits) _ fun t => Client.program_follows (h t)
  sound := sound_of_not_building (LockManager.inv_withShards bits) (by simp)
  noticed cycle hc := by
    obtain ⟨t, ht⟩ := List.exists_mem_of_ne_nil cycle hc.ne_nil
    obtain ⟨w, hw⟩ := LockManager.registered_of_cycle hc ht
    simp [Threads.start, LockManager.withShards] at hw

end Heeded

/-- Threads that heed deadlocks, in any schedule of their single steps: while the wait mutex is
free, every cycle has a member for which some thread is about to call `release_all`, and
when all threads have finished no deadlock is left. -/
theorem deadlocks_are_released (bits : Nat) {T : Type} [DecidableEq T] (clients : T → Client)
    (hheeds : ∀ t, (clients t).Heeds) (schedule : List T) :
    let c := (Threads.start (.withShards bits) fun t => (clients t).program).run schedule
    (c.owner .waits = none → ∀ cycle, IsCycle c.state.WaitsFor cycle →
      ∃ x ∈ cycle, ∃ t k, c.prog t = Program.releaseAll x k) ∧
    ((∀ t, c.prog t = .done ()) →
      ∀ order keyOrder, c.state.findDeadlock order keyOrder = none) := by
  intro c
  obtain ⟨phase, h⟩ := (heeded_start bits hheeds).run schedule
  have hreleased : c.owner .waits = none → ∀ cycle, IsCycle c.state.WaitsFor cycle →
      ∃ x ∈ cycle, ∃ t k, c.prog t = Program.releaseAll x k := by
    intro hfree cycle hc
    have hidle : phase = .idle := h.monitored.idle hfree
    obtain ⟨x, hx, hnoticed⟩ := h.noticed cycle hc
    obtain ⟨t, ht⟩ := hnoticed.resolve_left (by simp [hidle, Phase.answering])
    refine ⟨x, hx, t, ht.resolve_right fun hin => ?_⟩
    exact Option.some_ne_none t (hin.1.symm.trans hfree)
  refine ⟨hreleased, ?_⟩
  intro hdone order keyOrder
  apply (h.sound.inv.findDeadlock_none_iff order keyOrder).mpr
  intro cycle hc
  have hfree : c.owner .waits = none := by
    by_contra howner
    obtain ⟨t, ht⟩ := Option.ne_none_iff_exists'.mp howner
    exact h.monitored.not_done ht () (hdone t)
  obtain ⟨x, _, t, k, hk⟩ := hreleased hfree cycle hc
  simp [hdone t, Program.releaseAll, Program.guarded] at hk

/-- Two threads of the stress test whose pairs cross. -/
def crossedStorm (second : Bool) : Client :=
  if second then .storm .sorted 0 1 [(⟨2⟩, ⟨2⟩, ⟨1⟩)] else .storm .sorted 0 1 [(⟨1⟩, ⟨1⟩, ⟨2⟩)]

theorem crossedStorm_heeds (second : Bool) : (crossedStorm second).Heeds := by
  cases second
  · exact Client.storm_heeds 0 1 _
  · exact Client.storm_heeds 0 1 _

theorem deadlocks_are_released_crossed :
    let schedule := List.replicate 6 false ++ List.replicate 6 true ++ List.replicate 10 false ++
      List.replicate 13 true
    let c := (Threads.start (.withShards 0) fun t => ((crossedStorm t).program : Program 0)).run
      schedule
    IsCycle c.state.WaitsFor [⟨1⟩, ⟨2⟩] ∧ ∃ x ∈ ([⟨1⟩, ⟨2⟩] : List TxnId), ∃ t k,
      c.prog t = Program.releaseAll x k := by
  intro schedule c
  have hfree : c.owner .waits = none := by decide +kernel
  have hcycle : IsCycle c.state.WaitsFor [⟨1⟩, ⟨2⟩] := by
    have h12 : c.state.WaitsFor ⟨1⟩ ⟨2⟩ :=
      ⟨⟨2⟩, .exclusive, .exclusive, by decide +kernel, by decide, by decide +kernel, by decide⟩
    have h21 : c.state.WaitsFor ⟨2⟩ ⟨1⟩ :=
      ⟨⟨1⟩, .exclusive, .exclusive, by decide +kernel, by decide, by decide +kernel, by decide⟩
    simp [IsCycle, h12, h21]
  exact ⟨hcycle,
    (deadlocks_are_released 0 crossedStorm crossedStorm_heeds schedule).1 hfree _ hcycle⟩

end LockDb
