import LockDb.Mutexes
import LockDb.MutualExclusion
import LockDb.Shared.ThreadRuns

/-!
# Threads under any schedule

Any number of threads make any calls, and a schedule interleaves the single steps of
their programs. At every time the table is one that critical sections leave, so no
two transactions are in each other's way; under a fair schedule all calls return; and
since every part of the table is only touched under its own mutex, two threads whose
steps follow each other could have made them in the other order.
-/

namespace LockDb

set_option autoImplicit false

open Shared Shared.Multimap

section Keeps
variable {bits : Nat} {P : LockManager bits → Prop}

/-- `P` is kept by every critical section. -/
def Entered (P : LockManager bits → Prop) : Prop := ∀ self c, P self → P (self.enter c)

namespace Program
variable {α : Type}

theorem guarded_keeps {m : Mutex bits} {f : LockManager bits → LockManager bits × α}
    {k : α → Program bits} (hf : ∀ self, P self → P (f self).1) (hk : ∀ a, (k a).Keeps P) :
    (guarded m f k).Keeps P := by
  apply Prog.Keeps.lock
  apply Prog.Keeps.act hf
  intro self
  exact .unlock (hk (f self).2)

theorem sweep_keeps (h : Entered P) (txn : TxnId) {k : Nat → Program bits}
    (hk : ∀ n, (k n).Keeps P) (is : List (Fin (2 ^ bits))) (released : Nat) :
    (sweep txn k is released).Keeps P := by
  induction is generalizing released with
  | nil => exact hk released
  | cons i is ih =>
    refine guarded_keeps (fun self hself => ?_) ih
    rw [LockManager.sweepShard_enter]
    exact h self _ hself

theorem buildWaitGraph_keeps {k : WaitForGraph → Program bits} (hk : ∀ graph, (k graph).Keeps P)
    (ws : List (TxnId × ResourceId × LockMode)) (graph : WaitForGraph) :
    (buildWaitGraph k ws graph).Keeps P := by
  induction ws generalizing graph with
  | nil => exact hk graph
  | cons w ws ih => exact guarded_keeps (fun _ hself => hself) ih

theorem request_keeps (h : Entered P) (order : IterOrder TxnId (ResourceId × LockMode))
    (txn : TxnId) (res : ResourceId) (mode : LockMode) {k : Acquisition → Program bits}
    (hk : ∀ a, (k a).Keeps P) : (request order txn res mode k).Keeps P := by
  apply Prog.Keeps.lock
  apply guarded_keeps fun self hself => h self (.requestGrant txn res mode) hself
  intro granted
  split
  · exact .act (fun self hself => h self (.clearWait txn) hself) fun _ => .unlock (hk .granted)
  · refine .act (fun self hself => h self (.registerWait txn res mode) hself) fun _ => ?_
    refine .act (fun _ hself => hself) fun self => buildWaitGraph_keeps ?_ _ _
    intro graph
    exact .unlock (hk (LockManager.refusal graph txn))

end Program

theorem Method.program_keeps (h : Entered P) (method : Method) {k : Answer → Program bits}
    (hk : ∀ a, (k a).Keeps P) : (method.program k).Keeps P := by
  cases method with
  | op op =>
    cases op with
    | tryAcquire txn res mode =>
      exact Program.guarded_keeps (fun self hself => h self (.tryAcquire txn res mode) hself)
        fun r => hk (.outcome (.result r))
    | release txn res =>
      exact Program.guarded_keeps (fun self hself => h self (.release txn res) hself)
        fun r => hk (.outcome (.result r))
    | releaseAll txn =>
      rw [Method.program, Program.releaseAll]
      apply Program.guarded_keeps
      · exact fun self hself => h self (.clearWait txn) hself
      · exact fun _ => Program.sweep_keeps h txn (fun n => hk (.outcome (.count n))) _ _
    | request order txn res mode =>
      exact Program.request_keeps h order txn res mode fun a => hk (.outcome (.acquisition a))
    | cancelWait txn =>
      exact Program.guarded_keeps (fun self hself => h self (.clearWait txn) hself)
        fun _ => hk (.outcome .unit)
    | findDeadlock order keyOrder =>
      refine .lock (.act (fun _ hself => hself) fun self => Program.buildWaitGraph_keeps ?_ _ _)
      intro graph
      exact .unlock (hk (.outcome (.found (LockManager.scan graph keyOrder))))
    | tryAcquireRange txn space range mode =>
      exact Program.guarded_keeps
        (fun self hself => h self (.tryAcquireRange txn space range mode) hself)
        fun r => hk (.outcome (.result r))
    | releaseRange txn space range =>
      exact Program.guarded_keeps (fun self hself => h self (.releaseRange txn space range) hself)
        fun r => hk (.outcome (.result r))
  | waitingCount => exact Program.guarded_keeps (fun _ hself => hself) fun n => hk (.count n)
  | holderCount res => exact Program.guarded_keeps (fun _ hself => hself) fun n => hk (.count n)
  | modeHeld txn res => exact Program.guarded_keeps (fun _ hself => hself) fun m => hk (.mode m)
  | rangeCount space => exact Program.guarded_keeps (fun _ hself => hself) fun n => hk (.count n)

theorem Client.program_keeps (h : Entered P) (client : Client) :
    (client.program : Program bits).Keeps P := by
  induction client with
  | stop => exact .done ()
  | call method next ih => exact method.program_keeps h ih

end Keeps

/-- However the steps of the calls are interleaved, the table is at every time one that a list
of critical sections leaves; transactions that hold one resource, or ranges with a common
key, hold compatible modes. -/
theorem exclusion_in_every_schedule (bits : Nat) {T : Type} [DecidableEq T] (clients : T → Client)
    (schedule : List T) :
    let self :=
      ((Threads.start (.withShards bits) fun t => (clients t).program).run schedule).state
    (∃ cs, self = interleaved bits cs) ∧
    (∀ res, ∀ a ∈ self.holders res, ∀ b ∈ self.holders res, a.txn ≠ b.txn →
      a.mode.compatibleWith b.mode = true) ∧
    ∀ space key, ∀ a ∈ self.rangeHolders space, ∀ b ∈ self.rangeHolders space, a.txn ≠ b.txn →
      a.range.contains key = true → b.range.contains key = true →
        a.mode.compatibleWith b.mode = true := by
  intro self
  have hreached : ∃ cs, self = interleaved bits cs := by
    apply Threads.run_keeps (P := fun self => ∃ cs, self = interleaved bits cs)
    · intro t
      refine (clients t).program_keeps ?_
      intro self c hself
      obtain ⟨cs, rfl⟩ := hself
      exact ⟨cs ++ [c], by simp [interleaved]⟩
    · exact ⟨[], rfl⟩
  obtain ⟨cs, hcs⟩ := hreached
  have hinv : self.Inv := hcs ▸ interleaved_inv bits cs
  refine ⟨⟨cs, hcs⟩, ?_, ?_⟩
  · intro res a ha b hb hne
    exact (hinv.entry res).compat ha hb hne
  · intro space key a ha b hb hne hakey hbkey
    have hsymm : Std.Symm RangeHolder.Free := ⟨fun _ _ h => h.symm⟩
    have hfree : a.Free b :=
      ((hinv (shardIndex bits space)).range.free space).forall ha hb fun heq => hne (by rw [heq])
    exact hfree hne (KeyRange.overlaps_of_contains hakey hbkey)

/-- Under every schedule that gives each thread its turn again and again, every call of every
thread returns, and no mutex stays locked. -/
theorem fair_threads_finish (bits : Nat) {T : Type} [DecidableEq T] [Finite T]
    (clients : T → Client) (schedule : Nat → T) (hfair : Fair Set.univ schedule) :
    ∃ n, ∀ m, n ≤ m →
      let c := stateAt Threads.takeTurn schedule
        (Threads.start (.withShards bits) fun t => (clients t).program) m
      (∀ t, c.prog t = .done ()) ∧ ∀ x, c.owner x = none := by
  have hdisciplined : Threads.Disciplined Mutex.rank
      (Threads.start (.withShards bits) fun t => (clients t).program) :=
    Threads.disciplined_start _ fun t => (clients t).program_ordered
  obtain ⟨n, hn⟩ := hdisciplined.finishes Mutex.rank_lt_two hfair
  refine ⟨n, fun m hm => ⟨fun t => ?_, (hn m hm).2⟩⟩
  obtain ⟨_, ht⟩ := (hn m hm).1 t
  exact ht

/-- The two requests of `crossedRequests`, each by a thread of its own. -/
def requester (second : Bool) : Client :=
  if second then .call (.op (.request .sorted ⟨2⟩ ⟨2⟩ .exclusive)) fun _ => .stop
  else .call (.op (.request .sorted ⟨1⟩ ⟨1⟩ .exclusive)) fun _ => .stop

theorem fair_threads_finish_requests : ∃ n, ∀ m, n ≤ m →
    let c := stateAt Threads.takeTurn (fun n => decide (n % 2 = 1))
      (Threads.start (.withShards 2) fun t => ((requester t).program : Program 2)) m
    (∀ t, c.prog t = .done ()) ∧ ∀ x, c.owner x = none := by
  refine fair_threads_finish 2 requester (fun n => decide (n % 2 = 1)) ?_
  intro t _ n
  cases t with
  | false => exact ⟨2 * n, by omega, by simp⟩
  | true =>
    have hodd : (2 * n + 1) % 2 = 1 := by omega
    exact ⟨2 * n + 1, by omega, by simp [hodd]⟩

section Parts
variable {bits : Nat}

/-- What a mutex protects. -/
abbrev Mutex.Part : Mutex bits → Type
  | .waits => WaitMap
  | .shard _ => ShardInner

def Mutex.part : ∀ m : Mutex bits, LockManager bits → m.Part
  | .waits, self => self.waits
  | .shard i, self => self.shards i

theorem eq_of_parts {self self' : LockManager bits}
    (h : ∀ m : Mutex bits, m.part self = m.part self') : self = self' := by
  cases self
  cases self'
  congr
  · funext i
    exact h (.shard i)
  · exact h .waits

/-- `f` reads and writes what `m` protects and nothing else. -/
structure Local {α : Type} (m : Mutex bits) (f : LockManager bits → LockManager bits × α) :
    Prop where
  frame : ∀ self, ∀ x ≠ m, x.part (f self).1 = x.part self
  reads : ∀ self self', m.part self = m.part self' →
    (f self).2 = (f self').2 ∧ m.part (f self).1 = m.part (f self').1

variable {α β : Type} {held : List (Mutex bits)}

theorem local_setShard (i : Fin (2 ^ bits)) (f : ShardInner → ShardInner × α) :
    Local (.shard i) fun self =>
      (self.setShard i (f (self.shards i)).1, (f (self.shards i)).2) := by
  constructor
  · intro self x hx
    cases x with
    | waits => rfl
    | shard j =>
      have hj : j ≠ i := fun heq => hx (by rw [heq])
      simp [Mutex.part, LockManager.setShard, hj]
  · intro self self' heq
    have hshard : self.shards i = self'.shards i := heq
    simp [Mutex.part, LockManager.setShard, hshard]

theorem local_onShard (res : ResourceId) (f : ShardInner → ShardInner × α) :
    Local (.shard (shardIndex bits res)) fun self => self.onShard res f :=
  local_setShard (shardIndex bits res) f

theorem local_read (res : ResourceId) (f : ShardInner → α) :
    Local (.shard (shardIndex bits res)) fun self => (self, f (self.lockShard res)) := by
  constructor
  · exact fun _ _ _ => rfl
  · intro self self' heq
    have hshard : self.shards (shardIndex bits res) = self'.shards (shardIndex bits res) := heq
    exact ⟨by simp only [LockManager.lockShard, hshard], heq⟩

theorem local_waits (f : WaitMap → WaitMap) (g : WaitMap → α) :
    Local .waits fun self : LockManager bits =>
      ({ self with waits := f self.waits }, g self.waits) := by
  constructor
  · intro self x hx
    cases x with
    | waits => exact absurd rfl hx
    | shard j => rfl
  · intro self self' heq
    have hwaits : self.waits = self'.waits := heq
    simp [Mutex.part, hwaits]

theorem local_tryAcquire (txn : TxnId) (res : ResourceId) (mode : LockMode) :
    Local (.shard (shardIndex bits res)) fun self => self.tryAcquire txn res mode := by
  have hlocal := @local_onShard bits _ res fun s => s.tryGrant txn res mode
  constructor
  · intro self x hx
    rw [LockManager.tryAcquire_fst]
    exact hlocal.frame self x hx
  · intro self self' heq
    obtain ⟨hout, hpart⟩ := hlocal.reads self self' heq
    have hgranted : (self.grantStep txn res mode).2 = (self'.grantStep txn res mode).2 := hout
    refine ⟨?_, ?_⟩
    · simp only [LockManager.tryAcquire_eq, hgranted]
      split <;> rfl
    · simp only [LockManager.tryAcquire_fst]
      exact hpart

namespace Program

theorem act_confined {m : Mutex bits} {f : LockManager bits → LockManager bits × α}
    (hf : Local m f) (hm : m ∈ held) {k : α → Program bits}
    (hk : ∀ a, (k a).Confined Mutex.part held) :
    Prog.Confined Mutex.part held (.act (fun self => (f self).1) fun self => k (f self).2) := by
  refine .act (fun self x hx => ?_) (fun self self' hsame => ?_) fun self => hk _
  · exact hf.frame self x fun heq => hx (heq ▸ hm)
  · obtain ⟨hout, hpart⟩ := hf.reads self self' (hsame m hm)
    refine ⟨by rw [hout], fun x hx => ?_⟩
    by_cases hxm : x = m
    · rw [hxm]
      exact hpart
    · rw [hf.frame self x hxm, hf.frame self' x hxm, hsame x hx]

theorem guarded_confined {m : Mutex bits} {f : LockManager bits → LockManager bits × α}
    (hf : Local m f) {k : α → Program bits} (hk : ∀ a, (k a).Confined Mutex.part held) :
    (guarded m f k).Confined Mutex.part held := by
  apply Prog.Confined.lock
  exact act_confined (k := fun a => .unlock m (k a)) hf List.mem_cons_self fun a => .unlock (hk a)

theorem sweep_confined (txn : TxnId) {k : Nat → Program bits}
    (hk : ∀ n, (k n).Confined Mutex.part []) (is : List (Fin (2 ^ bits))) (released : Nat) :
    (sweep txn k is released).Confined Mutex.part [] := by
  induction is generalizing released with
  | nil => exact hk released
  | cons i is ih => exact guarded_confined (local_setShard i fun s => s.sweep txn released) ih

theorem buildWaitGraph_confined {k : WaitForGraph → Program bits}
    (hk : ∀ graph, (k graph).Confined Mutex.part held)
    (ws : List (TxnId × ResourceId × LockMode)) (graph : WaitForGraph) :
    (buildWaitGraph k ws graph).Confined Mutex.part held := by
  induction ws generalizing graph with
  | nil => exact hk graph
  | cons w ws ih =>
    have hlocal : Local (.shard (shardIndex bits w.2.1)) fun self =>
        (self, self.addWaiter graph w) :=
      local_read w.2.1 fun s => graph.addWaits w.1
        (((list s.locks w.2.1).filter fun h => h.txn ≠ w.1 && !h.mode.compatibleWith w.2.2).map
          Holder.txn)
    exact guarded_confined hlocal ih

theorem readWaits_confined {k : WaitMap → Program bits}
    (hk : ∀ waits, (k waits).Confined Mutex.part [.waits]) :
    Prog.Confined Mutex.part [Mutex.waits] (.act id fun self => k self.waits) :=
  act_confined (local_waits id id) (List.mem_singleton.mpr rfl) hk

theorem request_confined (order : IterOrder TxnId (ResourceId × LockMode)) (txn : TxnId)
    (res : ResourceId) (mode : LockMode) {k : Acquisition → Program bits}
    (hk : ∀ a, (k a).Confined Mutex.part []) :
    (request order txn res mode k).Confined Mutex.part [] := by
  have hwaits : ∀ (f : WaitMap → WaitMap) {p : Program bits}, p.Confined Mutex.part [.waits] →
      Prog.Confined Mutex.part [Mutex.waits]
        (.act (fun self => { self with waits := f self.waits }) fun _ => p) := by
    intro f p hp
    exact act_confined (local_waits f fun _ => ()) (List.mem_singleton.mpr rfl) fun _ => hp
  apply Prog.Confined.lock
  apply guarded_confined (local_onShard res fun s => s.tryGrant txn res mode)
  intro granted
  split
  · exact hwaits (fun waits => waits.erase txn) (.unlock (hk .granted))
  · refine hwaits (fun waits => waits.insert txn (res, mode)) ?_
    refine readWaits_confined fun waits => buildWaitGraph_confined ?_ (order.iter waits) .new
    intro graph
    exact .unlock (hk (LockManager.refusal graph txn))

end Program

theorem Method.program_confined (method : Method) {k : Answer → Program bits}
    (hk : ∀ a, (k a).Confined Mutex.part []) : (method.program k).Confined Mutex.part [] := by
  cases method with
  | op op =>
    cases op with
    | tryAcquire txn res mode =>
      exact Program.guarded_confined (local_tryAcquire txn res mode)
        fun r => hk (.outcome (.result r))
    | release txn res =>
      exact Program.guarded_confined (local_onShard res fun s => s.release txn res)
        fun r => hk (.outcome (.result r))
    | releaseAll txn =>
      rw [Method.program, Program.releaseAll]
      apply Program.guarded_confined
      · exact local_waits (fun waits => waits.erase txn) fun _ => ()
      · exact fun _ => Program.sweep_confined txn (fun n => hk (.outcome (.count n))) _ _
    | request order txn res mode =>
      exact Program.request_confined order txn res mode fun a => hk (.outcome (.acquisition a))
    | cancelWait txn =>
      rw [Method.program, Program.cancelWait]
      apply Program.guarded_confined
      · exact local_waits (fun waits => waits.erase txn) fun _ => ()
      · exact fun _ => hk (.outcome .unit)
    | findDeadlock order keyOrder =>
      apply Prog.Confined.lock
      refine Program.readWaits_confined fun waits =>
        Program.buildWaitGraph_confined ?_ (order.iter waits) .new
      intro graph
      exact .unlock (hk (.outcome (.found (LockManager.scan graph keyOrder))))
    | tryAcquireRange txn space range mode =>
      exact Program.guarded_confined
        (local_onShard space fun s => s.tryAcquireRange txn space range mode)
        fun r => hk (.outcome (.result r))
    | releaseRange txn space range =>
      exact Program.guarded_confined (local_onShard space fun s => s.releaseRange txn space range)
        fun r => hk (.outcome (.result r))
  | waitingCount =>
    exact Program.guarded_confined (local_waits id fun waits => waits.keys.card)
      fun n => hk (.count n)
  | holderCount res =>
    exact Program.guarded_confined (local_read res fun s => (list s.locks res).length)
      fun n => hk (.count n)
  | modeHeld txn res =>
    exact Program.guarded_confined
      (local_read res fun s => ((list s.locks res).find? (heldBy txn)).map Holder.mode)
      fun m => hk (.mode m)
  | rangeCount space =>
    exact Program.guarded_confined (local_read space fun s => (list s.ranges space).length)
      fun n => hk (.count n)

theorem Client.program_confined (client : Client) :
    (client.program : Program bits).Confined Mutex.part [] := by
  induction client with
  | stop => exact .done ()
  | call method next ih => exact method.program_confined ih

end Parts

/-- No thread reads or changes what a mutex protects without owning it, so two threads that
can both go on, unless for one mutex, may do so in either order: the run is the same. -/
theorem independent_steps_commute (bits : Nat) {T : Type} [DecidableEq T] (clients : T → Client)
    (before : List T) :
    let start := Threads.start (.withShards bits) fun t => ((clients t).program : Program bits)
    let c := start.run before
    (∀ t update rest, c.prog t = .act update rest →
      (∀ m self, c.owner m ≠ some t → Mutex.part m (update self) = Mutex.part m self) ∧
      ∀ self self', (∀ m, c.owner m = some t → Mutex.part m self = Mutex.part m self') →
        rest self = rest self' ∧
        ∀ m, c.owner m = some t → Mutex.part m (update self) = Mutex.part m (update self')) ∧
    ∀ t u, t ≠ u → (c.step t).isSome = true → (c.step u).isSome = true →
      (∀ m rest rest', c.prog t = .lock m rest → c.prog u ≠ .lock m rest') →
      ∀ after, start.run (before ++ t :: u :: after) = start.run (before ++ u :: t :: after) := by
  intro start c
  have hseparate : Threads.Separate Mutex.part c :=
    (Threads.separate_start _ fun t => (clients t).program_confined).run before
  constructor
  · intro t update rest hp
    obtain ⟨held, hheld⟩ := hseparate t
    have hconfined := hheld.confined
    rw [hp] at hconfined
    cases hconfined with
    | act frame reads _ =>
      simp only [← hheld.owned]
      exact ⟨fun m self hm => frame self m (mt (hheld.owned m).mp hm), reads⟩
  · intro t u hne ht hu hlocks after
    obtain ⟨c₁, ht⟩ := Option.isSome_iff_exists.mp ht
    obtain ⟨c₂, hu⟩ := Option.isSome_iff_exists.mp hu
    obtain ⟨c', h₁, h₂⟩ := hseparate.diamond (fun _ _ => eq_of_parts) hne ht hu hlocks
    rw [Threads.run_append, Threads.run_append]
    change (c.run _) = c.run _
    simp only [Threads.run, ht, hu, h₁, h₂, Option.getD_some]

/-- One thread has the wait mutex and the other the shard that both will need. -/
def reader (second : Bool) : Client :=
  if second then .call (.modeHeld ⟨1⟩ ⟨1⟩) fun _ => .stop
  else .call (.op (.request .sorted ⟨1⟩ ⟨1⟩ .exclusive)) fun _ => .stop

theorem independent_steps_commute_reader :
    let start := Threads.start (.withShards 2) fun t => ((reader t).program : Program 2)
    start.run [false, true] = start.run [true, false] := by
  intro start
  obtain ⟨_, hcommute⟩ := independent_steps_commute 2 reader []
  refine hcommute false true (by decide) rfl rfl ?_ []
  intro m rest rest' hfirst hsecond
  have hwaits : Mutex.waits = m := (Prog.lock.inj hfirst).1
  have hshard : Mutex.shard (shardIndex 2 ⟨1⟩) = m := (Prog.lock.inj hsecond).1
  rw [← hwaits] at hshard
  simp at hshard

end LockDb
