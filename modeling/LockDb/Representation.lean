import LockDb.Specification

/-!
# The layout does not show

Two managers that keep the same modes, ranges and waits answer every call alike, whatever
their shards, the order of their records and the orders they iterate in. Only a range release
that could let go of different modes tells them apart.
-/

namespace LockDb

set_option autoImplicit false

open Shared Shared.Multimap Relation

/-- One call that meets two sets of iteration orders. -/
inductive SameCall : Method → Method → Prop where
  | refl (call : Method) : SameCall call call
  | request {order order' : IterOrder TxnId (ResourceId × LockMode)} {txn : TxnId}
      {res : ResourceId} {mode : LockMode} :
      SameCall (.op (.request order txn res mode)) (.op (.request order' txn res mode))
  | findDeadlock {order order' : IterOrder TxnId (ResourceId × LockMode)}
      {keyOrder keyOrder' : IterOrder TxnId (List TxnId)} :
      SameCall (.op (.findDeadlock order keyOrder)) (.op (.findDeadlock order' keyOrder'))

/-- Equal answers, or two reports of a deadlock. -/
inductive Alike : Answer → Answer → Prop where
  | refl (a : Answer) : Alike a a
  | deadlock (d d' : Deadlock) : Alike (.outcome (.acquisition (.deadlock d)))
      (.outcome (.acquisition (.deadlock d')))
  | found (d d' : Deadlock) : Alike (.outcome (.found (some d))) (.outcome (.found (some d')))

namespace LockService
variable {self next next' : LockService} {call call' : Method} {answer answer' : Answer}

/-- A range release has no choice between modes. -/
def Settled (self : LockService) : Method → Prop
  | .op (.releaseRange txn space range) => ∀ m m', ⟨txn, range, m⟩ ∈ self.ranges.held space →
      ⟨txn, range, m'⟩ ∈ self.ranges.held space → m = m'
  | _ => True

theorem Allows.alike (h : self.Allows call answer next) (h' : self.Allows call' answer' next')
    (hsame : SameCall call call') (hsettled : self.Settled call) :
    Alike answer answer' ∧ next = next' := by
  cases h with
  | acquired free =>
    cases hsame
    cases h' with
    | acquired _ => exact ⟨.refl _, rfl⟩
    | conflict blocked => exact absurd free blocked
  | conflict blocked =>
    cases hsame
    cases h' with
    | acquired free => exact absurd free blocked
    | conflict _ => exact ⟨.refl _, rfl⟩
  | released was =>
    cases hsame
    cases h' with
    | released _ => exact ⟨.refl _, rfl⟩
    | notHeld none => exact absurd none was
  | notHeld none =>
    cases hsame
    cases h' with
    | released was => exact absurd none was
    | notHeld _ => exact ⟨.refl _, rfl⟩
  | releasedAll =>
    cases hsame
    cases h'
    exact ⟨.refl _, rfl⟩
  | granted free =>
    cases hsame <;> cases h' with
    | granted _ => exact ⟨.refl _, rfl⟩
    | waiting blocked _ => exact absurd free blocked
    | deadlock blocked _ _ _ => exact absurd free blocked
  | waiting blocked clear =>
    cases hsame <;> cases h' with
    | granted free => exact absurd free blocked
    | waiting _ _ => exact ⟨.refl _, rfl⟩
    | deadlock _ report reach _ =>
      exact absurd (reach _ report.victim_mem) (clear _ report.cycle _ report.victim_mem)
  | deadlock blocked report reach _ =>
    cases hsame <;> cases h' with
    | granted free => exact absurd free blocked
    | waiting _ clear =>
      exact absurd (reach _ report.victim_mem) (clear _ report.cycle _ report.victim_mem)
    | deadlock _ _ _ _ => exact ⟨.deadlock _ _, rfl⟩
  | cancelled =>
    cases hsame
    cases h'
    exact ⟨.refl _, rfl⟩
  | noDeadlock acyclic =>
    cases hsame <;> cases h' with
    | noDeadlock _ => exact ⟨.refl _, rfl⟩
    | found report => exact absurd report.cycle (acyclic _)
  | found report =>
    cases hsame <;> cases h' with
    | noDeadlock acyclic => exact absurd report.cycle (acyclic _)
    | found _ => exact ⟨.found _ _, rfl⟩
  | rangeAcquired free =>
    cases hsame
    cases h' with
    | rangeAcquired _ => exact ⟨.refl _, rfl⟩
    | rangeConflict mem bad => exact absurd (free _ mem) bad
  | rangeConflict mem bad =>
    cases hsame
    cases h' with
    | rangeAcquired free => exact absurd (free _ mem) bad
    | rangeConflict _ _ => exact ⟨.refl _, rfl⟩
  | rangeReleased mode mem =>
    cases hsame
    cases h' with
    | rangeReleased mode' mem' =>
      obtain rfl := hsettled mode mode' mem mem'
      exact ⟨.refl _, rfl⟩
    | rangeNotHeld none => exact absurd mem (none mode)
  | rangeNotHeld none =>
    cases hsame
    cases h' with
    | rangeReleased mode mem => exact absurd mem (none mode)
    | rangeNotHeld _ => exact ⟨.refl _, rfl⟩
  | modeHeld =>
    cases hsame
    cases h'
    exact ⟨.refl _, rfl⟩
  | holderCount =>
    cases hsame
    cases h'
    exact ⟨.refl _, rfl⟩
  | waitingCount =>
    cases hsame
    cases h'
    exact ⟨.refl _, rfl⟩
  | rangeCount =>
    cases hsame
    cases h'
    exact ⟨.refl _, rfl⟩

end LockService

/-- Among the records of the space, the released range has one mode. -/
def LockManager.Settled {bits : Nat} (self : LockManager bits) : Method → Prop
  | .op (.releaseRange txn space range) => ∀ m m', ⟨txn, range, m⟩ ∈ self.rangeHolders space →
      ⟨txn, range, m'⟩ ∈ self.rangeHolders space → m = m'
  | _ => True

section Layout
variable {bits bits' : Nat} {self : LockManager bits} {self' : LockManager bits'}
variable {service : LockService}

theorem Represents.settled (h : Represents self service) {call : Method}
    (hsettled : self.Settled call) : service.Settled call := by
  cases call with
  | op op =>
    cases op with
    | releaseRange txn space range =>
      intro m m'
      rw [h.ranges]
      exact hsettled m m'
    | _ => trivial
  | _ => trivial

/-- The same service, kept in two ways. -/
def SameService (self : LockManager bits) (self' : LockManager bits') : Prop :=
  ∃ service, Represents self service ∧ Represents self' service

theorem SameService.perform (h : SameService self self') {call call' : Method}
    (hsame : SameCall call call') (hsettled : self.Settled call) :
    Alike (self.perform call).2 (self'.perform call').2 ∧
      SameService (self.perform call).1 (self'.perform call').1 := by
  obtain ⟨service, hleft, hright⟩ := h
  obtain ⟨next, hallows, hnext⟩ := hleft.matched call
  obtain ⟨next', hallows', hnext'⟩ := hright.matched call'
  obtain ⟨halike, rfl⟩ := hallows.alike hallows' hsame (hleft.settled hsettled)
  exact ⟨halike, next, hnext, hnext'⟩

end Layout

/-- The same calls on two managers, with their own shards and iteration orders, are answered
alike and leave the same modes, ranges and waits, if no range release has a choice. -/
theorem layout_does_not_show (bits bits' : Nat) (calls calls' : List Method)
    (hsame : List.Forall₂ SameCall calls calls')
    (hsettled : Run.Permits LockManager.perform LockManager.Settled (.withShards bits) calls) :
    let run := replay LockManager.perform (.withShards bits) calls
    let run' := replay LockManager.perform (.withShards bits') calls'
    List.Forall₂ Alike run.2 run'.2 ∧ run.1.modeHeld = run'.1.modeHeld ∧
      (∀ space, (run.1.rangeHolders space).Perm (run'.1.rangeHolders space)) ∧
      ∀ t, run.1.waits.lookup t = run'.1.waits.lookup t := by
  intro run run'
  have hstep : ∀ (self : LockManager bits) (self' : LockManager bits') (call call' : Method),
      SameService self self' → SameCall call call' → self.Settled call →
      Alike (self.perform call).2 (self'.perform call').2 ∧
        SameService (self.perform call).1 (self'.perform call').1 := by
    intro self self' call call' h hcall hallow
    exact h.perform hcall hallow
  obtain ⟨hanswers, service, h, h'⟩ := replay_related hstep
    ⟨.empty, represents_empty bits, represents_empty bits'⟩ hsame hsettled
  refine ⟨hanswers, h.locks.symm.trans h'.locks, fun space => ?_, fun t => ?_⟩
  · exact Multiset.coe_eq_coe.mp ((h.ranges space).symm.trans (h'.ranges space))
  · exact (h.waits t).symm.trans (h'.waits t)

/-- A run with a range release on one shard and on sixteen. -/
theorem layout_does_not_show_released :
    let calls : List Method := [.op (.tryAcquireRange ⟨1⟩ ⟨1⟩ ⟨0, 5⟩ .shared),
      .op (.tryAcquireRange ⟨2⟩ ⟨1⟩ ⟨3, 9⟩ .shared), .op (.releaseRange ⟨1⟩ ⟨1⟩ ⟨0, 5⟩),
      .op (.tryAcquireRange ⟨2⟩ ⟨1⟩ ⟨0, 9⟩ .exclusive), .rangeCount ⟨1⟩]
    List.Forall₂ Alike (replay LockManager.perform (.withShards 0) calls).2
      (replay LockManager.perform (.withShards 4) calls).2 := by
  intro calls
  refine (layout_does_not_show 0 4 calls calls ?_ ?_).1
  · exact List.forall₂_same.mpr fun call _ => .refl call
  · refine ⟨trivial, trivial, ?_, trivial, trivial, trivial⟩
    intro m m' hm hm'
    have hlist : (replay LockManager.perform (.withShards 0) (calls.take 2)).1.rangeHolders ⟨1⟩ =
        [⟨⟨1⟩, ⟨0, 5⟩, .shared⟩, ⟨⟨2⟩, ⟨3, 9⟩, .shared⟩] := by decide +kernel
    change _ ∈ (replay LockManager.perform (.withShards 0) (calls.take 2)).1.rangeHolders ⟨1⟩
      at hm hm'
    rw [hlist] at hm hm'
    have hshared : m = .shared := by simpa using hm
    have hshared' : m' = .shared := by simpa using hm'
    rw [hshared, hshared']

/-- The release of a range held in two modes: on one shard the first transaction's ranges are
dropped in another order than on sixteen, and the second one then lets go of another mode. -/
example :
    let calls : List Method := [.op (.tryAcquireRange ⟨1⟩ ⟨2⟩ ⟨0, 0⟩ .shared),
      .op (.tryAcquireRange ⟨1⟩ ⟨1⟩ ⟨1, 1⟩ .shared), .op (.tryAcquireRange ⟨1⟩ ⟨1⟩ ⟨2, 2⟩ .shared),
      .op (.tryAcquireRange ⟨2⟩ ⟨1⟩ ⟨3, 3⟩ .shared),
      .op (.tryAcquireRange ⟨2⟩ ⟨1⟩ ⟨3, 3⟩ .intentionShared),
      .op (.releaseRange ⟨1⟩ ⟨2⟩ ⟨0, 0⟩), .op (.releaseAll ⟨1⟩),
      .op (.releaseRange ⟨2⟩ ⟨1⟩ ⟨3, 3⟩),
      .op (.tryAcquireRange ⟨3⟩ ⟨1⟩ ⟨3, 3⟩ .intentionExclusive)]
    (replay LockManager.perform (.withShards 0) calls).2.getLast? =
        some (.outcome (.result (.ok ()))) ∧
      (replay LockManager.perform (.withShards 4) calls).2.getLast? =
        some (.outcome (.result (.error .conflict))) := by
  decide +kernel

end LockDb
