import LockDb.Table
import LockDb.Shared.IntentTable

/-!
# Multi-granularity locking

Transactions that announce their intentions from the root downwards, and release
upwards, keep an intention on every ancestor of everything they hold. A coarse
lock then covers its whole subtree.
-/

namespace LockDb

set_option autoImplicit false

open Shared Shared.Multimap

/-- The weakest intention that lets a transaction ask for a mode further down. -/
def LockMode.intention : LockMode → LockMode
  | .intentionShared => .intentionShared
  | .shared => .intentionShared
  | .intentionExclusive => .intentionExclusive
  | .sharedIntentionExclusive => .intentionExclusive
  | .exclusive => .intentionExclusive

/-- Upgrades demand no new intention: a join needs the join of both intentions. -/
def intentionHom : SupHom LockMode LockMode where
  toFun := LockMode.intention
  map_sup' a b := by cases a <;> cases b <;> rfl

def Ancestor (parent : ResourceId → Option ResourceId) (a d : ResourceId) : Prop :=
  Relation.TransGen (fun p c => parent c = some p) a d

/-- The calls a transaction may issue under the hierarchical protocol. -/
def Protocol {bits : Nat} (parent : ResourceId → Option ResourceId) (self : LockManager bits) :
    Op → Prop
  | .tryAcquire txn res mode => ∀ a, Ancestor parent a res →
      ∃ b, self.modeHeld txn a = some b ∧ b.covers mode.intention = true
  | .request _ txn res mode => ∀ a, Ancestor parent a res →
      ∃ b, self.modeHeld txn a = some b ∧ b.covers mode.intention = true
  | .release txn res => ∀ d, Ancestor parent res d → self.modeHeld txn d = none
  | _ => True

section Run
variable {bits : Nat} {parent : ResourceId → Option ResourceId} {self : LockManager bits}

def Intended (parent : ResourceId → Option ResourceId) (self : LockManager bits) : Prop :=
  ∃ L : IntentTable TxnId (Ancestor parent) intentionHom, L.held = self.modeHeld

theorem intended_withShards : Intended parent (.withShards bits) := by
  refine ⟨⟨⟨fun _ _ => none, ?_⟩, ?_⟩, ?_⟩
  · simp
  · simp
  · funext t r
    simp [LockManager.modeHeld, LockManager.lockShard, LockManager.withShards, ShardInner.new]

theorem Intended.congr {next : LockManager bits} (h : Intended parent self)
    (held : next.modeHeld = self.modeHeld) : Intended parent next := by
  obtain ⟨L, hL⟩ := h
  exact ⟨L, hL.trans held.symm⟩

theorem Intended.grant {next : LockManager bits} {txn : TxnId} {res : ResourceId} {mode : LockMode}
    (h : Intended parent self) (free : self.Grantable txn res mode)
    (held : next.modeHeld = LockTable.heldGrant self.modeHeld txn res mode)
    (ok : ∀ a, Ancestor parent a res →
      ∃ b, self.modeHeld txn a = some b ∧ b.covers mode.intention = true) :
    Intended parent next := by
  obtain ⟨L, hL⟩ := h
  rw [← hL] at held ok
  unfold LockManager.Grantable at free
  rw [← hL] at free
  exact ⟨L.grant txn res mode free ok, held.symm⟩

theorem Intended.exec (hinv : self.Inv) (h : Intended parent self) {op : Op}
    (ok : Protocol parent self op) : Intended parent (self.exec op).1 := by
  have hcase := hinv.exec_cases op
  generalize self.exec op = out at hcase
  cases hcase with
  | acquired free held _ => exact h.grant free held ok
  | granted free held _ => exact h.grant free held ok
  | released _ held _ =>
    obtain ⟨L, hL⟩ := h
    have hclear := ok
    simp only [Protocol, ← hL] at hclear
    rw [← hL] at held
    exact ⟨L.drop _ _ hclear, held.symm⟩
  | releasedAll held _ =>
    obtain ⟨L, hL⟩ := h
    rw [← hL] at held
    exact ⟨L.dropAll _, held.symm⟩
  | conflict _ => exact h
  | notHeld _ => exact h
  | refused _ => exact h
  | cancelled => exact h
  | scanned => exact h
  | rangeAcquire held _ => exact h.congr held
  | rangeRelease held _ => exact h.congr held

theorem run_intended {trace : List (Event (LockManager bits) Op Outcome)}
    (run : Run LockManager.exec (Protocol parent) (.withShards bits) trace self) :
    Intended parent self := by
  apply LockManager.run_invariant (P := fun _ s => Intended parent s) _ _ run
  · exact intended_withShards
  · intro _ s op hinv ok h
    exact h.exec hinv ok

/-- A coarse lock protects its whole subtree. -/
theorem coarse_lock_covers_subtree {trace : List (Event (LockManager bits) Op Outcome)}
    (run : Run LockManager.exec (Protocol parent) (.withShards bits) trace self)
    {t u : TxnId} (hne : t ≠ u) {a d : ResourceId} (hbelow : Ancestor parent a d) :
    (self.modeHeld t a = some .exclusive → self.modeHeld u d = none) ∧
    (self.modeHeld t a = some .shared ∨ self.modeHeld t a = some .sharedIntentionExclusive →
      self.modeHeld u d ≠ some .intentionExclusive ∧
      self.modeHeld u d ≠ some .sharedIntentionExclusive ∧
        self.modeHeld u d ≠ some .exclusive) := by
  obtain ⟨L, hL⟩ := run_intended run
  have hcompat : ∀ x y, self.modeHeld t a = some x → self.modeHeld u d = some y →
      x.compatibleWith y.intention = true := by
    intro x y hx hy
    rw [← hL] at hx hy
    exact L.compat_intent hne hbelow hx hy
  constructor
  · intro hx
    cases hy : self.modeHeld u d with
    | none => rfl
    | some y =>
      have hc := hcompat _ y hx hy
      rw [LockMode.exclusive_compatibleWith] at hc
      exact absurd hc Bool.false_ne_true
  · intro hx
    have hno : ∀ y, y.intention = .intentionExclusive → self.modeHeld u d ≠ some y := by
      intro y hint hy
      rcases hx with hx | hx
      · have hc := hcompat _ y hx hy
        rw [hint] at hc
        exact absurd hc (by decide)
      · have hc := hcompat _ y hx hy
        rw [hint] at hc
        exact absurd hc (by decide)
    exact ⟨hno _ rfl, hno _ rfl, hno _ rfl⟩

end Run

def tableAndRow (res : ResourceId) : Option ResourceId := if res = ⟨2⟩ then some ⟨1⟩ else none

theorem ancestor_tableAndRow {a d : ResourceId} (h : Ancestor tableAndRow a d) :
    a = ⟨1⟩ ∧ d = ⟨2⟩ := by
  have hparent : ∀ p c, tableAndRow c = some p → p = ⟨1⟩ ∧ c = ⟨2⟩ := by
    intro p c hc
    unfold tableAndRow at hc
    split at hc
    · next h2 => exact ⟨(Option.some.inj hc).symm, h2⟩
    · simp at hc
  induction h with
  | single hc => exact hparent _ _ hc
  | tail _ hc ih =>
    have hp := (hparent _ _ hc).1
    rw [ih.2] at hp
    exact absurd hp (by decide)

def readersOfTableAndRow : List Op :=
  [.tryAcquire ⟨1⟩ ⟨1⟩ .shared, .tryAcquire ⟨2⟩ ⟨1⟩ .intentionShared, .tryAcquire ⟨2⟩ ⟨2⟩ .shared]

theorem coarse_lock_covers_subtree_row :
    let run := Run.record LockManager.exec [] (.withShards 4) readersOfTableAndRow
    run.2.modeHeld ⟨1⟩ ⟨1⟩ = some .shared ∧ run.2.modeHeld ⟨2⟩ ⟨2⟩ = some .shared ∧
      run.2.modeHeld ⟨2⟩ ⟨2⟩ ≠ some .exclusive := by
  intro run
  have hroot : ∀ {bits : Nat} {self : LockManager bits} {txn : TxnId} {mode : LockMode},
      Protocol tableAndRow self (.tryAcquire txn ⟨1⟩ mode) := by
    intro bits self txn mode a ha
    exact absurd (ancestor_tableAndRow ha).2 (by decide)
  have hrun : Run LockManager.exec (Protocol tableAndRow) (.withShards 4) run.1 run.2 := by
    refine Run.start.recorded ⟨hroot, hroot, ?_, trivial⟩
    intro a ha
    rw [(ancestor_tableAndRow ha).1]
    exact ⟨.intentionShared, by decide +kernel, by decide⟩
  have hbelow : Ancestor tableAndRow ⟨1⟩ ⟨2⟩ := .single (by decide)
  have hshared : run.2.modeHeld ⟨1⟩ ⟨1⟩ = some .shared := by decide +kernel
  have hcover := coarse_lock_covers_subtree hrun (t := ⟨1⟩) (u := ⟨2⟩) (by decide) hbelow
  exact ⟨hshared, by decide +kernel, (hcover.2 (.inl hshared)).2.2⟩

end LockDb
