import LockDb.Sections
import LockDb.Hierarchy
import LockDb.Shared.Phases

/-!
# What the locks are for

A store whose rows stand in a hierarchy and whose keys lie in spaces, and transactions
that read and write it under the manager's locks: a row under a lock on it or on
anything above it, a key under a range that contains it. Transactions announce their
intentions, and acquire nothing once they have begun to release. Their critical
sections may interleave in any way, those of a `release_all` among them, and still
everything reads and leaves what it would if they ran one after the other.
-/

namespace LockDb

set_option autoImplicit false

open Shared Shared.Multimap

inductive Item where
  | row (res : ResourceId)
  | key (space : ResourceId) (key : UInt64)
deriving DecidableEq

/-- A transaction acquires until it first releases. It has ended when `release_all` is called
for it, and accesses nothing from then on. -/
inductive Stage where
  | growing
  | shrinking
  | ended
deriving DecidableEq

structure Database (bits : Nat) (V : Type) where
  table : LockManager bits
  store : Item → V
  stage : TxnId → Stage
  seen : TxnId × Nat → List V
  journal : Journal TxnId Item V

/-- What can happen: a critical section of some call, the call of `release_all` itself, a new
transaction under an old id, or an access. -/
inductive DataAction (bits : Nat) (V : Type) where
  | critical (c : CriticalSection bits)
  | finish (txn : TxnId)
  | begin (txn : TxnId)
  | read (txn : TxnId) (item : Item)
  | write (txn : TxnId) (item : Item) (value : V)

/-- The sections that take locks away from their transaction. -/
def CriticalSection.releases {bits : Nat} : CriticalSection bits → Bool
  | .release _ _ => true
  | .sweepShard _ _ => true
  | .releaseRange _ _ _ => true
  | _ => false

/-- The mode that lets a transaction read, or with `true` write. -/
def needed : Bool → LockMode
  | false => .shared
  | true => .exclusive

namespace Database
variable {bits : Nat} {V : Type}

def start (bits : Nat) (store : Item → V) : Database bits V :=
  ⟨.withShards bits, store, fun _ => .growing, fun _ => [], .start⟩

/-- `txn` releases something, or goes on releasing. -/
def giveUp (self : Database bits V) (txn : TxnId) : Database bits V :=
  { self with
    stage := Function.update self.stage txn
      (if self.stage txn = .ended then .ended else .shrinking)
    journal := self.journal.close txn }

def access (self : Database bits V) (txn : TxnId) (item : Item) (written : Option V) :
    Database bits V :=
  { self with journal := self.journal.record txn item written }

def step (self : Database bits V) : DataAction bits V → Database bits V × Option V
  | .critical c =>
    let next := { self with table := self.table.enter c }
    (if c.releases then next.giveUp c.txn else next, none)
  | .finish txn =>
    ({ self with
        stage := Function.update self.stage txn .ended
        journal := self.journal.close txn }, none)
  | .begin txn =>
    ({ self with
        stage := Function.update self.stage txn .growing
        journal := self.journal.renew txn }, none)
  | .read txn item =>
    let x := self.journal.current txn
    let value := self.store item
    ({ self.access txn item none with
        seen := Function.update self.seen x (self.seen x ++ [value]) }, some value)
  | .write txn item value =>
    ({ self.access txn item (some value) with
        store := Function.update self.store item value }, none)

section Discipline
variable (parent : ResourceId → Option ResourceId) (self : Database bits V)

def guards : Guards TxnId Item := fun t item w =>
  self.stage t ≠ .ended ∧
    match item with
    | .row res => ∃ a, (a = res ∨ Ancestor parent a res) ∧
        ∃ held, self.table.modeHeld t a = some held ∧ held.covers (needed w) = true
    | .key space key => ∃ x ∈ self.table.rangeHolders space,
        x.txn = t ∧ x.range.contains key = true ∧ x.mode.covers (needed w) = true

def Announced (txn : TxnId) (res : ResourceId) (mode : LockMode) : Prop :=
  ∀ a, Ancestor parent a res →
    ∃ b, self.table.modeHeld txn a = some b ∧ b.covers mode.intention = true

/-- What two-phase transactions do that follow the hierarchical protocol. -/
def Allowed : DataAction bits V → Prop
  | .critical (.tryAcquire txn res mode) =>
    self.stage txn = .growing ∧ self.Announced parent txn res mode
  | .critical (.requestGrant txn res mode) =>
    self.stage txn = .growing ∧ self.Announced parent txn res mode
  | .critical (.tryAcquireRange txn _ _ _) => self.stage txn = .growing
  | .critical (.release txn res) =>
    self.stage txn = .ended ∨ ∀ d, Ancestor parent res d → self.table.modeHeld txn d = none
  | .critical (.sweepShard txn _) => self.stage txn = .ended
  | .critical _ => True
  | .finish _ => True
  | .begin txn => self.table.HoldsNothing txn
  | .read txn item => self.guards parent txn item false
  | .write txn item _ => self.guards parent txn item true

/-- The modes of the transactions that have not ended. -/
def live (t : TxnId) (r : ResourceId) : Option LockMode :=
  if self.stage t = .ended then none else self.table.modeHeld t r

/-- Whoever has not ended holds the intentions that go with its locks. -/
def Intended : Prop := ∃ L : IntentTable TxnId (Ancestor parent) intentionHom, L.held = self.live

end Discipline

end Database

theorem comparable_of_common {parent : ResourceId → Option ResourceId} {a b d : ResourceId}
    (ha : a = d ∨ Ancestor parent a d) (hb : b = d ∨ Ancestor parent b d) :
    a = b ∨ Ancestor parent a b ∨ Ancestor parent b a := by
  have hunique : Relator.RightUnique (Function.swap fun p c => parent c = some p) := by
    intro c p q hp hq
    exact Option.some.inj (Eq.trans (Eq.symm hp) hq)
  have hup : ∀ {x y}, (x = y ∨ Ancestor parent x y) ↔
      Relation.ReflTransGen (Function.swap fun p c => parent c = some p) y x := by
    intro x y
    rw [Relation.reflTransGen_swap, Relation.reflTransGen_iff_eq_or_transGen, eq_comm]
    rfl
  rcases Relation.ReflTransGen.total_of_right_unique hunique (hup.mp ha) (hup.mp hb) with h | h
  · rcases hup.mpr h with rfl | hba
    · exact .inl rfl
    · exact .inr (.inr hba)
  · rcases hup.mpr h with rfl | hab
    · exact .inl rfl
    · exact .inr (.inl hab)

namespace Database
variable {bits : Nat} {V : Type} {parent : ResourceId → Option ResourceId}
variable {self next : Database bits V} {t u : TxnId}

section Guards

theorem covers_needed {mode : LockMode} {w : Bool} (h : mode.covers (needed w) = true) :
    mode.compatibleWith .intentionExclusive = false := by
  cases mode <;> cases w <;> first | rfl | exact absurd h (by decide)

theorem covers_exclusive {mode : LockMode} (h : mode.covers (needed true) = true) :
    mode = .exclusive := by
  cases mode <;> first | rfl | exact absurd h (by decide)

theorem live_eq (h : self.stage t ≠ .ended) : self.live t = self.table.modeHeld t := by
  funext r
  exact if_neg h

/-- Who may write an item is the only one who may access it. -/
theorem write_excludes (hinv : self.table.Inv) (hlive : self.Intended parent) (hne : t ≠ u)
    {d : Item} {w : Bool} (ht : self.guards parent t d true) (hu : self.guards parent u d w) :
    False := by
  obtain ⟨hstage, ht⟩ := ht
  obtain ⟨hstage', hu⟩ := hu
  cases d with
  | row res =>
    obtain ⟨a, ha, x, hx, hcover⟩ := ht
    obtain ⟨b, hb, y, hy, hcover'⟩ := hu
    obtain rfl := covers_exclusive hcover
    obtain ⟨L, hL⟩ := hlive
    rw [← live_eq hstage, ← hL] at hx
    rw [← live_eq hstage', ← hL] at hy
    have hcompat : y.compatibleWith .intentionExclusive = true :=
      L.compat_of_comparable hne (comparable_of_common ha hb) hx hy fun m hm => by
        exact absurd hm (by simp [Compatibility.compat, LockMode.exclusive_compatibleWith])
    rw [covers_needed hcover'] at hcompat
    exact Bool.false_ne_true hcompat
  | key space key =>
    obtain ⟨x, hx, rfl, hkey, hcover⟩ := ht
    obtain ⟨y, hy, rfl, hkey', _⟩ := hu
    have hsymm : Std.Symm RangeHolder.Free := ⟨fun _ _ h => h.symm⟩
    have hfree : x.Free y :=
      ((hinv (shardIndex bits space)).range.free space).forall hx hy fun heq => hne (by rw [heq])
    have hcompat := hfree hne (KeyRange.overlaps_of_contains hkey hkey')
    rw [covers_exclusive hcover, LockMode.exclusive_compatibleWith] at hcompat
    exact Bool.false_ne_true hcompat

theorem guards_exclusive (hinv : self.table.Inv) (hlive : self.Intended parent) :
    (self.guards parent).Exclusive := by
  intro t u d w w' hne ht hu
  constructor
  · cases w with
    | false => rfl
    | true => exact absurd hu (write_excludes hinv hlive hne ht)
  · cases w' with
    | false => rfl
    | true => exact absurd ht (write_excludes hinv hlive hne.symm hu)

theorem guards_mono (hstage : self.stage t ≠ .ended → next.stage t ≠ .ended)
    (hheld : ∀ r m, self.table.modeHeld t r = some m →
      ∃ m', next.table.modeHeld t r = some m' ∧ m ≤ m')
    (hranges : ∀ space x, x.txn = t → x ∈ self.table.rangeHolders space →
      x ∈ next.table.rangeHolders space) {d : Item} {w : Bool}
    (h : self.guards parent t d w) : next.guards parent t d w := by
  obtain ⟨hlive, h⟩ := h
  refine ⟨hstage hlive, ?_⟩
  cases d with
  | row res =>
    obtain ⟨a, ha, m, hm, hcover⟩ := h
    obtain ⟨m', hm', hle⟩ := hheld a m hm
    exact ⟨a, ha, m', hm', le_trans (LockMode.le_iff_covers.mpr hcover) hle⟩
  | key space key =>
    obtain ⟨x, hx, hxt, hkey, hcover⟩ := h
    exact ⟨x, hranges space x hxt hx, hxt, hkey, hcover⟩

theorem guards_congr (hstage : next.stage t = .ended ↔ self.stage t = .ended)
    (hheld : next.table.modeHeld t = self.table.modeHeld t)
    (hranges : ∀ space x, x.txn = t →
      (x ∈ next.table.rangeHolders space ↔ x ∈ self.table.rangeHolders space))
    (d : Item) (w : Bool) :
    next.guards parent t d w ↔ self.guards parent t d w := by
  constructor
  · apply guards_mono
    · exact (not_congr hstage).mp
    · intro r m hm
      exact ⟨m, hheld ▸ hm, le_refl m⟩
    · intro space x hxt
      exact (hranges space x hxt).mp
  · apply guards_mono
    · exact (not_congr hstage).mpr
    · intro r m hm
      exact ⟨m, hheld ▸ hm, le_refl m⟩
    · intro space x hxt
      exact (hranges space x hxt).mpr

end Guards

section Intended

theorem live_congr (hstage : ∀ t, next.stage t = .ended ↔ self.stage t = .ended)
    (hheld : ∀ t, self.stage t ≠ .ended → next.table.modeHeld t = self.table.modeHeld t) :
    next.live = self.live := by
  funext t r
  unfold live
  by_cases ht : self.stage t = .ended
  · rw [if_pos ht, if_pos ((hstage t).mpr ht)]
  · rw [if_neg ht, if_neg (mt (hstage t).mp ht), hheld t ht]

theorem Intended.of_live (h : self.Intended parent) (hlive : next.live = self.live) :
    next.Intended parent := by
  obtain ⟨L, hL⟩ := h
  exact ⟨L, hL.trans hlive.symm⟩

variable {txn : TxnId} {res : ResourceId} {mode : LockMode}

theorem Intended.grant (h : self.Intended parent) (hstage : next.stage = self.stage)
    (hgrowing : self.stage txn = .growing) (free : self.table.Grantable txn res mode)
    (ann : self.Announced parent txn res mode)
    (held : next.table.modeHeld = LockTable.heldGrant self.table.modeHeld txn res mode) :
    next.Intended parent := by
  obtain ⟨L, hL⟩ := h
  have hopen : self.stage txn ≠ .ended := by simp [hgrowing]
  have hlive : next.live = LockTable.heldGrant L.held txn res mode := by
    funext t r
    rw [hL]
    simp only [live, hstage, held, LockTable.heldGrant]
    by_cases ht : t = txn ∧ r = res
    · obtain ⟨rfl, rfl⟩ := ht
      simp [hopen]
    · simp [ht]
  have hfree : L.Grantable txn res mode := by
    intro t a ht ha
    rw [hL, live] at ha
    split at ha
    · simp at ha
    · exact free t a ht ha
  have hann : L.Announced txn res mode := by
    intro a ha
    obtain ⟨b, hb, hcover⟩ := ann a ha
    exact ⟨b, by rw [hL, live_eq hopen, hb], hcover⟩
  exact ⟨L.grant txn res mode hfree hann, hlive.symm⟩

theorem Intended.drop (h : self.Intended parent) (hstage : next.stage = self.stage)
    (clear : self.stage txn = .ended ∨
      ∀ d, Ancestor parent res d → self.table.modeHeld txn d = none)
    (held : next.table.modeHeld = LockTable.heldDrop self.table.modeHeld txn res) :
    next.Intended parent := by
  obtain ⟨L, hL⟩ := h
  have hlive : next.live = LockTable.heldDrop L.held txn res := by
    funext t r
    rw [hL]
    simp only [live, hstage, held, LockTable.heldDrop]
    split <;> simp
  have hclear : L.Clear txn res := by
    intro d hd
    rw [hL, live]
    rcases clear with hended | hnone
    · exact if_pos hended
    · split
      · rfl
      · exact hnone d hd
  exact ⟨L.drop txn res hclear, hlive.symm⟩

/-- A critical section keeps the intentions of those that have not ended; a sweep may
leave a transaction with a row and without its table, but then it has ended. -/
theorem Intended.critical (hinv : self.table.Inv) (h : self.Intended parent)
    {c : CriticalSection bits} (ok : self.Allowed parent (.critical c)) :
    Intended parent { self with table := self.table.enter c } := by
  have hcase := hinv.enter_cases c
  generalize self.table.enter c = table at hcase
  have hsame : ∀ {table : LockManager bits}, table.modeHeld = self.table.modeHeld →
      Intended parent { self with table := table } := by
    intro table held
    exact h.of_live (live_congr (fun _ => Iff.rfl) fun t _ => congrFun held t)
  cases hcase with
  | granted hc free held _ _ =>
    rcases hc with rfl | rfl
    · exact h.grant rfl ok.1 free ok.2 held
    · exact h.grant rfl ok.1 free ok.2 held
  | unchanged => exact h
  | waited held _ _ => exact hsame held
  | released held _ _ => exact h.drop rfl ok held
  | @swept txn i _ held _ _ =>
    refine h.of_live (live_congr (fun _ => Iff.rfl) fun t ht => ?_)
    have hne : t ≠ txn := by
      rintro rfl
      exact ht ok
    funext r
    rw [held, if_neg fun hc => hne hc.1]
  | rangeAcquired held _ _ => exact hsame held
  | rangeReleased held _ _ _ => exact hsame held

theorem Intended.finish (h : self.Intended parent) (hstage : next.stage txn = .ended)
    (hothers : ∀ t, t ≠ txn → next.stage t = self.stage t)
    (held : next.table.modeHeld = self.table.modeHeld) : next.Intended parent := by
  obtain ⟨L, hL⟩ := h
  refine ⟨L.dropAll txn, ?_⟩
  funext t r
  simp only [IntentTable.dropAll, LockTable.dropAll, LockTable.heldDropAll]
  by_cases ht : t = txn
  · rw [if_pos ht, live, ht, if_pos hstage]
  · rw [if_neg ht, hL, live, live, hothers t ht, held]

end Intended

/-- The invariant of a run: what it has left so far is what its journal says. -/
structure Consistent (parent : ResourceId → Option ResourceId) (init : Item → V)
    (db : Database bits V) : Prop where
  inv : db.table.Inv
  intended : db.Intended parent
  ordered : Journal.Ordered (db.guards parent) db.journal
  growing : ∀ t, db.stage t = .growing → db.journal.current t ∉ db.journal.closed
  store : db.store = History.run init db.journal.history
  seen : ∀ x, db.seen x = History.reads x init db.journal.history

section Steps
variable {init : Item → V}

theorem consistent_start (bits : Nat) (init : Item → V) :
    Consistent parent init (start bits init) := by
  have hintended : (start bits init).Intended parent := by
    refine ⟨⟨⟨fun _ _ => none, ?_⟩, ?_⟩, ?_⟩
    · simp
    · simp
    · funext t r
      simp [live, start, LockManager.modeHeld, LockManager.lockShard, LockManager.withShards,
        ShardInner.new]
  refine ⟨LockManager.inv_withShards bits, hintended, ?_, ?_, rfl, fun _ => rfl⟩
  · exact Journal.ordered_start (guards_exclusive (LockManager.inv_withShards bits) hintended)
  · simp [start, Journal.start]

theorem current_ne (j : Journal TxnId Item V) (h : u ≠ t) : j.current u ≠ j.current t :=
  fun heq => h (congrArg Prod.fst heq)

theorem not_closed_of_ne {j : Journal TxnId Item V} (h : j.current u ∉ j.closed) (hu : u ≠ t) :
    (j.close t).current u ∉ (j.close t).closed := by
  rw [Journal.close_current, Journal.mem_close]
  rintro (hmem | heq)
  · exact h hmem
  · exact current_ne j hu heq

/-- `t` gives up guards, whether it ends or only shrinks. -/
theorem Consistent.close (h : Consistent parent init self) (hinv : next.table.Inv)
    (hintended : next.Intended parent) (hjournal : next.journal = self.journal.close t)
    (hstore : next.store = self.store) (hseen : next.seen = self.seen)
    (hstage : next.stage t ≠ .growing) (hothers : ∀ u, u ≠ t → next.stage u = self.stage u)
    (hguards : ∀ u d w, u ≠ t → (next.guards parent u d w ↔ self.guards parent u d w))
    (hown : ∀ d w, next.guards parent t d w → self.guards parent t d w) :
    Consistent parent init next where
  inv := hinv
  intended := hintended
  ordered := by
    rw [hjournal]
    exact h.ordered.close hguards hown
  growing u hu := by
    by_cases hut : u = t
    · exact absurd (hut ▸ hu) hstage
    · rw [hjournal]
      exact not_closed_of_ne (h.growing u (hothers u hut ▸ hu)) hut
  store := by rw [hstore, hjournal, Journal.close_history, h.store]
  seen x := by rw [hseen, hjournal, Journal.close_history, h.seen]

theorem Consistent.releases (h : Consistent parent init self) {c : CriticalSection bits}
    (hc : c.releases = true) (ok : self.Allowed parent (.critical c)) :
    Consistent parent init (giveUp { self with table := self.table.enter c } c.txn) := by
  have hacquires : c.acquires = false := by
    cases c <;> first | rfl | simp [CriticalSection.releases] at hc
  have hended : ∀ u, (giveUp { self with table := self.table.enter c } c.txn).stage u = .ended ↔
      self.stage u = .ended := by
    intro u
    simp only [giveUp, Function.update_apply]
    split
    · next hu =>
      subst hu
      split
      · next he => simp [he]
      · next he => simp [he]
    · rfl
  have hintended :
      Intended parent (giveUp { self with table := self.table.enter c } c.txn) :=
    (h.intended.critical h.inv ok).of_live (live_congr hended fun _ _ => rfl)
  refine h.close (h.inv.enter c) hintended rfl rfl rfl ?_ ?_ ?_ ?_
  · simp only [giveUp, Function.update_self]
    split <;> simp
  · intro u hu
    exact Function.update_of_ne hu _ _
  · intro u d w hu
    apply guards_congr (hended u)
    · exact h.inv.enter_others_modeHeld hu
    · intro space x hx
      exact h.inv.enter_others_ranges (hx ▸ hu)
  · intro d w
    apply guards_mono
    · exact (not_congr (hended _)).mp
    · intro r m hm
      exact ⟨m, (h.inv.enter_releases hacquires).1 r m hm, le_refl m⟩
    · intro space x _ hx
      exact (h.inv.enter_releases (u := x.txn) hacquires).2 space x hx

theorem Consistent.acquires (h : Consistent parent init self) {c : CriticalSection bits}
    (hc : c.acquires = true) (ok : self.Allowed parent (.critical c)) :
    Consistent parent init { self with table := self.table.enter c } := by
  have hgrowing : self.stage c.txn = .growing := by
    cases c with
    | tryAcquire txn res mode => exact ok.1
    | requestGrant txn res mode => exact ok.1
    | tryAcquireRange txn space range mode => exact ok
    | registerWait txn res mode => simp [CriticalSection.acquires] at hc
    | clearWait txn => simp [CriticalSection.acquires] at hc
    | release txn res => simp [CriticalSection.acquires] at hc
    | sweepShard txn i => simp [CriticalSection.acquires] at hc
    | releaseRange txn space range => simp [CriticalSection.acquires] at hc
  have hintended := h.intended.critical h.inv ok
  refine ⟨h.inv.enter c, hintended, ?_, h.growing, h.store, h.seen⟩
  refine h.ordered.acquire (guards_exclusive (h.inv.enter c) hintended) ?_ ?_ (h.growing _ hgrowing)
  · intro u d w hu
    apply guards_congr
    · exact Iff.rfl
    · exact h.inv.enter_others_modeHeld hu
    · intro space x hx
      exact h.inv.enter_others_ranges (hx ▸ hu)
  · intro d w
    apply guards_mono
    · exact fun hstage => hstage
    · exact (h.inv.enter_acquires hc).1
    · intro space x _ hx
      exact (h.inv.enter_acquires (u := x.txn) hc).2 space x hx

theorem Consistent.critical (h : Consistent parent init self) {c : CriticalSection bits}
    (ok : self.Allowed parent (.critical c)) :
    Consistent parent init (self.step (.critical c)).1 := by
  by_cases hr : c.releases = true
  · simp only [step, if_pos hr]
    exact h.releases hr ok
  · simp only [step, if_neg hr]
    by_cases ha : c.acquires = true
    · exact h.acquires ha ok
    · -- only the wait map changes
      have hintended := h.intended.critical h.inv ok
      refine ⟨h.inv.enter c, hintended, h.ordered.congr ?_, h.growing, h.store, h.seen⟩
      intro u d w
      cases c with
      | registerWait txn res mode => exact Iff.rfl
      | clearWait txn => exact Iff.rfl
      | tryAcquire txn res mode => exact absurd rfl ha
      | requestGrant txn res mode => exact absurd rfl ha
      | tryAcquireRange txn space range mode => exact absurd rfl ha
      | release txn res => exact absurd rfl hr
      | sweepShard txn i => exact absurd rfl hr
      | releaseRange txn space range => exact absurd rfl hr

theorem Consistent.finish (h : Consistent parent init self) (txn : TxnId) :
    Consistent parent init (self.step (.finish txn)).1 := by
  have hstage : ∀ u, u ≠ txn → (self.step (.finish txn)).1.stage u = self.stage u := by
    intro u hu
    exact Function.update_of_ne hu _ _
  have hown : (self.step (.finish txn)).1.stage txn = .ended := Function.update_self _ _ _
  refine h.close h.inv (h.intended.finish hown hstage rfl) rfl rfl rfl (by simp [hown]) hstage ?_ ?_
  · intro u d w hu
    apply guards_congr
    · rw [hstage u hu]
    · rfl
    · exact fun _ _ _ => Iff.rfl
  · intro d w hguard
    exact absurd hown hguard.1

theorem not_guards (hnone : self.table.HoldsNothing t) (d : Item) (w : Bool) :
    ¬ self.guards parent t d w := by
  rintro ⟨_, hguard⟩
  cases d with
  | row res =>
    obtain ⟨a, _, m, hm, _⟩ := hguard
    rw [hnone.1 a] at hm
    simp at hm
  | key space key =>
    obtain ⟨x, hx, hxt, _⟩ := hguard
    exact hnone.2 space x hx hxt

theorem Consistent.begin (h : Consistent parent init self) {txn : TxnId}
    (ok : self.table.HoldsNothing txn) : Consistent parent init (self.step (.begin txn)).1 := by
  have hstage : ∀ u, u ≠ txn → (self.step (.begin txn)).1.stage u = self.stage u := by
    intro u hu
    exact Function.update_of_ne hu _ _
  have hlive : (self.step (.begin txn)).1.live = self.live := by
    funext u r
    by_cases hu : u = txn
    · subst hu
      simp only [live, step, ok.1 r, ite_self]
    · simp only [live, hstage u hu]
      rfl
  have hguards : ∀ u d w,
      (self.step (.begin txn)).1.guards parent u d w ↔ self.guards parent u d w := by
    intro u d w
    by_cases hu : u = txn
    · subst hu
      have hnone : (self.step (.begin u)).1.table.HoldsNothing u := ok
      exact iff_of_false (not_guards hnone d w) (not_guards ok d w)
    · apply guards_congr
      · rw [hstage u hu]
      · rfl
      · exact fun _ _ _ => Iff.rfl
  refine ⟨h.inv, h.intended.of_live hlive, ?_, ?_, h.store, h.seen⟩
  · exact (h.ordered.renew (not_guards ok)).congr hguards
  · intro u hu hclosed
    by_cases hut : u = txn
    · subst hut
      have hknown := h.ordered.known _ hclosed
      simp [step, Journal.current, Journal.renew] at hknown
    · rw [hstage u hut] at hu
      refine h.growing u hu ?_
      rw [← Journal.renew_current_of_ne hut]
      exact hclosed

theorem Consistent.read (h : Consistent parent init self) {txn : TxnId} {item : Item}
    (ok : self.guards parent txn item false) :
    Consistent parent init (self.step (.read txn item)).1 := by
  refine ⟨h.inv, h.intended, h.ordered.record ok, h.growing, ?_, ?_⟩
  · simp only [step, access, Journal.record, History.run_append]
    exact h.store
  · intro x
    simp only [step, access, Journal.record, History.reads_append, Function.update_apply, ← h.seen,
      ← h.store, History.reads, Access.readBy, List.append_nil]
    by_cases hx : x = self.journal.current txn
    · subst hx
      simp
    · simp [hx, Ne.symm hx]

theorem Consistent.write (h : Consistent parent init self) {txn : TxnId} {item : Item} {value : V}
    (ok : self.guards parent txn item true) :
    Consistent parent init (self.step (.write txn item value)).1 := by
  refine ⟨h.inv, h.intended, h.ordered.record ok, h.growing, ?_, ?_⟩
  · simp only [step, access, Journal.record, History.run_append, ← h.store]
    rfl
  · intro x
    simp only [step, access, Journal.record, History.reads_append, ← h.seen, History.reads,
      Access.readBy, List.append_nil]

theorem Consistent.step (h : Consistent parent init self) {action : DataAction bits V}
    (ok : self.Allowed parent action) : Consistent parent init (self.step action).1 := by
  cases action with
  | critical c => exact h.critical ok
  | finish txn => exact h.finish txn
  | begin txn => exact h.begin ok
  | read txn item => exact h.read ok
  | write txn item value => exact h.write ok

end Steps

end Database

/-- In every interleaving of two-phase transactions that lock a hierarchy and ranges, every
transaction reads what it would read, and the store is what it would be, if the transactions
had run one after the other with the accesses each of them made. -/
theorem two_phase_serializable {bits : Nat} {V : Type} {parent : ResourceId → Option ResourceId}
    {init : Item → V} {trace : List (Event (Database bits V) (DataAction bits V) (Option V))}
    {self : Database bits V}
    (run : Run Database.step (Database.Allowed parent) (Database.start bits init) trace self) :
    let order := self.journal.order
    let serial := History.serial order self.journal.history
    order.Nodup ∧ (∀ a ∈ self.journal.history, a.txn ∈ order) ∧
    self.store = History.run init serial ∧ ∀ x, self.seen x = History.reads x init serial := by
  intro order serial
  have hconsistent : Database.Consistent parent init self := by
    apply run.invariant (P := Database.Consistent parent init)
    · exact Database.consistent_start bits init
    · intro s action ok h
      exact h.step ok
  have hsame := hconsistent.ordered.serializable
  refine ⟨Journal.order_nodup hconsistent.ordered.nodup, fun a ha => Journal.mem_order ha, ?_, ?_⟩
  · rw [hconsistent.store]
    exact (hsame init).1
  · intro x
    rw [hconsistent.seen x]
    exact (hsame init).2 x

/-- A writer of a row and a key, and a reader of another key that reads the row as well, once
the first has been swept. -/
def writerThenReader : List (DataAction 0 Nat) :=
  [.begin ⟨1⟩,
    .critical (.tryAcquire ⟨1⟩ ⟨1⟩ .intentionExclusive),
    .critical (.tryAcquire ⟨1⟩ ⟨2⟩ .exclusive),
    .critical (.tryAcquireRange ⟨1⟩ ⟨3⟩ ⟨0, 10⟩ .exclusive),
    .critical (.tryAcquireRange ⟨2⟩ ⟨3⟩ ⟨11, 20⟩ .shared),
    .write ⟨1⟩ (.row ⟨2⟩) 7,
    .read ⟨2⟩ (.key ⟨3⟩ 11),
    .write ⟨1⟩ (.key ⟨3⟩ 10) 8,
    .critical (.tryAcquire ⟨2⟩ ⟨1⟩ .intentionShared),
    .finish ⟨1⟩,
    .critical (.sweepShard ⟨1⟩ 0),
    .critical (.tryAcquire ⟨2⟩ ⟨2⟩ .shared),
    .read ⟨2⟩ (.row ⟨2⟩)]

theorem two_phase_serializable_writerThenReader :
    let init : Item → Nat := fun _ => 0
    let run := Run.record Database.step [] (Database.start 0 init) writerThenReader
    run.2.journal.order = [(⟨1⟩, 1), (⟨2⟩, 0)] ∧ run.2.seen (⟨2⟩, 0) = [0, 7] ∧
      run.2.seen (⟨2⟩, 0) = History.reads (⟨2⟩, 0) init
        (History.serial [(⟨1⟩, 1), (⟨2⟩, 0)] run.2.journal.history) := by
  intro init run
  have hroot : ∀ {self : Database 0 Nat} {txn : TxnId} {mode : LockMode},
      self.Announced tableAndRow txn ⟨1⟩ mode := by
    intro self txn mode a ha
    exact absurd (ancestor_tableAndRow ha).2 (by decide)
  have hrow : ∀ {self : Database 0 Nat} {txn : TxnId} {mode b : LockMode},
      self.table.modeHeld txn ⟨1⟩ = some b → b.covers mode.intention = true →
      self.Announced tableAndRow txn ⟨2⟩ mode := by
    intro self txn mode b hb hcover a ha
    rw [(ancestor_tableAndRow ha).1]
    exact ⟨b, hb, hcover⟩
  have hrun : Run Database.step (Database.Allowed tableAndRow) (.start 0 init) run.1 run.2 := by
    refine Run.start.recorded ⟨?_, ⟨rfl, hroot⟩, ⟨rfl, ?_⟩, rfl, rfl, ⟨?_, ?_⟩, ⟨?_, ?_⟩, ⟨?_, ?_⟩,
      ⟨rfl, hroot⟩, trivial, rfl, ⟨rfl, ?_⟩, ⟨?_, ?_⟩, trivial⟩
    · simp [Database.Allowed, Database.start, LockManager.HoldsNothing, LockManager.modeHeld,
        LockManager.rangeHolders, LockManager.lockShard, LockManager.withShards, ShardInner.new]
    · exact hrow (b := .intentionExclusive) (by decide +kernel) (by decide)
    · decide +kernel
    · exact ⟨⟨2⟩, .inl rfl, .exclusive, by decide +kernel, by decide⟩
    · decide +kernel
    · exact ⟨⟨⟨2⟩, ⟨11, 20⟩, .shared⟩, by decide +kernel, by decide, by decide, by decide⟩
    · decide +kernel
    · exact ⟨⟨⟨1⟩, ⟨0, 10⟩, .exclusive⟩, by decide +kernel, by decide, by decide, by decide⟩
    · exact hrow (b := .intentionShared) (by decide +kernel) (by decide)
    · decide +kernel
    · exact ⟨⟨2⟩, .inl rfl, .shared, by decide +kernel, by decide⟩
  have horder : run.2.journal.order = [(⟨1⟩, 1), (⟨2⟩, 0)] := by decide +kernel
  have hserial := two_phase_serializable hrun
  exact ⟨horder, by decide +kernel, horder ▸ hserial.2.2.2 (⟨2⟩, 0)⟩

end LockDb
