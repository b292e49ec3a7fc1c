import LockDb.Interleaving

/-!
# No deadlock unreported, whatever runs in between

The law that every deadlock is reported, for calls that other threads interrupt. A
request changes the table, the wait registry and the graph it builds at different
times, and between them sections of other threads run. While the wait mutex is held a
cycle may be there that nobody was told of; then the request under way goes through it.
-/

namespace LockDb

set_option autoImplicit false

open Shared Shared.Multimap Relation

section Noticed
variable {bits : Nat}

/-- The transaction whose request is decided, and not yet answered. -/
def Phase.answering : Phase bits → Option TxnId
  | .idle => none
  | .granting _ _ _ => none
  | .granted txn => some txn
  | .refused _ _ _ => none
  | .building asker _ _ _ => asker

/-- On every cycle there is somebody who was told, or will have an answer next. -/
def Config.Noticed (told : TxnId → Prop) (c : Config bits) : Prop :=
  ∀ cycle, IsCycle c.table.WaitsFor cycle → ∃ t ∈ cycle, c.phase.answering = some t ∨ told t

variable {told told' : TxnId → Prop} {c : Config bits} {table : LockManager bits} {txn : TxnId}

theorem cycle_of_unlocked (hinv : table.Inv) {s : CriticalSection bits} (hs : s.Unlocked table)
    {cycle : List TxnId} (h : IsCycle (table.enter s).WaitsFor cycle) :
    IsCycle table.WaitsFor cycle := by
  refine h.imp_of_mem fun a _ b hb hab => unlocked_waitsFor hinv hs ?_ hab
  obtain ⟨w, hw⟩ := LockManager.registered_of_cycle h hb
  exact ⟨w, unlocked_waits hs ▸ hw⟩

theorem cycle_of_clearWait {cycle : List TxnId}
    (h : IsCycle (table.enter (.clearWait txn)).WaitsFor cycle) :
    txn ∉ cycle ∧ IsCycle table.WaitsFor cycle := by
  rw [LockManager.waitsFor_eq] at h ⊢
  have hcleared : (table.enter (.clearWait txn)).waits.lookup txn = none :=
    (lookup_erase_eq _ _ _).trans (if_pos rfl)
  refine ⟨h.notMem_of_sink (waitsFor_of_none (t := txn) hcleared), h.imp fun a b hab => ?_⟩
  exact hab.shrink (fun w hw => LockManager.lookup_of_erase hw) fun _ _ hx => hx

theorem Config.Noticed.imp (h : c.Noticed told) (htold : ∀ t, told t → told' t) :
    c.Noticed told' := by
  intro cycle hc
  obtain ⟨t, ht, hnoticed⟩ := h cycle hc
  exact ⟨t, ht, hnoticed.imp_right (htold t)⟩

theorem Config.Noticed.mono (h : c.Noticed told) (hidle : c.phase.answering = none)
    {next : Config bits} (htold : ∀ t, told t → told' t)
    (hcycles : ∀ cycle, IsCycle next.table.WaitsFor cycle → IsCycle c.table.WaitsFor cycle) :
    next.Noticed told' := by
  intro cycle hc
  obtain ⟨t, ht, hnoticed⟩ := h cycle (hcycles cycle hc)
  rw [hidle] at hnoticed
  exact ⟨t, ht, .inr (htold t (hnoticed.resolve_left (by simp)))⟩

/-- Of the cycles that avoid `txn` nothing is lost when `txn` has its answer. -/
theorem Config.Noticed.answered (h : c.Noticed told) (hasker : c.phase.answering = some txn)
    (htold : ∀ t, told t → t ≠ txn → told' t) {cycle : List TxnId}
    (hc : IsCycle c.table.WaitsFor cycle) (htxn : txn ∉ cycle) : ∃ t ∈ cycle, told' t := by
  obtain ⟨t, ht, hnoticed⟩ := h cycle hc
  have hne : t ≠ txn := by
    rintro rfl
    exact htxn ht
  refine ⟨t, ht, htold t (hnoticed.resolve_left fun heq => hne ?_) hne⟩
  exact Option.some.inj (heq.symm.trans hasker)

theorem Config.Noticed.grant (hinv : table.Inv) {res : ResourceId} {mode : LockMode}
    (h : Config.Noticed told ⟨table, .granting txn res mode⟩) (htold : ∀ t, told t → told' t)
    (order : IterOrder TxnId (ResourceId × LockMode)) (keyOrder : IterOrder TxnId (List TxnId)) :
    (Config.proceed ⟨table, .granting txn res mode⟩ order keyOrder).1.Noticed told' := by
  rcases hinv.grantStep_cases txn res mode with ⟨_, next, hg, held, waits⟩ | ⟨_, hg⟩
  · simp only [Config.proceed, hg, if_true]
    intro cycle hc
    by_cases htxn : txn ∈ cycle
    · exact ⟨txn, htxn, .inl rfl⟩
    · -- only edges into `txn` are new
      have hold : IsCycle table.WaitsFor cycle := by
        rw [LockManager.waitsFor_eq] at hc ⊢
        refine hc.of_notMem htxn fun a b _ hb hab => hab.agree (by rw [waits]) fun r => ?_
        rw [held]
        simp [LockTable.heldGrant, hb]
      obtain ⟨t, ht, hnoticed⟩ := h cycle hold
      exact ⟨t, ht, .inr (htold t (hnoticed.resolve_left (by simp [Phase.answering])))⟩
  · simp only [Config.proceed, hg]
    exact h.mono rfl htold fun _ hc => hc

/-- The build of a request under way ends: a cycle through its transaction is reported. -/
theorem Config.Noticed.buildEnds {asker : Option TxnId} {graph : WaitForGraph}
    {start : LockManager bits}
    (hsound : Sound (⟨table, .building asker [] graph start⟩ : Config bits))
    (h : Config.Noticed told ⟨table, .building asker [] graph start⟩)
    (htold : ∀ t, told t → asker ≠ some t → told' t)
    (hanswer : ∀ t d, asker = some t → LockManager.refusal graph t = .deadlock d → told' t) :
    Config.Noticed told' (⟨table, .idle⟩ : Config bits) := by
  intro cycle hc
  cases asker with
  | none =>
    obtain ⟨t, ht, hnoticed⟩ := h cycle hc
    exact ⟨t, ht, .inr (htold t (hnoticed.resolve_left (by simp [Phase.answering])) (by simp))⟩
  | some txn =>
    by_cases htxn : txn ∈ cycle
    · refine ⟨txn, htxn, .inr ?_⟩
      have hsnapshot := (hsound.building _ _ _ _ rfl).snapshot
      simp only [List.not_mem_nil, false_and, exists_false] at hsnapshot
      by_contra hno
      have hmiss : ∀ d, LockManager.refusal graph txn ≠ .deadlock d :=
        fun d hd => hno (hanswer txn d rfl hd)
      exact refusal_waiting hmiss (hsnapshot.cycle_was_read hc) htxn .refl
    · obtain ⟨t, ht, hnew⟩ := h.answered rfl (fun t hold hne => htold t hold fun heq =>
        hne (Option.some.inj heq).symm) hc htxn
      exact ⟨t, ht, .inr hnew⟩

theorem Config.Noticed.proceed (hsound : Sound c) (h : c.Noticed told)
    (order : IterOrder TxnId (ResourceId × LockMode)) (keyOrder : IterOrder TxnId (List TxnId))
    (htold : ∀ t, told t → c.phase.answering ≠ some t → told' t)
    (hanswer : ∀ t d, c.phase.answering = some t →
      (c.proceed order keyOrder).2 = .acquisition (.deadlock d) → told' t) :
    (c.proceed order keyOrder).1.Noticed told' := by
  obtain ⟨table, phase⟩ := c
  cases phase with
  | idle => exact h.mono rfl (fun t ht => htold t ht (by simp [Phase.answering])) fun _ hc => hc
  | granting txn res mode =>
    exact h.grant hsound.inv (fun t ht => htold t ht (by simp [Phase.answering])) order keyOrder
  | granted txn =>
    intro cycle hc
    obtain ⟨htxn, hold⟩ := cycle_of_clearWait hc
    obtain ⟨t, ht, hnew⟩ := h.answered rfl (fun t hold hne => htold t hold fun heq =>
      hne (Option.some.inj heq).symm) hold htxn
    exact ⟨t, ht, .inr hnew⟩
  | refused txn res mode =>
    intro cycle hc
    by_cases htxn : txn ∈ cycle
    · exact ⟨txn, htxn, .inl rfl⟩
    · obtain ⟨t, ht, hnoticed⟩ := h cycle (LockManager.cycle_of_register hc htxn)
      have hold : told t := hnoticed.resolve_left (by simp [Phase.answering])
      exact ⟨t, ht, .inr (htold t hold (by simp [Phase.answering]))⟩
  | building asker todo graph start =>
    cases todo with
    | cons w todo =>
      intro cycle hc
      obtain ⟨t, ht, hnoticed⟩ := h cycle hc
      by_cases hasker : asker = some t
      · exact ⟨t, ht, .inl hasker⟩
      · exact ⟨t, ht, .inr (htold t (hnoticed.resolve_left hasker) hasker)⟩
    | nil =>
      refine Config.Noticed.buildEnds hsound h htold ?_
      rintro t d rfl hd
      exact hanswer t d rfl (by simp [Config.proceed, Config.answer, hd])

/-- What a step may do to those who were told: whoever has an answer is told anew, and nobody
is on a cycle any more whose wait is cleared. -/
theorem Config.Noticed.step (hsound : Sound c) (h : c.Noticed told) {action : Action bits}
    (ok : c.Allowed action)
    (htold : ∀ t, told t → c.phase.answering ≠ some t → action ≠ .clearWait t → told' t)
    (hanswer : ∀ t d, c.phase.answering = some t →
      (c.step action).2 = .acquisition (.deadlock d) → told' t) :
    (c.step action).1.Noticed told' := by
  have hidle : c.phase.isIdle = true → c.phase.answering = none := by
    intro hphase
    cases hc : c.phase <;> simp_all [Phase.isIdle, Phase.answering]
  cases action with
  | other s =>
    intro cycle hc
    obtain ⟨t, ht, hnoticed⟩ := h cycle (cycle_of_unlocked hsound.inv ok hc)
    by_cases hasker : c.phase.answering = some t
    · exact ⟨t, ht, .inl hasker⟩
    · exact ⟨t, ht, .inr (htold t (hnoticed.resolve_left hasker) hasker (by simp))⟩
  | clearWait txn =>
    intro cycle hc
    obtain ⟨htxn, hold⟩ := cycle_of_clearWait hc
    obtain ⟨t, ht, hnoticed⟩ := h cycle hold
    rw [hidle ok] at hnoticed
    refine ⟨t, ht, .inr (htold t (hnoticed.resolve_left (by simp)) (by simp [hidle ok]) ?_)⟩
    simp only [ne_eq, Action.clearWait.injEq]
    rintro rfl
    exact htxn ht
  | request txn res mode =>
    refine h.mono (hidle ok) (fun t ht => htold t ht (by simp [hidle ok]) (by simp)) ?_
    exact fun _ hc => hc
  | findDeadlock order =>
    refine h.mono (hidle ok) (fun t ht => htold t ht (by simp [hidle ok]) (by simp)) ?_
    exact fun _ hc => hc
  | proceed order keyOrder =>
    exact h.proceed hsound order keyOrder (fun t ht hne => htold t ht hne (by simp)) hanswer

end Noticed

section Trace
variable {bits : Nat}

def lastPhase : List (Event (Config bits) (Action bits) Outcome) → Phase bits
  | [] => .idle
  | e :: _ => e.after.phase

/-- The last answer that a request of `t` has had; the trace is newest first. -/
def lastAnswer (t : TxnId) : List (Event (Config bits) (Action bits) Outcome) → Option Acquisition
  | [] => none
  | e :: trace =>
    match e.out with
    | .acquisition a =>
      if (lastPhase trace).answering = some t then some a else lastAnswer t trace
    | _ => lastAnswer t trace

variable {trace : List (Event (Config bits) (Action bits) Outcome)} {c : Config bits}

theorem lastPhase_eq (run : Run Config.step Config.Allowed (Config.init bits) trace c) :
    lastPhase trace = c.phase := by
  cases run with
  | start => rfl
  | step _ _ _ => rfl

theorem lastAnswer_of_ne {t : TxnId} (e : Event (Config bits) (Action bits) Outcome)
    (h : (lastPhase trace).answering ≠ some t) :
    lastAnswer t (e :: trace) = lastAnswer t trace := by
  rw [lastAnswer]
  split
  · exact if_neg h
  · rfl

theorem lastAnswer_mem {t : TxnId} {a : Acquisition} (h : lastAnswer t trace = some a) :
    ∃ e ∈ trace, e.out = .acquisition a := by
  induction trace with
  | nil => simp [lastAnswer] at h
  | cons e trace ih =>
    have hrest : lastAnswer t trace = some a → ∃ e' ∈ e :: trace, e'.out = .acquisition a := by
      intro hr
      obtain ⟨e', he', ho⟩ := ih hr
      exact ⟨e', List.mem_cons_of_mem e he', ho⟩
    unfold lastAnswer at h
    split at h
    · next b hout =>
      split at h
      · rw [← Option.some.inj h]
        exact ⟨e, List.mem_cons_self, hout⟩
      · exact hrest h
    · exact hrest h

theorem noticed_of_run (run : Run Config.step Config.Allowed (Config.init bits) trace c) :
    c.Noticed fun t => ∃ d, lastAnswer t trace = some (.deadlock d) := by
  induction run with
  | start =>
    intro cycle hc
    obtain ⟨t, ht⟩ := List.exists_mem_of_ne_nil cycle hc.ne_nil
    obtain ⟨w, hw⟩ := LockManager.registered_of_cycle hc ht
    simp [Config.init, LockManager.withShards] at hw
  | @step trace c run action ok ih =>
    refine ih.step (run_sound run) ok ?_ ?_
    · rintro t ⟨d, hd⟩ hasker _
      exact ⟨d, (lastAnswer_of_ne _ (by rwa [lastPhase_eq run])).trans hd⟩
    · intro t d hasker hout
      exact ⟨d, by simp [lastAnswer, hout, lastPhase_eq run, hasker]⟩

/-- However calls interrupt each other, every cycle has a member whose last request was
answered with a deadlock, or whose request is about to be answered. -/
theorem every_deadlock_told (run : Run Config.step Config.Allowed (Config.init bits) trace c) :
    (∀ cycle, IsCycle c.table.WaitsFor cycle → ∃ t ∈ cycle, c.phase.answering = some t ∨
      ∃ d, lastAnswer t trace = some (.deadlock d)) ∧
    (c.phase.answering = none → (∀ e ∈ trace, ∀ d, e.out ≠ .acquisition (.deadlock d)) →
      Acyclic c.table.WaitsFor) := by
  have hnoticed := noticed_of_run run
  refine ⟨hnoticed, ?_⟩
  intro hnobody hno cycle hc
  obtain ⟨t, _, hasker | ⟨d, hd⟩⟩ := hnoticed cycle hc
  · simp [hnobody] at hasker
  · obtain ⟨e, he, hout⟩ := lastAnswer_mem hd
    exact hno e he d hout

end Trace

/-- Another thread runs between the refusal of a request and its registration, which closes a
cycle. -/
def closingRequest : List (Action 2) :=
  [.other (.tryAcquire ⟨1⟩ ⟨1⟩ .exclusive), .other (.tryAcquire ⟨2⟩ ⟨2⟩ .exclusive),
    .request ⟨1⟩ ⟨2⟩ .exclusive, .proceed .sorted .sorted, .proceed .sorted .sorted,
    .proceed .sorted .sorted, .proceed .sorted .sorted, .request ⟨2⟩ ⟨1⟩ .exclusive,
    .proceed .sorted .sorted, .other (.release ⟨3⟩ ⟨1⟩), .proceed .sorted .sorted]

theorem every_deadlock_told_closing :
    let run := Run.record Config.step [] (Config.init 2) closingRequest
    lastAnswer ⟨1⟩ run.1 = some .waiting ∧ lastAnswer ⟨2⟩ run.1 = none ∧
      ∃ t ∈ ([⟨1⟩, ⟨2⟩] : List TxnId), run.2.phase.answering = some t ∨
        ∃ d, lastAnswer t run.1 = some (.deadlock d) := by
  intro run
  have hrun : Run Config.step Config.Allowed (Config.init 2) run.1 run.2 := by
    have hunlocked : ∀ {c : Config 2} {txn : TxnId} {res : ResourceId} {mode : LockMode},
        c.table.waits.lookup txn = none → c.Allowed (.other (.tryAcquire txn res mode)) :=
      fun h => h
    have hidle : ∀ {c : Config 2} {txn : TxnId} {res : ResourceId} {mode : LockMode},
        c.phase.isIdle = true → c.Allowed (.request txn res mode) := fun h => h
    refine Run.start.recorded ⟨hunlocked ?_, hunlocked ?_, hidle ?_, trivial, trivial, trivial,
      trivial, hidle ?_, trivial, trivial, trivial, trivial⟩
    all_goals decide +kernel
  have hcycle : IsCycle run.2.table.WaitsFor [⟨1⟩, ⟨2⟩] := by
    have h12 : run.2.table.WaitsFor ⟨1⟩ ⟨2⟩ :=
      ⟨⟨2⟩, .exclusive, .exclusive, by decide +kernel, by decide, by decide +kernel, by decide⟩
    have h21 : run.2.table.WaitsFor ⟨2⟩ ⟨1⟩ :=
      ⟨⟨1⟩, .exclusive, .exclusive, by decide +kernel, by decide, by decide +kernel, by decide⟩
    simp [IsCycle, h12, h21]
  exact ⟨by decide +kernel, by decide +kernel, (every_deadlock_told hrun).1 _ hcycle⟩

end LockDb
