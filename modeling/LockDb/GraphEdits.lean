import LockDb.Deadlock
import Mathlib.Data.List.Induction
import Mathlib.Data.Set.Card

/-!
# Edits of the wait-for graph

Taking a transaction out of the graph, or only its own waits, leaves the cycles
that avoid it and no others. Taking it out may also leave another transaction
with an entry but no edge, and the two counters read the entries.
-/

namespace LockDb

set_option autoImplicit false

open Shared Shared.Multimap

namespace WaitForGraph

/-- `next` has no edge from `t` and agrees with `graph` on the edges away from `t`. -/
structure Cut (graph next : WaitForGraph) (t : TxnId) : Prop where
  sink : ∀ b, ¬ next.Waits t b
  agree : ∀ a b, a ≠ t → b ≠ t → (next.Waits a b ↔ graph.Waits a b)

theorem removeTxn_neighbors (self : WaitForGraph) (t v : TxnId) :
    (self.removeTxn t).neighbors v = (self.neighbors v).filter fun w => v ≠ t ∧ w ≠ t := by
  rw [neighbors_removeTxn]
  by_cases hv : v = t <;> simp [hv]

theorem clearWaiter_neighbors (self : WaitForGraph) (t v : TxnId) :
    (self.clearWaiter t).neighbors v = (self.neighbors v).filter fun _ => v ≠ t := by
  rw [neighbors_clearWaiter]
  by_cases hv : v = t <;> simp [hv]

theorem cut_removeTxn (self : WaitForGraph) (t : TxnId) : Cut self (self.removeTxn t) t where
  sink b := by simp [Waits, removeTxn_neighbors]
  agree a b ha hb := by simp [Waits, removeTxn_neighbors, ha, hb]

theorem cut_clearWaiter (self : WaitForGraph) (t : TxnId) : Cut self (self.clearWaiter t) t where
  sink b := by simp [Waits, clearWaiter_neighbors]
  agree a b ha _ := by simp [Waits, clearWaiter_neighbors, ha]

section Cut
variable {graph next : WaitForGraph} {t : TxnId}

theorem Cut.isCycle_iff (h : Cut graph next t) (c : List TxnId) :
    IsCycle next.Waits c ↔ IsCycle graph.Waits c ∧ t ∉ c :=
  IsCycle.cut_iff h.sink h.agree c

theorem Cut.detectCycle_iff (h : Cut graph next t) (order : IterOrder TxnId (List TxnId)) :
    (∃ c, next.detectCycle order = some c) ↔ ∃ c, IsCycle graph.Waits c ∧ t ∉ c := by
  constructor
  · intro hfound
    obtain ⟨c, hc⟩ := hfound
    exact ⟨c, (h.isCycle_iff c).mp (next.detectCycle_some order hc).1⟩
  · intro hcycle
    obtain ⟨c, hc⟩ := hcycle
    cases hfound : next.detectCycle order with
    | none => exact absurd ((h.isCycle_iff c).mpr hc) (next.detectCycle_none order hfound c)
    | some c' => exact ⟨c', rfl⟩

/-- Nothing but `t` can be reached from `t`, and `t` is on no cycle. -/
theorem Cut.cycleFrom_self (h : Cut graph next t) : next.cycleFrom t = none := by
  cases hfound : next.cycleFrom t with
  | none => rfl
  | some c =>
    obtain ⟨hc, _, hreach⟩ := next.cycleFrom_some hfound
    obtain ⟨v, hv⟩ := List.exists_mem_of_ne_nil c hc.ne_nil
    have hvt : v = t := by
      rcases Relation.ReflTransGen.cases_head (hreach v hv) with heq | ⟨b, hb, _⟩
      · exact heq.symm
      · exact absurd hb (h.sink b)
    exact absurd (hvt ▸ hv) ((h.isCycle_iff c).mp hc).2

end Cut

end WaitForGraph

/-- Removing a transaction, or only its waits, cuts exactly the cycles through it. -/
theorem removal_cuts_cycles_through (ops : List GraphOp) (t : TxnId) :
    let graph := WaitForGraph.built ops
    (∀ v, (graph.removeTxn t).neighbors v = (graph.neighbors v).filter fun w => v ≠ t ∧ w ≠ t) ∧
    (∀ v, (graph.clearWaiter t).neighbors v = (graph.neighbors v).filter fun _ => v ≠ t) ∧
    ∀ next ∈ [graph.removeTxn t, graph.clearWaiter t],
      (∀ order, (∃ c, next.detectCycle order = some c) ↔ ∃ c, IsCycle graph.Waits c ∧ t ∉ c) ∧
      (∀ order c, next.detectCycle order = some c → t ∉ c) ∧
      (∀ start c, next.cycleFrom start = some c → t ∉ c) ∧ next.cycleFrom t = none := by
  intro graph
  refine ⟨graph.removeTxn_neighbors t, graph.clearWaiter_neighbors t, ?_⟩
  intro next hnext
  have hcut : WaitForGraph.Cut graph next t := by
    rcases List.mem_pair.mp hnext with rfl | rfl
    · exact graph.cut_removeTxn t
    · exact graph.cut_clearWaiter t
  refine ⟨hcut.detectCycle_iff, ?_, ?_, hcut.cycleFrom_self⟩
  · intro order c hc
    exact ((hcut.isCycle_iff c).mp (next.detectCycle_some order hc).1).2
  · intro start c hc
    exact ((hcut.isCycle_iff c).mp (next.cycleFrom_some hc).1).2

namespace WaitForGraph

/-- The counters say how many transactions have an edge, and whether there is any edge. -/
def Accurate (self : WaitForGraph) : Prop :=
  self.waiterCount = Set.ncard {v | self.neighbors v ≠ []} ∧
    (self.isEmpty = true ↔ ∀ v, self.neighbors v = [])

/-- A transaction with an entry in the map but without an edge. -/
def Idle (self : WaitForGraph) (v : TxnId) : Prop := self.edges.lookup v = some []

instance (self : WaitForGraph) (v : TxnId) : Decidable (self.Idle v) :=
  inferInstanceAs (Decidable (self.edges.lookup v = some []))

/-- `op` takes the last edges of `v` away and leaves its entry. -/
def Strands (self : WaitForGraph) (v : TxnId) : GraphOp → Prop
  | .removeTxn t => v ≠ t ∧ self.neighbors v ≠ [] ∧ ∀ w ∈ self.neighbors v, w = t
  | _ => False

/-- `op` gives `v` an edge or takes its entry away. -/
def Frees (v : TxnId) : GraphOp → Prop
  | .addWait waiter holder => v = waiter ∧ holder ≠ waiter
  | .addWaits waiter holders => v = waiter ∧ ∃ holder ∈ holders, holder ≠ waiter
  | .clearWaiter waiter => v = waiter
  | .removeTxn t => v = t

theorem mem_keys_of_neighbors {self : WaitForGraph} {v : TxnId} (h : self.neighbors v ≠ []) :
    v ∈ self.edges.keys := by
  rw [Finmap.mem_keys, Finmap.mem_iff]
  cases hl : self.edges.lookup v with
  | none => simp [neighbors, list, hl] at h
  | some l => exact ⟨l, rfl⟩

theorem accurate_iff (self : WaitForGraph) : self.Accurate ↔ ∀ v, ¬ self.Idle v := by
  have hset : {v | self.neighbors v ≠ []} = ↑(self.edges.keys.filter (self.neighbors · ≠ [])) := by
    ext v
    simp only [Set.mem_ofPred_eq, Finset.coe_filter]
    exact ⟨fun h => ⟨mem_keys_of_neighbors h, h⟩, fun h => h.2⟩
  have hcount : self.waiterCount = Set.ncard {v | self.neighbors v ≠ []} ↔
      ∀ v ∈ self.edges.keys, self.neighbors v ≠ [] := by
    rw [hset, Set.ncard_coe_finset, waiterCount, eq_comm, Finset.card_filter_eq_iff]
  have hidle : (∀ v, ¬ self.Idle v) ↔ ∀ v ∈ self.edges.keys, self.neighbors v ≠ [] := by
    apply forall_congr'
    intro v
    rw [Finmap.mem_keys, Finmap.mem_iff, Idle, neighbors, list]
    cases hl : self.edges.lookup v with
    | none => simp
    | some l => simp
  rw [Accurate, hcount, ← hidle]
  constructor
  · exact fun h => h.1
  · intro h
    refine ⟨h, ?_⟩
    have hne : NoEmpty self.edges := h
    constructor
    · intro hempty v
      by_contra hv
      have hkeys : self.edges.keys = ∅ := by simpa [isEmpty] using hempty
      have hmem := mem_keys_of_neighbors hv
      simp [hkeys] at hmem
    · intro hnone
      simp [isEmpty, hne.eq_empty hnone]

section Step
variable (self : WaitForGraph) (v : TxnId)

theorem addWait_idle (waiter holder : TxnId) : (self.addWait waiter holder).Idle v ↔
    self.Idle v ∧ ¬ Frees v (.addWait waiter holder) := by
  unfold addWait Idle Frees
  split
  · next h => simp [h]
  · next h =>
    simp only [push, lookup_insert_eq]
    by_cases hv : v = waiter
    · simp [hv, Ne.symm h]
    · simp [hv]

theorem addWaits_idle (waiter : TxnId) (holders : List TxnId) :
    (self.addWaits waiter holders).Idle v ↔
      self.Idle v ∧ ¬ Frees v (.addWaits waiter holders) := by
  induction holders generalizing self with
  | nil => simp [addWaits, Frees]
  | cons h hs ih =>
    have hstep : self.addWaits waiter (h :: hs) = (self.addWait waiter h).addWaits waiter hs := rfl
    rw [hstep, ih, addWait_idle]
    simp only [Frees, List.mem_cons, exists_eq_or_imp]
    rw [and_assoc, ← not_or, ← and_or_left]

theorem clearWaiter_idle (waiter : TxnId) : (self.clearWaiter waiter).Idle v ↔
    self.Idle v ∧ ¬ Frees v (.clearWaiter waiter) := by
  simp only [clearWaiter, Idle, Frees, lookup_erase_eq]
  by_cases hv : v = waiter <;> simp [hv]

theorem removeTxn_idle (t : TxnId) : (self.removeTxn t).Idle v ↔
    self.Strands v (.removeTxn t) ∨ self.Idle v ∧ ¬ Frees v (.removeTxn t) := by
  simp only [removeTxn, Idle, Strands, Frees, neighbors, list, lookup_mapValues, lookup_erase_eq]
  by_cases hv : v = t
  · simp [hv]
  · cases hl : self.edges.lookup v with
    | none => simp [hv]
    | some l =>
      cases l with
      | nil => simp [hv]
      | cons w ws => simp [hv]

/-- Only a removal leaves an entry without an edge, and such an entry stays until it is
filled or dropped. -/
theorem apply_idle (op : GraphOp) : (self.apply op).Idle v ↔
    self.Strands v op ∨ self.Idle v ∧ ¬ Frees v op := by
  cases op with
  | addWait waiter holder => simp [apply, addWait_idle, Strands]
  | addWaits waiter holders => simp [apply, addWaits_idle, Strands]
  | clearWaiter waiter => simp [apply, clearWaiter_idle, Strands]
  | removeTxn t => exact self.removeTxn_idle v t

end Step

theorem built_append (ops : List GraphOp) (op : GraphOp) :
    built (ops ++ [op]) = (built ops).apply op := by
  simp [built]

theorem built_idle (ops : List GraphOp) (v : TxnId) : (built ops).Idle v ↔
    ∃ pre op post, ops = pre ++ op :: post ∧ (built pre).Strands v op ∧
      ∀ later ∈ post, ¬ Frees v later := by
  induction ops using List.reverseRecOn with
  | nil => simp [built, Idle, new]
  | append_singleton ops last ih =>
    rw [built_append, apply_idle, ih]
    constructor
    · intro h
      rcases h with hlast | ⟨⟨pre, op, post, rfl, hop, hpost⟩, hlast⟩
      · exact ⟨ops, last, [], rfl, hlast, by simp⟩
      · refine ⟨pre, op, post ++ [last], by simp, hop, ?_⟩
        intro later hlater
        rcases List.mem_append.mp hlater with hlater | hlater
        · exact hpost later hlater
        · rwa [List.mem_singleton.mp hlater]
    · intro h
      obtain ⟨pre, op, post, heq, hop, hpost⟩ := h
      rcases List.eq_nil_or_concat post with rfl | ⟨post, last', rfl⟩
      · obtain ⟨rfl, hlast⟩ := List.append_inj' heq rfl
        rw [List.singleton_inj.mp hlast]
        exact .inl hop
      · rw [List.concat_eq_append] at heq hpost
        have hsplit : ops ++ [last] = (pre ++ op :: post) ++ [last'] := by simpa using heq
        obtain ⟨hops, hlast⟩ := List.append_inj' hsplit rfl
        rw [List.singleton_inj.mp hlast]
        refine .inr ⟨⟨pre, op, post, hops, hop, ?_⟩, hpost last' (by simp)⟩
        intro later hlater
        exact hpost later (by simp [hlater])

end WaitForGraph

/-- The last edge of the first transaction goes with the second, its entry stays. -/
theorem removed_holder_leaves_waiter :
    ¬ ∀ ops : List GraphOp, (WaitForGraph.built ops).Accurate := by
  intro haccurate
  have hgraph := haccurate [.addWait ⟨1⟩ ⟨2⟩, .removeTxn ⟨2⟩]
  rw [WaitForGraph.accurate_iff] at hgraph
  exact hgraph ⟨1⟩ (by decide +kernel)

/-- The counters are accurate exactly when every transaction that lost its last edges to a
`remove_txn` has since got an edge, stopped waiting or been removed. -/
theorem counters_accurate_iff (ops : List GraphOp) :
    (WaitForGraph.built ops).Accurate ↔ ∀ pre op post v, ops = pre ++ op :: post →
      (WaitForGraph.built pre).Strands v op → ∃ later ∈ post, WaitForGraph.Frees v later := by
  rw [WaitForGraph.accurate_iff]
  constructor
  · intro hidle pre op post v hops hstrand
    by_contra hno
    apply hidle v
    rw [WaitForGraph.built_idle]
    refine ⟨pre, op, post, hops, hstrand, ?_⟩
    intro later hlater hfree
    exact hno ⟨later, hlater, hfree⟩
  · intro hfreed v hidle
    obtain ⟨pre, op, post, hops, hstrand, hpost⟩ := (WaitForGraph.built_idle ops v).mp hidle
    obtain ⟨later, hlater, hfree⟩ := hfreed pre op post v hops hstrand
    exact hpost later hlater hfree

end LockDb
