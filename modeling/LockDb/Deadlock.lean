import LockDb.Basic
import LockDb.Shared.CycleSearch

/-!
# Wait-for graph, cycle detection and victim selection

The graph is an adjacency map. A search from one transaction follows only the
successor lists; the scan over all waiters starts one search per key, in
whatever order the map is iterated.
-/

namespace LockDb

set_option autoImplicit false

open Shared Shared.Multimap

inductive VictimPolicy where
  | youngest
  | oldest
deriving DecidableEq, Repr

/-- A cycle of transactions, each waiting for the next and the last for the
first, and the member chosen to abort. -/
structure Deadlock where
  victim : TxnId
  cycle : List TxnId
deriving DecidableEq, Repr

structure WaitForGraph where
  edges : HashMap TxnId (List TxnId)

namespace WaitForGraph

def new : WaitForGraph := ⟨∅⟩

def addWait (self : WaitForGraph) (waiter holder : TxnId) : WaitForGraph :=
  if waiter = holder then self else ⟨push self.edges waiter holder⟩

def addWaits (self : WaitForGraph) (waiter : TxnId) (holders : List TxnId) : WaitForGraph :=
  holders.foldl (fun graph holder => graph.addWait waiter holder) self

def clearWaiter (self : WaitForGraph) (waiter : TxnId) : WaitForGraph := ⟨self.edges.erase waiter⟩

def removeTxn (self : WaitForGraph) (txn : TxnId) : WaitForGraph :=
  ⟨mapValues (fun holders => holders.filter fun h => h ≠ txn) (self.edges.erase txn)⟩

def isEmpty (self : WaitForGraph) : Bool := self.edges.keys = ∅

def waiterCount (self : WaitForGraph) : Nat := self.edges.keys.card

def neighbors (self : WaitForGraph) (node : TxnId) : List TxnId := list self.edges node

def targets (self : WaitForGraph) : Finset TxnId :=
  self.edges.keys.biUnion fun node => (self.neighbors node).toFinset

def cycleFrom (self : WaitForGraph) (start : TxnId) : Option (List TxnId) :=
  CycleSearch.cycleFrom self.neighbors self.targets start

def detectCycle (self : WaitForGraph) (order : IterOrder TxnId (List TxnId)) :
    Option (List TxnId) :=
  (order.keys self.edges).findSome? self.cycleFrom

def pickVictim (cycle : List TxnId) (policy : VictimPolicy) : Option TxnId :=
  match policy with
  | .youngest => cycle.max?
  | .oldest => cycle.min?

def Waits (self : WaitForGraph) (a b : TxnId) : Prop := b ∈ self.neighbors a

theorem mem_targets (self : WaitForGraph) (v : TxnId) :
    ∀ w ∈ self.neighbors v, w ∈ self.targets := by
  intro w hw
  have hv : v ∈ self.edges := by
    rw [Finmap.mem_iff]
    cases h : self.edges.lookup v with
    | none => simp [neighbors, list, h] at hw
    | some l => exact ⟨l, rfl⟩
  exact Finset.mem_biUnion.mpr ⟨v, Finmap.mem_keys.mpr hv, List.mem_toFinset.mpr hw⟩

/-- The search sees the graph only through the successor lists. -/
theorem cycleFrom_congr {graph graph' : WaitForGraph} (h : graph.neighbors = graph'.neighbors)
    (start : TxnId) : graph.cycleFrom start = graph'.cycleFrom start := by
  have hsub : ∀ g g' : WaitForGraph, g.neighbors = g'.neighbors → g.targets ⊆ g'.targets := by
    intro g g' hgg v hv
    obtain ⟨node, _, hnode⟩ := Finset.mem_biUnion.mp hv
    rw [hgg, List.mem_toFinset] at hnode
    exact g'.mem_targets node v hnode
  have htargets : graph.targets = graph'.targets :=
    Finset.Subset.antisymm (hsub _ _ h) (hsub _ _ h.symm)
  rw [cycleFrom, cycleFrom, h, htargets]

theorem neighbors_new (v : TxnId) : new.neighbors v = [] := list_empty v

theorem neighbors_addWait (self : WaitForGraph) (waiter holder v : TxnId) :
    (self.addWait waiter holder).neighbors v =
      if v = waiter ∧ waiter ≠ holder then self.neighbors v ++ [holder] else self.neighbors v := by
  unfold addWait neighbors
  split
  · next h => simp [h]
  · next h =>
    rw [list_push]
    by_cases hv : v = waiter <;> simp [hv, h]

theorem neighbors_addWaits (self : WaitForGraph) (waiter : TxnId) (holders : List TxnId)
    (v : TxnId) :
    (self.addWaits waiter holders).neighbors v =
      if v = waiter then self.neighbors v ++ holders.filter (fun h => h ≠ waiter)
      else self.neighbors v := by
  unfold addWaits
  induction holders generalizing self with
  | nil => simp
  | cons h hs ih =>
    rw [List.foldl_cons, ih, neighbors_addWait]
    by_cases hv : v = waiter
    · by_cases hh : h = waiter
      · simp [hv, hh]
      · simp [hv, hh, Ne.symm hh]
    · simp [hv]

theorem neighbors_clearWaiter (self : WaitForGraph) (waiter v : TxnId) :
    (self.clearWaiter waiter).neighbors v = if v = waiter then [] else self.neighbors v :=
  list_erase self.edges waiter v

theorem neighbors_removeTxn (self : WaitForGraph) (txn v : TxnId) :
    (self.removeTxn txn).neighbors v =
      if v = txn then [] else (self.neighbors v).filter fun h => h ≠ txn := by
  simp only [removeTxn, neighbors, list, lookup_mapValues, lookup_erase_eq]
  by_cases hv : v = txn
  · simp [hv]
  · cases hl : self.edges.lookup v with
    | none => simp [hv]
    | some l => simp [hv]

section Exactness
variable (self : WaitForGraph)

theorem cycleFrom_some {start : TxnId} {c : List TxnId} (h : self.cycleFrom start = some c) :
    IsCycle self.Waits c ∧ c.Nodup ∧ ∀ v ∈ c, Relation.ReflTransGen self.Waits start v := by
  have hanswer := CycleSearch.cycleFrom_answer self.mem_targets start
  change CycleSearch.Answer _ _ (self.cycleFrom start) at hanswer
  rw [h] at hanswer
  exact hanswer

theorem cycleFrom_none {start : TxnId} (h : self.cycleFrom start = none) {c : List TxnId}
    (hc : IsCycle self.Waits c) {v : TxnId} (hv : v ∈ c) :
    ¬ Relation.ReflTransGen self.Waits start v := by
  have hanswer := CycleSearch.cycleFrom_answer self.mem_targets start
  change CycleSearch.Answer _ _ (self.cycleFrom start) at hanswer
  rw [h] at hanswer
  exact fun hreach => hanswer v hreach (hc.transGen_self hv)

theorem cycleFrom_head {start : TxnId} {c : List TxnId} (h : self.cycleFrom start = some c)
    (hstart : start ∈ c) : c.head? = some start :=
  CycleSearch.cycleFrom_head self.mem_targets h hstart

variable (order : IterOrder TxnId (List TxnId))

theorem detectCycle_some {c : List TxnId} (h : self.detectCycle order = some c) :
    IsCycle self.Waits c ∧ c.Nodup := by
  obtain ⟨start, _, hstart⟩ := List.exists_of_findSome?_eq_some h
  obtain ⟨hc, hnodup, _⟩ := self.cycleFrom_some hstart
  exact ⟨hc, hnodup⟩

/-- Every member of a cycle has an edge and is therefore a key the scan starts from. -/
theorem detectCycle_none (h : self.detectCycle order = none) : Acyclic self.Waits := by
  intro c hc
  obtain ⟨v, hv⟩ := List.exists_mem_of_ne_nil c hc.ne_nil
  obtain ⟨w, _, hw⟩ := hc.exists_succ hv
  have hkey : v ∈ self.edges := by
    rw [Finmap.mem_iff]
    cases hl : self.edges.lookup v with
    | none => simp [Waits, neighbors, list, hl] at hw
    | some l => exact ⟨l, rfl⟩
  have hnone := List.findSome?_eq_none_iff.mp h v ((order.mem_keys _ _).mpr hkey)
  exact self.cycleFrom_none hnone hc hv .refl

theorem detectCycle_some_iff :
    (∃ c, self.detectCycle order = some c) ↔ ∃ c, IsCycle self.Waits c := by
  constructor
  · rintro ⟨c, hc⟩
    exact ⟨c, (self.detectCycle_some order hc).1⟩
  · rintro ⟨c, hc⟩
    cases hfound : self.detectCycle order with
    | none => exact absurd hc (self.detectCycle_none order hfound c)
    | some c' => exact ⟨c', rfl⟩

end Exactness

theorem two_le_length {R : TxnId → TxnId → Prop} (hirr : ∀ a, ¬ R a a) {c : List TxnId}
    (hc : IsCycle R c) : 2 ≤ c.length := by
  rcases c with _ | ⟨a, _ | ⟨b, l⟩⟩
  · exact False.elim hc
  · have haa : R a a := by simpa [IsCycle] using hc
    exact absurd haa (hirr a)
  · simp

/-- The youngest member of a cycle of distinct transactions is older than no
member and younger than some. -/
theorem pickVictim_youngest {c : List TxnId} (hnodup : c.Nodup) (hlen : 2 ≤ c.length) :
    ∃ victim, pickVictim c .youngest = some victim ∧ victim ∈ c ∧ (∀ t ∈ c, t ≤ victim) ∧
      ∃ t ∈ c, t < victim := by
  cases hmax : c.max? with
  | none =>
    have hnil : c = [] := List.max?_eq_none_iff.mp hmax
    simp [hnil] at hlen
  | some victim =>
    obtain ⟨hmem, hle⟩ := List.max?_eq_some_iff.mp hmax
    refine ⟨victim, hmax, hmem, hle, ?_⟩
    by_contra hno
    have heq : ∀ t ∈ c, t = victim := by
      intro t ht
      by_contra hne
      exact hno ⟨t, ht, lt_of_le_of_ne (hle t ht) hne⟩
    rcases c with _ | ⟨a, _ | ⟨b, l⟩⟩
    · simp at hlen
    · simp at hlen
    · have hab : a = b := (heq a (by simp)).trans (heq b (by simp)).symm
      simp [hab] at hnodup

end WaitForGraph

/-- The calls that change a graph. -/
inductive GraphOp where
  | addWait (waiter holder : TxnId)
  | addWaits (waiter : TxnId) (holders : List TxnId)
  | clearWaiter (waiter : TxnId)
  | removeTxn (txn : TxnId)

namespace WaitForGraph

def apply (self : WaitForGraph) : GraphOp → WaitForGraph
  | .addWait waiter holder => self.addWait waiter holder
  | .addWaits waiter holders => self.addWaits waiter holders
  | .clearWaiter waiter => self.clearWaiter waiter
  | .removeTxn txn => self.removeTxn txn

/-- The graph after a sequence of calls on an empty one. -/
def built (ops : List GraphOp) : WaitForGraph := ops.foldl apply new

theorem apply_irrefl {self : WaitForGraph} (h : ∀ t, ¬ self.Waits t t) (op : GraphOp) (t : TxnId) :
    ¬ (self.apply op).Waits t t := by
  have hold : t ∉ self.neighbors t := h t
  unfold Waits
  cases op with
  | addWait waiter holder =>
    rw [apply, neighbors_addWait]
    split
    · next heq =>
      obtain ⟨rfl, hne⟩ := heq
      simp [hold, hne]
    · exact hold
  | addWaits waiter holders =>
    rw [apply, neighbors_addWaits]
    split
    · next heq =>
      subst heq
      simp [hold]
    · exact hold
  | clearWaiter waiter =>
    rw [apply, neighbors_clearWaiter]
    split
    · simp
    · exact hold
  | removeTxn txn =>
    rw [apply, neighbors_removeTxn]
    split
    · simp
    · exact fun hm => hold (List.mem_of_mem_filter hm)

theorem built_irrefl (ops : List GraphOp) (t : TxnId) : ¬ (built ops).Waits t t := by
  have hrun : ∀ self : WaitForGraph, (∀ u, ¬ self.Waits u u) →
      ∀ u, ¬ (ops.foldl apply self).Waits u u := by
    induction ops with
    | nil =>
      intro self h
      exact h
    | cons op ops ih =>
      intro self h
      exact ih (self.apply op) (apply_irrefl h op)
  apply hrun new
  intro u
  simp [Waits, neighbors_new]

end WaitForGraph

/-- The search is exact on every graph that can be built, from every start and in every
iteration order. -/
theorem cycle_search_exact (ops : List GraphOp) :
    let graph := WaitForGraph.built ops
    (∀ start, ((∃ c, graph.cycleFrom start = some c) ↔
        ∃ c, IsCycle graph.Waits c ∧ ∃ v ∈ c, Relation.ReflTransGen graph.Waits start v) ∧
      ∀ c, graph.cycleFrom start = some c → 2 ≤ c.length ∧ c.Nodup ∧ IsCycle graph.Waits c ∧
        ∀ v ∈ c, Relation.ReflTransGen graph.Waits start v) ∧
    ∀ order : IterOrder TxnId (List TxnId),
      (∃ c, graph.detectCycle order = some c) ↔ ∃ c, IsCycle graph.Waits c := by
  intro graph
  refine ⟨fun start => ⟨⟨?_, ?_⟩, ?_⟩, fun order => ⟨?_, ?_⟩⟩
  · intro hfound
    obtain ⟨c, hc⟩ := hfound
    obtain ⟨hcycle, _, hreach⟩ := graph.cycleFrom_some hc
    obtain ⟨v, hv⟩ := List.exists_mem_of_ne_nil c hcycle.ne_nil
    exact ⟨c, hcycle, v, hv, hreach v hv⟩
  · intro hcycle
    obtain ⟨c, hc, v, hv, hreach⟩ := hcycle
    cases hfound : graph.cycleFrom start with
    | none => exact absurd hreach (graph.cycleFrom_none hfound hc hv)
    | some c' => exact ⟨c', rfl⟩
  · intro c hc
    obtain ⟨hcycle, hnodup, hreach⟩ := graph.cycleFrom_some hc
    have htwo := WaitForGraph.two_le_length (WaitForGraph.built_irrefl ops) hcycle
    exact ⟨htwo, hnodup, hcycle, hreach⟩
  · intro hfound
    obtain ⟨c, hc⟩ := hfound
    exact ⟨c, (graph.detectCycle_some order hc).1⟩
  · intro hcycle
    obtain ⟨c, hc⟩ := hcycle
    cases hfound : graph.detectCycle order with
    | none => exact absurd hc (graph.detectCycle_none order hfound c)
    | some c' => exact ⟨c', rfl⟩

/-- The loop of a search ends on every graph and from every start, and no turn of it
meets a vertex that is marked as on the path but missing there. -/
theorem search_loop_consistent (graph : WaitForGraph) (start : TxnId) :
    let size := CycleSearch.size graph.neighbors graph.targets
    CycleSearch.loop graph.neighbors (size (.init start) + 1) (.init start) =
      some (graph.cycleFrom start) ∧
    ∀ pushed s, CycleSearch.Turns graph.neighbors start pushed s →
      (∀ next, CycleSearch.turn graph.neighbors s = .next next → size next < size s) ∧
      pushed.Nodup ∧ (∀ v, v ∈ pushed ↔ s.mark v ≠ 0) ∧
      s.path = s.stack.map Prod.fst ∧ s.path.Nodup ∧ (∀ v, s.mark v = 1 ↔ v ∈ s.path) ∧
      ∀ v, s.mark v = 1 → s.path.findFinIdx? (fun t => t = v) ≠ none := by
  intro size
  refine ⟨CycleSearch.loop_eq_cycleFrom graph.mem_targets start, ?_⟩
  intro pushed s hturns
  have hinv := hturns.inv
  refine ⟨?_, hturns.pushed_once.1, hturns.pushed_once.2, hinv.path_eq, hinv.nodup,
    hinv.onPath, ?_⟩
  · intro next hnext
    exact CycleSearch.size_decreases graph.mem_targets hnext
  · intro v hv
    exact hinv.path_found hv

end LockDb
