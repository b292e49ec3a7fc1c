import LockDb.Deadlock
import LockDb.Shared.Kahn

/-!
# The reference search of the property tests

The tests hold `detect_cycle` against Kahn's algorithm, which shares nothing with it: it
counts edges and strips vertices, and never follows a path. On every list of edges the two
give the same answer.
-/

namespace LockDb

set_option autoImplicit false

open Shared Shared.Multimap

/-- The tables `has_cycle` fills from the edges. A vertex without an entry in `indeg` has
no edge into it. -/
structure EdgeTables where
  adj : HashMap UInt64 (List UInt64)
  indeg : UInt64 → Nat
  nodes : HashMap UInt64 Unit

namespace EdgeTables

def new : EdgeTables := ⟨∅, fun _ => 0, ∅⟩

def add (t : EdgeTables) (edge : UInt64 × UInt64) : EdgeTables :=
  let (a, b) := edge
  if a = b then t
  else
    { adj := push t.adj a b
      indeg := Function.update t.indeg b (t.indeg b + 1)
      nodes := (t.nodes.insert a ()).insert b () }

end EdgeTables

/-- `order` is the iteration order of the set of vertices, `fuel` bounds the loop. -/
def hasCycle (order : IterOrder UInt64 Unit) (fuel : Nat) (edges : List (UInt64 × UInt64)) :
    Option Bool :=
  let t := edges.foldl EdgeTables.add .new
  let queue := (order.keys t.nodes).filter fun n => t.indeg n = 0
  (Kahn.loop (list t.adj) fuel ⟨t.indeg, queue, 0⟩).map fun removed =>
    removed ≠ t.nodes.keys.card

/-- What the tables and the wait-for graph have in common after some edges. -/
structure Tallied (edges : List (UInt64 × UInt64)) (t : EdgeTables) (graph : WaitForGraph) :
    Prop where
  neighbors : ∀ v, graph.neighbors ⟨v⟩ = (list t.adj v).map TxnId.mk
  listed : ∀ a b, b ∈ list t.adj a ↔ (a, b) ∈ edges ∧ a ≠ b
  nodes : ∀ a, ∀ b ∈ list t.adj a, a ∈ t.nodes.keys ∧ b ∈ t.nodes.keys
  size : t.nodes.keys.card ≤ 2 * edges.length
  indeg : ∀ s, t.nodes.keys ⊆ s → ∀ v, t.indeg v = Kahn.edgesInto (list t.adj) s v

theorem tallied_new : Tallied [] .new .new where
  neighbors v := by simp [WaitForGraph.neighbors_new, EdgeTables.new, list_empty]
  listed a b := by simp [EdgeTables.new, list_empty]
  nodes a b hb := by simp [EdgeTables.new, list_empty] at hb
  size := by simp [EdgeTables.new]
  indeg s _ v := by simp [EdgeTables.new, list_empty, Kahn.edgesInto]

theorem Tallied.add {edges : List (UInt64 × UInt64)} {t : EdgeTables} {graph : WaitForGraph}
    (h : Tallied edges t graph) (edge : UInt64 × UInt64) :
    Tallied (edges ++ [edge]) (t.add edge) (graph.addWait ⟨edge.1⟩ ⟨edge.2⟩) := by
  obtain ⟨a, b⟩ := edge
  by_cases hab : a = b
  · subst hab
    have hadd : t.add (a, a) = t := by simp [EdgeTables.add]
    have hwait : graph.addWait ⟨a⟩ ⟨a⟩ = graph := by simp [WaitForGraph.addWait]
    rw [hadd, hwait]
    have hsize : t.nodes.keys.card ≤ 2 * (edges ++ [(a, a)]).length := by
      have hold := h.size
      rw [List.length_append]
      omega
    refine ⟨h.neighbors, fun u v => ?_, h.nodes, hsize, h.indeg⟩
    rw [h.listed, List.mem_append, List.mem_singleton, Prod.mk.injEq]
    constructor
    · exact fun hmem => ⟨.inl hmem.1, hmem.2⟩
    · rintro ⟨hmem | ⟨rfl, rfl⟩, hne⟩
      · exact ⟨hmem, hne⟩
      · exact absurd rfl hne
  · have hadj : ∀ v, list (t.add (a, b)).adj v =
        if v = a then list t.adj v ++ [b] else list t.adj v := by
      intro v
      simp only [EdgeTables.add, if_neg hab, list_push]
      by_cases hv : v = a <;> simp [hv]
    have hkeys : (t.add (a, b)).nodes.keys = insert b (insert a t.nodes.keys) := by
      ext v
      simp [EdgeTables.add, hab, Finmap.mem_keys, Finmap.mem_insert]
    have hmem : ∀ u v, v ∈ list (t.add (a, b)).adj u ↔ v ∈ list t.adj u ∨ u = a ∧ v = b := by
      intro u v
      rw [hadj]
      by_cases hu : u = a <;> simp [hu]
    refine ⟨fun v => ?_, fun u v => ?_, fun u v hv => ?_, ?_, fun s hs v => ?_⟩
    · rw [WaitForGraph.neighbors_addWait, h.neighbors, hadj]
      by_cases hv : v = a <;> simp [hv, hab]
    · rw [hmem, h.listed, List.mem_append, List.mem_singleton, Prod.mk.injEq]
      constructor
      · rintro (⟨hold, hne⟩ | ⟨rfl, rfl⟩)
        · exact ⟨.inl hold, hne⟩
        · exact ⟨.inr ⟨rfl, rfl⟩, hab⟩
      · rintro ⟨hold | hlast, hne⟩
        · exact .inl ⟨hold, hne⟩
        · exact .inr hlast
    · rw [hkeys]
      rcases (hmem u v).mp hv with hold | ⟨rfl, rfl⟩
      · obtain ⟨hu, hv⟩ := h.nodes u v hold
        simp [hu, hv]
      · simp
    · have hold := h.size
      have hb := Finset.card_insert_le b (insert a t.nodes.keys)
      have ha := Finset.card_insert_le a t.nodes.keys
      rw [hkeys, List.length_append, List.length_singleton]
      omega
    · rw [hkeys] at hs
      have ha : a ∈ s := hs (by simp)
      have hsub : t.nodes.keys ⊆ s := fun w hw => hs (by simp [hw])
      rw [Kahn.edgesInto_snoc ha hadj, ← h.indeg s hsub]
      by_cases hv : v = b
      · simp [EdgeTables.add, hab, hv]
      · simp [EdgeTables.add, hab, hv]

theorem tallied_foldl (edges : List (UInt64 × UInt64)) :
    Tallied edges (edges.foldl EdgeTables.add .new)
      (WaitForGraph.built (edges.map fun e => .addWait ⟨e.1⟩ ⟨e.2⟩)) := by
  induction edges using List.reverseRecOn with
  | nil => exact tallied_new
  | append_singleton edges last ih =>
    have hstep := ih.add last
    simpa [WaitForGraph.built, WaitForGraph.apply] using hstep

section Agreement
variable {edges : List (UInt64 × UInt64)} {t : EdgeTables} {graph : WaitForGraph}

theorem Tallied.waits_iff (h : Tallied edges t graph) (a b : TxnId) :
    graph.Waits a b ↔ Kahn.Edge (list t.adj) a.id b.id := by
  change b ∈ graph.neighbors ⟨a.id⟩ ↔ b.id ∈ list t.adj a.id
  rw [h.neighbors, List.mem_map]
  constructor
  · rintro ⟨v, hv, rfl⟩
    exact hv
  · exact fun hb => ⟨b.id, hb, rfl⟩

theorem Tallied.isCycle_iff (h : Tallied edges t graph) :
    (∃ c, IsCycle graph.Waits c) ↔ ∃ c, IsCycle (Kahn.Edge (list t.adj)) c := by
  constructor
  · rintro ⟨c, hc⟩
    exact ⟨c.map TxnId.id, hc.map fun a b => (h.waits_iff a b).mp⟩
  · rintro ⟨c, hc⟩
    exact ⟨c.map TxnId.mk, hc.map fun a b => (h.waits_iff ⟨a⟩ ⟨b⟩).mpr⟩

/-- The queue starts with the vertices nothing points to. -/
theorem Tallied.inv (h : Tallied edges t graph) (order : IterOrder UInt64 Unit) :
    Kahn.Inv (list t.adj) t.nodes.keys t.nodes.keys
      ⟨t.indeg, (order.keys t.nodes).filter fun n => t.indeg n = 0, 0⟩ where
  removed := Nat.zero_add _
  nodup := (order.nodup t.nodes).filter _
  indeg v := h.indeg _ (Finset.Subset.refl _) v
  queued v := by simp [order.mem_keys, Finmap.mem_keys]
  gone v hv hgone := absurd hv hgone
  offCycle v hv hgone := absurd hv hgone

end Agreement

/-- For every list of edges and in all iteration orders the reference search ends, says that
there is a cycle exactly when `detect_cycle` finds one, and what `detect_cycle` finds is a
cycle of listed edges. -/
theorem search_agrees_with_kahn (edges : List (UInt64 × UInt64)) (order : IterOrder UInt64 Unit)
    (keyOrder : IterOrder TxnId (List TxnId)) :
    let graph := WaitForGraph.built (edges.map fun e => .addWait ⟨e.1⟩ ⟨e.2⟩)
    hasCycle order (2 * edges.length + 1) edges = some (graph.detectCycle keyOrder).isSome ∧
      ∀ c, graph.detectCycle keyOrder = some c →
        IsCycle (fun a b : TxnId => (a.id, b.id) ∈ edges ∧ a ≠ b) c := by
  intro graph
  have h := tallied_foldl edges
  refine ⟨?_, fun c hc => ?_⟩
  · obtain ⟨removed, hloop, hremoved⟩ :=
      (h.inv order).loop_ends h.nodes (Nat.lt_succ_of_le h.size)
    have hfound : (graph.detectCycle keyOrder).isSome = true ↔
        removed ≠ (edges.foldl EdgeTables.add .new).nodes.keys.card := by
      rw [hremoved, ← h.isCycle_iff, Option.isSome_iff_exists]
      exact graph.detectCycle_some_iff keyOrder
    simp only [hasCycle, hloop, Option.map_some, Option.some.injEq]
    rw [Bool.eq_iff_iff, hfound, decide_eq_true_iff]
  · refine (graph.detectCycle_some keyOrder hc).1.imp fun a b hab => ?_
    obtain ⟨hmem, hne⟩ := (h.listed a.id b.id).mp ((h.waits_iff a b).mp hab)
    exact ⟨hmem, fun e => hne (congrArg TxnId.id e)⟩

end LockDb
