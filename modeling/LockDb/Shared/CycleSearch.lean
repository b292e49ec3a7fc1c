import LockDb.Shared.Multimap
import LockDb.Shared.Cycle
import Mathlib.Algebra.BigOperators.Group.Finset.Basic
import Mathlib.Algebra.GroupWithZero.Nat
import Mathlib.Algebra.Order.BigOperators.Group.Finset

/-!
# Iterative three-colour depth-first search for a cycle

The search runs over a successor function. Mark `0` is unvisited, `1` is on the
current path and `2` is fully explored. One turn of the loop examines the next
successor of the top frame or pops that frame; the loop itself only counts turns.
-/

namespace Shared.CycleSearch

set_option autoImplicit false

universe u
variable {V : Type u} [DecidableEq V]

structure Search (V : Type u) where
  state : HashMap V Nat
  path : List V
  stack : List (V × Nat)

namespace Search

def init (start : V) : Search V where
  state := (∅ : HashMap V Nat).insert start 1
  path := [start]
  stack := [(start, 0)]

/-- The mark of a vertex; a vertex without an entry is unvisited. -/
def mark (s : Search V) (v : V) : Nat := (s.state.lookup v).getD 0

end Search

inductive Turn (V : Type u) where
  | next (s : Search V)
  | done (answer : Option (List V))

def turn (nbrs : V → List V) (s : Search V) : Turn V :=
  match s.stack.getLast? with
  | none => .done none
  | some (node, idx) =>
    let neighbors := nbrs node
    if h : idx < neighbors.length then
      let stack := s.stack.dropLast ++ [(node, idx + 1)]
      let next := neighbors[idx]
      match s.mark next with
      | 1 =>
        match s.path.findFinIdx? (fun t => t = next) with
        | some pos => .done (some (s.path.drop pos))
        | none => .next { s with stack := stack }
      | 0 => .next
          { state := s.state.insert next 1
            path := s.path ++ [next]
            stack := stack ++ [(next, 0)] }
      | _ => .next { s with stack := stack }
    else .next
      { state := s.state.insert node 2, path := s.path.dropLast, stack := s.stack.dropLast }

/-- At most `fuel` turns; `none` when they do not suffice. -/
def loop (nbrs : V → List V) : Nat → Search V → Option (Option (List V))
  | 0, _ => none
  | fuel + 1, s =>
    match turn nbrs s with
    | .done answer => some answer
    | .next s' => loop nbrs fuel s'

/-- Unvisited vertices with their successors, and what the frames still have to examine. -/
def size (nbrs : V → List V) (verts : Finset V) (s : Search V) : Nat :=
  (∑ v ∈ verts with s.mark v = 0, ((nbrs v).length + 2)) +
    (s.stack.map fun f => (nbrs f.1).length - f.2 + 1).sum

/-- The search from `start`; the size of its first state bounds its turns. -/
def cycleFrom (nbrs : V → List V) (verts : Finset V) (start : V) : Option (List V) :=
  (loop nbrs (size nbrs verts (.init start) + 1) (.init start)).join

section Mark
variable (s : Search V) (v w : V)

@[simp] theorem mark_insert (n : Nat) (p : List V) (st : List (V × Nat)) :
    (Search.mark ⟨s.state.insert v n, p, st⟩ w) = if w = v then n else s.mark w := by
  simp only [Search.mark, lookup_insert_eq]
  split <;> simp

theorem mark_init : (Search.init v).mark w = if w = v then 1 else 0 := by
  simp only [Search.mark, Search.init, lookup_insert_eq]
  split <;> simp

end Mark

/-- Everything one turn can do, by the frame on top of the stack. -/
inductive TurnCase (nbrs : V → List V) (s : Search V) : Turn V → Prop where
  | finished (h : s.stack = []) : TurnCase nbrs s (.done none)
  | backEdge {frames : List (V × Nat)} {node next : V} {idx : Nat} {pos : Fin s.path.length}
      (hs : s.stack = frames ++ [(node, idx)]) (hn : (nbrs node)[idx]? = some next)
      (hm : s.mark next = 1) (hpos : s.path.findFinIdx? (fun t => t = next) = some pos) :
      TurnCase nbrs s (.done (some (s.path.drop pos)))
  | lost {frames : List (V × Nat)} {node next : V} {idx : Nat}
      (hs : s.stack = frames ++ [(node, idx)]) (hn : (nbrs node)[idx]? = some next)
      (hm : s.mark next = 1) (hpos : s.path.findFinIdx? (fun t => t = next) = none) :
      TurnCase nbrs s (.next { s with stack := frames ++ [(node, idx + 1)] })
  | push {frames : List (V × Nat)} {node next : V} {idx : Nat}
      (hs : s.stack = frames ++ [(node, idx)]) (hn : (nbrs node)[idx]? = some next)
      (hm : s.mark next = 0) :
      TurnCase nbrs s (.next
        { state := s.state.insert next 1, path := s.path ++ [next],
          stack := frames ++ [(node, idx + 1)] ++ [(next, 0)] })
  | skip {frames : List (V × Nat)} {node next : V} {idx : Nat}
      (hs : s.stack = frames ++ [(node, idx)]) (hn : (nbrs node)[idx]? = some next)
      (hm : s.mark next ≠ 0 ∧ s.mark next ≠ 1) :
      TurnCase nbrs s (.next { s with stack := frames ++ [(node, idx + 1)] })
  | pop {frames : List (V × Nat)} {node : V} {idx : Nat}
      (hs : s.stack = frames ++ [(node, idx)]) (hi : (nbrs node).length ≤ idx) :
      TurnCase nbrs s (.next
        { state := s.state.insert node 2, path := s.path.dropLast, stack := frames })

theorem turn_cases (nbrs : V → List V) (s : Search V) : TurnCase nbrs s (turn nbrs s) := by
  rcases List.eq_nil_or_concat s.stack with hs | ⟨frames, ⟨node, idx⟩, hs⟩
  · have ht : turn nbrs s = .done none := by simp [turn, hs]
    rw [ht]
    exact .finished hs
  · rw [List.concat_eq_append] at hs
    have hlast : s.stack.getLast? = some (node, idx) := by simp [hs]
    have hdrop : s.stack.dropLast = frames := by simp [hs]
    unfold turn
    simp only [hlast, hdrop]
    split
    · next h =>
      have hn : (nbrs node)[idx]? = some (nbrs node)[idx] := List.getElem?_eq_getElem h
      split
      · next hm =>
        split
        · next pos hpos => exact .backEdge hs hn hm hpos
        · next hpos => exact .lost hs hn hm hpos
      · next hm => exact .push hs hn hm
      · next h1 h0 => exact .skip hs hn ⟨h0, h1⟩
    · next h => exact .pop hs (Nat.le_of_not_lt h)

section Termination
variable {nbrs : V → List V} {verts : Finset V}

theorem size_setStack (s : Search V) (stack : List (V × Nat)) :
    size nbrs verts { s with stack := stack } =
      (∑ v ∈ verts with s.mark v = 0, ((nbrs v).length + 2)) +
        (stack.map fun f => (nbrs f.1).length - f.2 + 1).sum := rfl

theorem size_decreases (hverts : ∀ v, ∀ w ∈ nbrs v, w ∈ verts) {s s' : Search V}
    (h : turn nbrs s = .next s') : size nbrs verts s' < size nbrs verts s := by
  have hc := turn_cases nbrs s
  rw [h] at hc
  have advance : ∀ {frames : List (V × Nat)} {node next : V} {idx : Nat},
      s.stack = frames ++ [(node, idx)] → (nbrs node)[idx]? = some next →
      size nbrs verts { s with stack := frames ++ [(node, idx + 1)] } < size nbrs verts s := by
    intro frames node next idx hs hn
    obtain ⟨hlt, _⟩ := List.getElem?_eq_some_iff.mp hn
    rw [size_setStack, size, hs]
    simp only [List.map_append, List.map_cons, List.map_nil, List.sum_append, List.sum_cons,
      List.sum_nil]
    omega
  cases hc with
  | lost hs hn _ _ => exact advance hs hn
  | skip hs hn _ => exact advance hs hn
  | @push frames node next idx hs hn hm =>
    obtain ⟨hlt, hget⟩ := List.getElem?_eq_some_iff.mp hn
    have hmem : next ∈ {v ∈ verts | s.mark v = 0} := by
      rw [Finset.mem_filter]
      exact ⟨hverts node next (hget ▸ List.getElem_mem hlt), hm⟩
    have hset : ({v ∈ verts | (if v = next then 1 else s.mark v) = 0} : Finset V) =
        ({v ∈ verts | s.mark v = 0} : Finset V).erase next := by
      ext v
      by_cases hv : v = next <;> simp [hv]
    have hsum := Finset.add_sum_erase _ (fun v => (nbrs v).length + 2) hmem
    simp only [size, mark_insert, hs, hset, List.map_append, List.map_cons, List.map_nil,
      List.sum_append, List.sum_cons, List.sum_nil]
    omega
  | @pop frames node idx hs hi =>
    have hle : (∑ v ∈ verts with (if v = node then 2 else s.mark v) = 0, ((nbrs v).length + 2)) ≤
        ∑ v ∈ verts with s.mark v = 0, ((nbrs v).length + 2) := by
      apply Finset.sum_le_sum_of_subset
      intro v hv
      rw [Finset.mem_filter] at hv ⊢
      by_cases hvn : v = node
      · simp [hvn] at hv
      · simpa [hvn] using hv
    simp only [size, mark_insert, hs, List.map_append, List.map_cons, List.map_nil,
      List.sum_append, List.sum_cons, List.sum_nil]
    omega

theorem loop_terminates (hverts : ∀ v, ∀ w ∈ nbrs v, w ∈ verts) {fuel : Nat} {s : Search V}
    (h : size nbrs verts s < fuel) : ∃ answer, loop nbrs fuel s = some answer := by
  induction fuel generalizing s with
  | zero => omega
  | succ fuel ih =>
    cases ht : turn nbrs s with
    | done answer => exact ⟨answer, by simp [loop, ht]⟩
    | next s' =>
      obtain ⟨answer, hanswer⟩ := @ih s' (by have := size_decreases hverts ht; omega)
      exact ⟨answer, by simp [loop, ht, hanswer]⟩

theorem loop_eq_cycleFrom (hverts : ∀ v, ∀ w ∈ nbrs v, w ∈ verts) (start : V) :
    loop nbrs (size nbrs verts (.init start) + 1) (.init start) =
      some (cycleFrom nbrs verts start) := by
  obtain ⟨answer, h⟩ := loop_terminates hverts (Nat.lt_succ_self (size nbrs verts (.init start)))
  simp only [cycleFrom, Nat.succ_eq_add_one] at h ⊢
  rw [h, Option.join_some]

end Termination

section Correctness
variable (nbrs : V → List V)

def Edge (v w : V) : Prop := w ∈ nbrs v

def Reach (v w : V) : Prop := Relation.ReflTransGen (Edge nbrs) v w

/-- A frame stands below the frame of one of its successors, and all other
successors it has examined are fully explored. -/
def Below (s : Search V) (a b : V × Nat) : Prop :=
  b.1 ∈ nbrs a.1 ∧ ∀ w ∈ (nbrs a.1).take a.2, s.mark w = 2 ∨ w = b.1

structure Inv (start : V) (s : Search V) : Prop where
  path_eq : s.path = s.stack.map Prod.fst
  nodup : s.path.Nodup
  onPath : ∀ v, s.mark v = 1 ↔ v ∈ s.path
  mark_le : ∀ v, s.mark v ≤ 2
  started : s.mark start ≠ 0
  seen : ∀ v, s.mark v ≠ 0 → Reach nbrs start v
  frames : s.stack.IsChain (Below nbrs s)
  top : ∀ f ∈ s.stack.getLast?, ∀ w ∈ (nbrs f.1).take f.2, s.mark w = 2
  closed : ∀ v, s.mark v = 2 → ∀ w ∈ nbrs v, s.mark w = 2
  noCycle : ∀ v, s.mark v = 2 → ¬ Relation.TransGen (Edge nbrs) v v

variable {nbrs} {start : V} {s s' : Search V}

theorem Inv.reach_explored (h : Inv nbrs start s) {v w : V} (hv : s.mark v = 2)
    (hvw : Reach nbrs v w) : s.mark w = 2 := by
  induction hvw with
  | refl => exact hv
  | tail _ hstep ih => exact h.closed _ ih _ hstep

theorem inv_init (nbrs : V → List V) (start : V) : Inv nbrs start (.init start) where
  path_eq := rfl
  nodup := by simp [Search.init]
  onPath v := by
    rw [mark_init]
    simp [Search.init]
  mark_le v := by
    rw [mark_init]
    split <;> omega
  started := by simp [mark_init]
  seen v hv := by
    rw [mark_init] at hv
    have hvs : v = start := by
      by_contra hne
      simp [hne] at hv
    exact hvs ▸ .refl
  frames := by simp [Search.init]
  top := by simp [Search.init]
  closed v hv := by
    rw [mark_init] at hv
    split at hv <;> omega
  noCycle v hv := by
    rw [mark_init] at hv
    split at hv <;> omega

section TopFrame
variable {frames : List (V × Nat)} {node next : V} {idx : Nat}

theorem Inv.node_mem (h : Inv nbrs start s) (hs : s.stack = frames ++ [(node, idx)]) :
    node ∈ s.path := by
  rw [h.path_eq, hs]
  simp

theorem Inv.take_succ (h : Inv nbrs start s) (hs : s.stack = frames ++ [(node, idx)])
    (hn : (nbrs node)[idx]? = some next) :
    ∀ w ∈ (nbrs node).take (idx + 1), s.mark w = 2 ∨ w = next := by
  intro w hw
  rw [List.take_add_one, hn] at hw
  rcases List.mem_append.mp hw with hw | hw
  · exact .inl (h.top (node, idx) (by simp [hs]) w hw)
  · exact .inr (by simpa using hw)

theorem Inv.frames_setTop (h : Inv nbrs start s) (hs : s.stack = frames ++ [(node, idx)])
    (j : Nat) : (frames ++ [(node, j)]).IsChain (Below nbrs s) := by
  have hframes := h.frames
  rw [hs, List.isChain_append] at hframes
  rw [List.isChain_append]
  refine ⟨hframes.1, by simp, ?_⟩
  intro a ha b hb
  simp only [List.head?_cons, Option.mem_def, Option.some.injEq] at hb
  subst hb
  exact hframes.2.2 a ha (node, idx) (by simp)

theorem Inv.advance (h : Inv nbrs start s) (hs : s.stack = frames ++ [(node, idx)])
    (hn : (nbrs node)[idx]? = some next) (hm : s.mark next = 2) :
    Inv nbrs start { s with stack := frames ++ [(node, idx + 1)] } where
  path_eq := by simpa [hs] using h.path_eq
  nodup := h.nodup
  onPath := h.onPath
  mark_le := h.mark_le
  started := h.started
  seen := h.seen
  frames := h.frames_setTop hs _
  top := by
    intro f hf w hw
    simp only [List.getLast?_append, List.getLast?_singleton, Option.some_or, Option.mem_def,
      Option.some.injEq] at hf
    subst hf
    rcases h.take_succ hs hn w hw with hw | rfl
    · exact hw
    · exact hm
  closed := h.closed
  noCycle := h.noCycle

theorem Inv.push (h : Inv nbrs start s) (hs : s.stack = frames ++ [(node, idx)])
    (hn : (nbrs node)[idx]? = some next) (hm : s.mark next = 0) :
    Inv nbrs start
      { state := s.state.insert next 1, path := s.path ++ [next],
        stack := frames ++ [(node, idx + 1)] ++ [(next, 0)] } := by
  obtain ⟨hlt, hget⟩ := List.getElem?_eq_some_iff.mp hn
  have hedge : next ∈ nbrs node := hget ▸ List.getElem_mem hlt
  have hnotin : next ∉ s.path := by
    intro hp
    have := (h.onPath next).mpr hp
    omega
  have hkeep : ∀ v, s.mark v = 2 → (if v = next then 1 else s.mark v) = 2 := by
    intro v hv
    rw [if_neg, hv]
    intro hvn
    rw [hvn] at hv
    omega
  have hback : ∀ v, (if v = next then 1 else s.mark v) = 2 → s.mark v = 2 := by
    intro v hv
    split at hv
    · omega
    · exact hv
  constructor
  case path_eq =>
    simp [h.path_eq, hs]
  case nodup =>
    rw [List.nodup_append]
    refine ⟨h.nodup, by simp, ?_⟩
    intro a ha b hb hab
    rw [List.mem_singleton] at hb
    exact hnotin (hb ▸ hab ▸ ha)
  case onPath =>
    intro v
    rw [mark_insert, List.mem_append, List.mem_singleton, ← h.onPath v]
    by_cases hv : v = next <;> simp [hv]
  case mark_le =>
    intro v
    rw [mark_insert]
    split
    · omega
    · exact h.mark_le v
  case started =>
    rw [mark_insert]
    split
    · omega
    · exact h.started
  case seen =>
    intro v hv
    rw [mark_insert] at hv
    split at hv
    · next hvn =>
      have hnode : s.mark node = 1 := (h.onPath node).mpr (h.node_mem hs)
      exact hvn ▸ (h.seen node (by omega)).tail hedge
    · exact h.seen v hv
  case frames =>
    rw [List.isChain_append]
    refine ⟨?_, by simp, ?_⟩
    · refine (h.frames_setTop hs (idx + 1)).imp fun a b hab => ⟨hab.1, fun w hw => ?_⟩
      rw [mark_insert]
      exact (hab.2 w hw).imp_left (hkeep w)
    · intro a ha b hb
      simp only [List.getLast?_append, List.getLast?_singleton, Option.some_or, Option.mem_def,
        Option.some.injEq] at ha
      simp only [List.head?_cons, Option.mem_def, Option.some.injEq] at hb
      subst ha
      subst hb
      refine ⟨hedge, fun w hw => ?_⟩
      rw [mark_insert]
      exact (h.take_succ hs hn w hw).imp_left (hkeep w)
  case top =>
    intro f hf w hw
    simp only [List.getLast?_append, List.getLast?_singleton, Option.some_or, Option.mem_def,
      Option.some.injEq] at hf
    subst hf
    simp at hw
  case closed =>
    intro v hv w hw
    rw [mark_insert] at hv ⊢
    exact hkeep w (h.closed v (hback v hv) w hw)
  case noCycle =>
    intro v hv
    rw [mark_insert] at hv
    exact h.noCycle v (hback v hv)

/-- A popped frame has examined all its successors, so its vertex is fully explored. -/
theorem Inv.pop (h : Inv nbrs start s) (hs : s.stack = frames ++ [(node, idx)])
    (hi : (nbrs node).length ≤ idx) :
    Inv nbrs start
      { state := s.state.insert node 2, path := s.path.dropLast, stack := frames } := by
  have hpath : s.path = frames.map Prod.fst ++ [node] := by simpa [hs] using h.path_eq
  have hnode : s.mark node = 1 := (h.onPath node).mpr (h.node_mem hs)
  have hnbrs : ∀ w ∈ nbrs node, s.mark w = 2 := by
    intro w hw
    refine h.top (node, idx) (by simp [hs]) w ?_
    rwa [List.take_of_length_le hi]
  have hkeep : ∀ v, s.mark v = 2 → (if v = node then 2 else s.mark v) = 2 := by
    intro v hv
    split
    · rfl
    · exact hv
  have hnd := h.nodup
  rw [hpath, List.nodup_append] at hnd
  have hnotin : node ∉ frames.map Prod.fst := fun hm => hnd.2.2 node hm node (by simp) rfl
  constructor
  case path_eq =>
    simp [hpath]
  case nodup =>
    rw [hpath, List.dropLast_concat]
    exact hnd.1
  case onPath =>
    intro v
    rw [mark_insert, hpath, List.dropLast_concat]
    by_cases hv : v = node
    · simp [hv, hnotin]
    · have := h.onPath v
      rw [hpath] at this
      simp [hv, this]
  case mark_le =>
    intro v
    rw [mark_insert]
    split
    · omega
    · exact h.mark_le v
  case started =>
    rw [mark_insert]
    split
    · omega
    · exact h.started
  case seen =>
    intro v hv
    rw [mark_insert] at hv
    split at hv
    · next hvn => exact hvn ▸ h.seen node (by omega)
    · exact h.seen v hv
  case frames =>
    have hframes := h.frames
    rw [hs, List.isChain_append] at hframes
    refine hframes.1.imp fun a b hab => ⟨hab.1, fun w hw => ?_⟩
    rw [mark_insert]
    exact (hab.2 w hw).imp_left (hkeep w)
  case top =>
    intro f hf w hw
    rw [mark_insert]
    have hframes := h.frames
    rw [hs, List.isChain_append] at hframes
    rcases (hframes.2.2 f hf (node, idx) (by simp)).2 w hw with hw | hw
    · exact hkeep w hw
    · simp [hw]
  case closed =>
    intro v hv w hw
    rw [mark_insert] at hv ⊢
    split at hv
    · next hvn => exact hkeep w (hnbrs w (hvn ▸ hw))
    · exact hkeep w (h.closed v hv w hw)
  case noCycle =>
    intro v hv hcycle
    rw [mark_insert] at hv
    split at hv
    · next hvn =>
      -- a way back to the vertex would lead through explored vertices only
      obtain ⟨w, hw, hback⟩ := Relation.TransGen.head'_iff.mp hcycle
      have := h.reach_explored (hnbrs w (hvn ▸ hw)) hback
      rw [hvn] at this
      omega
    · exact h.noCycle v hv hcycle

/-- The path from the position of a vertex that is found again closes a cycle. -/
theorem Inv.backEdge (h : Inv nbrs start s) (hs : s.stack = frames ++ [(node, idx)])
    (hn : (nbrs node)[idx]? = some next) {pos : Fin s.path.length}
    (hpos : s.path.findFinIdx? (fun t => t = next) = some pos) :
    IsCycle (Edge nbrs) (s.path.drop pos) ∧ (s.path.drop pos).Nodup ∧
      ∀ v ∈ s.path.drop pos, Reach nbrs start v := by
  obtain ⟨hlt, hget⟩ := List.getElem?_eq_some_iff.mp hn
  have hedge : Edge nbrs node next := hget ▸ List.getElem_mem hlt
  obtain ⟨a, b, hsplit, hlen, hx, _⟩ := findFinIdx?_split hpos
  have hnext : s.path[pos] = next := by simpa using hx
  rw [hnext] at hsplit
  have hdrop : s.path.drop pos = next :: b := by
    rw [← hlen, hsplit, List.drop_left]
  have hchain : s.path.IsChain (Edge nbrs) := by
    rw [h.path_eq, List.isChain_map]
    exact h.frames.imp fun _ _ hab => hab.1
  refine ⟨?_, h.nodup.sublist (List.drop_sublist _ _), ?_⟩
  · have hlast : (next :: b).getLast? = some node := by
      have hp : s.path.getLast? = some node := by
        rw [h.path_eq, hs]
        simp
      rwa [hsplit, List.getLast?_append_of_ne_nil _ (List.cons_ne_nil next b)] at hp
    rw [hdrop]
    change List.IsChain (Edge nbrs) ((next :: b) ++ [next])
    rw [List.isChain_append]
    refine ⟨hdrop ▸ hchain.drop pos, by simp, ?_⟩
    intro x hx y hy
    rw [hlast, Option.mem_def, Option.some.injEq] at hx
    simp only [List.head?_cons, Option.mem_def, Option.some.injEq] at hy
    subst hx
    subst hy
    exact hedge
  · intro v hv
    have hm := (h.onPath v).mpr (List.mem_of_mem_drop hv)
    exact h.seen v (by omega)

end TopFrame

/-- A vertex marked as on the path is on it, so a back edge is never dropped. -/
theorem Inv.path_found (h : Inv nbrs start s) {next : V} (hm : s.mark next = 1) :
    s.path.findFinIdx? (fun t => t = next) ≠ none := by
  intro hnone
  have hn := List.findFinIdx?_eq_none_iff.mp hnone next ((h.onPath next).mp hm)
  simp at hn

theorem Inv.turn_next (h : Inv nbrs start s) (ht : turn nbrs s = .next s') : Inv nbrs start s' := by
  have hc := turn_cases nbrs s
  rw [ht] at hc
  cases hc with
  | lost _ _ hm hpos => exact absurd hpos (h.path_found hm)
  | push hs hn hm => exact h.push hs hn hm
  | @skip _ _ next _ hs hn hm =>
    have hle := h.mark_le next
    exact h.advance hs hn (by omega)
  | pop hs hi => exact h.pop hs hi

/-- The searches the loop goes through, with the vertices it has pushed, oldest first. -/
inductive Turns (nbrs : V → List V) (start : V) : List V → Search V → Prop where
  | start : Turns nbrs start [start] (.init start)
  | step {pushed : List V} {s s' : Search V} (turns : Turns nbrs start pushed s)
      (ht : turn nbrs s = .next s') :
      Turns nbrs start (pushed ++ (s'.stack.drop s.stack.length).map Prod.fst) s'

theorem Turns.inv {pushed : List V} (h : Turns nbrs start pushed s) : Inv nbrs start s := by
  induction h with
  | start => exact inv_init nbrs start
  | step _ ht ih => exact ih.turn_next ht

/-- A turn pushes nothing and visits nothing, or pushes one unvisited vertex. -/
theorem Inv.turn_pushed (h : Inv nbrs start s) (ht : turn nbrs s = .next s') :
    (s'.stack.drop s.stack.length = [] ∧ ∀ v, s'.mark v ≠ 0 ↔ s.mark v ≠ 0) ∨
    ∃ next, s'.stack.drop s.stack.length = [(next, 0)] ∧ s.mark next = 0 ∧
      ∀ v, s'.mark v ≠ 0 ↔ s.mark v ≠ 0 ∨ v = next := by
  have hc := turn_cases nbrs s
  rw [ht] at hc
  cases hc with
  | lost hs _ _ _ => exact .inl ⟨List.drop_of_length_le (by simp [hs]), fun _ => Iff.rfl⟩
  | skip hs _ _ => exact .inl ⟨List.drop_of_length_le (by simp [hs]), fun _ => Iff.rfl⟩
  | @push _ _ next _ hs _ hm =>
    refine .inr ⟨next, List.drop_left' (by simp [hs]), hm, ?_⟩
    intro v
    rw [mark_insert]
    by_cases hv : v = next <;> simp [hv]
  | @pop _ node _ hs _ =>
    have hnode : s.mark node = 1 := (h.onPath node).mpr (h.node_mem hs)
    refine .inl ⟨List.drop_of_length_le (by simp [hs]), ?_⟩
    intro v
    rw [mark_insert]
    by_cases hv : v = node
    · simp [hv, hnode]
    · simp [hv]

/-- The vertices pushed so far are the visited ones, each pushed once. -/
theorem Turns.pushed_once {pushed : List V} (h : Turns nbrs start pushed s) :
    pushed.Nodup ∧ ∀ v, v ∈ pushed ↔ s.mark v ≠ 0 := by
  induction h with
  | start =>
    refine ⟨List.nodup_singleton _, ?_⟩
    intro v
    rw [mark_init, List.mem_singleton]
    by_cases hv : v = start <;> simp [hv]
  | @step pushed s s' turns ht ih =>
    rcases turns.inv.turn_pushed ht with ⟨hnone, hmark⟩ | ⟨next, hnew, hm, hmark⟩
    · rw [hnone, List.map_nil, List.append_nil]
      refine ⟨ih.1, ?_⟩
      intro v
      rw [ih.2 v, hmark v]
    · have hnext : next ∉ pushed := fun hp => (ih.2 next).mp hp hm
      rw [hnew, List.map_cons, List.map_nil, ← List.concat_eq_append]
      refine ⟨ih.1.concat hnext, ?_⟩
      intro v
      rw [List.concat_eq_append, List.mem_append, List.mem_singleton, ih.2 v, hmark v]

def Answer (nbrs : V → List V) (start : V) : Option (List V) → Prop
  | some c => IsCycle (Edge nbrs) c ∧ c.Nodup ∧ ∀ v ∈ c, Reach nbrs start v
  | none => ∀ v, Reach nbrs start v → ¬ Relation.TransGen (Edge nbrs) v v

theorem Inv.turn_done (h : Inv nbrs start s) {answer : Option (List V)}
    (ht : turn nbrs s = .done answer) : Answer nbrs start answer := by
  have hc := turn_cases nbrs s
  rw [ht] at hc
  cases hc with
  | finished hs =>
    -- nothing is on the path any more, so the start is fully explored
    intro v hv
    have hstart : s.mark start = 2 := by
      have h1 : s.mark start ≠ 1 := by
        rw [ne_eq, h.onPath, h.path_eq, hs]
        simp
      have := h.mark_le start
      have := h.started
      omega
    exact h.noCycle v (h.reach_explored hstart hv)
  | backEdge hs hn _ hpos => exact h.backEdge hs hn hpos

theorem Inv.loop_answer {fuel : Nat} {answer : Option (List V)} (h : Inv nbrs start s)
    (hl : loop nbrs fuel s = some answer) : Answer nbrs start answer := by
  induction fuel generalizing s with
  | zero => simp [loop] at hl
  | succ fuel ih =>
    cases ht : turn nbrs s with
    | done r =>
      simp only [loop, ht, Option.some.injEq] at hl
      exact hl ▸ h.turn_done ht
    | next s' =>
      simp only [loop, ht] at hl
      exact ih (h.turn_next ht) hl

/-- The search is exact: a cycle it returns is simple and reachable from the
start, and it returns none only when no vertex reachable from the start is on a cycle. -/
theorem cycleFrom_answer {verts : Finset V} (hverts : ∀ v, ∀ w ∈ nbrs v, w ∈ verts) (start : V) :
    Answer nbrs start (cycleFrom nbrs verts start) :=
  (inv_init nbrs start).loop_answer (loop_eq_cycleFrom hverts start)

/-- A path that is not empty begins at the start. -/
def Rooted (start : V) (s : Search V) : Prop := ∀ v ∈ s.path.head?, v = start

theorem Rooted.turn_next (hinv : Inv nbrs start s) (h : Rooted start s)
    (ht : turn nbrs s = .next s') : Rooted start s' := by
  have hc := turn_cases nbrs s
  rw [ht] at hc
  cases hc with
  | lost _ _ _ _ => exact h
  | skip _ _ _ => exact h
  | push hs _ _ =>
    intro v hv
    rw [List.head?_append_of_ne_nil _ (List.ne_nil_of_mem (hinv.node_mem hs))] at hv
    exact h v hv
  | pop _ _ =>
    intro v hv
    rw [List.head?_dropLast] at hv
    split at hv
    · exact h v hv
    · simp at hv

theorem Rooted.turn_done (hinv : Inv nbrs start s) (h : Rooted start s) {c : List V}
    (ht : turn nbrs s = .done (some c)) (hstart : start ∈ c) : c.head? = some start := by
  have hc := turn_cases nbrs s
  rw [ht] at hc
  cases hc with
  | @backEdge _ _ _ _ pos _ _ _ _ =>
    have hnodup := hinv.nodup
    have hhead : s.path.head? = some start := by
      cases hp : s.path with
      | nil => simp [hp] at hstart
      | cons v rest => rw [List.head?_cons, h v (by simp [hp])]
    obtain ⟨rest, hp⟩ := List.head?_eq_some_iff.mp hhead
    cases hpos : pos.val with
    | zero => exact hhead
    | succ i =>
      -- the start stands at the bottom of the path and nowhere else
      rw [hpos, hp, List.drop_succ_cons] at hstart
      rw [hp] at hnodup
      exact absurd (List.mem_of_mem_drop hstart) (List.nodup_cons.mp hnodup).1

theorem Rooted.loop_head {fuel : Nat} {c : List V} (hinv : Inv nbrs start s) (h : Rooted start s)
    (hl : loop nbrs fuel s = some (some c)) (hstart : start ∈ c) : c.head? = some start := by
  induction fuel generalizing s with
  | zero => simp [loop] at hl
  | succ fuel ih =>
    cases ht : turn nbrs s with
    | done r =>
      simp only [loop, ht, Option.some.injEq] at hl
      exact h.turn_done hinv (hl ▸ ht) hstart
    | next s' =>
      simp only [loop, ht] at hl
      exact ih (hinv.turn_next ht) (h.turn_next hinv ht) hl

/-- A cycle through the start is returned from the start on. -/
theorem cycleFrom_head {verts : Finset V} (hverts : ∀ v, ∀ w ∈ nbrs v, w ∈ verts) {start : V}
    {c : List V} (h : cycleFrom nbrs verts start = some c) (hstart : start ∈ c) :
    c.head? = some start := by
  have hl := loop_eq_cycleFrom hverts start
  rw [h] at hl
  refine Rooted.loop_head (inv_init nbrs start) ?_ hl hstart
  intro v hv
  simpa [Search.init, eq_comm] using hv

end Correctness

end Shared.CycleSearch
