import LockDb.Table
import Mathlib.Data.Finset.Card

/-!
# The table as one flat map

The reference model knows neither shards nor holder lists nor a reverse index:
its only state is a map from transaction and resource to mode. Every sequence of
point-lock calls returns the same values on it as on the sharded table.
-/

namespace LockDb

set_option autoImplicit false

open Shared Shared.Multimap

/-- The calls the two are compared on. -/
inductive TableCall where
  | tryAcquire (txn : TxnId) (res : ResourceId) (mode : LockMode)
  | release (txn : TxnId) (res : ResourceId)
  | releaseAll (txn : TxnId)
  | modeHeld (txn : TxnId) (res : ResourceId)
  | holderCount (res : ResourceId)

inductive TableAnswer where
  | result (r : Except LockError Unit)
  | count (n : Nat)
  | mode (m : Option LockMode)
deriving DecidableEq

structure FlatMap where
  held : HashMap (TxnId × ResourceId) LockMode

namespace FlatMap

def empty : FlatMap := ⟨∅⟩

def free (self : FlatMap) (txn : TxnId) (res : ResourceId) (mode : LockMode) : Bool :=
  decide (∀ k ∈ self.held.keys, k.2 = res → k.1 ≠ txn →
    (self.held.lookup k).all (fun m => m.compatibleWith mode) = true)

def acquire (self : FlatMap) (txn : TxnId) (res : ResourceId) (mode : LockMode) :
    FlatMap × Except LockError Unit :=
  match self.held.lookup (txn, res) with
  | some current =>
    if current.covers mode then (self, .ok ())
    else if self.free txn res (current.join mode) then
      (⟨self.held.insert (txn, res) (current.join mode)⟩, .ok ())
    else (self, .error .conflict)
  | none =>
    if self.free txn res mode then (⟨self.held.insert (txn, res) mode⟩, .ok ())
    else (self, .error .conflict)

def release (self : FlatMap) (txn : TxnId) (res : ResourceId) : FlatMap × Except LockError Unit :=
  match self.held.lookup (txn, res) with
  | some _ => (⟨self.held.erase (txn, res)⟩, .ok ())
  | none => (self, .error .notHeld)

def releaseAll (self : FlatMap) (txn : TxnId) : FlatMap × Nat :=
  (⟨retain (fun k => k.1 ≠ txn) self.held⟩, (self.held.keys.filter fun k => k.1 = txn).card)

def call (self : FlatMap) : TableCall → FlatMap × TableAnswer
  | .tryAcquire txn res mode => let out := self.acquire txn res mode; (out.1, .result out.2)
  | .release txn res => let out := self.release txn res; (out.1, .result out.2)
  | .releaseAll txn => let out := self.releaseAll txn; (out.1, .count out.2)
  | .modeHeld txn res => (self, .mode (self.held.lookup (txn, res)))
  | .holderCount res => (self, .count (self.held.keys.filter fun k => k.2 = res).card)

end FlatMap

def LockManager.call {bits : Nat} (self : LockManager bits) :
    TableCall → LockManager bits × TableAnswer
  | .tryAcquire txn res mode => let out := self.tryAcquire txn res mode; (out.1, .result out.2)
  | .release txn res => let out := self.release txn res; (out.1, .result out.2)
  | .releaseAll txn => let out := self.releaseAll txn; (out.1, .count out.2)
  | .modeHeld txn res => (self, .mode (self.modeHeld txn res))
  | .holderCount res => (self, .count (self.holderCount res))

/-- The simulation: the table is well formed, holds no ranges, and shows the map's entries. -/
structure Shows {bits : Nat} (lm : LockManager bits) (map : FlatMap) : Prop where
  inv : lm.Inv
  noRanges : ∀ i txn, list (lm.shards i).rangeByTxn txn = []
  held : ∀ txn res, map.held.lookup (txn, res) = lm.modeHeld txn res

section Simulation
variable {bits : Nat} {self next : LockManager bits} {map : FlatMap} {txn : TxnId}
variable {res : ResourceId} {mode : LockMode}

theorem shows_empty (bits : Nat) : Shows (LockManager.withShards bits) .empty where
  inv := LockManager.inv_withShards bits
  noRanges i txn := by simp [LockManager.withShards, ShardInner.new]
  held txn res := by
    simp [FlatMap.empty, LockManager.modeHeld, LockManager.lockShard, LockManager.withShards,
      ShardInner.new]

theorem Shows.mem_keys (h : Shows self map) (k : TxnId × ResourceId) :
    k ∈ map.held.keys ↔ self.modeHeld k.1 k.2 ≠ none := by
  rw [Finmap.mem_keys, ← Finmap.lookup_isSome, h.held k.1 k.2, Option.isSome_iff_ne_none]

theorem Shows.free_iff (h : Shows self map) :
    map.free txn res mode = true ↔ self.Grantable txn res mode := by
  simp only [FlatMap.free, decide_eq_true_eq, LockManager.Grantable]
  constructor
  · intro hall u a hne hu
    have hk : (u, res) ∈ map.held.keys := (h.mem_keys (u, res)).mpr (by simp [hu])
    have hok := hall (u, res) hk rfl hne
    rw [h.held, hu] at hok
    exact hok
  · rintro hall ⟨u, r⟩ hk rfl hne
    rw [h.held]
    cases hu : self.modeHeld u r with
    | none => rfl
    | some a => exact hall u a hne hu

/-- With a mode held already, the join is compatible with the others exactly when the request is. -/
theorem grantable_join (hinv : self.Inv) {c : LockMode} (hc : self.modeHeld txn res = some c) :
    self.Grantable txn res (c.join mode) ↔ self.Grantable txn res mode := by
  have hraise := (self.table hinv).grantable_iff_raise txn res mode
  have heq : raise ((self.table hinv).held txn res) mode = c.join mode := by
    change raise (self.modeHeld txn res) mode = _
    rw [hc]
    rfl
  rw [heq] at hraise
  exact hraise.symm

theorem covered_grantable (hinv : self.Inv) {c : LockMode} (hc : self.modeHeld txn res = some c)
    (hcover : c.covers mode = true) : self.Grantable txn res mode := by
  rw [← grantable_join hinv hc, LockMode.covers_iff.mp hcover]
  intro u a hne hu
  exact (self.table hinv).compatible hne hu hc

theorem grantStep_keeps_ranges (self : LockManager bits) (txn : TxnId) (res : ResourceId)
    (mode : LockMode) (i : Fin (2 ^ bits)) :
    ((self.grantStep txn res mode).1.shards i).rangeByTxn = (self.shards i).rangeByTxn := by
  simp only [LockManager.grantStep, LockManager.onShard, LockManager.setShard,
    Function.update_apply]
  split
  · next hi => rw [hi]; rfl
  · rfl

theorem Shows.insert (h : Shows self map) (hinv : next.Inv)
    (hranges : ∀ i, (next.shards i).rangeByTxn = (self.shards i).rangeByTxn)
    (held : next.modeHeld = LockTable.heldGrant self.modeHeld txn res mode) {k : LockMode}
    (hk : k = raise (self.modeHeld txn res) mode) : Shows next ⟨map.held.insert (txn, res) k⟩ where
  inv := hinv
  noRanges i t := by rw [hranges, h.noRanges]
  held u r := by
    rw [held, LockTable.heldGrant, lookup_insert_eq, h.held, hk]
    simp only [Prod.mk.injEq]

theorem Shows.stay (h : Shows self map) (hinv : next.Inv)
    (hranges : ∀ i, (next.shards i).rangeByTxn = (self.shards i).rangeByTxn)
    (held : next.modeHeld = LockTable.heldGrant self.modeHeld txn res mode)
    (hcover : self.modeHeld txn res = some (raise (self.modeHeld txn res) mode)) :
    Shows next map where
  inv := hinv
  noRanges i t := by rw [hranges, h.noRanges]
  held u r := by
    rw [held, LockTable.heldGrant, h.held]
    split
    · next heq =>
      obtain ⟨rfl, rfl⟩ := heq
      exact hcover
    · rfl

theorem Shows.tryAcquire (h : Shows self map) (txn : TxnId) (res : ResourceId) (mode : LockMode) :
    (self.tryAcquire txn res mode).2 = (map.acquire txn res mode).2 ∧
      Shows (self.tryAcquire txn res mode).1 (map.acquire txn res mode).1 := by
  have hinv := h.inv.grantStep txn res mode
  have hranges := grantStep_keeps_ranges self txn res mode
  rw [LockManager.tryAcquire_eq]
  unfold FlatMap.acquire
  rw [h.held]
  rcases h.inv.grantStep_cases txn res mode with ⟨free, next, hg, held, _⟩ | ⟨blocked, hg⟩
  · rw [hg] at hinv hranges ⊢
    rw [if_pos rfl]
    cases hc : self.modeHeld txn res with
    | none =>
      rw [if_pos (h.free_iff.mpr free)]
      exact ⟨rfl, h.insert hinv hranges held (by rw [hc]; rfl)⟩
    | some c =>
      simp only
      split
      · next hcover =>
        refine ⟨rfl, h.stay hinv hranges held ?_⟩
        rw [hc, raise, LockMode.sup_eq_join, LockMode.covers_iff.mp hcover]
      · rw [if_pos (h.free_iff.mpr ((grantable_join h.inv hc).mpr free))]
        exact ⟨rfl, h.insert hinv hranges held (by rw [hc]; rfl)⟩
  · rw [hg, if_neg Bool.false_ne_true]
    cases hc : self.modeHeld txn res with
    | none =>
      rw [if_neg fun hf => blocked (h.free_iff.mp hf)]
      exact ⟨rfl, h⟩
    | some c =>
      simp only
      rw [if_neg fun hcover => blocked (covered_grantable h.inv hc hcover),
        if_neg fun hf => blocked ((grantable_join h.inv hc).mp (h.free_iff.mp hf))]
      exact ⟨rfl, h⟩

theorem release_keeps_rangeIndex (self : LockManager bits) (txn : TxnId) (res : ResourceId)
    (i : Fin (2 ^ bits)) :
    ((self.release txn res).1.shards i).rangeByTxn = (self.shards i).rangeByTxn := by
  simp only [LockManager.release, LockManager.onShard, LockManager.setShard, Function.update_apply]
  split
  · next hi => rw [hi]; exact (release_keeps_ranges _ _ _).2
  · rfl

theorem Shows.release (h : Shows self map) (txn : TxnId) (res : ResourceId) :
    (self.release txn res).2 = (map.release txn res).2 ∧
      Shows (self.release txn res).1 (map.release txn res).1 := by
  have hinv : (self.release txn res).1.Inv := h.inv.enter (.release txn res)
  have hranges := release_keeps_rangeIndex self txn res
  unfold FlatMap.release
  rw [h.held]
  rcases h.inv.release_cases txn res with ⟨hnone, hr⟩ | ⟨hsome, next, hr, held, _⟩
  · rw [hr, hnone]
    exact ⟨rfl, h⟩
  · rw [hr] at hinv hranges ⊢
    cases hc : self.modeHeld txn res with
    | none => exact absurd hc hsome
    | some c =>
      refine ⟨rfl, hinv, fun i t => by rw [hranges, h.noRanges], fun u r => ?_⟩
      simp only [lookup_erase_eq, held, LockTable.heldDrop, h.held, Prod.mk.injEq]

/-- The index of one shard lists the resources of that shard which the transaction
holds, once each. -/
theorem Shows.index_card (h : Shows self map) (txn : TxnId) (i : Fin (2 ^ bits)) :
    (list (self.shards i).byTxn txn).length =
      (map.held.keys.filter fun k => k.1 = txn ∧ shardIndex bits k.2 = i).card := by
  have hshard := (h.inv i).point
  have hnodup : (list (self.shards i).byTxn txn).Nodup := hshard.byTxn_nodup txn
  have hpairs : ((list (self.shards i).byTxn txn).map fun r => (txn, r)).toFinset =
      map.held.keys.filter fun k => k.1 = txn ∧ shardIndex bits k.2 = i := by
    ext ⟨u, r⟩
    have hmem : r ∈ list (self.shards i).byTxn txn ↔
        ∃ x ∈ list (self.shards i).locks r, heldBy txn x = true := hshard.indexed.mem_iff txn r
    have hkey := h.mem_keys (u, r)
    simp only [List.mem_toFinset, List.mem_map, Prod.mk.injEq, Finset.mem_filter]
    rw [hkey, LockManager.modeHeld_eq, ne_eq, modeOf_eq_none_iff]
    constructor
    · intro hmem
      rcases hmem with ⟨r', hr, rfl, rfl⟩
      obtain ⟨x, hx, hown⟩ := hmem.mp hr
      have hi : shardIndex bits r' = i := hshard.routed r' (List.ne_nil_of_mem hx)
      refine ⟨fun hall => ?_, rfl, hi⟩
      apply hall x _ (by simpa [heldBy] using hown)
      simpa [LockManager.holders, LockManager.lockShard, hi] using hx
    · intro hmem
      rcases hmem with ⟨hall, rfl, hi⟩
      simp only [not_forall, not_not] at hall
      obtain ⟨x, hx, hown⟩ := hall
      refine ⟨r, hmem.mpr ⟨x, ?_, by simpa [heldBy] using hown⟩, rfl, rfl⟩
      simpa [LockManager.holders, LockManager.lockShard, hi] using hx
  rw [← hpairs, List.toFinset_card_of_nodup]
  · exact (List.length_map _).symm
  · exact hnodup.map fun a b hab => (Prod.mk.inj hab).2

theorem Shows.releaseAll_count (h : Shows self map) :
    (self.releaseAll txn).2 = (map.releaseAll txn).2 := by
  rw [h.inv.releaseAll_count txn]
  have hterm : ∀ i : Fin (2 ^ bits),
      (list (self.shards i).byTxn txn).length + (list (self.shards i).rangeByTxn txn).length =
        ((map.held.keys.filter fun k => k.1 = txn).filter fun k =>
          shardIndex bits k.2 = i).card := by
    intro i
    rw [h.index_card, h.noRanges, Finset.filter_filter]
    rfl
  rw [Finset.sum_congr rfl fun i _ => hterm i]
  symm
  apply Finset.card_eq_sum_card_fiberwise
  intro k _
  simp

theorem Shows.releaseAll (h : Shows self map) (txn : TxnId) :
    (self.releaseAll txn).2 = (map.releaseAll txn).2 ∧
      Shows (self.releaseAll txn).1 (map.releaseAll txn).1 := by
  refine ⟨h.releaseAll_count, h.inv.exec (.releaseAll txn), fun i t => ?_, fun u r => ?_⟩
  · obtain ⟨k, _, hindex⟩ := sweep_ranges (self.shards i) txn 0
    rw [LockManager.releaseAll_eq, hindex, Ledger.sweep_eq, list_erase, h.noRanges]
    simp
  · rw [h.inv.releaseAll_modeHeld]
    simp only [FlatMap.releaseAll, lookup_retain, LockTable.heldDropAll, h.held]
    by_cases hu : u = txn <;> simp [hu]

theorem Shows.holderCount (h : Shows self map) (res : ResourceId) :
    self.holderCount res = (map.held.keys.filter fun k => k.2 = res).card := by
  have hentry := h.inv.entry res
  have hnodup : ((self.holders res).map fun x => (x.txn, res)).Nodup := by
    rw [show (fun x : Holder => (x.txn, res)) = (fun t => (t, res)) ∘ Holder.txn from rfl,
      ← List.map_map]
    exact hentry.unique.map fun a b hab => (Prod.mk.inj hab).1
  have hpairs : ((self.holders res).map fun x => (x.txn, res)).toFinset =
      map.held.keys.filter fun k => k.2 = res := by
    ext ⟨u, r⟩
    simp only [List.mem_toFinset, List.mem_map, Prod.mk.injEq, Finset.mem_filter]
    rw [h.mem_keys, LockManager.modeHeld_eq, ne_eq, modeOf_eq_none_iff]
    constructor
    · intro hmem
      rcases hmem with ⟨x, hx, rfl, rfl⟩
      exact ⟨fun hall => hall x hx rfl, rfl⟩
    · intro hmem
      rcases hmem with ⟨hall, rfl⟩
      simp only [not_forall, not_not] at hall
      obtain ⟨x, hx, hxu⟩ := hall
      exact ⟨x, hx, hxu, rfl⟩
  rw [← hpairs, List.toFinset_card_of_nodup hnodup, List.length_map]
  rfl

end Simulation

/-- Every value returned by a sequence of point-lock calls is the flat map's. -/
theorem table_refines_flatMap (bits : Nat) (calls : List TableCall) :
    (replay LockManager.call (.withShards bits) calls).2 =
      (replay FlatMap.call .empty calls).2 := by
  apply replay_outputs (R := Shows)
  · intro self map call h
    cases call with
    | tryAcquire txn res mode =>
      obtain ⟨hout, hnext⟩ := h.tryAcquire txn res mode
      exact ⟨congrArg TableAnswer.result hout, hnext⟩
    | release txn res =>
      obtain ⟨hout, hnext⟩ := h.release txn res
      exact ⟨congrArg TableAnswer.result hout, hnext⟩
    | releaseAll txn =>
      obtain ⟨hout, hnext⟩ := h.releaseAll txn
      exact ⟨congrArg TableAnswer.count hout, hnext⟩
    | modeHeld txn res => exact ⟨congrArg TableAnswer.mode (h.held txn res).symm, h⟩
    | holderCount res => exact ⟨congrArg TableAnswer.count (h.holderCount res), h⟩
  · exact shows_empty bits

end LockDb
