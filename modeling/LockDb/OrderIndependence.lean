import LockDb.Table

/-!
# Granted acquisitions in any order

A grant is blocked by the modes of others alone, and it adds only the granted mode
to what blocks them. So a list of acquisitions that are all granted is granted in
every order, and leaves the same modes and the same number of holders.
-/

namespace LockDb

set_option autoImplicit false

open Shared LockTable

namespace LockManager
variable {bits : Nat} {self : LockManager bits}

/-- The acquisitions of a list, one after the other, and what they returned. -/
def acquireAll (self : LockManager bits) (calls : List (TxnId × ResourceId × LockMode)) :
    LockManager bits × List (Except LockError Unit) :=
  replay (fun self call => self.tryAcquire call.1 call.2.1 call.2.2) self calls

theorem Inv.acquireAll (h : self.Inv) (calls : List (TxnId × ResourceId × LockMode)) :
    (self.acquireAll calls).1.Inv := by
  apply replay_invariant (P := Inv) _ h
  intro s call hs
  exact hs.enter (.tryAcquire call.1 call.2.1 call.2.2)

theorem Inv.acquireAll_granted (h : self.Inv) (calls : List (TxnId × ResourceId × LockMode)) :
    ((∀ out ∈ (self.acquireAll calls).2, out = .ok ()) ↔ AllFree self.modeHeld calls) ∧
      (AllFree self.modeHeld calls →
        (self.acquireAll calls).1.modeHeld = grantAll self.modeHeld calls) := by
  induction calls generalizing self with
  | nil => simp [LockManager.acquireAll, replay, AllFree, grantAll]
  | cons call calls ih =>
    obtain ⟨txn, res, mode⟩ := call
    have hnext : (self.grantStep txn res mode).1.Inv := h.grantStep txn res mode
    simp only [LockManager.acquireAll, replay, tryAcquire_eq, List.forall_mem_cons, AllFree,
      grantAll, List.foldl_cons] at ih ⊢
    rcases h.grantStep_cases txn res mode with ⟨free, next, hg, held, _⟩ | ⟨blocked, hg⟩
    · rw [hg] at hnext ⊢
      obtain ⟨hok, hheld⟩ := ih hnext
      rw [held] at hok hheld
      have hfree : Free self.modeHeld txn res mode := free
      simp only [if_true, hok, hfree, true_and]
      exact hheld
    · have hblocked : ¬ Free self.modeHeld txn res mode := blocked
      simp [hg, hblocked]

theorem Inv.holderCount_congr {self' : LockManager bits} (h : self.Inv) (h' : self'.Inv)
    (hheld : self.modeHeld = self'.modeHeld) (res : ResourceId) :
    self.holderCount res = self'.holderCount res := by
  have hmem : ∀ t, t ∈ (self.holders res).map Holder.txn ↔
      t ∈ (self'.holders res).map Holder.txn := by
    intro t
    have hiff : ∀ lm : LockManager bits, t ∈ (lm.holders res).map Holder.txn ↔
        lm.modeHeld t res ≠ none := by
      intro lm
      rw [modeHeld_eq, ne_eq, modeOf_eq_none_iff, List.mem_map]
      simp
    rw [hiff, hiff, hheld]
  have hperm := (List.perm_ext_iff_of_nodup (h.entry res).unique (h'.entry res).unique).mpr hmem
  have hlen := hperm.length_eq
  rwa [List.length_map, List.length_map] at hlen

end LockManager

/-- Acquisitions that are all granted in one order are all granted in every order, from any
reachable state, with the same held modes and holder counts in the end. -/
theorem granted_in_any_order (bits : Nat) (moves : List (LockManager.Move bits))
    {calls calls' : List (TxnId × ResourceId × LockMode)} (hperm : calls.Perm calls')
    (hgranted : ∀ out ∈ ((LockManager.reached bits moves).acquireAll calls).2, out = .ok ()) :
    let self := LockManager.reached bits moves
    (∀ out ∈ (self.acquireAll calls').2, out = .ok ()) ∧
    (∀ t r, (self.acquireAll calls').1.modeHeld t r = (self.acquireAll calls).1.modeHeld t r) ∧
    ∀ r, (self.acquireAll calls').1.holderCount r = (self.acquireAll calls).1.holderCount r := by
  intro self
  have hinv : self.Inv := LockManager.inv_reached bits moves
  obtain ⟨hok, hheld⟩ := hinv.acquireAll_granted calls
  obtain ⟨hok', hheld'⟩ := hinv.acquireAll_granted calls'
  obtain ⟨hfree, hsame⟩ := @allFree_perm _ _ _ _ _ _ _ self.modeHeld _ _ hperm
  have hall : AllFree self.modeHeld calls := hok.mp hgranted
  have hall' : AllFree self.modeHeld calls' := hfree.mp hall
  have hmodes : (self.acquireAll calls').1.modeHeld = (self.acquireAll calls).1.modeHeld := by
    rw [hheld hall, hheld' hall', hsame]
  refine ⟨hok'.mpr hall', fun t r => by rw [hmodes], fun r => ?_⟩
  exact (hinv.acquireAll calls').holderCount_congr (hinv.acquireAll calls) hmodes r

/-- An upgrade and a foreign intention lock, in both orders. -/
theorem granted_in_any_order_upgrade :
    let calls : List (TxnId × ResourceId × LockMode) := [(⟨1⟩, ⟨7⟩, .intentionShared),
      (⟨2⟩, ⟨7⟩, .intentionShared), (⟨1⟩, ⟨7⟩, .sharedIntentionExclusive)]
    let self := LockManager.reached 2 []
    (self.acquireAll calls.reverse).1.modeHeld ⟨1⟩ ⟨7⟩ = some .sharedIntentionExclusive ∧
      (self.acquireAll calls.reverse).1.holderCount ⟨7⟩ = 2 := by
  intro calls self
  have hgranted : ∀ out ∈ (self.acquireAll calls).2, out = .ok () := by decide +kernel
  obtain ⟨_, hmode, hcount⟩ := granted_in_any_order 2 [] (List.reverse_perm calls).symm hgranted
  refine ⟨(hmode ⟨1⟩ ⟨7⟩).trans ?_, (hcount ⟨7⟩).trans ?_⟩
  · decide +kernel
  · decide +kernel

end LockDb
