import LockDb.Shared.Cycle

/-!
# Reading a changing relation one vertex at a time

The edges out of each watched vertex are read once, at different times, while
the relation between watched vertices only loses edges. What was read has the
same cycles as an atomic snapshot: none that the relation did not have at the
start, and all that it still has at the end.
-/

namespace Shared

set_option autoImplicit false

universe u
variable {V : Type u}

/-- `graph` holds the edges read so far; the vertices `todo` are still to be read. -/
structure Snapshot (watched : V → Prop) (start now graph : V → V → Prop) (todo : V → Prop) :
    Prop where
  lost : ∀ {a b}, watched b → now a b → start a b
  source : ∀ {a b}, now a b → watched a
  sound : ∀ {a b}, graph a b → watched a ∧ (watched b → start a b)
  complete : ∀ {a b}, ¬ todo a → watched b → now a b → graph a b

namespace Snapshot
variable {watched todo todo' : V → Prop} {start now now' graph graph' : V → V → Prop}

theorem begin_all (hsource : ∀ {a b}, start a b → watched a) (hgraph : ∀ a b, ¬ graph a b)
    (htodo : ∀ a, watched a → todo a) : Snapshot watched start start graph todo where
  lost _ h := h
  source := hsource
  sound h := absurd h (hgraph _ _)
  complete hno _ h := absurd (htodo _ (hsource h)) hno

theorem lose (h : Snapshot watched start now graph todo)
    (hlost : ∀ {a b}, watched b → now' a b → now a b) (hsource : ∀ {a b}, now' a b → watched a) :
    Snapshot watched start now' graph todo where
  lost hb hab := h.lost hb (hlost hb hab)
  source := hsource
  sound := h.sound
  complete hno hb hab := h.complete hno hb (hlost hb hab)

theorem read (h : Snapshot watched start now graph todo) {w : V} (hw : watched w)
    (hgraph : ∀ a b, graph' a b ↔ graph a b ∨ (a = w ∧ now w b))
    (htodo : ∀ a, todo a → a = w ∨ todo' a) : Snapshot watched start now graph' todo' where
  lost := h.lost
  source := h.source
  sound := by
    intro a b hab
    rcases (hgraph a b).mp hab with hab | ⟨rfl, hab⟩
    · exact h.sound hab
    · exact ⟨hw, fun hb => h.lost hb hab⟩
  complete := by
    intro a b hno hb hab
    apply (hgraph a b).mpr
    by_cases ha : a = w
    · subst ha
      exact .inr ⟨rfl, hab⟩
    · apply Or.inl
      apply h.complete _ hb hab
      intro htodo'
      rcases htodo a htodo' with heq | hrest
      · exact ha heq
      · exact hno hrest

/-- No phantom: a cycle of what was read was there at the start, all at once. -/
theorem cycle_at_start (h : Snapshot watched start now graph todo) {c : List V}
    (hc : IsCycle graph c) : IsCycle start c := by
  apply hc.imp_of_mem
  intro a _ b hb hab
  obtain ⟨x, _, hx⟩ := hc.exists_succ hb
  exact (h.sound hab).2 (h.sound hx).1

section Done
variable (h : Snapshot watched start now graph fun _ => False)
include h

/-- No miss: a cycle that is still there at the end was read. -/
theorem cycle_was_read {c : List V} (hc : IsCycle now c) : IsCycle graph c := by
  apply hc.imp_of_mem
  intro a _ b hb hab
  obtain ⟨x, _, hx⟩ := hc.exists_succ hb
  exact h.complete not_false (h.source hx) hab

theorem path_was_read {c : List V} (hc : IsCycle now c) {t v : V} (hv : v ∈ c)
    (hreach : Relation.ReflTransGen now t v) : Relation.ReflTransGen graph t v := by
  have hstep : watched t ∧ Relation.ReflTransGen graph t v := by
    induction hreach using Relation.ReflTransGen.head_induction_on with
    | refl =>
      obtain ⟨x, _, hx⟩ := hc.exists_succ hv
      exact ⟨h.source hx, .refl⟩
    | head hab _ ih => exact ⟨h.source hab, .head (h.complete not_false ih.1 hab) ih.2⟩
  exact hstep.2

end Done

end Snapshot

end Shared
