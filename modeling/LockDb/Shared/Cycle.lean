import Mathlib.Data.List.Chain
import Mathlib.Logic.Relation
import Mathlib.Order.WellFoundedSet

/-!
# Cycles of a relation

A cycle is given by the list of its members: each is related to the next and
the last to the first. The lemmas say which cycles survive when a relation
changes only around one vertex.
-/

namespace Shared

set_option autoImplicit false

universe u
variable {V : Type u}

/-- A nonempty list whose members form a closed walk. -/
def IsCycle (R : V → V → Prop) : List V → Prop
  | [] => False
  | v :: vs => List.IsChain R (v :: (vs ++ [v]))

def Acyclic (R : V → V → Prop) : Prop := ∀ c, ¬ IsCycle R c

namespace IsCycle
variable {R S : V → V → Prop} {c : List V} {a b t : V}

theorem ne_nil (h : IsCycle R c) : c ≠ [] := by
  intro hc
  subst hc
  exact h

theorem rotate {x y : V} {l m : List V} (h : IsCycle R (x :: (l ++ y :: m))) :
    IsCycle R (y :: (m ++ x :: l)) := by
  have hsplit : List.IsChain R ((x :: l) ++ y :: (m ++ [x])) := by
    simpa [IsCycle] using h
  obtain ⟨hleft, hright⟩ := List.isChain_split.mp hsplit
  have hjoin : List.IsChain R ((y :: m) ++ x :: (l ++ [y])) :=
    List.isChain_split.mpr ⟨by simpa using hright, by simpa using hleft⟩
  simpa [IsCycle] using hjoin

theorem from_member (h : IsCycle R c) (ha : a ∈ c) :
    ∃ d, IsCycle R (a :: d) ∧ ∀ b, b ∈ a :: d ↔ b ∈ c := by
  cases c with
  | nil => exact False.elim h
  | cons x l =>
    rcases List.mem_cons.mp ha with rfl | ha
    · exact ⟨l, h, fun b => Iff.rfl⟩
    · obtain ⟨m, n, rfl⟩ := List.append_of_mem ha
      refine ⟨n ++ x :: m, rotate h, fun b => ?_⟩
      simp only [List.mem_cons, List.mem_append]
      tauto

theorem exists_succ (h : IsCycle R c) (ha : a ∈ c) : ∃ b ∈ c, R a b := by
  obtain ⟨d, hd, hmem⟩ := h.from_member ha
  cases d with
  | nil => exact ⟨a, ha, by simpa [IsCycle] using hd⟩
  | cons b d =>
    refine ⟨b, (hmem b).mp (by simp), ?_⟩
    exact (List.isChain_cons_cons.mp hd).1

theorem exists_pred (h : IsCycle R c) (ha : a ∈ c) : ∃ b ∈ c, R b a := by
  obtain ⟨d, hd, hmem⟩ := h.from_member ha
  rcases List.eq_nil_or_concat d with rfl | ⟨d, b, rfl⟩
  · exact ⟨a, ha, by simpa [IsCycle] using hd⟩
  · have hchain : List.IsChain R ((a :: d) ++ b :: [a]) := by simpa [IsCycle] using hd
    refine ⟨b, (hmem b).mp (by simp), ?_⟩
    exact (List.isChain_cons_cons.mp (List.isChain_split.mp hchain).2).1

theorem imp_of_mem (hRS : ∀ a ∈ c, ∀ b ∈ c, R a b → S a b) (h : IsCycle R c) : IsCycle S c := by
  cases c with
  | nil => exact h
  | cons x l =>
    refine List.IsChain.imp_of_mem_imp (fun a b ha hb hab => hRS a ?_ b ?_ hab) h
    all_goals simp only [List.mem_cons, List.mem_append, List.not_mem_nil, or_false] at *; tauto

theorem imp (hRS : ∀ a b, R a b → S a b) (h : IsCycle R c) : IsCycle S c :=
  h.imp_of_mem fun a _ b _ => hRS a b

theorem map {W : Type*} {f : V → W} {T : W → W → Prop} (hRT : ∀ a b, R a b → T (f a) (f b))
    (h : IsCycle R c) : IsCycle T (c.map f) := by
  cases c with
  | nil => exact h
  | cons x l =>
    have hmap : List.IsChain T ((x :: (l ++ [x])).map f) :=
      List.isChain_map_of_isChain f hRT h
    simpa [IsCycle] using hmap

theorem transGen_self (h : IsCycle R c) (ha : a ∈ c) : Relation.TransGen R a a := by
  obtain ⟨d, hd, _⟩ := h.from_member ha
  have hchain : List.IsChain R (a :: (d ++ [a])) := hd
  cases hda : d ++ [a] with
  | nil => simp at hda
  | cons b l =>
    rw [hda] at hchain
    obtain ⟨hab, htail⟩ := List.isChain_cons_cons.mp hchain
    have hlast : (b :: l).getLast (List.cons_ne_nil b l) = a := by
      simp only [← hda, List.getLast_append_singleton]
    have hreach := List.relationReflTransGen_of_exists_isChain (b :: l) htail (List.cons_ne_nil b l)
    rw [hlast, List.head_cons] at hreach
    exact Relation.TransGen.head' hab hreach

theorem notMem_of_sink (h : IsCycle R c) (ht : ∀ b, ¬ R t b) : t ∉ c := by
  intro hm
  obtain ⟨b, _, hb⟩ := h.exists_succ hm
  exact ht b hb

/-- A cycle that avoids `t` survives any change to the edges at `t`. -/
theorem of_notMem (h : IsCycle R c) (ht : t ∉ c) (hRS : ∀ a b, a ≠ t → b ≠ t → R a b → S a b) :
    IsCycle S c :=
  h.imp_of_mem fun a ha b hb => hRS a b (fun e => ht (e ▸ ha)) (fun e => ht (e ▸ hb))

/-- When nothing leaves `t` any more and all else is as it was, the cycles that are left are
the old ones that avoid `t`. -/
theorem cut_iff (sink : ∀ b, ¬ S t b) (agree : ∀ a b, a ≠ t → b ≠ t → (S a b ↔ R a b))
    (c : List V) : IsCycle S c ↔ IsCycle R c ∧ t ∉ c := by
  constructor
  · intro hc
    have ht : t ∉ c := hc.notMem_of_sink sink
    exact ⟨hc.of_notMem ht fun a b ha hb => (agree a b ha hb).mp, ht⟩
  · intro hc
    exact hc.1.of_notMem hc.2 fun a b ha hb => (agree a b ha hb).mpr

end IsCycle

section Acyclic
variable {R S : V → V → Prop} {a t : V}

theorem exists_isCycle_of_transGen (h : Relation.TransGen R a a) : ∃ c, IsCycle R c := by
  obtain ⟨b, hab, hreach⟩ := Relation.TransGen.tail'_iff.mp h
  obtain ⟨l, hchain, hlast⟩ := List.exists_isChain_cons_of_relationReflTransGen hab
  refine ⟨a :: l, ?_⟩
  have hsplit : List.IsChain R ((a :: l) ++ [a]) := by
    refine List.isChain_append.mpr ⟨hchain, List.isChain_singleton a, ?_⟩
    intro x hx y hy
    rw [List.getLast?_eq_some_getLast (List.cons_ne_nil a l), hlast] at hx
    obtain rfl : b = x := by simpa using hx
    obtain rfl : a = y := by simpa using hy
    exact hreach
  exact hsplit

theorem Acyclic.swap (h : Acyclic R) : Acyclic (Function.swap R) := by
  intro c hc
  obtain ⟨v, hv⟩ := List.exists_mem_of_ne_nil c hc.ne_nil
  obtain ⟨d, hd⟩ := exists_isCycle_of_transGen (Relation.transGen_swap.mp (hc.transGen_self hv))
  exact h d hd

/-- Some member of a finite nonempty set has no edge from the set. -/
theorem Acyclic.exists_source (h : Acyclic R) {s : Set V} (hfin : s.Finite) (hs : s.Nonempty) :
    ∃ v ∈ s, ∀ w ∈ s, ¬ R w v := by
  have hirrefl : Std.Irrefl (Relation.TransGen R) := by
    constructor
    intro v hv
    obtain ⟨c, hc⟩ := exists_isCycle_of_transGen hv
    exact h c hc
  have horder : IsStrictOrder V (Relation.TransGen R) := { }
  have hwell : s.WellFoundedOn (Relation.TransGen R) := hfin.wellFoundedOn
  obtain ⟨v, _, hmin⟩ := hwell.has_min Set.univ ⟨⟨_, hs.some_mem⟩, trivial⟩
  exact ⟨v, v.2, fun w hw hvw => hmin ⟨w, hw⟩ trivial (.single hvw)⟩

/-- Some member of a finite nonempty set has no edge into the set. -/
theorem Acyclic.exists_sink (h : Acyclic R) {s : Set V} (hfin : s.Finite) (hs : s.Nonempty) :
    ∃ v ∈ s, ∀ w ∈ s, ¬ R v w :=
  h.swap.exists_source hfin hs

end Acyclic

end Shared
