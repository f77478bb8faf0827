import Mathlib.Data.List.Forall2

/-!
# Lib.Origins

Where the items of a list come from. An origin is a sender and a position in what that sender did;
`Traces R src items` assigns an origin to every item, so that no two items share one and the items of
one sender keep its order.
-/

namespace Lib
namespace Origins

variable {ι α β : Type*}

structure Traces (R : ι × Nat → α → Prop) (src : List (ι × Nat)) (items : List α) : Prop where
  ordered : src.Pairwise fun a b => a.1 = b.1 → a.2 < b.2
  each : List.Forall₂ R src items

variable {R S : ι × Nat → α → Prop} {src : List (ι × Nat)} {items few : List α}

theorem traces_nil : Traces R [] [] := ⟨.nil, .nil⟩

/-- No two items have the same origin. -/
theorem Traces.nodup (h : Traces R src items) : src.Nodup := by
  refine h.ordered.imp ?_
  rintro a b hlt rfl
  exact Nat.lt_irrefl _ (hlt rfl)

theorem Traces.mono (h : Traces R src items) (hRS : ∀ o a, R o a → S o a) : Traces S src items :=
  ⟨h.ordered, h.each.imp hRS⟩

/-- An origin is that of some item. -/
theorem Traces.item (h : Traces R src items) {o : ι × Nat} (ho : o ∈ src) : ∃ a ∈ items, R o a := by
  have heach := h.each
  clear h
  induction heach with
  | nil => cases ho
  | @cons o' a src items hR hrest ih =>
    rcases List.mem_cons.mp ho with rfl | ho
    · exact ⟨a, by simp, hR⟩
    · obtain ⟨b, hb, hRb⟩ := ih ho
      exact ⟨b, by simp [hb], hRb⟩

/-- The sender `k` adds an item at a position after all its others. -/
theorem Traces.snoc (h : Traces R src items) (hRS : ∀ o a, R o a → S o a) {k : ι} {n : Nat} {a : α}
    (hlast : ∀ n' b, R (k, n') b → n' < n) (ha : S (k, n) a) :
    Traces S (src ++ [(k, n)]) (items ++ [a]) where
  ordered := by
    refine List.pairwise_append.mpr ⟨h.ordered, List.pairwise_singleton _ _, ?_⟩
    rintro ⟨k', n'⟩ ho b hb hk
    cases List.mem_singleton.mp hb
    cases hk
    obtain ⟨item, -, hR⟩ := h.item ho
    exact hlast n' item hR
  each := List.rel_append (h.each.imp hRS) (.cons ha .nil)

/-- A part of the items has a part of the origins. -/
theorem Traces.sublist (h : Traces R src items) (hfew : few.Sublist items) :
    ∃ src', src'.Sublist src ∧ Traces R src' few := by
  have hsub : ∃ src', src'.Sublist src ∧ List.Forall₂ R src' few := by
    have heach := h.each
    clear h
    induction hfew generalizing src with
    | slnil => exact ⟨[], List.nil_sublist _, .nil⟩
    | cons a hfew ih =>
      cases heach with
      | cons ho hrest =>
        obtain ⟨src', hsub, hR⟩ := ih hrest
        exact ⟨src', hsub.cons _, hR⟩
    | cons_cons a hfew ih =>
      cases heach with
      | cons ho hrest =>
        obtain ⟨src', hsub, hR⟩ := ih hrest
        exact ⟨_ :: src', hsub.cons_cons _, .cons ho hR⟩
  obtain ⟨src', hsub, hR⟩ := hsub
  exact ⟨src', hsub, h.ordered.sublist hsub, hR⟩

/-- What each item is turned into has the origin of the item. -/
theorem Traces.map_of_mem (h : Traces R src items) {f : α → β} {S : ι × Nat → β → Prop}
    (hS : ∀ o, ∀ a ∈ items, R o a → S o (f a)) : Traces S src (items.map f) where
  ordered := h.ordered
  each := by
    have heach := h.each
    clear h
    induction heach with
    | nil => exact .nil
    | cons hR hrest ih =>
      exact .cons (hS _ _ (by simp) hR) (ih fun o a ha => hS o a (by simp [ha]))

end Origins
end Lib
