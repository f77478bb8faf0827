import Mathlib.Data.List.Infix

/-!
# Lib.History

Conditions on what a list may be continued with. A history grows at its end; `Always P l` says that
every item of `l` met `P` against the items before it.
-/

namespace Lib
namespace History

variable {α : Type*}

/-- Every item of the list meets `P` against the items before it. -/
def Always (P : List α → α → Prop) (l : List α) : Prop :=
  ∀ pre a post, l = pre ++ a :: post → P pre a

variable {P Q : List α → α → Prop} {l m : List α}

theorem always_nil : Always P [] := by
  intro pre a post h
  simp at h

theorem always_append : Always P (l ++ m) ↔ Always P l ∧ Always (fun pre a => P (l ++ pre) a) m := by
  constructor
  · intro h
    refine ⟨fun pre a post he => h pre a (post ++ m) (by simp [he]), ?_⟩
    intro pre a post he
    exact h (l ++ pre) a post (by simp [he])
  · rintro ⟨hl, hm⟩ pre a post he
    rcases List.append_eq_append_iff.mp he with ⟨mid, rfl, hmid⟩ | ⟨mid, rfl, hmid⟩
    · exact hm mid a post hmid
    · cases mid with
      | nil => simpa using hm [] a post hmid.symm
      | cons b mid =>
        cases hmid
        exact hl pre a mid rfl

theorem always_singleton {a : α} : Always P [a] ↔ P [] a := by
  constructor
  · intro h
    exact h [] a [] rfl
  · intro h pre b post he
    cases pre with
    | nil => cases he; exact h
    | cons c pre => simp at he

theorem always_snoc {a : α} : Always P (l ++ [a]) ↔ Always P l ∧ P l a := by
  rw [always_append, always_singleton, List.append_nil]

theorem Always.initial (h : Always P m) (hl : l <+: m) : Always P l := by
  obtain ⟨t, rfl⟩ := hl
  exact (always_append.mp h).1

/-- What holds against any history holds of every item. -/
theorem always_of_forall (h : ∀ pre, ∀ a ∈ l, P pre a) : Always P l :=
  fun pre a post he => h pre a (by simp [he])

/-- The item at a position meets `P` against the items before that position. -/
theorem Always.at (h : Always P l) {n : Nat} {a : α} (hn : l[n]? = some a) : P (l.take n) a := by
  obtain ⟨hlt, rfl⟩ := List.getElem?_eq_some_iff.mp hn
  refine h (l.take n) _ (l.drop (n + 1)) ?_
  rw [← List.drop_eq_getElem_cons hlt, List.take_append_drop]

end History
end Lib
