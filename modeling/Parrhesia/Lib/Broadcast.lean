import Mathlib.Data.List.Basic
import Mathlib.Data.List.Infix

/-!
# Lib.Broadcast

A broadcast channel: every item sent is appended to one log, a subscriber is a position in it, and
only a window of the latest items is retained.

* `recv`      : the next item, the number of items missed once the subscriber has fallen behind the
  window, or `pending` when it has read everything.
* `span`  : what a subscriber that never lagged has read, the items from its first position up
  to its current one.
* `delivered` : what a consumer puts out that forwards the items it does not skip and stops after
  the first one it must stop at.

`delivered_mono` says that more items only extend what is put out, `delivered_of_forall` that a
consumer that has not met a stopping item has put out all its items, filtered.
-/

namespace Lib
namespace Broadcast

variable {α β : Type*}

inductive Recv (α : Type*) where
  | item (a : α)
  | lagged (missed : Nat)
  | pending
  deriving DecidableEq, Repr

/-- One `recv` of a subscriber at position `next`. -/
def recv (window : Nat) (log : List α) (next : Nat) : Recv α :=
  if window < log.length - next then .lagged (log.length - next - window)
  else
    match log[next]? with
    | some a => .item a
    | none => .pending

theorem recv_item {window : Nat} {log : List α} {next : Nat} {a : α}
    (h : recv window log next = .item a) : log[next]? = some a := by
  unfold recv at h
  split at h
  · cases h
  · split at h
    · rename_i b hb; cases h; exact hb
    · cases h

/-- The items from position `start` up to position `next`. -/
def span (log : List α) (start next : Nat) : List α := (log.take next).drop start

@[simp] theorem span_self (log : List α) (start : Nat) : span log start start = [] := by
  simp [span]

theorem span_succ {log : List α} {start next : Nat} {a : α} (hs : start ≤ next)
    (h : log[next]? = some a) :
    span log start (next + 1) = span log start next ++ [a] := by
  have hlt : next < log.length := (List.getElem?_eq_some_iff.mp h).1
  rw [span, List.take_add_one, h, Option.toList_some, List.drop_append_of_le_length]
  · rfl
  · simp; omega

/-- Items sent later do not change what was read. -/
theorem span_append {log : List α} {start next : Nat} (h : next ≤ log.length) (more : List α) :
    span (log ++ more) start next = span log start next := by
  rw [span, List.take_append_of_le_length h]; rfl

/-- An item that is read, and the items read before it. -/
theorem span_split {log as bs : List α} {start : Nat} {a : α}
    (h : as ++ a :: bs <+: log.drop start) :
    log[start + as.length]? = some a ∧ span log start (start + as.length) = as := by
  obtain ⟨cs, hcs⟩ := h
  refine ⟨?_, ?_⟩
  · rw [← List.getElem?_drop, ← hcs]
    simp
  · rw [span, List.drop_take, Nat.add_sub_cancel_left, ← hcs]
    simp

theorem span_initial (log : List α) (start next : Nat) :
    span log start next <+: log.drop start := by
  rw [span, List.drop_take]
  exact List.take_prefix _ _

/-- What is put out by a consumer that forwards `deliver a` for each item and stops after the first
item that `stop` marks. -/
def delivered (deliver : α → Option β) (stop : α → Bool) : List α → List β
  | [] => []
  | a :: as => (deliver a).toList ++ if stop a then [] else delivered deliver stop as

theorem delivered_of_forall {deliver : α → Option β} {stop : α → Bool} {as : List α}
    (h : ∀ a ∈ as, stop a = false) : delivered deliver stop as = as.filterMap deliver := by
  induction as with
  | nil => rfl
  | cons a as ih =>
    rw [delivered, h a (by simp), ih fun b hb => h b (by simp [hb])]
    cases hd : deliver a <;> simp [hd]

theorem delivered_append {deliver : α → Option β} {stop : α → Bool} {as : List α}
    (h : ∀ a ∈ as, stop a = false) (bs : List α) :
    delivered deliver stop (as ++ bs) = as.filterMap deliver ++ delivered deliver stop bs := by
  induction as with
  | nil => rfl
  | cons a as ih =>
    rw [List.cons_append, delivered, h a (by simp), ih fun b hb => h b (by simp [hb])]
    cases hd : deliver a <;> simp [hd]

/-- The items up to the first one that `stop` marks, which is kept. -/
def upTo (stop : α → Bool) : List α → List α
  | [] => []
  | a :: as => a :: if stop a then [] else upTo stop as

theorem upTo_initial (stop : α → Bool) (as : List α) : upTo stop as <+: as := by
  induction as with
  | nil => exact List.prefix_refl _
  | cons a as ih =>
    rw [upTo]
    split
    · exact ⟨as, rfl⟩
    · exact (List.prefix_cons_inj a).mpr ih

/-- Only the last item is one to stop at. -/
theorem upTo_split {stop : α → Bool} {as bs cs : List α} {b : α}
    (h : upTo stop as = bs ++ b :: cs) : ∀ a ∈ bs, stop a = false := by
  induction as generalizing bs with
  | nil => rw [upTo] at h; simp at h
  | cons a as ih =>
    cases bs with
    | nil => exact fun x hx => absurd hx List.not_mem_nil
    | cons x bs =>
      rw [upTo, List.cons_append, List.cons.injEq] at h
      obtain ⟨rfl, htail⟩ := h
      split at htail
      · simp at htail
      · rename_i hstop
        intro y hy
        rcases List.mem_cons.mp hy with rfl | hy
        · exact Bool.not_eq_true _ ▸ hstop
        · exact ih htail y hy

theorem delivered_eq (deliver : α → Option β) (stop : α → Bool) (as : List α) :
    delivered deliver stop as = (upTo stop as).filterMap deliver := by
  induction as with
  | nil => rfl
  | cons a as ih =>
    rw [delivered, upTo]
    cases hs : stop a <;> cases hd : deliver a <;> simp [hd, ih]

theorem delivered_mono {deliver : α → Option β} {stop : α → Bool} {as bs : List α}
    (h : as <+: bs) : delivered deliver stop as <+: delivered deliver stop bs := by
  induction as generalizing bs with
  | nil => exact List.nil_prefix
  | cons a as ih =>
    obtain ⟨cs, rfl⟩ := h
    rw [List.cons_append, delivered, delivered]
    split
    · exact List.prefix_refl _
    · exact (List.prefix_append_right_inj _).mpr (ih (List.prefix_append as cs))

end Broadcast
end Lib
