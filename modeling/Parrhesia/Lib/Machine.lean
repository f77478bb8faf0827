import Mathlib.Logic.Basic
import Mathlib.Data.List.Induction

/-!
# Lib.Machine

Runs of a machine given by a partial, labelled step function.

* `run step s as`  : the state after the labels `as`, `none` when one of them is not enabled.
* `Reachable`      : some list of labels leads from the first state to this one.
* `Along C`        : every label of a run meets `C` in the state it is taken from.
* `emitted`        : what the steps of a run emit, in order.

Every safety theorem is then an invariant (`run_invariant`), an invariant of the runs that meet a
side condition (`run_invariant_along`), or the image of one under a projection (`Reachable.map`).
`run_simulation` carries a relation between two machines to their runs.
-/

namespace Lib
namespace Machine

variable {σ τ α β : Type*}

/-- The state after the labels of the list, taken one after the other. -/
def run (step : σ → α → Option σ) (s : σ) : List α → Option σ
  | [] => some s
  | a :: as =>
    match step s a with
    | some t => run step t as
    | none => none

def Reachable (step : σ → α → Option σ) (s t : σ) : Prop := ∃ as, run step s as = some t

/-- Every label of the run from `s` meets `C` in the state it is taken from. -/
def Along (step : σ → α → Option σ) (C : σ → α → Prop) (s : σ) (as : List α) : Prop :=
  ∀ pre a post t, as = pre ++ a :: post → run step s pre = some t → C t a

/-- What the steps of a run emit, in order. -/
def emitted (step : σ → α → Option σ) (emit : σ → α → List β) (s : σ) : List α → List β
  | [] => []
  | a :: as =>
    emit s a ++
      match step s a with
      | some t => emitted step emit t as
      | none => []

variable {step : σ → α → Option σ} {s t u : σ}

@[simp] theorem run_nil : run step s [] = some s := rfl

theorem run_cons {a : α} {as : List α} (h : step s a = some t) :
    run step s (a :: as) = run step t as := by
  simp only [run, h]

theorem run_append (as bs : List α) :
    run step s (as ++ bs) = (run step s as).bind fun t => run step t bs := by
  induction as generalizing s with
  | nil => rfl
  | cons a as ih =>
    simp only [List.cons_append, run]
    cases step s a with
    | none => rfl
    | some t => exact ih

theorem run_trans {as bs : List α} (h₁ : run step s as = some t) (h₂ : run step t bs = some u) :
    run step s (as ++ bs) = some u := by
  rw [run_append, h₁]; exact h₂

/-- A run that ends with `a` is a run followed by one step. -/
theorem run_snoc {as : List α} {a : α} :
    run step s (as ++ [a]) = some u ↔ ∃ t, run step s as = some t ∧ step t a = some u := by
  rw [run_append]
  cases run step s as with
  | none => simp
  | some t =>
    simp only [Option.bind_some, run, Option.some.injEq, exists_eq_left']
    cases step t a <;> simp

/-- Induction on a run from its end: what holds of the empty run, and is carried from a run to the
same run with one more step, holds of every run. -/
theorem run_induction {motive : List α → σ → Prop} (nil : motive [] s)
    (snoc : ∀ as t a u, run step s as = some t → step t a = some u → motive as t →
      motive (as ++ [a]) u) :
    ∀ {as : List α}, run step s as = some t → motive as t := by
  intro as
  induction as using List.reverseRecOn generalizing t with
  | nil => intro h; simp only [run_nil, Option.some.injEq] at h; subst h; exact nil
  | append_singleton as a ih =>
    intro h
    obtain ⟨m, hm, hs⟩ := run_snoc.mp h
    exact snoc as m a t hm hs (ih hm)

theorem run_invariant {I : σ → Prop} (h0 : I s)
    (hstep : ∀ t a u, I t → step t a = some u → I u) {as : List α}
    (h : run step s as = some t) : I t :=
  run_induction (motive := fun _ t => I t) h0 (fun _ t a u _ hs ih => hstep t a u ih hs) h

theorem Along.snoc {C : σ → α → Prop} {as : List α} {a : α} (h : Along step C s (as ++ [a])) :
    Along step C s as ∧ ∀ t, run step s as = some t → C t a := by
  refine ⟨?_, fun t ht => h as a [] t rfl ht⟩
  intro pre b post t he ht
  exact h pre b (post ++ [a]) t (by simp [he]) ht

theorem Along.concat {C : σ → α → Prop} {as : List α} {a : α} (h : Along step C s as)
    (ha : ∀ t, run step s as = some t → C t a) : Along step C s (as ++ [a]) := by
  intro pre b post t he ht
  rcases List.eq_nil_or_concat post with rfl | ⟨post, b', rfl⟩
  · obtain ⟨rfl, hlast⟩ := List.append_inj' he rfl
    cases hlast
    exact ha t ht
  · rw [List.concat_eq_append, ← List.cons_append, ← List.append_assoc] at he
    exact h pre b post t (List.append_inj' he rfl).1 ht

/-- An invariant that the steps meeting `C` keep holds after every run whose steps meet `C`. -/
theorem run_invariant_along {I : σ → Prop} {C : σ → α → Prop} (h0 : I s)
    (hstep : ∀ t a u, I t → C t a → step t a = some u → I u) {as : List α}
    (hC : Along step C s as) (h : run step s as = some t) : I t := by
  induction as using List.reverseRecOn generalizing t with
  | nil => simp only [run_nil, Option.some.injEq] at h; subst h; exact h0
  | append_singleton as a ih =>
    obtain ⟨m, hm, hs⟩ := run_snoc.mp h
    obtain ⟨hC', ha⟩ := hC.snoc
    exact hstep m a t (ih hC' hm) (ha m hm) hs

theorem emitted_snoc {emit : σ → α → List β} {as : List α} {a : α} (h : run step s as = some t) :
    emitted step emit s (as ++ [a]) = emitted step emit s as ++ emit t a := by
  induction as generalizing s with
  | nil =>
    cases h
    simp only [List.nil_append, emitted]
    split <;> simp
  | cons b as ih =>
    simp only [run] at h
    split at h
    · rename_i m hm
      simp only [List.cons_append, emitted, hm, ih h, List.append_assoc]
    · cases h

/-- What a run emits, some step emits. -/
theorem exists_of_mem_emitted {emit : σ → α → List β} {as : List α} {b : β}
    (h : b ∈ emitted step emit s as) : ∃ t a, b ∈ emit t a := by
  induction as generalizing s with
  | nil => cases h
  | cons a as ih =>
    simp only [emitted, List.mem_append] at h
    rcases h with hb | hb
    · exact ⟨s, a, hb⟩
    · split at hb
      · exact ih hb
      · cases hb

theorem emitted_append {emit : σ → α → List β} {as bs : List α} (h : run step s as = some t) :
    emitted step emit s (as ++ bs) = emitted step emit s as ++ emitted step emit t bs := by
  induction as generalizing s with
  | nil => cases h; rfl
  | cons a as ih =>
    simp only [run] at h
    split at h
    · rename_i m hm
      simp only [List.cons_append, emitted, hm, ih h, List.append_assoc]
    · cases h

theorem Reachable.refl : Reachable step s s := ⟨[], rfl⟩

theorem Reachable.snoc {a : α} (h : Reachable step s t) (hs : step t a = some u) :
    Reachable step s u := by
  obtain ⟨as, has⟩ := h
  exact ⟨as ++ [a], run_snoc.mpr ⟨t, has, hs⟩⟩

theorem Reachable.trans (h₁ : Reachable step s t) (h₂ : Reachable step t u) :
    Reachable step s u := by
  obtain ⟨as, has⟩ := h₁
  obtain ⟨bs, hbs⟩ := h₂
  exact ⟨as ++ bs, run_trans has hbs⟩

theorem Reachable.invariant {I : σ → Prop} (h : Reachable step s t) (h0 : I s)
    (hstep : ∀ t a u, I t → step t a = some u → I u) : I t :=
  h.elim fun _ has => run_invariant h0 hstep has

/-- A projection under which every step is a step of the other machine, or nothing, carries runs
to runs. -/
theorem Reachable.map {step' : τ → β → Option τ} (f : σ → τ)
    (hstep : ∀ s a t, step s a = some t → f t = f s ∨ ∃ b, step' (f s) b = some (f t))
    (h : Reachable step s t) : Reachable step' (f s) (f t) := by
  refine h.invariant (I := fun t => Reachable step' (f s) (f t)) .refl ?_
  intro t a u ih hs
  rcases hstep t a u hs with he | ⟨b, hb⟩
  · rw [he]; exact ih
  · exact ih.snoc hb

/-- A relation that every step keeps, the other machine following with the labels that the step emits,
is kept by every run. -/
theorem run_simulation {step' : τ → β → Option τ} {emit : σ → α → List β} {R : σ → τ → Prop} {w : τ}
    (h0 : R s w) (hstep : ∀ s w a s', R s w → step s a = some s' →
      ∃ w', run step' w (emit s a) = some w' ∧ R s' w')
    {as : List α} (h : run step s as = some t) :
    ∃ w', run step' w (emitted step emit s as) = some w' ∧ R t w' := by
  refine run_induction
    (motive := fun as t => ∃ w', run step' w (emitted step emit s as) = some w' ∧ R t w')
    ⟨w, rfl, h0⟩ ?_ h
  rintro as t a u hrun hs ⟨w₁, hw₁, hR⟩
  obtain ⟨w₂, hw₂, hR'⟩ := hstep t w₁ a u hR hs
  refine ⟨w₂, ?_, hR'⟩
  rw [emitted_snoc hrun]
  exact run_trans hw₁ hw₂

/-- A machine that can always step to a smaller rank until it is done can be brought to be done. -/
theorem exists_done {I done : σ → Prop} (rank : σ → Nat)
    (hstep : ∀ s, I s → ¬ done s → ∃ a t, step s a = some t ∧ I t ∧ rank t < rank s)
    (hs : I s) : ∃ t, Reachable step s t ∧ I t ∧ done t := by
  induction hn : rank s using Nat.strongRecOn generalizing s with
  | ind n ih =>
    by_cases hdone : done s
    · exact ⟨s, .refl, hs, hdone⟩
    · obtain ⟨a, t, hst, ht, hlt⟩ := hstep s hs hdone
      obtain ⟨u, hrun, hu⟩ := ih (rank t) (hn ▸ hlt) ht rfl
      exact ⟨u, Reachable.trans (Reachable.snoc .refl hst) hrun, hu⟩

end Machine
end Lib
