import Parrhesia.Lib.Machine

/-!
# Lib.Linear

A machine whose operations take several steps each, against an object that takes every call at once.

* `Legal call t h u` : the calls of the history `h`, made one after the other from `t`, return the
  answers of the history and lead to `u`.
* `legal_run`        : when what each step emits is legal between the abstractions of its two ends, so
  is what a whole run emits.

A step emits a call where it takes effect, so between the first and the last step of its operation:
the order of the history is one that the callers can have seen.
-/

namespace Lib
namespace Linear

variable {σ τ α γ ω : Type*}

inductive Legal (call : τ → γ → ω × τ) : τ → List (γ × ω) → τ → Prop
  | nil {t} : Legal call t [] t
  | cons {t t' u c a h} (hc : call t c = (a, t')) (hrest : Legal call t' h u) :
      Legal call t ((c, a) :: h) u

variable {call : τ → γ → ω × τ} {t u w : τ} {h h' : List (γ × ω)}

theorem Legal.single {c : γ} {a : ω} (hc : call t c = (a, u)) : Legal call t [(c, a)] u :=
  .cons hc .nil

theorem Legal.append (h₁ : Legal call t h u) (h₂ : Legal call u h' w) : Legal call t (h ++ h') w := by
  induction h₁ with
  | nil => exact h₂
  | cons hc _ ih => exact .cons hc (ih h₂)

/-- Runs of a machine with an invariant are legal when its steps are. -/
theorem legal_run {step : σ → α → Option σ} {emit : σ → α → List (γ × ω)} {abs : σ → τ}
    {I : σ → Prop} {s : σ} (h0 : I s) (hI : ∀ s a s', I s → step s a = some s' → I s')
    (hstep : ∀ s a s', I s → step s a = some s' → Legal call (abs s) (emit s a) (abs s'))
    {as : List α} {s' : σ} (hrun : Machine.run step s as = some s') :
    Legal call (abs s) (Machine.emitted step emit s as) (abs s') := by
  refine (Machine.run_induction
    (motive := fun as s' => I s' ∧ Legal call (abs s) (Machine.emitted step emit s as) (abs s'))
    ⟨h0, .nil⟩ ?_ hrun).2
  intro as s₁ a s₂ hrun hs ⟨hinv, hlegal⟩
  refine ⟨hI s₁ a s₂ hinv hs, ?_⟩
  rw [Machine.emitted_snoc hrun]
  exact hlegal.append (hstep s₁ a s₂ hinv hs)

end Linear
end Lib
