import Parrhesia.Lib.Machine

/-!
# Lib.Restart

A machine that can crash at any step and is started again on what it has made durable.

* `step`      : the machine runs, crashes, or is started; a start that fails leaves durable state too.
* `Holds I D` : `I` of the running machine, or `D` of the durable state of one that is down.
* `holds`     : what a start and a step establish and a crash keeps holds over all lifetimes.
* `ordered`   : an order on the durable states that starts and steps only climb is climbed over all
  lifetimes.
-/

namespace Lib
namespace Restart

variable {σ δ α β : Type*}

/-- Running, or down with what is left. -/
inductive Phase (σ δ : Type*) where
  | up (s : σ)
  | down (d : δ)

inductive Event (α β : Type*) where
  | step (a : α)
  | crash
  | boot (b : β)

variable (inner : σ → α → Option σ) (durable : σ → δ) (boot : δ → β → σ ⊕ δ)

def step : Phase σ δ → Event α β → Option (Phase σ δ)
  | .up s, .step a => (inner s a).map .up
  | .up s, .crash => some (.down (durable s))
  | .down d, .boot b =>
    match boot d b with
    | .inl s => some (.up s)
    | .inr d' => some (.down d')
  | _, _ => none

/-- What would be left if it crashed now. -/
def Phase.left (f : σ → δ) : Phase σ δ → δ
  | .up s => f s
  | .down d => d

def Phase.Holds (I : σ → Prop) (D : δ → Prop) : Phase σ δ → Prop
  | .up s => I s
  | .down d => D d

variable {inner : σ → α → Option σ} {durable : σ → δ} {boot : δ → β → σ ⊕ δ}
variable {I : σ → Prop} {D : δ → Prop} {p q : Phase σ δ}

/-- What can happen to a machine between two starts. -/
inductive Step (inner : σ → α → Option σ) (durable : σ → δ) (boot : δ → β → σ ⊕ δ) :
    Phase σ δ → Phase σ δ → Prop
  | ran {s a s'} (hs : inner s a = some s') : Step inner durable boot (.up s) (.up s')
  | crashed {s} : Step inner durable boot (.up s) (.down (durable s))
  | booted {d b s} (hb : boot d b = .inl s) : Step inner durable boot (.down d) (.up s)
  | failed {d b d'} (hb : boot d b = .inr d') : Step inner durable boot (.down d) (.down d')

theorem step_cases {e : Event α β} (h : step inner durable boot p e = some q) :
    Step inner durable boot p q := by
  cases p with
  | up s =>
    cases e with
    | step a =>
      obtain ⟨s', hs, rfl⟩ := Option.map_eq_some_iff.mp h
      exact .ran hs
    | crash => cases h; exact .crashed
    | boot b => cases h
  | down d =>
    cases e with
    | boot b =>
      simp only [step] at h
      split at h
      · rename_i s hb; cases h; exact .booted hb
      · rename_i d' hb; cases h; exact .failed hb
    | step a => cases h
    | crash => cases h

theorem holds (hrun : Machine.Reachable (step inner durable boot) p q) (hp : p.Holds I D)
    (hstep : ∀ s a s', I s → inner s a = some s' → I s') (hcrash : ∀ s, I s → D (durable s))
    (hboot : ∀ d b s, D d → boot d b = .inl s → I s)
    (hfail : ∀ d b d', D d → boot d b = .inr d' → D d') : q.Holds I D := by
  refine hrun.invariant (I := Phase.Holds I D) hp ?_
  intro p e q hI hs
  cases step_cases hs with
  | ran hran => exact hstep _ _ _ hI hran
  | crashed => exact hcrash _ hI
  | booted hb => exact hboot _ _ _ hI hb
  | failed hb => exact hfail _ _ _ hI hb

/-- A crash loses nothing durable, so the order needs to be shown of steps and starts only. -/
theorem ordered {R : δ → δ → Prop} (hrefl : ∀ d, R d d) (htrans : ∀ d e f, R d e → R e f → R d f)
    (hrun : Machine.Reachable (step inner durable boot) p q) (hp : p.Holds I D)
    (hstep : ∀ s a s', I s → inner s a = some s' → I s' ∧ R (durable s) (durable s'))
    (hcrash : ∀ s, I s → D (durable s))
    (hboot : ∀ d b s, D d → boot d b = .inl s → I s ∧ R d (durable s))
    (hfail : ∀ d b d', D d → boot d b = .inr d' → D d' ∧ R d d') :
    R (p.left durable) (q.left durable) := by
  refine (hrun.invariant
    (I := fun q => q.Holds I D ∧ R (p.left durable) (q.left durable)) ⟨hp, hrefl _⟩ ?_).2
  rintro q e q' ⟨hI, hR⟩ hs
  cases step_cases hs with
  | ran hran =>
    obtain ⟨hI', hle⟩ := hstep _ _ _ hI hran
    exact ⟨hI', htrans _ _ _ hR hle⟩
  | crashed => exact ⟨hcrash _ hI, hR⟩
  | booted hb =>
    obtain ⟨hI', hle⟩ := hboot _ _ _ hI hb
    exact ⟨hI', htrans _ _ _ hR hle⟩
  | failed hb =>
    obtain ⟨hD', hle⟩ := hfail _ _ _ hI hb
    exact ⟨hD', htrans _ _ _ hR hle⟩

end Restart
end Lib
