import Parrhesia.Gate

/-!
# Parrhesia.Permits

The two permits of the password service, over calls that may be given up at any time.

* `Calls`     : the service beside the jobs somebody still waits for; calls start, are cancelled and
  pick up their results, jobs end in any way.
* `Conserved` : the free permits and the unfinished jobs make two, and jobs are told apart.
-/

namespace Parrhesia

open Lib Passwords

namespace PasswordService

/-- The free permits and the unfinished jobs make two. -/
structure Conserved (p : PasswordService) : Prop where
  total : p.available + p.running.length = 2
  numbered : Numbered p
  distinct : (p.running.map Prod.fst).Nodup

variable {crates : PasswordCrates} {p p' : PasswordService} {job : Nat} {work : Work}

theorem conserved_new : Conserved new := ⟨rfl, numbered_new, List.nodup_nil⟩

theorem Conserved.compute (h : Conserved p) (hc : p.compute work = .ok (job, p')) :
    p'.available + 1 = p.available ∧ p'.running = p.running ++ [(job, work)] ∧ Conserved p' := by
  obtain ⟨hjob, hrunning, -, -⟩ := compute_ok hc
  have havailable : p'.available + 1 = p.available := by
    unfold PasswordService.compute at hc
    split at hc
    · cases hc
    · rename_i hfree; cases hc; exact hfree.symm
  refine ⟨havailable, hrunning, ?_, h.numbered.compute hc, ?_⟩
  · have := h.total
    rw [hrunning, List.length_append, List.length_singleton]
    omega
  · rw [hrunning, List.map_append, List.nodup_append]
    refine ⟨h.distinct, List.nodup_singleton _, ?_⟩
    intro j hj j' hj'
    obtain ⟨e, he, rfl⟩ := List.mem_map.mp hj
    have hlt := h.numbered.running e he
    have hnew : j' = job := List.mem_singleton.mp hj'
    omega

/-- The end of a job, in whatever way, frees its permit and no other. -/
theorem Conserved.finish (h : Conserved p) {panics : Bool}
    (hf : p.finish crates job panics = some p') :
    p'.available = p.available + 1 ∧ p'.running.length + 1 = p.running.length ∧
      job ∉ p'.running.map Prod.fst ∧ Conserved p' := by
  have hnumbered := h.numbered.finish hf
  unfold PasswordService.finish at hf
  split at hf
  · cases hf
  · rename_i work hlookup
    obtain ⟨l₁, l₂, hsplit, -⟩ := List.lookup_eq_some_iff.mp hlookup
    have hdistinct := h.distinct
    have htotal := h.total
    cases hf
    rw [hsplit] at hdistinct htotal
    -- job numbers are distinct, so the filter removes this one job
    have hleft : p.running.filter (fun e => decide (e.1 ≠ job)) = l₁ ++ l₂ := by
      rw [List.map_append, List.map_cons, List.nodup_append, List.nodup_cons] at hdistinct
      have h₁ : l₁.filter (fun e => decide (e.1 ≠ job)) = l₁ := by
        refine List.filter_eq_self.mpr ?_
        intro e he
        exact decide_eq_true (hdistinct.2.2 _ (List.mem_map_of_mem he) _ (by simp))
      have h₂ : l₂.filter (fun e => decide (e.1 ≠ job)) = l₂ := by
        refine List.filter_eq_self.mpr ?_
        intro e he
        refine decide_eq_true ?_
        intro hjob
        have hmem : e.1 ∈ l₂.map Prod.fst := List.mem_map_of_mem he
        rw [hjob] at hmem
        exact hdistinct.2.1.1 hmem
      rw [hsplit, List.filter_append, List.filter_cons, h₁, h₂]
      simp
    have hsub : ((l₁ ++ l₂).map Prod.fst).Sublist ((l₁ ++ (job, work) :: l₂).map Prod.fst) :=
      ((List.sublist_cons_self _ _).append_left l₁).map _
    have hgone : job ∉ (l₁ ++ l₂).map Prod.fst := by
      rw [List.map_append, List.map_cons, List.nodup_append, List.nodup_cons] at hdistinct
      rw [List.map_append, List.mem_append]
      rintro (hmem | hmem)
      · exact hdistinct.2.2 _ hmem _ (by simp) rfl
      · exact hdistinct.2.1.1 hmem
    simp only [List.length_append, List.length_cons] at htotal
    refine ⟨rfl, ?_, ?_, ?_, hnumbered, ?_⟩
    · dsimp only
      rw [hleft, hsplit]
      simp only [List.length_append, List.length_cons]
      omega
    · dsimp only
      rw [hleft]
      exact hgone
    · dsimp only
      rw [hleft, List.length_append]
      omega
    · dsimp only
      rw [hleft]
      exact hdistinct.sublist hsub

theorem Conserved.turned (h : Conserved p) (ht : Turned crates p p') : Conserved p' := by
  rcases ht with rfl | ⟨work, job, hcompute⟩ | ⟨job, panics, hfinish⟩
  · exact h
  · exact (h.compute hcompute).2.2
  · exact (h.finish hfinish).2.2.2

/-- `compute` refuses when both permits are taken, and only then. -/
theorem Conserved.busy_iff (h : Conserved p) (work : Work) :
    p.compute work = .error .busy ↔ p.running.length = 2 := by
  have htotal := h.total
  unfold PasswordService.compute
  split
  · rename_i hnone
    constructor
    · intro _
      omega
    · intro _
      rfl
  · rename_i hsome
    constructor
    · intro hb
      cases hb
    · intro hfull
      omega

/-- A call is refused before `compute`, or by it. -/
theorem Conserved.busy (h : Conserved p) :
    (∀ password salt, p.hash crates password salt = .error .busy → p.running.length = 2) ∧
      ∀ password stored, p.verify crates password stored = .error .busy → p.running.length = 2 := by
  have hnormalize : ∀ password, Passwords.normalize crates password ≠ .error .busy := by
    intro password hb
    unfold Passwords.normalize at hb
    split at hb
    · cases hb
    · dsimp only at hb
      split at hb <;> cases hb
  constructor
  · intro password salt hb
    unfold PasswordService.hash at hb
    split at hb
    · rename_i e he
      cases hb
      exact absurd he (hnormalize password)
    · split at hb
      · cases hb
      · exact (h.busy_iff _).mp hb
  · intro password stored hb
    unfold PasswordService.verify at hb
    split at hb
    · rename_i e he
      cases hb
      exact absurd he (hnormalize password)
    · exact (h.busy_iff _).mp hb

/-! ## Calls and their cancellation -/

/-- The service, and the jobs that somebody waits for. -/
structure Calls where
  service : PasswordService
  waiting : List Nat

namespace Calls

inductive Op where
  | hash (password : String) (salt : List UInt8)
  | verify (password stored : String)
  | cancel (job : Nat)
  | jobEnds (job : Nat) (panics : Bool)
  | returns (job : Nat)

def start : Calls := ⟨new, []⟩

/-- A call that did not start a job has returned its error. -/
def begin (s : Calls) (result : Except PasswordError (Nat × PasswordService)) : Calls :=
  match result with
  | .ok (job, service) => ⟨service, s.waiting ++ [job]⟩
  | .error _ => s

def step (crates : PasswordCrates) (s : Calls) : Op → Option Calls
  | .hash password salt => some (s.begin (s.service.hash crates password salt))
  | .verify password stored => some (s.begin (s.service.verify crates password stored))
  | .cancel job =>
    if job ∈ s.waiting then some { s with waiting := s.waiting.erase job } else none
  | .jobEnds job panics =>
    (s.service.finish crates job panics).map fun service => { s with service }
  | .returns job =>
    if job ∈ s.waiting ∧ (s.service.results job).isSome then
      some { s with waiting := s.waiting.erase job }
    else none

def Reachable (crates : PasswordCrates) (s : Calls) : Prop :=
  Machine.Reachable (step crates) start s

variable {s s' : Calls}

theorem begin_turned {result : Except PasswordError (Nat × PasswordService)}
    (h : ∀ job p', result = .ok (job, p') → Turned crates s.service p') :
    Turned crates s.service (s.begin result).service := by
  unfold begin
  split
  · exact h _ _ rfl
  · exact .inl rfl

theorem step_turned {op : Op} (h : s.step crates op = some s') :
    Turned crates s.service s'.service := by
  cases op with
  | hash password salt =>
    cases h
    refine begin_turned ?_
    intro job p' hp
    obtain ⟨normalized, -, -, hcompute⟩ := hash_ok hp
    exact .inr (.inl ⟨_, job, hcompute⟩)
  | verify password stored =>
    cases h
    refine begin_turned ?_
    intro job p' hp
    obtain ⟨normalized, -, hcompute⟩ := verify_ok hp
    exact .inr (.inl ⟨_, job, hcompute⟩)
  | cancel job =>
    simp only [step] at h
    split at h
    · cases h; exact .inl rfl
    · cases h
  | jobEnds job panics =>
    obtain ⟨service, hfinish, rfl⟩ := Option.map_eq_some_iff.mp h
    exact .inr (.inr ⟨job, panics, hfinish⟩)
  | returns job =>
    simp only [step] at h
    split at h
    · cases h; exact .inl rfl
    · cases h

theorem Reachable.conserved (h : s.Reachable crates) : Conserved s.service :=
  Machine.Reachable.invariant (I := fun s => Conserved s.service) h conserved_new
    fun _ _ _ hI hs => hI.turned (step_turned hs)

end Calls
end PasswordService

theorem Server.Reachable.conserved {env : Env} {v : Server} (h : Reachable env v) :
    v.shared.passwords.Conserved :=
  h.invariant (I := fun v => v.shared.passwords.Conserved)
    (fun _ => PasswordService.conserved_new) fun _ _ _ hI hs => hI.turned hs.passwords

/-- What a step does to the permits and the unfinished jobs: a refused call, a cancellation and a
return nothing, a call that starts takes one permit for its one job, and the end of a job gives its
permit back. -/
structure PasswordService.Calls.Keeps (crates : PasswordCrates) (s : PasswordService.Calls) : Prop where
  refusedHash : ∀ password salt e, s.service.hash crates password salt = .error e →
    s.step crates (.hash password salt) = some s
  refusedVerify : ∀ password stored e, s.service.verify crates password stored = .error e →
    s.step crates (.verify password stored) = some s
  cancelled : ∀ job s', s.step crates (.cancel job) = some s' → s'.service = s.service
  returned : ∀ job s', s.step crates (.returns job) = some s' → s'.service = s.service
  started : ∀ work job p', s.service.compute work = .ok (job, p') →
    p'.available + 1 = s.service.available ∧ p'.running = s.service.running ++ [(job, work)]
  ended : ∀ job panics p', s.service.finish crates job panics = some p' →
    p'.available = s.service.available + 1 ∧ p'.running.length + 1 = s.service.running.length ∧
      job ∉ p'.running.map Prod.fst

theorem PasswordService.Calls.Reachable.keeps {crates : PasswordCrates} {s : PasswordService.Calls}
    (h : s.Reachable crates) : s.Keeps crates where
  refusedHash password salt e he := by simp only [step, he, begin]
  refusedVerify password stored e he := by simp only [step, he, begin]
  cancelled job s' hs := by
    simp only [step] at hs
    split at hs
    · cases hs; rfl
    · cases hs
  returned job s' hs := by
    simp only [step] at hs
    split at hs
    · cases hs; rfl
    · cases hs
  started work job p' hc :=
    ⟨(h.conserved.compute hc).1, (h.conserved.compute hc).2.1⟩
  ended job panics p' hf :=
    ⟨(h.conserved.finish hf).1, (h.conserved.finish hf).2.1, (h.conserved.finish hf).2.2.1⟩

/-- **Permits are conserved.** In every state that calls, cancellations and ends of jobs lead to, the
free permits and the unfinished jobs make two, a call answers `Busy` only when two jobs are
unfinished, and no step loses or doubles a permit. So it is for the service of a server, whatever
its sockets do. -/
theorem permits_conserved (env : Env) :
    (∀ s : PasswordService.Calls, s.Reachable env.crates →
      s.service.available + s.service.running.length = 2 ∧
        (∀ password salt, s.service.hash env.crates password salt = .error .busy →
          s.service.running.length = 2) ∧
        (∀ password stored, s.service.verify env.crates password stored = .error .busy →
          s.service.running.length = 2) ∧ s.Keeps env.crates) ∧
    ∀ v, Server.Reachable env v →
      v.shared.passwords.available + v.shared.passwords.running.length = 2 := by
  constructor
  · intro s hs
    have hconserved := hs.conserved
    exact ⟨hconserved.total, hconserved.busy.1, hconserved.busy.2, hs.keeps⟩
  · intro v hv
    exact hv.conserved.total

/-- Two verifications, one of them given up: its job still holds a permit, and a third is refused. -/
theorem permits_conserved_cancel : ∃ s : PasswordService.Calls,
    Machine.run (PasswordService.Calls.step Server.passphraseEnv.crates) .start
      [.verify Server.passphrase "a", .verify Server.passphrase "b", .cancel 0] = some s ∧
    s.waiting = [1] ∧ s.service.available + s.service.running.length = 2 ∧
      s.service.running.length = 2 := by
  have hrun : ((Machine.run (PasswordService.Calls.step Server.passphraseEnv.crates) .start
      [.verify Server.passphrase "a", .verify Server.passphrase "b", .cancel 0]).map fun s =>
        (s.waiting, (s.service.verify Server.passphraseEnv.crates Server.passphrase "c").isOk,
          s.service.running.length)) = some ([1], false, 2) := by decide +kernel
  obtain ⟨s, hs, hfields⟩ := Option.map_eq_some_iff.mp hrun
  obtain ⟨hwaiting, hrest⟩ := Prod.mk.inj hfields
  obtain ⟨-, hrunning⟩ := Prod.mk.inj hrest
  have hconserved := (permits_conserved Server.passphraseEnv).1 s ⟨_, hs⟩
  exact ⟨s, hs, hwaiting, hconserved.1, hrunning⟩

end Parrhesia
