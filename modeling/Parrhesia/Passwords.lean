import Mathlib.Logic.Function.Basic

/-!
# Parrhesia.Passwords

`passwords.rs`: normalization, and the blocking jobs that hash and verify.

`PasswordCrates` is what the third-party crates compute. A job owns one of two permits from
`compute` until it ends, whether or not anybody still waits for it; `finish` ends a job, normally or
by a panic.
-/

namespace Parrhesia

inductive PasswordError where
  | invalid
  | common
  | busy
  | internal
  deriving DecidableEq, Repr

/-- A parsed PHC string. -/
structure Phc where
  algorithm : String
  version : Option Nat
  params : List (String × String)
  salt : Option (List UInt8)
  hash : Option (List UInt8)

structure Argon2Params where
  mCost : Nat
  tCost : Nat
  pCost : Nat
  deriving DecidableEq, Repr

inductive VerifyError where
  | passwordInvalid
  | other
  deriving DecidableEq, Repr

/-- The functions of the third-party crates. -/
structure PasswordCrates where
  nfc : String → String
  blocklist : List String
  parsePhc : String → Option Phc
  paramsOf : Phc → Option Argon2Params
  hashPassword : String → List UInt8 → Option String
  verifyPassword : String → Phc → Except VerifyError Unit

namespace Passwords

def memoryKib : Nat := 64 * 1024

def iterations : Nat := 3

def lanes : Nat := 1

def outputBytes : Nat := 32

variable (crates : PasswordCrates)

def normalize (password : String) : Except PasswordError String :=
  if 1024 < password.utf8ByteSize then .error .invalid
  else
    let normalized := crates.nfc password
    if 1024 < normalized.utf8ByteSize ∨ ¬ (15 ≤ normalized.length ∧ normalized.length ≤ 256) then
      .error .invalid
    else .ok normalized

/-- A job, on a normalized password. -/
inductive Work where
  | hash (password : String) (salt : List UInt8)
  | verify (password stored : String)
  deriving DecidableEq, Repr

/-- What the awaiting call gets. -/
inductive Computed where
  | hashed (result : Except PasswordError String)
  | verified (result : Except PasswordError Bool)

def hashWork (password : String) (salt : List UInt8) : Except PasswordError String :=
  match crates.hashPassword password salt with
  | some hash => .ok hash
  | none => .error .internal

/-- Stored parameters other than those `hash` produces are never accepted. -/
def acceptable (phc : Phc) (params : Argon2Params) : Bool :=
  decide (phc.algorithm = "argon2id") && decide (phc.version = some 19) &&
    decide (params.mCost = memoryKib) && decide (params.tCost = iterations) &&
    decide (params.pCost = lanes) && decide (phc.salt.map List.length = some 16) &&
    decide (phc.hash.map List.length = some outputBytes)

def verifyWork (password stored : String) : Except PasswordError Bool :=
  match crates.parsePhc stored with
  | none => .error .internal
  | some phc =>
    match crates.paramsOf phc with
    | none => .error .internal
    | some params =>
      if acceptable phc params then
        match crates.verifyPassword password phc with
        | .ok () => .ok true
        | .error .passwordInvalid => .ok false
        | .error .other => .error .internal
      else .error .internal

def Work.run : Work → Computed
  | .hash password salt => .hashed (hashWork crates password salt)
  | .verify password stored => .verified (verifyWork crates password stored)

/-- What the awaiting call gets when the job panics. -/
def Work.panicked : Work → Computed
  | .hash _ _ => .hashed (.error .internal)
  | .verify _ _ => .verified (.error .internal)

end Passwords

open Passwords

/-- The permits, the unfinished jobs and the results of the finished ones. -/
structure PasswordService where
  available : Nat
  running : List (Nat × Work)
  results : Nat → Option Computed
  nextJob : Nat

namespace PasswordService

def new : PasswordService := ⟨2, [], fun _ => none, 0⟩

def compute (p : PasswordService) (work : Work) : Except PasswordError (Nat × PasswordService) :=
  match p.available with
  | 0 => .error .busy
  | available + 1 =>
    .ok (p.nextJob, { p with available, running := p.running ++ [(p.nextJob, work)],
                             nextJob := p.nextJob + 1 })

/-- A job ends: its permit is free again and its result can be picked up. -/
def finish (crates : PasswordCrates) (p : PasswordService) (job : Nat) (panics : Bool) :
    Option PasswordService :=
  match p.running.lookup job with
  | none => none
  | some work =>
    some { p with
      available := p.available + 1,
      running := p.running.filter fun e => decide (e.1 ≠ job),
      results := Function.update p.results job
        (some (if panics then work.panicked else work.run crates)) }

/-- The synchronous part of `hash`. -/
def hash (crates : PasswordCrates) (p : PasswordService) (password : String) (salt : List UInt8) :
    Except PasswordError (Nat × PasswordService) :=
  match normalize crates password with
  | .error e => .error e
  | .ok password =>
    if crates.blocklist.contains password then .error .common else p.compute (.hash password salt)

/-- The synchronous part of `verify`. -/
def verify (crates : PasswordCrates) (p : PasswordService) (password stored : String) :
    Except PasswordError (Nat × PasswordService) :=
  match normalize crates password with
  | .error e => .error e
  | .ok password => p.compute (.verify password stored)

/-- What a call that waits for `job` gets from `verify`, once the job has ended. -/
def verified (p : PasswordService) (job : Nat) : Option (Except PasswordError Bool) :=
  match p.results job with
  | some (.verified result) => some result
  | _ => none

/-- What a call that waits for `job` gets from `hash`, once the job has ended. -/
def hashed (p : PasswordService) (job : Nat) : Option (Except PasswordError String) :=
  match p.results job with
  | some (.hashed result) => some result
  | _ => none

/-! ## Jobs -/

/-- Job numbers are used once. -/
structure Numbered (p : PasswordService) : Prop where
  running : ∀ e ∈ p.running, e.1 < p.nextJob
  results : ∀ job, p.nextJob ≤ job → p.results job = none

/-- Job `job` was started for `work`, and whatever is known of it belongs to that. -/
structure Assigned (crates : PasswordCrates) (p : PasswordService) (job : Nat) (work : Work) :
    Prop where
  lt : job < p.nextJob
  running : ∀ w, (job, w) ∈ p.running → w = work
  results : ∀ result, p.results job = some result → result = work.run crates ∨ result = work.panicked

variable {crates : PasswordCrates} {p p' : PasswordService} {job : Nat} {work : Work}

theorem hash_ok {password : String} {salt : List UInt8}
    (h : p.hash crates password salt = .ok (job, p')) :
    ∃ normalized, normalize crates password = .ok normalized ∧
      crates.blocklist.contains normalized = false ∧
      p.compute (.hash normalized salt) = .ok (job, p') := by
  unfold PasswordService.hash at h
  split at h
  · cases h
  · rename_i normalized hnormalize
    split at h
    · cases h
    · rename_i hcommon
      exact ⟨normalized, hnormalize, Bool.eq_false_iff.mpr hcommon, h⟩

theorem verify_ok {password stored : String} (h : p.verify crates password stored = .ok (job, p')) :
    ∃ normalized, normalize crates password = .ok normalized ∧
      p.compute (.verify normalized stored) = .ok (job, p') := by
  unfold verify at h
  split at h
  · cases h
  · rename_i normalized hnormalize
    exact ⟨normalized, hnormalize, h⟩

theorem numbered_new : Numbered new where
  running e h := by simp [new] at h
  results job _ := rfl

theorem compute_ok (h : p.compute work = .ok (job, p')) :
    job = p.nextJob ∧ p'.running = p.running ++ [(job, work)] ∧ p'.results = p.results ∧
      p'.nextJob = p.nextJob + 1 := by
  unfold compute at h
  split at h
  · cases h
  · cases h; exact ⟨rfl, rfl, rfl, rfl⟩

theorem Numbered.compute (hn : Numbered p) (h : p.compute work = .ok (job, p')) : Numbered p' := by
  obtain ⟨rfl, hrunning, hresults, hnext⟩ := compute_ok h
  constructor
  · intro e he
    rw [hrunning, List.mem_append, List.mem_singleton] at he
    rw [hnext]
    rcases he with he | rfl
    · exact Nat.lt_succ_of_lt (hn.running e he)
    · exact Nat.lt_succ_self _
  · intro job hjob
    rw [hresults]
    exact hn.results job (by omega)

theorem Numbered.assigned (hn : Numbered p) (h : p.compute work = .ok (job, p')) :
    Assigned crates p' job work := by
  obtain ⟨rfl, hrunning, hresults, hnext⟩ := compute_ok h
  refine ⟨by omega, ?_, ?_⟩
  · intro w hw
    rw [hrunning, List.mem_append, List.mem_singleton] at hw
    rcases hw with hw | hw
    · exact absurd (hn.running _ hw) (Nat.lt_irrefl _)
    · exact (Prod.ext_iff.mp hw).2
  · intro result hr
    rw [hresults, hn.results _ (Nat.le_refl _)] at hr
    cases hr

theorem Assigned.compute (ha : Assigned crates p job work) {job' : Nat} {work' : Work}
    (h : p.compute work' = .ok (job', p')) : Assigned crates p' job work := by
  obtain ⟨rfl, hrunning, hresults, hnext⟩ := compute_ok h
  have hlt := ha.lt
  refine ⟨by omega, ?_, fun result hr => ha.results result (hresults ▸ hr)⟩
  intro w hw
  rw [hrunning, List.mem_append, List.mem_singleton] at hw
  rcases hw with hw | hw
  · exact ha.running w hw
  · have := (Prod.ext_iff.mp hw).1
    dsimp only at this
    omega

theorem finish_some {panics : Bool} (h : p.finish crates job panics = some p') :
    ∃ work, (job, work) ∈ p.running ∧ p'.running ⊆ p.running ∧ p'.nextJob = p.nextJob ∧
      p'.results =
        Function.update p.results job (some (if panics then work.panicked else work.run crates)) := by
  unfold finish at h
  split at h
  · cases h
  · rename_i work hlookup
    cases h
    obtain ⟨l₁, l₂, hsplit, -⟩ := List.lookup_eq_some_iff.mp hlookup
    exact ⟨work, by rw [hsplit]; simp, fun e he => (List.mem_filter.mp he).1, rfl, rfl⟩

theorem Numbered.finish (hn : Numbered p) {panics : Bool}
    (h : p.finish crates job panics = some p') : Numbered p' := by
  obtain ⟨work, hmem, hrunning, hnext, hresults⟩ := finish_some h
  have hlt := hn.running _ hmem
  refine ⟨fun e he => by rw [hnext]; exact hn.running e (hrunning he), fun j hj => ?_⟩
  rw [hresults, Function.update_of_ne (by omega)]
  exact hn.results j (by omega)

theorem Assigned.finish (ha : Assigned crates p job work) {job' : Nat} {panics : Bool}
    (h : p.finish crates job' panics = some p') : Assigned crates p' job work := by
  obtain ⟨work', hmem, hrunning, hnext, hresults⟩ := finish_some h
  refine ⟨by rw [hnext]; exact ha.lt, fun w hw => ha.running w (hrunning hw), fun result hr => ?_⟩
  rw [hresults, Function.update_apply] at hr
  split at hr
  · rename_i he
    subst he
    rw [ha.running work' hmem] at hr
    cases panics with
    | true => exact .inr (Option.some.inj hr).symm
    | false => exact .inl (Option.some.inj hr).symm
  · exact ha.results result hr

/-- What can happen to the jobs: nothing, a start, or an end. -/
def Turned (crates : PasswordCrates) (p p' : PasswordService) : Prop :=
  p' = p ∨ (∃ work job, p.compute work = .ok (job, p')) ∨
    ∃ job panics, p.finish crates job panics = some p'

theorem Numbered.turned (hn : Numbered p) (h : Turned crates p p') : Numbered p' := by
  rcases h with rfl | ⟨work, job, hcompute⟩ | ⟨job, panics, hfinish⟩
  · exact hn
  · exact hn.compute hcompute
  · exact hn.finish hfinish

theorem Assigned.turned (ha : Assigned crates p job work) (h : Turned crates p p') :
    Assigned crates p' job work := by
  rcases h with rfl | ⟨work, job, hcompute⟩ | ⟨job, panics, hfinish⟩
  · exact ha
  · exact ha.compute hcompute
  · exact ha.finish hfinish

/-- A job that `verify` started answers `Ok(true)` only if the password verifies. -/
theorem Assigned.verified {password stored : String}
    (ha : Assigned crates p job (.verify password stored)) (h : p.verified job = some (.ok true)) :
    verifyWork crates password stored = .ok true := by
  unfold PasswordService.verified at h
  split at h
  · rename_i result hresult
    cases h
    rcases ha.results _ hresult with hrun | hpanic
    · exact (Computed.verified.inj hrun).symm
    · cases hpanic
  · cases h

/-- A job that `hash` started answers `Ok` with a string of the crate's. -/
theorem Assigned.hashed {password hash : String} {salt : List UInt8}
    (ha : Assigned crates p job (.hash password salt)) (h : p.hashed job = some (.ok hash)) :
    hashWork crates password salt = .ok hash := by
  unfold PasswordService.hashed at h
  split at h
  · rename_i result hresult
    cases h
    rcases ha.results _ hresult with hrun | hpanic
    · exact (Computed.hashed.inj hrun).symm
    · cases hpanic
  · cases h

end PasswordService

/-- What `Ok(true)` of `verify` means. -/
def Passwords.accepts (crates : PasswordCrates) (password stored : String) : Prop :=
  ∃ normalized, normalize crates password = .ok normalized ∧
    verifyWork crates normalized stored = .ok true

/-- What `Ok(hash)` of `hash` means. -/
def Passwords.hashesTo (crates : PasswordCrates) (password hash : String) : Prop :=
  ∃ normalized salt, normalize crates password = .ok normalized ∧
    crates.blocklist.contains normalized = false ∧ hashWork crates normalized salt = .ok hash

end Parrhesia
