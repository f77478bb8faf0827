import Mathlib.Logic.Relation
import Parrhesia.Lib.Base64
import Parrhesia.Permits

/-!
# Parrhesia.HashVerify

What `hash` and `verify` return, and that they agree.

A call that is not given up returns the error it started with, or what its job computes, whatever
other calls and jobs do meanwhile (`Verifies`, `Hashes`). `Argon2` states what is relied on of the
crates: the PHC string of a hash parses back, and verifying derives the output again. It is not
assumed that Argon2 is injective, which 32 bytes of output cannot be; `verify_agrees` takes it of the
two passwords that are compared.
-/

namespace Parrhesia

open Lib Passwords

namespace PasswordService

/-! ## Results -/

/-- What other calls and jobs may have done to the service. -/
def Later (crates : PasswordCrates) : PasswordService → PasswordService → Prop :=
  Relation.ReflTransGen (Turned crates)

/-- Job `job` ends by returning, and the call that waits for it gets `c`. -/
def Awaits (crates : PasswordCrates) (p : PasswordService) (job : Nat) (c : Computed) : Prop :=
  ∃ p₁ p₂ p₃, Later crates p p₁ ∧ p₁.finish crates job false = some p₂ ∧ Later crates p₂ p₃ ∧
    p₃.results job = some c

/-- `verify(password, stored)`, not cancelled, returns `result`. -/
def Verifies (crates : PasswordCrates) (p : PasswordService) (password stored : String)
    (result : Except PasswordError Bool) : Prop :=
  match p.verify crates password stored with
  | .error e => result = .error e
  | .ok (job, p') => Awaits crates p' job (.verified result)

/-- `hash(password)` with the salt `salt`, not cancelled, returns `result`. -/
def Hashes (crates : PasswordCrates) (p : PasswordService) (password : String) (salt : List UInt8)
    (result : Except PasswordError String) : Prop :=
  match p.hash crates password salt with
  | .error e => result = .error e
  | .ok (job, p') => Awaits crates p' job (.hashed result)

/-- The job has ended, with the result `c`. -/
structure Settled (p : PasswordService) (job : Nat) (c : Computed) : Prop where
  lt : job < p.nextJob
  running : job ∉ p.running.map Prod.fst
  result : p.results job = some c

variable {crates : PasswordCrates} {p p' : PasswordService} {job : Nat} {work : Work} {c : Computed}

theorem Settled.turned (h : Settled p job c) (ht : Turned crates p p') : Settled p' job c := by
  rcases ht with rfl | ⟨work, job', hcompute⟩ | ⟨job', panics, hfinish⟩
  · exact h
  · obtain ⟨rfl, hrunning, hresults, hnext⟩ := compute_ok hcompute
    have hlt := h.lt
    refine ⟨by omega, ?_, by rw [hresults]; exact h.result⟩
    rw [hrunning, List.map_append, List.mem_append]
    rintro (hmem | hmem)
    · exact h.running hmem
    · have : job = p.nextJob := List.mem_singleton.mp hmem
      omega
  · obtain ⟨work, hmem, hrunning, hnext, hresults⟩ := finish_some hfinish
    have hne : job ≠ job' := by
      rintro rfl
      exact h.running (List.mem_map_of_mem hmem)
    refine ⟨by rw [hnext]; exact h.lt, ?_, ?_⟩
    · intro hin
      obtain ⟨e, he, hjob⟩ := List.mem_map.mp hin
      exact h.running (List.mem_map.mpr ⟨e, hrunning he, hjob⟩)
    · rw [hresults, Function.update_of_ne hne]
      exact h.result

theorem Settled.later (h : Settled p job c) (hl : Later crates p p') : Settled p' job c := by
  induction hl with
  | refl => exact h
  | tail _ ht ih => exact ih.turned ht

theorem Conserved.later (h : Conserved p) (hl : Later crates p p') : Conserved p' := by
  induction hl with
  | refl => exact h
  | tail _ ht ih => exact ih.turned ht

theorem Assigned.later (h : Assigned crates p job work) (hl : Later crates p p') :
    Assigned crates p' job work := by
  induction hl with
  | refl => exact h
  | tail _ ht ih => exact ih.turned ht

/-- A job that returns leaves what its work computes. -/
theorem Assigned.settled (ha : Assigned crates p job work) (h : Conserved p)
    (hf : p.finish crates job false = some p') : Settled p' job (work.run crates) := by
  obtain ⟨work', hmem, -, hnext, hresults⟩ := finish_some hf
  obtain rfl := ha.running _ hmem
  refine ⟨by rw [hnext]; exact ha.lt, (h.finish hf).2.2.1, ?_⟩
  rw [hresults, Function.update_self]; rfl

/-- A job that was started can return. -/
theorem Conserved.completes (h : Conserved p) (crates : PasswordCrates)
    (hc : p.compute work = .ok (job, p')) :
    ∃ p₂, p'.finish crates job false = some p₂ ∧ p₂.results job = some (work.run crates) := by
  have ha : Assigned crates p' job work := h.numbered.assigned hc
  obtain ⟨-, hrunning, hconserved⟩ := h.compute hc
  obtain ⟨p₂, hf⟩ : ∃ p₂, p'.finish crates job false = some p₂ := by
    have hmem : (job, work) ∈ p'.running := by rw [hrunning]; simp
    unfold PasswordService.finish
    cases hlookup : p'.running.lookup job with
    | some w => exact ⟨_, rfl⟩
    | none =>
      have := List.lookup_eq_none_iff.mp hlookup _ hmem
      simp at this
  exact ⟨p₂, hf, (ha.settled hconserved hf).result⟩

/-- A job that was started can end, and the call that waits for it gets what its work computes. -/
theorem awaits_iff (h : Conserved p) (hc : p.compute work = .ok (job, p')) :
    Awaits crates p' job c ↔ c = work.run crates := by
  have ha : Assigned crates p' job work := h.numbered.assigned hc
  have hconserved : Conserved p' := (h.compute hc).2.2
  constructor
  · rintro ⟨p₁, p₂, p₃, hl₁, hf, hl₂, hresult⟩
    have hsettled := ((ha.later hl₁).settled (hconserved.later hl₁) hf).later hl₂
    rw [hsettled.result] at hresult
    exact (Option.some.inj hresult).symm
  · rintro rfl
    obtain ⟨p₂, hf, hresult⟩ := h.completes crates hc
    exact ⟨p', p₂, p₂, .refl, hf, .refl, hresult⟩

/-- A call starts its job exactly when a permit is free. -/
theorem compute_eq (p : PasswordService) (work : Work) :
    (p.available = 0 ∧ p.compute work = .error .busy) ∨
      (p.available ≠ 0 ∧ ∃ job p', p.compute work = .ok (job, p')) := by
  unfold PasswordService.compute
  split
  · rename_i hnone; exact .inl ⟨hnone, rfl⟩
  · rename_i hsome; exact .inr ⟨by omega, _, _, rfl⟩

/-- What `verify` returns, exactly. -/
theorem verifies_iff (h : Conserved p) (password stored : String) (result : Except PasswordError Bool) :
    Verifies crates p password stored result ↔
      result = match Passwords.normalize crates password with
        | .error e => .error e
        | .ok normalized =>
          if p.available = 0 then .error .busy else verifyWork crates normalized stored := by
  unfold Verifies PasswordService.verify
  cases hn : Passwords.normalize crates password with
  | error e => exact Iff.rfl
  | ok normalized =>
    dsimp only
    rcases compute_eq p (.verify normalized stored) with ⟨hfull, hbusy⟩ | ⟨hfree, job, p', hcompute⟩
    · rw [hbusy, if_pos hfull]
    · rw [hcompute, if_neg hfree]
      dsimp only
      rw [awaits_iff h hcompute]
      exact ⟨fun he => Computed.verified.inj he, fun he => by rw [he]; rfl⟩

/-- What `hash` returns, exactly. -/
theorem hashes_iff (h : Conserved p) (password : String) (salt : List UInt8)
    (result : Except PasswordError String) :
    Hashes crates p password salt result ↔
      result = match Passwords.normalize crates password with
        | .error e => .error e
        | .ok normalized =>
          if crates.blocklist.contains normalized then .error .common
          else if p.available = 0 then .error .busy else hashWork crates normalized salt := by
  unfold Hashes PasswordService.hash
  cases hn : Passwords.normalize crates password with
  | error e => exact Iff.rfl
  | ok normalized =>
    dsimp only
    cases hcommon : crates.blocklist.contains normalized with
    | true => exact Iff.rfl
    | false =>
      rcases compute_eq p (.hash normalized salt) with ⟨hfull, hbusy⟩ | ⟨hfree, job, p', hcompute⟩
      · rw [if_neg (by simp), if_neg (by simp), hbusy, if_pos hfull]
      · rw [if_neg (by simp), if_neg (by simp), hcompute, if_neg hfree]
        dsimp only
        rw [awaits_iff h hcompute]
        exact ⟨fun he => Computed.hashed.inj he, fun he => by rw [he]; rfl⟩

/-- What a `hash` that succeeds returns. -/
theorem Hashes.ok (h : Conserved p) {password hash : String} {salt : List UInt8}
    (hh : Hashes crates p password salt (.ok hash)) :
    ∃ normalized, Passwords.normalize crates password = .ok normalized ∧
      crates.hashPassword normalized salt = some hash := by
  have hresult := (hashes_iff h password salt _).mp hh
  split at hresult
  · cases hresult
  · rename_i normalized hnormalize
    refine ⟨normalized, hnormalize, ?_⟩
    split at hresult
    · cases hresult
    · split at hresult
      · cases hresult
      · unfold hashWork at hresult
        split at hresult
        · rename_i hash' hhash; cases hresult; exact hhash
        · cases hresult

end PasswordService

/-! ## What is relied on of the crates -/

/-- The parameters of `argon2()`. -/
def standardParams : Argon2Params := ⟨memoryKib, iterations, lanes⟩

/-- The PHC value that `argon2()` produces. -/
def standardPhc (salt out : List UInt8) : Phc :=
  ⟨"argon2id", some 19, [("m", "65536"), ("t", "3"), ("p", "1")], some salt, some out⟩

/-- The crates derive with `derive`, and print and parse PHC strings. A password is given by its
bytes, which determine the string. -/
structure Argon2 (crates : PasswordCrates) (derive : Argon2Params → List UInt8 → String → List UInt8)
    (print : Phc → String) : Prop where
  length : ∀ salt password, (derive standardParams salt password).length = outputBytes
  hash : ∀ password salt hash, crates.hashPassword password salt = some hash →
    hash = print (standardPhc salt (derive standardParams salt password))
  parse : ∀ salt out, salt.length = 16 → out.length = outputBytes →
    crates.parsePhc (print (standardPhc salt out)) = some (standardPhc salt out)
  params : ∀ salt out, crates.paramsOf (standardPhc salt out) = some standardParams
  verify : ∀ password salt out, crates.verifyPassword password (standardPhc salt out) =
    if derive standardParams salt password = out then .ok () else .error .passwordInvalid

/-- A stored string with exactly the parameters, the version and the lengths that `hash` produces. -/
def Sound (crates : PasswordCrates) (stored : String) : Prop :=
  ∃ phc params, crates.parsePhc stored = some phc ∧ crates.paramsOf phc = some params ∧
    phc.algorithm = "argon2id" ∧ phc.version = some 19 ∧
    params.mCost = 65536 ∧ params.tCost = 3 ∧ params.pCost = 1 ∧
    phc.salt.map List.length = some 16 ∧ phc.hash.map List.length = some 32

section Verify

variable {crates : PasswordCrates} {derive : Argon2Params → List UInt8 → String → List UInt8}
  {print : Phc → String}

theorem acceptable_iff {phc : Phc} {params : Argon2Params} :
    acceptable phc params = true ↔ phc.algorithm = "argon2id" ∧ phc.version = some 19 ∧
      params.mCost = 65536 ∧ params.tCost = 3 ∧ params.pCost = 1 ∧
      phc.salt.map List.length = some 16 ∧ phc.hash.map List.length = some 32 := by
  unfold acceptable
  simp only [Bool.and_eq_true, decide_eq_true_eq, and_assoc]
  rfl

/-- A stored string that is not sound is an internal error. -/
theorem verifyWork_unsound {stored : String} (h : ¬ Sound crates stored) (password : String) :
    verifyWork crates password stored = .error .internal := by
  unfold verifyWork
  split
  · rfl
  · rename_i phc hparse
    split
    · rfl
    · rename_i params hparams
      split
      · rename_i hacceptable
        exact absurd ⟨phc, params, hparse, hparams, acceptable_iff.mp hacceptable⟩ h
      · rfl

/-- Verifying against a hash derives it again. -/
theorem Argon2.verifyWork (h : Argon2 crates derive print) {salt : List UInt8}
    (hsalt : salt.length = 16) (password q : String) :
    verifyWork crates q (print (standardPhc salt (derive standardParams salt password))) =
      .ok (decide (derive standardParams salt q = derive standardParams salt password)) := by
  have hout := h.length salt password
  have hacceptable : acceptable (standardPhc salt (derive standardParams salt password))
      standardParams = true := by
    refine acceptable_iff.mpr ⟨rfl, rfl, rfl, rfl, rfl, ?_, ?_⟩
    · exact congrArg some hsalt
    · exact congrArg some hout
  simp only [Passwords.verifyWork, h.parse _ _ hsalt hout, h.params, hacceptable, if_true, h.verify]
  split
  · rename_i heq
    split at heq
    · rename_i hsame; rw [decide_eq_true hsame]
    · cases heq
  · rename_i heq
    split at heq
    · cases heq
    · rename_i hdiffer; rw [decide_eq_false hdiffer]
  · rename_i heq
    split at heq <;> cases heq

theorem normalize_eq (crates : PasswordCrates) (password : String) :
    Passwords.normalize crates password = .ok (crates.nfc password) ∨
      Passwords.normalize crates password = .error .invalid := by
  unfold Passwords.normalize
  split
  · exact .inr rfl
  · dsimp only
    split
    · exact .inr rfl
    · exact .inl rfl

/-- The result of a `verify` whose job would compute `computed`. -/
def PasswordService.answer (crates : PasswordCrates) (p : PasswordService) (password : String)
    (computed : Except PasswordError Bool) : Except PasswordError Bool :=
  match Passwords.normalize crates password with
  | .error _ => .error .invalid
  | .ok _ => if p.available = 0 then .error .busy else computed

theorem PasswordService.Conserved.verifies {p : PasswordService} (h : p.Conserved)
    {password stored : String} {computed : Except PasswordError Bool}
    (hc : Passwords.verifyWork crates (crates.nfc password) stored = computed)
    (result : Except PasswordError Bool) :
    p.Verifies crates password stored result ↔ result = p.answer crates password computed := by
  rw [verifies_iff h, PasswordService.answer]
  rcases normalize_eq crates password with hn | hn <;> simp only [hn, hc]

/-- What `hash` makes has the shape that `verify` asks for. -/
theorem Argon2.sound (h : Argon2 crates derive print) {salt : List UInt8} (hsalt : salt.length = 16)
    (password : String) :
    Sound crates (print (standardPhc salt (derive standardParams salt password))) := by
  have hout := h.length salt password
  refine ⟨_, _, h.parse _ _ hsalt hout, h.params _ _, acceptable_iff.mp ?_⟩
  exact acceptable_iff.mpr ⟨rfl, rfl, rfl, rfl, rfl, congrArg some hsalt, congrArg some hout⟩

/-- **Hash and verify agree, and verify fails closed.** Whatever else the service does, `verify` of
`q` against a hash of `p` says whether the two have one NFC form, unless `q` is refused or no permit
is free. `derive` is only asked to keep these two apart. A stored string of any other shape than
`hash` makes is an internal error. -/
theorem verify_agrees (hargon : Argon2 crates derive print) :
    (∀ s₀ s : PasswordService.Calls, s₀.Reachable crates → s.Reachable crates →
      ∀ p salt hash, salt.length = 16 → s₀.service.Hashes crates p salt (.ok hash) →
        Sound crates hash ∧
        ∀ q, (derive standardParams salt (crates.nfc q) = derive standardParams salt (crates.nfc p) →
            crates.nfc q = crates.nfc p) →
          ∀ result, s.service.Verifies crates q hash result ↔
            result = s.service.answer crates q (.ok (decide (crates.nfc q = crates.nfc p)))) ∧
    ∀ s : PasswordService.Calls, s.Reachable crates → ∀ stored q result,
      s.service.Verifies crates q stored result →
        (result = .ok true → Sound crates stored) ∧
        (¬ Sound crates stored → result = s.service.answer crates q (.error .internal)) := by
  constructor
  · intro s₀ s h₀ h p salt hash hsalt hhash
    obtain ⟨normalized, hnormalize, hcrate⟩ := hhash.ok h₀.conserved
    have hnfc : normalized = crates.nfc p := by
      rcases normalize_eq crates p with hn | hn
      · rw [hn] at hnormalize
        exact (Except.ok.inj hnormalize).symm
      · rw [hn] at hnormalize
        cases hnormalize
    subst hnfc
    obtain rfl := hargon.hash _ _ _ hcrate
    refine ⟨hargon.sound hsalt _, ?_⟩
    intro q hapart result
    have hsame : derive standardParams salt (crates.nfc q) =
        derive standardParams salt (crates.nfc p) ↔ crates.nfc q = crates.nfc p := by
      constructor
      · exact hapart
      · intro he
        rw [he]
    have hwork := hargon.verifyWork hsalt (crates.nfc p) (crates.nfc q)
    simp only [hsame] at hwork
    exact h.conserved.verifies hwork result
  · intro s h stored q result hverifies
    have hunsound : ¬ Sound crates stored →
        result = s.service.answer crates q (.error .internal) := by
      intro hunsound
      exact (h.conserved.verifies (verifyWork_unsound hunsound _) result).mp hverifies
    refine ⟨?_, hunsound⟩
    intro htrue
    by_contra hnot
    have hrefused := hunsound hnot
    rw [htrue, PasswordService.answer] at hrefused
    split at hrefused
    · cases hrefused
    · split at hrefused <;> cases hrefused

end Verify

/-! ## Encodings of one password -/

/-- An NFC form within the limits. -/
def Admissible (normalized : String) : Prop :=
  normalized.utf8ByteSize ≤ 1024 ∧ 15 ≤ normalized.length ∧ normalized.length ≤ 256

section Encodings

variable {crates : PasswordCrates} {p q : String}

theorem normalize_long (h : 1024 < p.utf8ByteSize) : Passwords.normalize crates p = .error .invalid := by
  rw [Passwords.normalize, if_pos h]

theorem normalize_admissible (h : p.utf8ByteSize ≤ 1024) (ha : Admissible (crates.nfc p)) :
    Passwords.normalize crates p = .ok (crates.nfc p) := by
  obtain ⟨hbytes, hlower, hupper⟩ := ha
  rw [Passwords.normalize, if_neg (by omega)]
  exact if_neg (by omega)

theorem normalize_inadmissible (ha : ¬ Admissible (crates.nfc p)) :
    Passwords.normalize crates p = .error .invalid := by
  unfold Admissible at ha
  unfold Passwords.normalize
  split
  · rfl
  · exact if_pos (by omega)

theorem admissible_of_ok {normalized : String} (h : Passwords.normalize crates p = .ok normalized) :
    normalized = crates.nfc p ∧ Admissible (crates.nfc p) := by
  by_cases ha : Admissible (crates.nfc p)
  · by_cases hlong : 1024 < p.utf8ByteSize
    · rw [normalize_long hlong] at h
      cases h
    · rw [normalize_admissible (by omega) ha] at h
      exact ⟨(Except.ok.inj h).symm, ha⟩
  · rw [normalize_inadmissible ha] at h
    cases h

/-- Encodings of one password are told apart by the bytes they come in, and by nothing else. -/
theorem normalize_eq_iff (h : crates.nfc p = crates.nfc q) :
    Passwords.normalize crates p = Passwords.normalize crates q ↔
      (p.utf8ByteSize ≤ 1024 ↔ q.utf8ByteSize ≤ 1024) ∨ ¬ Admissible (crates.nfc p) := by
  by_cases ha : Admissible (crates.nfc p)
  · have hq : Admissible (crates.nfc q) := h ▸ ha
    by_cases hp : p.utf8ByteSize ≤ 1024 <;> by_cases hq' : q.utf8ByteSize ≤ 1024
    · rw [normalize_admissible hp ha, normalize_admissible hq' hq, h]
      simp [hp, hq']
    · rw [normalize_admissible hp ha, normalize_long (by omega)]
      simp [hp, hq', ha]
    · rw [normalize_long (by omega), normalize_admissible hq' hq]
      simp [hp, hq', ha]
    · rw [normalize_long (by omega), normalize_long (by omega)]
      simp [hp, hq']
  · rw [normalize_inadmissible ha, normalize_inadmissible (h ▸ ha)]
    simp [ha]

end Encodings

/-- A socket that is to verify an accepted password can go on to do so, and is let in. -/
theorem Server.authenticates {env : Env} {v : Server} (hv : Server.Reachable env v) {k : Nat}
    {s : Session} {guard : Option IpAddr} {hash password : String} (hk : v.sockets k = some s)
    (hpc : s.pc = .auth guard hash (.verify password)) (hfree : v.shared.passwords.available ≠ 0)
    {normalized : String} (hn : Passwords.normalize env.crates password = .ok normalized)
    (hwork : Passwords.verifyWork env.crates normalized hash = .ok true) :
    ∃ job v' s', Machine.run (Server.step env) v
        [.socket k .proceed, .jobEnds job false, .socket k .proceed] = some v' ∧
      v'.sockets k = some s' ∧ s'.pc = .dropGuard guard true true := by
  have hconserved := hv.conserved
  rcases PasswordService.compute_eq v.shared.passwords (.verify normalized hash) with
    ⟨hfull, -⟩ | ⟨-, job, p₁, hcompute⟩
  · exact absurd hfull hfree
  · obtain ⟨p₂, hfinish, hresult⟩ := hconserved.completes env.crates hcompute
    have hverify : v.shared.passwords.verify env.crates password hash = .ok (job, p₁) := by
      rw [PasswordService.verify, hn]
      exact hcompute
    have hverified : p₂.verified job = some (.ok true) := by
      rw [PasswordService.verified, hresult, Work.run, hwork]
    let started : Session :=
      ⟨s.roomId, .auth guard hash (.computing password job), s.trace ++ [.verifying password hash]⟩
    let ended : Session :=
      ⟨s.roomId, .dropGuard guard true true,
        started.trace ++ [.verified password hash (.ok true)]⟩
    have h₁ : v.step env (.socket k .proceed) =
        some (v.setSocket k started { v.shared with passwords := p₁ }) := by
      simp only [Server.step, Server.socket, hk, Session.next, Pc.next, hpc, authNext, hverify]
      rfl
    have h₂ : (v.setSocket k started { v.shared with passwords := p₁ }).step env
        (.jobEnds job false) = some (v.setSocket k started { v.shared with passwords := p₂ }) := by
      simp only [Server.step, Server.setSocket, hfinish, Option.map_some]
    have h₃ : (v.setSocket k started { v.shared with passwords := p₂ }).step env
        (.socket k .proceed) = some ((v.setSocket k started { v.shared with passwords := p₂ }).setSocket
          k ended { v.shared with passwords := p₂ }) := by
      simp only [Server.step, Server.socket, Server.setSocket, Function.update_self, Session.next,
        Pc.next, authNext, hverified, started]
      rfl
    have hrun := (Machine.run_cons h₁).trans
      ((Machine.run_cons h₂).trans ((Machine.run_cons h₃).trans Machine.run_nil))
    exact ⟨job, _, ended, hrun, Function.update_self .., rfl⟩

/-- **Encodings of one password.** `normalize` tells them apart only where the limit of 1024 bytes on
what was supplied does; an encoding within it joins a room created with another. -/
theorem equivalent_encodings (env : Env) {p q : String} (hpq : env.crates.nfc p = env.crates.nfc q) :
    (Passwords.normalize env.crates p = Passwords.normalize env.crates q ↔
      (p.utf8ByteSize ≤ 1024 ↔ q.utf8ByteSize ≤ 1024) ∨ ¬ Admissible (env.crates.nfc p)) ∧
    (1024 < q.utf8ByteSize → Passwords.normalize env.crates q = .error .invalid) ∧
    ∀ derive print, Argon2 env.crates derive print →
      ∀ v₀ v, Server.Reachable env v₀ → Server.Reachable env v →
        ∀ salt hash, salt.length = 16 → v₀.shared.passwords.Hashes env.crates p salt (.ok hash) →
          q.utf8ByteSize ≤ 1024 → v.shared.passwords.available ≠ 0 →
            (∀ result, v.shared.passwords.Verifies env.crates q hash result ↔ result = .ok true) ∧
            ∀ k s guard, v.sockets k = some s → s.pc = .auth guard hash (.verify q) →
              ∃ job v' s', Machine.run (Server.step env) v
                  [.socket k .proceed, .jobEnds job false, .socket k .proceed] = some v' ∧
                v'.sockets k = some s' ∧ s'.pc = .dropGuard guard true true := by
  refine ⟨normalize_eq_iff hpq, normalize_long, ?_⟩
  intro derive print hargon v₀ v hv₀ hv salt hash hsalt hhash hshort hfree
  obtain ⟨normalized, hnormalize, hcrate⟩ := hhash.ok hv₀.conserved
  obtain ⟨rfl, ha⟩ := admissible_of_ok hnormalize
  obtain rfl := hargon.hash _ _ _ hcrate
  have hq : Passwords.normalize env.crates q = .ok (env.crates.nfc q) :=
    normalize_admissible hshort (hpq ▸ ha)
  have hwork : Passwords.verifyWork env.crates (env.crates.nfc q)
      (print (standardPhc salt (derive standardParams salt (env.crates.nfc p)))) = .ok true := by
    rw [hargon.verifyWork hsalt, hpq]
    simp
  constructor
  · intro result
    rw [hv.conserved.verifies hwork, PasswordService.answer, hq]
    simp [hfree]
  · intro k s guard hk hpc
    exact Server.authenticates hv hk hpc hfree hq hwork

/-! ## The crates on two passwords -/

def saltBytes : List UInt8 := [0, 1, 2, 3, 4, 5, 6, 7, 8, 9, 10, 11, 12, 13, 14, 15]

def telescopes : String := "caf\u00e9 telescopes drift slowly"

/-- `telescopes`, decomposed. -/
def telescopesDecomposed : String := "cafe\u0301 telescopes drift slowly"

def differentSecret : String := "different correct length secret"

/-- What Argon2 derives from the two passwords with `saltBytes`. -/
def knownDerive (_ : Argon2Params) (salt : List UInt8) (password : String) : List UInt8 :=
  if salt = saltBytes ∧ password = telescopes then
    [117, 58, 148, 223, 118, 73, 131, 7, 155, 1, 165, 174, 205, 62, 244, 72, 230, 182, 238, 61, 69,
      199, 54, 30, 60, 243, 72, 161, 116, 250, 4, 182]
  else if salt = saltBytes ∧ password = differentSecret then
    [134, 47, 238, 18, 46, 14, 109, 225, 45, 36, 228, 51, 139, 108, 93, 119, 175, 158, 152, 164, 176,
      190, 42, 81, 244, 106, 167, 237, 69, 230, 25, 171]
  else List.replicate 32 0

def phcHead : List Char := "$argon2id$v=19$m=65536,t=3,p=1$".toList

/-- A PHC string with the parameters of `argon2()`. -/
def printPhc (phc : Phc) : String :=
  String.ofList (phcHead ++ (Base64.encode (phc.salt.getD []) ++
    '$' :: Base64.encode (phc.hash.getD [])))

/-- The PHC value of such a string: a salt of 16 bytes has 22 digits. -/
def readPhc (s : String) : Option Phc :=
  let body := s.toList.drop phcHead.length
  if s.toList.take phcHead.length = phcHead ∧ (body.drop 22).take 1 = ['$'] then
    some (standardPhc (Base64.decode (body.take 22)) (Base64.decode (body.drop 23)))
  else none

def knownCrates : PasswordCrates where
  nfc s := if s = telescopesDecomposed then telescopes else s
  blocklist := []
  parsePhc := readPhc
  paramsOf phc :=
    if phc.params = [("m", "65536"), ("t", "3"), ("p", "1")] then some standardParams else none
  hashPassword password salt := some (printPhc (standardPhc salt (knownDerive standardParams salt password)))
  verifyPassword password phc :=
    if knownDerive standardParams (phc.salt.getD []) password = phc.hash.getD [] then .ok ()
    else .error .passwordInvalid

theorem readPhc_printPhc {salt out : List UInt8} (hsalt : salt.length = 16) :
    readPhc (printPhc (standardPhc salt out)) = some (standardPhc salt out) := by
  have hlength : (Base64.encode salt).length = 22 := by rw [Base64.length_encode, hsalt]
  have hbody : (printPhc (standardPhc salt out)).toList.drop phcHead.length =
      Base64.encode salt ++ '$' :: Base64.encode out := by
    simp [printPhc, standardPhc]
  have htake : (Base64.encode salt ++ '$' :: Base64.encode out).take 22 = Base64.encode salt := by
    rw [List.take_append_of_le_length (by omega), List.take_of_length_le (by omega)]
  have hdrop : (Base64.encode salt ++ '$' :: Base64.encode out).drop 22 = '$' :: Base64.encode out := by
    rw [List.drop_append_of_le_length (by omega), List.drop_of_length_le (by omega), List.nil_append]
  have htail : (Base64.encode salt ++ '$' :: Base64.encode out).drop 23 = Base64.encode out := by
    rw [← List.drop_drop (i := 1) (j := 22), hdrop, List.drop_one, List.tail_cons]
  have hhead : (printPhc (standardPhc salt out)).toList.take phcHead.length = phcHead := by
    simp [printPhc]
  simp only [readPhc, hbody, hhead, htake, hdrop, htail, Base64.decode_encode]
  simp

theorem knownCrates_argon2 : Argon2 knownCrates knownDerive printPhc where
  length salt password := by
    unfold knownDerive
    split
    · rfl
    · split <;> rfl
  hash password salt hash h := (Option.some.inj h).symm
  parse salt out hsalt _ :=
    (congrFun (rfl : knownCrates.parsePhc = readPhc) _).trans (readPhc_printPhc hsalt)
  params salt out := rfl
  verify password salt out := rfl

theorem hashes_telescopes : PasswordService.new.Hashes knownCrates telescopes saltBytes
    (.ok (printPhc (standardPhc saltBytes (knownDerive standardParams saltBytes telescopes)))) := by
  refine (PasswordService.hashes_iff PasswordService.conserved_new _ _ _).mpr ?_
  have hnormalize : Passwords.normalize knownCrates telescopes = .ok telescopes := by decide +kernel
  rw [hnormalize]
  rfl

/-- The other encoding of a password is accepted, another password is not. -/
theorem verify_agrees_telescopes : ∃ hash,
    PasswordService.new.Hashes knownCrates telescopes saltBytes (.ok hash) ∧
      PasswordService.new.Verifies knownCrates telescopesDecomposed hash (.ok true) ∧
      PasswordService.new.Verifies knownCrates differentSecret hash (.ok false) := by
  have hstart : PasswordService.Calls.Reachable knownCrates .start := ⟨[], rfl⟩
  have hagrees := ((verify_agrees knownCrates_argon2).1 .start .start hstart hstart telescopes
    saltBytes _ rfl hashes_telescopes).2
  refine ⟨_, hashes_telescopes, ?_, ?_⟩
  · exact (hagrees telescopesDecomposed (by decide +kernel) _).mpr (by decide +kernel)
  · exact (hagrees differentSecret (by decide +kernel) _).mpr (by decide +kernel)

/-- The server of these runs: an `authenticate` that supplies the decomposed encoding. -/
def telescopesEnv : Env :=
  { Server.passphraseEnv with
    crates := knownCrates
    codec := ⟨fun s => if s = Server.authenticateText then some telescopesDecomposed else none,
      fun _ => none, fun _ => none, OutgoingMessage.compact⟩ }

def telescopesHash : String :=
  printPhc (standardPhc saltBytes (knownDerive standardParams saltBytes telescopes))

def telescopesRoom : Db.Rooms := HashMap.insert ∅ "room" ⟨0, 0, some telescopesHash⟩

/-- A room created with the composed encoding is joined with the decomposed one. -/
theorem equivalent_encodings_telescopes : ∃ v s guard,
    Machine.run (Server.step telescopesEnv) (Server.start telescopesRoom)
      (Server.authenticating.take 9) = some v ∧ v.sockets 0 = some s ∧
    s.pc = .auth guard telescopesHash (.verify telescopesDecomposed) ∧
    ∃ job v' s', Machine.run (Server.step telescopesEnv) v
        [.socket 0 .proceed, .jobEnds job false, .socket 0 .proceed] = some v' ∧
      v'.sockets 0 = some s' ∧ s'.pc = .dropGuard guard true true := by
  have hrun : ((Machine.run (Server.step telescopesEnv) (Server.start telescopesRoom)
      (Server.authenticating.take 9)).bind fun v => (v.sockets 0).map fun s =>
        (v.shared.passwords.available, match s.pc with
          | .auth _ hash (.verify password) => some (hash, password)
          | _ => none)) = some (2, some (telescopesHash, telescopesDecomposed)) := by decide +kernel
  obtain ⟨v, hv, hsocket⟩ := Option.bind_eq_some_iff.mp hrun
  obtain ⟨s, hk, hfields⟩ := Option.map_eq_some_iff.mp hsocket
  obtain ⟨hfree, hplace⟩ := Prod.mk.inj hfields
  have hstart : Server.Reachable telescopesEnv (.start telescopesRoom) := ⟨telescopesRoom, .refl⟩
  have hreach : Server.Reachable telescopesEnv v := ⟨telescopesRoom, _, hv⟩
  split at hplace
  · rename_i guard hash password hpc
    cases hplace
    have hequivalent := equivalent_encodings telescopesEnv (p := telescopes)
      (q := telescopesDecomposed) (by decide +kernel)
    have hjoin := (hequivalent.2.2 knownDerive printPhc knownCrates_argon2 _ v hstart hreach
      saltBytes telescopesHash rfl hashes_telescopes (by decide +kernel) (by omega)).2 0 s guard hk hpc
    exact ⟨v, s, guard, hv, hk, hpc, hjoin⟩
  · cases hplace

def hangul : String := String.ofList (List.replicate 114 '\uD55C')

/-- `hangul`, decomposed: three times the bytes. -/
def hangulDecomposed : String :=
  String.ofList (List.replicate 114 ['\u1112', '\u1161', '\u11AB']).flatten

def hangulCrates : PasswordCrates :=
  { knownCrates with nfc := fun s => if s = hangulDecomposed then hangul else s }

/-- A decomposed encoding of more than 1024 bytes is refused, where the composed one is accepted. -/
theorem equivalent_encodings_hangul :
    (∀ s, hangulCrates.nfc (hangulCrates.nfc s) = hangulCrates.nfc s) ∧
      hangulCrates.nfc hangul = hangulCrates.nfc hangulDecomposed ∧
      Passwords.normalize hangulCrates hangul = .ok hangul ∧
      Passwords.normalize hangulCrates hangulDecomposed = .error .invalid := by
  have hne : hangul ≠ hangulDecomposed := by decide +kernel
  have hnfc : hangulCrates.nfc hangul = hangul := by
    simp only [hangulCrates, if_neg hne]
  have hnfc' : hangulCrates.nfc hangulDecomposed = hangul := by
    simp only [hangulCrates, if_true]
  refine ⟨?_, ?_, ?_, normalize_long (by decide +kernel)⟩
  · intro s
    by_cases hs : s = hangulDecomposed
    · simp [hangulCrates, hs, hne]
    · simp [hangulCrates, hs]
  · exact hnfc.trans hnfc'.symm
  · have hlength : hangul.length = 114 := by
      unfold hangul
      rw [String.length_ofList]
      exact List.length_replicate
    have hbytes : hangul.utf8ByteSize ≤ 1024 := by decide +kernel
    have hadmissible : Admissible (hangulCrates.nfc hangul) := by
      rw [hnfc]
      exact ⟨hbytes, by omega, by omega⟩
    rw [normalize_admissible hbytes hadmissible, hnfc]

end Parrhesia
