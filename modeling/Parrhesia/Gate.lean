import Parrhesia.Lib.History
import Parrhesia.Server
import Parrhesia.Wire

/-!
# Parrhesia.Gate

A socket on a protected room attaches only after its password was verified.

* `Pc.Gate`  : what the trace shows at each place up to `attach`, and that `attaching` is in it from
  there on.
* `Honest`   : the verification a socket waits for is the one of its own password and hash, so an
  `Ok(true)` in a trace is the crate's.
-/

namespace Parrhesia

open Lib
open Admission (AdmissionError)

/-- What a failed authentication is answered with. -/
def OutgoingMessage.isFailure : OutgoingMessage → Bool
  | .authFailed => true
  | .authRateLimited _ => true
  | .authUnavailable => true
  | _ => false

def Frame.isFailure : Frame → Bool
  | .json m => m.isFailure
  | _ => false

/-- The frames `authenticate` writes. -/
def Frame.isAuth : Frame → Bool
  | .json (.authRequired _) => true
  | .json m => m.isFailure
  | .pong _ => true
  | .close => true
  | .ping => false

theorem OutgoingMessage.isAuth_of_isFailure {m : OutgoingMessage} (h : m.isFailure = true) :
    (Frame.json m).isAuth = true := by
  cases m <;> first | rfl | cases h

theorem budgetFailure_isFailure (e : AdmissionError) : (budgetFailure e).isFailure = true := by
  cases e <;> rfl

theorem verificationFailure_isFailure (result : Except PasswordError Bool) :
    (verificationFailure result).isFailure = true := by
  unfold verificationFailure
  split <;> rfl

@[simp] theorem framesOf_append (l l' : List Obs) :
    framesOf (l ++ l') = framesOf l ++ framesOf l' := List.filterMap_append

@[simp] theorem framesOf_nil : framesOf [] = [] := rfl

/-- A verification of `hash` returned `Ok(true)`. -/
def Verified (hash : String) (trace : List Obs) : Prop :=
  ∃ password, .verified password hash (.ok true) ∈ trace

/-- The room has no password, or the socket gave it. -/
def Cleared (trace : List Obs) : Prop :=
  .looked (some none) ∈ trace ∨ ∃ hash, .looked (some (some hash)) ∈ trace ∧ Verified hash trace

/-- What a socket does from `attach` on. -/
def Obs.isInside : Obs → Bool
  | .attaching _ => true
  | .joined _ _ => true
  | .received _ => true
  | .lagged => true
  | .heard _ _ => true
  | .published _ => true
  | _ => false

/-- Nothing but an authentication so far, with at most `n` refusals. -/
structure Outside (trace : List Obs) (n : Nat) : Prop where
  frames : ∀ f ∈ framesOf trace, f.isAuth = true
  failures : (framesOf trace).countP Frame.isFailure ≤ n
  inside : ∀ o ∈ trace, o.isInside = false

def AuthPc.Gate (trace : List Obs) : AuthPc → Prop
  | .sendFailure failure => Outside trace 0 ∧ failure.isFailure = true
  | .sendClose => Outside trace 1
  | _ => Outside trace 0

def Pc.Gate (trace : List Obs) : Pc → Prop
  | .request => Outside trace 0
  | .connectionBudget _ => Outside trace 0
  | .roomPassword _ => Outside trace 0
  | .pending _ hash => Outside trace 0 ∧ .looked (some (some hash)) ∈ trace
  | .upgrade _ room => Outside trace 0 ∧ .looked room ∈ trace
  | .auth _ hash p => p.Gate trace ∧ .looked (some (some hash)) ∈ trace
  | .dropGuard _ _ accepted => Outside trace 1 ∧ (accepted = true → Cleared trace)
  | .attach _ => Outside trace 1 ∧ Cleared trace
  | .finished none => Outside trace 1
  | _ => ∃ connId, .attaching connId ∈ trace

structure Gate (s : Session) : Prop where
  entry : History.Always (fun pre o => ∀ connId, o = .attaching connId → Cleared pre) s.trace
  phase : s.pc.Gate s.trace

theorem outside_nil : Outside [] 0 := ⟨by simp, by simp, by simp⟩

theorem Outside.mono {trace : List Obs} {n m : Nat} (h : Outside trace n) (hnm : n ≤ m) :
    Outside trace m := ⟨h.frames, h.failures.trans hnm, h.inside⟩

/-- Something other than a frame. -/
theorem Outside.note {trace obs : List Obs} {n : Nat} (h : Outside trace n)
    (hframes : framesOf obs = []) (hinside : ∀ o ∈ obs, o.isInside = false) :
    Outside (trace ++ obs) n where
  frames := by rw [framesOf_append, hframes, List.append_nil]; exact h.frames
  failures := by rw [framesOf_append, hframes, List.append_nil]; exact h.failures
  inside o ho := (List.mem_append.mp ho).elim (h.inside o) (hinside o)

theorem Outside.silent {trace : List Obs} {n : Nat} (h : Outside trace n) :
    Outside (trace ++ []) n := by
  rw [List.append_nil]
  exact h

/-- What is neither written nor done inside. -/
def Obs.isAside : Obs → Bool
  | .looked _ => true
  | .budgeted _ _ => true
  | .verifying _ _ => true
  | .verified _ _ _ => true
  | _ => false

theorem Outside.noted {trace : List Obs} {n : Nat} (h : Outside trace n) {o : Obs}
    (ho : o.isAside = true) : Outside (trace ++ [o]) n := by
  refine h.note ?_ ?_
  · cases o <;> first | rfl | cases ho
  · intro o' hmem
    rw [List.mem_singleton.mp hmem]
    cases o <;> first | rfl | cases ho

theorem Outside.write {trace : List Obs} {n : Nat} (h : Outside trace n) {f : Frame}
    (hf : f.isAuth = true) : Outside (trace ++ [.wrote f]) (n + f.isFailure.toNat) where
  frames g hg := by
    rw [framesOf_append, List.mem_append] at hg
    rcases hg with hg | hg
    · exact h.frames g hg
    · obtain rfl : g = f := by simpa [framesOf] using hg
      exact hf
  failures := by
    have hcount : (framesOf [.wrote f]).countP Frame.isFailure = f.isFailure.toNat := by
      cases hfail : f.isFailure <;> simp [framesOf, hfail]
    rw [framesOf_append, List.countP_append, hcount]
    exact Nat.add_le_add_right h.failures _
  inside o ho := by
    rcases List.mem_append.mp ho with ho | ho
    · exact h.inside o ho
    · cases List.mem_singleton.mp ho; rfl

theorem authSent_gate {trace : List Obs} (h : Outside trace 0) (result : SendResult) :
    (authSent result).Gate trace := by
  unfold authSent
  split
  · exact h
  · exact ⟨h, rfl⟩

theorem authFrame_gate {trace : List Obs} (h : Outside trace 0) (env : Env) (received : Received) :
    (authFrame env received).Gate trace := by
  cases received with
  | text t =>
    simp only [authFrame, authText]
    split
    · split
      · exact h
      · exact ⟨h, rfl⟩
    · exact ⟨h, rfl⟩
  | ping data => exact h
  | pong => exact h
  | _ => exact ⟨h, rfl⟩

theorem AuthPc.Gate.outside {trace : List Obs} {p : AuthPc} (h : p.Gate trace) (hp : p ≠ .sendClose) :
    Outside trace 0 := by
  cases p with
  | sendFailure failure => exact h.1
  | sendClose => exact absurd rfl hp
  | _ => exact h

theorem Pc.Gate.outside {trace : List Obs} {pc : Pc} (h : pc.Gate trace) (hconn : pc.conn = none) :
    Outside trace 1 := by
  have hmono : Outside trace 0 → Outside trace 1 := fun h => h.mono (Nat.zero_le _)
  cases pc with
  | request => exact hmono h
  | connectionBudget ip => exact hmono h
  | roomPassword ip => exact hmono h
  | pending ip hash => exact hmono h.1
  | upgrade guard room => exact hmono h.1
  | auth guard hash p =>
    by_cases hp : p = .sendClose
    · subst hp; exact h.1
    · exact hmono (h.1.outside hp)
  | dropGuard guard isProtected accepted => exact h.1
  | attach isProtected => exact h.1
  | finished connId =>
    cases connId with
    | none => exact h
    | some connId => cases hconn
  | _ => cases hconn

/-- A connection id comes from `attach`. -/
theorem Pc.Gate.conn {trace : List Obs} {pc : Pc} (h : pc.Gate trace)
    (hnever : ∀ connId, .attaching connId ∉ trace) : pc.conn = none := by
  cases pc with
  | attachInsert isProtected connId => exact absurd h.choose_spec (hnever _)
  | sendUnavailable connId => exact absurd h.choose_spec (hnever _)
  | live isProtected connId attached p => exact absurd h.choose_spec (hnever _)
  | finished connId =>
    cases connId with
    | none => rfl
    | some connId => exact absurd h.choose_spec (hnever _)
  | _ => rfl

section Step

variable {env : Env} {sh : Shared} {roomId : String} {trace : List Obs}

theorem AuthStep.gate {guard : Option IpAddr} {hash : String} {p : AuthPc} {m : Move Pc}
    (hm : AuthStep env sh roomId guard hash p m) (h : p.Gate trace)
    (hlooked : .looked (some (some hash)) ∈ trace) :
    m.pc.Gate (trace ++ m.obs) ∧ ∀ connId, .attaching connId ∉ m.obs := by
  have hl : ∀ obs, .looked (some (some hash)) ∈ trace ++ obs := fun obs => by simp [hlooked]
  cases hm with
  | required =>
    exact ⟨⟨authSent_gate (Outside.write (f := .json (.authRequired 2)) h rfl) _, hl _⟩, by simp⟩
  | ponged =>
    rename_i data result
    exact ⟨⟨authSent_gate (Outside.write (f := .pong data) h rfl) _, hl _⟩, by simp⟩
  | read => exact ⟨⟨authFrame_gate (Outside.silent h) _ _, hl _⟩, by simp⟩
  | cancelled hwaits =>
    have hp : p ≠ .sendClose := by rintro rfl; cases hwaits
    exact ⟨⟨⟨(h.outside hp).silent, rfl⟩, hl _⟩, by simp⟩
  | paid => exact ⟨⟨Outside.noted h rfl, hl _⟩, by simp⟩
  | refused => exact ⟨⟨⟨Outside.noted h rfl, budgetFailure_isFailure _⟩, hl _⟩, by simp⟩
  | started => exact ⟨⟨Outside.noted h rfl, hl _⟩, by simp⟩
  | notStarted =>
    exact ⟨⟨⟨Outside.note h rfl (by simp [Obs.isInside]), verificationFailure_isFailure _⟩, hl _⟩, by simp⟩
  | accepted =>
    rename_i password job hjob
    refine ⟨⟨(Outside.noted h rfl).mono (Nat.zero_le _), ?_⟩, by simp⟩
    intro _
    exact .inr ⟨hash, hl _, password, by simp⟩
  | rejected => exact ⟨⟨⟨Outside.noted h rfl, verificationFailure_isFailure _⟩, hl _⟩, by simp⟩
  | @failed failure =>
    have hout := h.1.write (OutgoingMessage.isAuth_of_isFailure h.2)
    exact ⟨⟨hout.mono ((Nat.zero_add _).trans_le (Bool.toNat_le _)), hl _⟩, by simp⟩
  | @failedLate failure =>
    have hout := h.1.write (OutgoingMessage.isAuth_of_isFailure h.2)
    exact ⟨⟨hout.mono ((Nat.zero_add _).trans_le (Bool.toNat_le _)), fun hf => (by cases hf)⟩, by simp⟩
  | closed => exact ⟨⟨Outside.write (f := .close) h rfl, fun hf => (by cases hf)⟩, by simp⟩

theorem afterUpgrade_gate {room : Option (Option String)} (h : Outside trace 0)
    (hlooked : .looked room ∈ trace) (guard : Option IpAddr) (ok : Bool) :
    (afterUpgrade guard room ok).Gate trace := by
  unfold afterUpgrade
  split
  · exact ⟨h, hlooked⟩
  · exact ⟨h.mono (Nat.zero_le _), fun _ => .inl hlooked⟩
  · exact ⟨h.mono (Nat.zero_le _), fun hf => (by cases hf)⟩

/-- `attach` is called at its place only, and the trace then shows why. -/
theorem PcStep.gate {pc : Pc} {m : Move Pc} (hm : PcStep env sh roomId pc m) (h : pc.Gate trace) :
    m.pc.Gate (trace ++ m.obs) ∧
      ((∀ connId, .attaching connId ∉ m.obs) ∨ ∃ connId, m.obs = [.attaching connId] ∧
        Cleared trace) := by
  cases hm with
  | turnedDown => exact ⟨(Outside.silent h).mono (Nat.zero_le _), .inl (by simp)⟩
  | requested => exact ⟨Outside.silent h, .inl (by simp)⟩
  | limited => exact ⟨(Outside.silent h).mono (Nat.zero_le _), .inl (by simp)⟩
  | passed => exact ⟨Outside.silent h, .inl (by simp)⟩
  | unknown => exact ⟨(Outside.silent h).mono (Nat.zero_le _), .inl (by simp)⟩
  | guarded => exact ⟨⟨Outside.noted h rfl, by simp⟩, .inl (by simp)⟩
  | unguarded => exact ⟨⟨Outside.noted h rfl, by simp⟩, .inl (by simp)⟩
  | crowded => exact ⟨h.1.silent.mono (Nat.zero_le _), .inl (by simp)⟩
  | counted => exact ⟨⟨h.1.silent, by simp [h.2]⟩, .inl (by simp)⟩
  | upgraded =>
    exact ⟨afterUpgrade_gate h.1.silent (by simp [h.2]) _ _, .inl (by simp)⟩
  | auth hauth =>
    obtain ⟨hgate, hobs⟩ := hauth.gate h.1 h.2
    exact ⟨hgate, .inl hobs⟩
  | @dropped guard isProtected accepted sh' hdrop =>
    refine ⟨?_, .inl (by simp)⟩
    rw [List.append_nil]
    cases accepted with
    | true => exact ⟨h.1, h.2 rfl⟩
    | false => exact h.1
  | @attaching isProtected connId fault store hstep =>
    refine ⟨?_, .inr ⟨connId, rfl, h.2⟩⟩
    dsimp only
    split <;> exact ⟨connId, by simp⟩
  | attached =>
    obtain ⟨connId, hmem⟩ := h
    exact ⟨⟨connId, by simp [hmem]⟩, .inl (by simp)⟩
  | unavailable =>
    obtain ⟨connId, hmem⟩ := h
    exact ⟨⟨connId, by simp [hmem]⟩, .inl (by simp)⟩
  | live hlive =>
    obtain ⟨connId, hmem⟩ := h
    exact ⟨⟨connId, by simp [hmem]⟩, .inl fun c hc => by cases hlive.isLive _ hc⟩
  | detached =>
    obtain ⟨connId, hmem⟩ := h
    exact ⟨⟨connId, by simp [hmem]⟩, .inl (by simp)⟩

/-- A row is looked up in the table. -/
theorem PcStep.looked {pc : Pc} {m : Move Pc} (hm : PcStep env sh roomId pc m)
    {room : Option (Option String)} (h : .looked room ∈ m.obs) :
    (sh.store.row roomId).map Db.Row.passwordHash = room := by
  cases hm with
  | guarded hrow => simp at h; rw [hrow, h]
  | unguarded hrow hroom => simp at h; rw [hrow, h]
  | auth hauth => cases hauth <;> simp at h
  | live hlive => cases hlive.isLive _ h
  | _ => simp at h

theorem Gate.step {s : Session} {m : Move Pc} (h : Gate s) (hm : PcStep env sh s.roomId s.pc m) :
    Gate { s with pc := m.pc, trace := s.trace ++ m.obs } := by
  obtain ⟨hphase, hobs⟩ := hm.gate h.phase
  refine ⟨?_, hphase⟩
  rcases hobs with hnone | ⟨connId, hobs, hcleared⟩
  · refine History.always_append.mpr ⟨h.entry, History.always_of_forall ?_⟩
    rintro pre o ho c rfl
    exact absurd ho (hnone c)
  · rw [hobs, History.always_snoc]
    exact ⟨h.entry, fun _ _ => hcleared⟩

/-! ### The jobs a socket waits for -/

theorem AuthStep.computing {guard guard' : Option IpAddr} {hash hash' password : String} {job : Nat}
    {p : AuthPc} {m : Move Pc} (hm : AuthStep env sh roomId guard hash p m)
    (h : m.pc = .auth guard' hash' (.computing password job)) :
    sh.passwords.verify env.crates password hash' = .ok (job, m.shared.passwords) := by
  cases hm with
  | started hverify => cases h; exact hverify
  | required => simp only [authSent] at h; split at h <;> cases h
  | ponged => simp only [authSent] at h; split at h <;> cases h
  | @read received =>
    cases received with
    | text t => simp only [authFrame, authText] at h; split at h <;> [split at h; skip] <;> cases h
    | _ => cases h
  | _ => cases h

theorem PcStep.computing {pc : Pc} {m : Move Pc} (hm : PcStep env sh roomId pc m)
    {guard : Option IpAddr} {hash password : String} {job : Nat}
    (h : m.pc = .auth guard hash (.computing password job)) :
    sh.passwords.verify env.crates password hash = .ok (job, m.shared.passwords) := by
  cases hm with
  | auth hauth => exact hauth.computing h
  | upgraded => simp only [afterUpgrade] at h; split at h <;> cases h
  | dropped => dsimp only at h; split at h <;> cases h
  | attaching => dsimp only at h; split at h <;> cases h
  | _ => cases h

theorem AuthStep.passwords {guard : Option IpAddr} {hash : String} {p : AuthPc} {m : Move Pc}
    (hm : AuthStep env sh roomId guard hash p m) :
    sh.passwords.Turned env.crates m.shared.passwords := by
  cases hm with
  | started hverify =>
    obtain ⟨normalized, -, hcompute⟩ := PasswordService.verify_ok hverify
    exact .inr (.inl ⟨_, _, hcompute⟩)
  | _ => exact .inl rfl

theorem LiveStep.passwords {isProtected : Bool} {connId : String} {attached : Attached}
    {p : LivePc} {m : Move LivePc} (hm : LiveStep env sh roomId isProtected connId attached p m) :
    m.shared.passwords = sh.passwords := by
  cases hm with
  | relayed hrelay => cases hrelay <;> rfl
  | _ => rfl

theorem PcStep.passwords {pc : Pc} {m : Move Pc} (hm : PcStep env sh roomId pc m) :
    sh.passwords.Turned env.crates m.shared.passwords := by
  cases hm with
  | auth hauth => exact hauth.passwords
  | @dropped guard isProtected accepted sh' hdrop =>
    cases guard with
    | none => cases hdrop; exact .inl rfl
    | some ip => obtain ⟨limits, -, rfl⟩ := Option.map_eq_some_iff.mp hdrop; exact .inl rfl
  | live hlive => exact .inl hlive.passwords
  | _ => exact .inl rfl

/-- An `Ok(true)` is what the awaited job answered. -/
theorem PcStep.verified {pc : Pc} {m : Move Pc} (hm : PcStep env sh roomId pc m)
    {password hash : String} (h : .verified password hash (.ok true) ∈ m.obs) :
    ∃ guard job, pc = .auth guard hash (.computing password job) ∧
      sh.passwords.verified job = some (.ok true) := by
  cases hm with
  | @auth guard hash₀ p m hauth =>
    cases hauth with
    | @accepted password₀ job hjob =>
      simp at h
      obtain ⟨rfl, rfl⟩ := h
      exact ⟨guard, job, rfl, hjob⟩
    | rejected hjob hne => simp at h; exact absurd h.2.2.symm hne
    | _ => simp at h
  | live hlive => cases hlive.isLive _ h
  | _ => simp at h

end Step

/-- The job a socket waits for is the verification of what it was given, and an `Ok(true)` it has
seen is the crate's. -/
structure Honest (env : Env) (sh : Shared) (s : Session) : Prop where
  awaits : ∀ guard hash password job, s.pc = .auth guard hash (.computing password job) →
    ∃ normalized, Passwords.normalize env.crates password = .ok normalized ∧
      sh.passwords.Assigned env.crates job (.verify normalized hash)
  accepted : ∀ password hash, .verified password hash (.ok true) ∈ s.trace →
    Passwords.accepts env.crates password hash

namespace Server

variable {env : Env} {v v' : Server} {k : Nat} {s : Session}

theorem gate_connect (roomId : String) : Gate (.connect roomId) :=
  ⟨History.always_nil, outside_nil⟩

theorem Reachable.gate (h : Reachable env v) (hk : v.sockets k = some s) : Gate s :=
  h.socket (I := fun _ s => Gate s) (fun _ roomId => gate_connect roomId)
    (fun _ _ _ _ _ hgate => hgate) (fun _ _ _ _ hgate hm => hgate.step hm) hk

/-- What a socket was told about its room is what the room was created with. -/
theorem Reachable.looked (h : Reachable env v) (hk : v.sockets k = some s) {hash : Option String}
    (hl : .looked (some hash) ∈ s.trace) : v.shared.store.created s.roomId = some hash := by
  refine h.socket (I := fun sh s => ∀ hash, .looked (some hash) ∈ s.trace →
    sh.store.created s.roomId = some hash) ?_ ?_ ?_ hk hash hl
  · intro sh roomId hash hl
    cases hl
  · intro v v' s _ hs ih hash hl
    exact hs.store.created_keep (ih hash hl)
  · intro v s m hv ih hm hash hl
    have hcreated : v.shared.store.created s.roomId = some hash := by
      rcases List.mem_append.mp hl with hl | hl
      · exact ih hash hl
      · obtain ⟨row, hrow, rfl⟩ := Option.map_eq_some_iff.mp (hm.looked hl)
        exact hv.inv.rows.created _ row hrow
    exact hm.store.created_keep hcreated

theorem Step.passwords (hs : Step env v v') :
    v.shared.passwords.Turned env.crates v'.shared.passwords := by
  cases hs with
  | moved hk hm => exact hm.passwords
  | hashing hhash =>
    obtain ⟨normalized, -, -, hcompute⟩ := PasswordService.hash_ok hhash
    exact .inr (.inl ⟨_, _, hcompute⟩)
  | ended hfinish => exact .inr (.inr ⟨_, _, hfinish⟩)
  | _ => exact .inl rfl

theorem Reachable.numbered (h : Reachable env v) : v.shared.passwords.Numbered :=
  h.invariant (I := fun v => v.shared.passwords.Numbered) (fun _ => PasswordService.numbered_new)
    fun _ _ _ ih hs => ih.turned hs.passwords

theorem Reachable.honest (h : Reachable env v) (hk : v.sockets k = some s) :
    Honest env v.shared s := by
  refine h.socket (I := Honest env) ?_ ?_ ?_ hk
  · intro sh roomId
    exact ⟨fun _ _ _ _ hpc => (by cases hpc), fun _ _ hmem => (by cases hmem)⟩
  · intro v v' s _ hs ih
    refine ⟨?_, ih.accepted⟩
    intro guard hash password job hpc
    obtain ⟨normalized, hn, ha⟩ := ih.awaits guard hash password job hpc
    exact ⟨normalized, hn, ha.turned hs.passwords⟩
  · intro v s m hv ih hm
    constructor
    · intro guard hash password job hpc
      obtain ⟨normalized, hn, hcompute⟩ := PasswordService.verify_ok (hm.computing hpc)
      exact ⟨normalized, hn, hv.numbered.assigned hcompute⟩
    · intro password hash hmem
      rcases List.mem_append.mp hmem with hmem | hmem
      · exact ih.accepted password hash hmem
      · obtain ⟨guard, job, hpc, hjob⟩ := hm.verified hmem
        obtain ⟨normalized, hn, ha⟩ := ih.awaits guard hash password job hpc
        exact ⟨normalized, hn, ha.verified hjob⟩

/-- What `attach` was called after, on a room with a password. -/
theorem Reachable.cleared (h : Reachable env v) (hk : v.sockets k = some s) {hash : String}
    (hrow : v.shared.store.created s.roomId = some (some hash)) {trace : List Obs}
    (hsub : trace ⊆ s.trace) (hc : Cleared trace) : Verified hash trace := by
  rcases hc with hopen | ⟨hash', hlooked, hverified⟩
  · rw [h.looked hk (hsub hopen)] at hrow; cases hrow
  · rw [h.looked hk (hsub hlooked)] at hrow; cases hrow; exact hverified

/-- Before the verification a socket is at a place that leaves the store alone. -/
theorem Reachable.outside (h : Reachable env v) (hk : v.sockets k = some s) {hash : String}
    (hrow : v.shared.store.created s.roomId = some (some hash)) (hv : ¬ Verified hash s.trace) :
    Outside s.trace 1 ∧ s.pc.conn = none ∧ ∀ isProtected, s.pc ≠ .attach isProtected := by
  have hgate := h.gate hk
  have hnever : ∀ connId, .attaching connId ∉ s.trace := by
    intro connId hmem
    obtain ⟨pre, post, hsplit⟩ := List.append_of_mem hmem
    have hsub : pre ⊆ s.trace := fun o ho => by rw [hsplit]; exact List.mem_append_left _ ho
    obtain ⟨password, hok⟩ := h.cleared hk hrow hsub (hgate.entry pre _ post hsplit connId rfl)
    exact hv ⟨password, hsub hok⟩
  have hconn := hgate.phase.conn hnever
  refine ⟨hgate.phase.outside hconn, hconn, ?_⟩
  intro isProtected hpc
  have hphase := hgate.phase
  rw [hpc] at hphase
  exact hv (h.cleared hk hrow (List.Subset.refl _) hphase.2)

end Server

/-- A move of a socket that has no connection id and is not about to get one. -/
theorem PcStep.store_of_outside {env : Env} {sh : Shared} {roomId : String} {pc : Pc} {m : Move Pc}
    (hm : PcStep env sh roomId pc m) (hconn : pc.conn = none)
    (hattach : ∀ isProtected, pc ≠ .attach isProtected) : m.shared.store = sh.store := by
  cases hm with
  | auth hauth => exact hauth.store
  | dropped hdrop => exact Shared.dropGuard_store hdrop
  | attaching => exact absurd rfl (hattach _)
  | attached => cases hconn
  | live => cases hconn
  | detached => cases hconn
  | _ => rfl

namespace Server

/-- **Admission gate.** A socket on a room that was created with password hash `hash` calls `attach`
only after `verify` of some password against `hash` returned `Ok(true)` on it. Until then it is
written `AuthRequired`, pongs, at most one refusal and `Close`, it has no connection id and has done
nothing inside the room, and no move of it changes the room map or the table. -/
theorem admission_gate (env : Env) (v : Server) (hv : Reachable env v) (k : Nat) (s : Session)
    (hk : v.sockets k = some s) (hash : String)
    (hrow : v.shared.store.created s.roomId = some (some hash)) :
    (∀ pre connId post, s.trace = pre ++ .attaching connId :: post →
      ∃ password, .verified password hash (.ok true) ∈ pre ∧
        Passwords.accepts env.crates password hash) ∧
    (¬ Verified hash s.trace →
      (∀ f ∈ s.frames, f.isAuth = true) ∧ s.frames.countP Frame.isFailure ≤ 1 ∧
        s.pc.conn = none ∧ (∀ o ∈ s.trace, o.isInside = false) ∧
        ∀ ch v', v.socket env k ch = some v' → v'.shared.store = v.shared.store) := by
  constructor
  · intro pre connId post hsplit
    have hsub : pre ⊆ s.trace := fun o ho => by rw [hsplit]; exact List.mem_append_left _ ho
    have hcleared := (hv.gate hk).entry pre _ post hsplit connId rfl
    obtain ⟨password, hok⟩ := hv.cleared hk hrow hsub hcleared
    exact ⟨password, hok, (hv.honest hk).accepted password hash (hsub hok)⟩
  · intro hnot
    obtain ⟨hout, hconn, hattach⟩ := hv.outside hk hrow hnot
    refine ⟨hout.frames, hout.failures, hconn, hout.inside, ?_⟩
    intro ch v' hs
    obtain ⟨s', m, hk', hm, rfl⟩ := socket_cases hs
    cases hk.symm.trans hk'
    exact hm.store_of_outside hconn hattach

/-! ### A socket that gives the password -/

def passphrase : String := "correct horse battery"

/-- A hash of `passphrase`, in the format of the crate. -/
def phcOfPassphrase : String :=
  "$argon2id$v=19$m=65536,t=3,p=1$AAAAAAAAAAAAAAAAAAAAAA$" ++
    "AAAAAAAAAAAAAAAAAAAAAAAAAAAAAAAAAAAAAAAAAAA"

def authenticateText : String :=
  "\x7b\"type\":\"authenticate\",\"password\":\"correct horse battery\"\x7d"

/-- The third-party functions on the texts of this run. -/
def passphraseEnv : Env where
  config := ⟨["https://parrhesia.example"], []⟩
  codec :=
    { parseAuthenticate := fun s => if s = authenticateText then some passphrase else none
      parseIncoming := fun _ => none
      decode := fun _ => none
      toJson := OutgoingMessage.compact }
  crates :=
    { nfc := id
      blocklist := []
      parsePhc := fun s =>
        if s = phcOfPassphrase then
          some ⟨"argon2id", some 19, [("m", "65536"), ("t", "3"), ("p", "1")],
            some (List.replicate 16 0), some (List.replicate 32 0)⟩
        else none
      paramsOf := fun _ => some ⟨65536, 3, 1⟩
      hashPassword := fun _ _ => none
      verifyPassword := fun password _ =>
        if password = passphrase then .ok () else .error .passwordInvalid }
  parseIp := fun _ => none

def protectedRoom : Db.Rooms := HashMap.insert ∅ "room" ⟨0, 0, some phcOfPassphrase⟩

/-- From the request to `attach`. -/
def authenticating : List Label :=
  [.connect 0 "room", .socket 0 (.request [some "https://parrhesia.example"] (.v4 0) []),
    .socket 0 (.clock 0), .socket 0 (.statement false), .socket 0 .proceed,
    .socket 0 (.upgraded true), .socket 0 (.sent .ok), .socket 0 (.frame (.text authenticateText) 0),
    .socket 0 (.clock 0), .socket 0 .proceed, .jobEnds 0 false, .socket 0 .proceed,
    .socket 0 .proceed, .socket 0 (.uuid "a" false)]

theorem admission_gate_passphrase : ∃ v s, Machine.run (step passphraseEnv) (start protectedRoom)
    authenticating = some v ∧ v.sockets 0 = some s ∧ s.pc.conn = some "a" ∧
      Verified phcOfPassphrase s.trace := by
  have hrun : ((Machine.run (step passphraseEnv) (start protectedRoom) authenticating).bind fun v =>
      (v.sockets 0).map fun s => (s.pc.conn, v.shared.store.created s.roomId)) =
        some (some "a", some (some phcOfPassphrase)) := by decide +kernel
  obtain ⟨v, hv, hsocket⟩ := Option.bind_eq_some_iff.mp hrun
  obtain ⟨s, hk, hs⟩ := Option.map_eq_some_iff.mp hsocket
  obtain ⟨hconn, hrow⟩ := Prod.ext_iff.mp hs
  refine ⟨v, s, hv, hk, hconn, ?_⟩
  by_contra hnot
  have h := (admission_gate passphraseEnv v ⟨protectedRoom, _, hv⟩ 0 s hk _ hrow).2 hnot
  rw [h.2.2.1] at hconn
  cases hconn

end Server
end Parrhesia
