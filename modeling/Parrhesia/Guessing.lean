import Parrhesia.Slots
import Parrhesia.Spending

/-!
# Parrhesia.Guessing

How often a room's password can be tried.

* `Guess`         : a socket asks for its room's budget once, and verifies once, after an `Ok`.
* `limiterCalls`  : what a run of the server asks of the limiter, in processing order.
* `Ledger`        : the answers in the traces are answers of the limiter, and no two sockets share one.

`guessing_bound` puts these together with the window of `Parrhesia.Spending`; a pruning far ahead of
the checks after it breaks the bound (`guessing_ahead`).
-/

namespace Parrhesia

open Lib
open Admission (AdmissionError secsSince_self)

/-! ## One socket -/

def Obs.isBudgeted : Obs → Bool
  | .budgeted _ _ => true
  | _ => false

def Obs.isVerifying : Obs → Bool
  | .verifying _ _ => true
  | _ => false

/-- What concerns the room's budget and the password. -/
def Obs.isGuess : Obs → Bool
  | .budgeted _ _ => true
  | .verifying _ _ => true
  | .verified _ _ _ => true
  | _ => false

/-- The budget is asked for once, and pays for the one verification; its result comes after. -/
structure Guess (past : List Obs) : Prop where
  checks : past.countP Obs.isBudgeted ≤ 1
  starts : past.countP Obs.isVerifying ≤ 1
  paid : History.Always (fun pre o => ∀ password hash, o = .verifying password hash →
    ∃ now, .budgeted now (.ok ()) ∈ pre) past
  begun : History.Always (fun pre o => ∀ password hash result, o = .verified password hash result →
    .verifying password hash ∈ pre) past

def Unspent (past : List Obs) : Prop := ∀ o ∈ past, o.isGuess = false

def AuthPc.Guess (hash : String) (past : List Obs) : AuthPc → Prop
  | .sendRequired => Unspent past
  | .receive => Unspent past
  | .sendPong _ => Unspent past
  | .budget _ => Unspent past
  | .verify _ => past.countP Obs.isVerifying = 0 ∧ ∃ now, .budgeted now (.ok ()) ∈ past
  | .computing password _ => .verifying password hash ∈ past
  | .sendFailure _ => True
  | .sendClose => True

def Pc.Guess (past : List Obs) : Pc → Prop
  | .request => Unspent past
  | .connectionBudget _ => Unspent past
  | .roomPassword _ => Unspent past
  | .pending _ _ => Unspent past
  | .upgrade _ _ => Unspent past
  | .auth _ hash p => p.Guess hash past
  | _ => True

section Socket

variable {env : Env} {sh : Shared} {roomId : String} {past obs : List Obs}

theorem Unspent.append (h : Unspent past) (hobs : Unspent obs) : Unspent (past ++ obs) := by
  intro o ho
  rcases List.mem_append.mp ho with ho | ho
  · exact h o ho
  · exact hobs o ho

theorem unspent_nil : Unspent [] := by simp [Unspent]

theorem unspent_wrote (f : Frame) : Unspent [.wrote f] := by simp [Unspent, Obs.isGuess]

theorem unspent_looked (room : Option (Option String)) : Unspent [.looked room] := by
  simp [Unspent, Obs.isGuess]

theorem Obs.isGuess_of_isBudgeted {o : Obs} (h : o.isBudgeted = true) : o.isGuess = true := by
  cases o <;> first | rfl | cases h

theorem Obs.isGuess_of_isVerifying {o : Obs} (h : o.isVerifying = true) : o.isGuess = true := by
  cases o <;> first | rfl | cases h

theorem Unspent.counts (h : Unspent past) :
    past.countP Obs.isBudgeted = 0 ∧ past.countP Obs.isVerifying = 0 := by
  constructor
  · refine List.countP_eq_zero.mpr ?_
    intro o ho hmade
    exact absurd (Obs.isGuess_of_isBudgeted hmade) (by simp [h o ho])
  · refine List.countP_eq_zero.mpr ?_
    intro o ho hmade
    exact absurd (Obs.isGuess_of_isVerifying hmade) (by simp [h o ho])

/-- What else a socket does is none of this. -/
theorem Guess.append (h : Guess past) (hobs : Unspent obs) : Guess (past ++ obs) where
  checks := by
    rw [List.countP_append, hobs.counts.1]
    exact h.checks
  starts := by
    rw [List.countP_append, hobs.counts.2]
    exact h.starts
  paid := by
    refine History.always_append.mpr ⟨h.paid, History.always_of_forall ?_⟩
    rintro pre o ho password hash rfl
    cases hobs _ ho
  begun := by
    refine History.always_append.mpr ⟨h.begun, History.always_of_forall ?_⟩
    rintro pre o ho password hash result rfl
    cases hobs _ ho

theorem Guess.budgeted (h : Guess past) (hunspent : Unspent past) (now : Instant)
    (result : Except AdmissionError Unit) : Guess (past ++ [.budgeted now result]) where
  checks := by rw [List.countP_append, hunspent.counts.1]; rfl
  starts := by rw [List.countP_append, hunspent.counts.2]; exact Nat.zero_le 1
  paid := History.always_snoc.mpr ⟨h.paid, fun _ _ he => by cases he⟩
  begun := History.always_snoc.mpr ⟨h.begun, fun _ _ _ he => by cases he⟩

theorem Guess.verifying (h : Guess past) (hnone : past.countP Obs.isVerifying = 0)
    (hpaid : ∃ now, .budgeted now (.ok ()) ∈ past) (password hash : String) :
    Guess (past ++ [.verifying password hash]) where
  checks := by rw [List.countP_append]; exact h.checks
  starts := by rw [List.countP_append, hnone]; rfl
  paid := History.always_snoc.mpr ⟨h.paid, fun _ _ _ => hpaid⟩
  begun := History.always_snoc.mpr ⟨h.begun, fun _ _ _ he => by cases he⟩

theorem Guess.verified (h : Guess past) {password hash : String}
    (hbegun : .verifying password hash ∈ past) (result : Except PasswordError Bool) :
    Guess (past ++ [.verified password hash result]) where
  checks := by rw [List.countP_append]; exact h.checks
  starts := by rw [List.countP_append]; exact h.starts
  paid := History.always_snoc.mpr ⟨h.paid, fun _ _ he => by cases he⟩
  begun := History.always_snoc.mpr ⟨h.begun, fun _ _ _ he => by cases he; exact hbegun⟩

theorem authSent_guess (h : Unspent past) (hash : String) (result : SendResult) :
    (authSent result).Guess hash past := by
  unfold authSent
  split
  · exact h
  · trivial

theorem authFrame_guess (h : Unspent past) (hash : String) (received : Received) :
    (authFrame env received).Guess hash past := by
  cases received with
  | text text =>
    simp only [authFrame, authText]
    split
    · split
      · exact h
      · trivial
    · trivial
  | ping data => exact h
  | pong => exact h
  | _ => trivial

theorem AuthStep.guess {guard : Option IpAddr} {hash : String} {p : AuthPc} {m : Move Pc}
    (hm : AuthStep env sh roomId guard hash p m) (h : Guess past) (hp : p.Guess hash past) :
    Guess (past ++ m.obs) ∧ m.pc.Guess (past ++ m.obs) := by
  cases hm with
  | required =>
    exact ⟨h.append (unspent_wrote _), authSent_guess (hp.append (unspent_wrote _)) hash _⟩
  | ponged =>
    exact ⟨h.append (unspent_wrote _), authSent_guess (hp.append (unspent_wrote _)) hash _⟩
  | read => exact ⟨h.append unspent_nil, authFrame_guess (hp.append unspent_nil) hash _⟩
  | cancelled hwaits => exact ⟨h.append unspent_nil, trivial⟩
  | @paid password now limits hcheck =>
    refine ⟨h.budgeted hp now _, ?_, now, by simp⟩
    rw [List.countP_append, hp.counts.2]
    rfl
  | @refused password now e limits hcheck => exact ⟨h.budgeted hp now _, trivial⟩
  | @started password job passwords hverify =>
    exact ⟨h.verifying hp.1 hp.2 password hash, List.mem_append_right _ (List.mem_singleton.mpr rfl)⟩
  | @notStarted password e hverify =>
    have hstarted := h.verifying hp.1 hp.2 password hash
    have hbegun : Obs.verifying password hash ∈ past ++ [.verifying password hash] := by simp
    refine ⟨?_, trivial⟩
    rw [show past ++ [.verifying password hash, .verified password hash (.error e)] =
      (past ++ [.verifying password hash]) ++ [.verified password hash (.error e)] by simp]
    exact hstarted.verified hbegun _
  | accepted hjob => exact ⟨h.verified hp _, trivial⟩
  | rejected hjob hne => exact ⟨h.verified hp _, trivial⟩
  | failed => exact ⟨h.append (unspent_wrote _), trivial⟩
  | failedLate => exact ⟨h.append (unspent_wrote _), trivial⟩
  | closed => exact ⟨h.append (unspent_wrote _), trivial⟩

theorem LiveStep.unspent {isProtected : Bool} {connId : String} {attached : Attached} {p : LivePc}
    {m : Move LivePc} (h : LiveStep env sh roomId isProtected connId attached p m) :
    Unspent m.obs := by
  intro o ho
  have hlive := h.isLive o ho
  cases o <;> first | rfl | cases hlive

theorem afterUpgrade_guess (h : Unspent past) (guard : Option IpAddr) (room : Option (Option String))
    (ok : Bool) : (afterUpgrade guard room ok).Guess past := by
  unfold afterUpgrade
  split
  · exact h
  · trivial
  · trivial

theorem PcStep.guess {pc : Pc} {m : Move Pc} (hm : PcStep env sh roomId pc m) (h : Guess past)
    (hp : pc.Guess past) : Guess (past ++ m.obs) ∧ m.pc.Guess (past ++ m.obs) := by
  cases hm with
  | turnedDown => exact ⟨h.append unspent_nil, trivial⟩
  | requested => exact ⟨h.append unspent_nil, hp.append unspent_nil⟩
  | limited hcheck => exact ⟨h.append unspent_nil, trivial⟩
  | passed hcheck => exact ⟨h.append unspent_nil, hp.append unspent_nil⟩
  | unknown => exact ⟨h.append unspent_nil, trivial⟩
  | guarded hrow => exact ⟨h.append (unspent_looked _), hp.append (unspent_looked _)⟩
  | unguarded hrow hroom => exact ⟨h.append (unspent_looked _), hp.append (unspent_looked _)⟩
  | crowded hslot => exact ⟨h.append unspent_nil, trivial⟩
  | counted hslot => exact ⟨h.append unspent_nil, hp.append unspent_nil⟩
  | upgraded => exact ⟨h.append unspent_nil, afterUpgrade_guess (hp.append unspent_nil) _ _ _⟩
  | auth hauth => exact hauth.guess h hp
  | dropped hdrop =>
    refine ⟨h.append unspent_nil, ?_⟩
    split <;> trivial
  | attaching hstep =>
    refine ⟨h.append (by simp [Unspent, Obs.isGuess]), ?_⟩
    split <;> trivial
  | attached hstep => exact ⟨h.append unspent_nil, trivial⟩
  | unavailable => exact ⟨h.append (unspent_wrote _), trivial⟩
  | live hlive => exact ⟨h.append hlive.unspent, trivial⟩
  | detached hstep => exact ⟨h.append unspent_nil, trivial⟩

end Socket

theorem Server.Reachable.guess {env : Env} {v : Server} (h : Reachable env v) {k : Nat} {s : Session}
    (hk : v.sockets k = some s) : Guess s.trace := by
  refine (h.socket (I := fun _ s => Guess s.trace ∧ s.pc.Guess s.trace) ?_ ?_ ?_ hk).1
  · intro sh roomId
    exact ⟨⟨Nat.zero_le 1, Nat.zero_le 1, History.always_nil, History.always_nil⟩, unspent_nil⟩
  · intro v v' s _ _ hI
    exact hI
  · intro v s m _ hI hm
    exact hm.guess hI.1 hI.2

/-! ## The calls of the limiter in a run -/

/-- The budget that a socket at this place asks for. -/
def Pc.asks (roomId : String) : Pc → Option Admission.Budget
  | .connectionBudget ip => some (.connection ip)
  | .auth _ _ (.budget _) => some (.room roomId)
  | _ => none

section Asks

variable {env : Env} {sh : Shared} {roomId : String} {pc : Pc} {ch : Choice} {m : Move Pc}

theorem Pc.next_asks (h : pc.next env sh roomId ch = some m) {key : Admission.Budget}
    (hasks : pc.asks roomId = some key) :
    ∃ now, ch = .clock now ∧ m.shared.limits = (sh.limits.checkAt key now).2 ∧
      ∀ now' result, .budgeted now' result ∈ m.obs →
        now' = now ∧ key = .room roomId ∧ result = (sh.limits.checkAt key now).1 := by
  unfold Pc.asks at hasks
  split at hasks
  · rename_i ip
    cases hasks
    cases ch with
    | clock now =>
      simp only [Pc.next] at h
      split at h <;> rename_i hcheck <;> cases h <;> exact ⟨now, rfl, by rw [hcheck], by simp⟩
    | _ => cases h
  · rename_i guard hash password
    cases hasks
    cases ch with
    | clock now =>
      simp only [Pc.next, authNext] at h
      split at h <;> rename_i hcheck <;> cases h <;>
        exact ⟨now, rfl, by rw [hcheck], by simp [hcheck]⟩
    | _ => cases h
  · cases hasks

theorem AuthStep.unasked {guard : Option IpAddr} {hash : String} {p : AuthPc}
    (h : AuthStep env sh roomId guard hash p m) (hasks : (Pc.auth guard hash p).asks roomId = none) :
    m.shared.limits = sh.limits ∧ ∀ now result, .budgeted now result ∉ m.obs := by
  cases h with
  | paid hcheck => cases hasks
  | refused hcheck => cases hasks
  | _ => exact ⟨rfl, by simp⟩

theorem PcStep.unasked (h : PcStep env sh roomId pc m) (hasks : pc.asks roomId = none) :
    m.shared.limits.buckets = sh.limits.buckets ∧ ∀ now result, .budgeted now result ∉ m.obs := by
  cases h with
  | limited hcheck => cases hasks
  | passed hcheck => cases hasks
  | counted hslot => exact ⟨Admission.Limits.acquire_buckets hslot, by simp⟩
  | auth hauth => exact ⟨congrArg _ (hauth.unasked hasks).1, (hauth.unasked hasks).2⟩
  | @dropped guard isProtected accepted sh' hdrop =>
    refine ⟨?_, by simp⟩
    cases guard with
    | none => cases hdrop; rfl
    | some ip =>
      obtain ⟨limits, hrelease, rfl⟩ := Option.map_eq_some_iff.mp hdrop
      exact Admission.Limits.release_buckets hrelease
  | live hlive =>
    refine ⟨congrArg _ hlive.limits, ?_⟩
    intro now result hmem
    cases hlive.unspent _ hmem
  | _ => exact ⟨rfl, by simp⟩

theorem authFrame_budget {received : Received} {password : String}
    (h : authFrame env received = .budget password) :
    ∃ text, received = .text text ∧ text.utf8ByteSize ≤ 4096 ∧
      env.codec.parseAuthenticate text = some password := by
  cases received with
  | text text =>
    simp only [authFrame, authText] at h
    split at h
    · rename_i hsize
      split at h
      · rename_i hparse; cases h; exact ⟨text, rfl, hsize, hparse⟩
      · cases h
    · cases h
  | _ => cases h

/-- The budget comes right after the frame with the password. -/
theorem PcStep.receives (h : PcStep env sh roomId pc m) {guard : Option IpAddr}
    {hash password : String} (hpc : m.pc = .auth guard hash (.budget password)) :
    pc = .auth guard hash .receive := by
  cases h with
  | auth hauth =>
    cases hauth with
    | read => rw [(Pc.auth.inj hpc).1, (Pc.auth.inj hpc).2.1]
    | required => simp only [authSent] at hpc; split at hpc <;> cases hpc
    | ponged => simp only [authSent] at hpc; split at hpc <;> cases hpc
    | _ => cases hpc
  | upgraded => simp only [afterUpgrade] at hpc; split at hpc <;> cases hpc
  | dropped hdrop => dsimp only at hpc; split at hpc <;> cases hpc
  | attaching hstep => dsimp only at hpc; split at hpc <;> cases hpc
  | _ => cases hpc

end Asks

namespace Server

open Admission (Limits)

/-- What a step asks of the limiter. -/
def limiterCall (v : Server) : Label → List Admission.Op
  | .socket k (.clock now) =>
    match (v.sockets k).bind fun s => s.pc.asks s.roomId with
    | some key => [.check key now]
    | none => []
  | .creationBudget ip now => [.check (.creation ip) now]
  | .maintain now => [.maintain now]
  | _ => []

/-- What a run asks of the limiter, in processing order. -/
def limiterCalls (env : Env) (v : Server) (ls : List Label) : List Admission.Op :=
  Machine.emitted (step env) limiterCall v ls

/-- Socket `k` of the room has been answered `Ok` inside the window. -/
def PaidWithin (v : Server) (roomId : String) (a b : Instant) (k : Nat) : Prop :=
  ∃ s now, v.sockets k = some s ∧ s.roomId = roomId ∧ .budgeted now (.ok ()) ∈ s.trace ∧
    a ≤ now ∧ now ≤ b

/-- The table and the traces are what the calls make of them. -/
structure Ledger (calls : List Admission.Op) (v : Server) : Prop where
  buckets : v.shared.limits.buckets = (Limits.empty.after calls).buckets
  answered : ∀ k s now result, v.sockets k = some s → .budgeted now result ∈ s.trace →
    ⟨.room s.roomId, now, result⟩ ∈ Admission.answers .empty calls
  counted : ∀ roomId a b (ks : Finset Nat), (∀ k ∈ ks, v.PaidWithin roomId a b k) →
    ks.card ≤ Admission.okOfWithin (.room roomId) (Admission.answers .empty calls) a b

variable {env : Env} {v v' : Server} {calls more : List Admission.Op}

theorem ledger_start (db : Db.Rooms) : Ledger [] (start db) where
  buckets := rfl
  answered k s now result hk := by cases hk
  counted roomId a b ks hks := by
    rcases ks.eq_empty_or_nonempty with rfl | ⟨k, hk⟩
    · exact Nat.zero_le _
    · obtain ⟨s, now, hsocket, -⟩ := hks k hk
      cases hsocket

/-- A step that leaves no socket a new answer. -/
theorem Ledger.grow (h : Ledger calls v)
    (hbuckets : v'.shared.limits.buckets = (Limits.empty.after (calls ++ more)).buckets)
    (hsockets : ∀ k s', v'.sockets k = some s' → ∀ now result, .budgeted now result ∈ s'.trace →
      ∃ s, v.sockets k = some s ∧ s.roomId = s'.roomId ∧ .budgeted now result ∈ s.trace) :
    Ledger (calls ++ more) v' where
  buckets := hbuckets
  answered k s' now result hk hmem := by
    obtain ⟨s, hs, hroom, hbudgeted⟩ := hsockets k s' hk now result hmem
    have hanswer := h.answered k s now result hs hbudgeted
    rw [hroom] at hanswer
    rw [Admission.answers_append]
    exact List.mem_append_left _ hanswer
  counted roomId a b ks hks := by
    have hbefore : ∀ k ∈ ks, v.PaidWithin roomId a b k := by
      intro k hk
      obtain ⟨s', now, hs', hroom', hmem, hin⟩ := hks k hk
      obtain ⟨s, hs, hroom, hbudgeted⟩ := hsockets k s' hs' now _ hmem
      exact ⟨s, now, hs, hroom.trans hroom', hbudgeted, hin⟩
    have hcount := h.counted roomId a b ks hbefore
    rw [Admission.answers_append, Admission.okOfWithin_append]
    omega

/-- A socket has moved: the others are as they were, and it has at most the new answers besides. -/
theorem budgeted_setSocket {k₀ : Nat} {s₀ : Session} {pc : Pc} {obs : List Obs} {sh : Shared}
    (hk₀ : v.sockets k₀ = some s₀) {k : Nat} {s' : Session}
    (hk : (v.setSocket k₀ { s₀ with pc, trace := s₀.trace ++ obs } sh).sockets k = some s')
    {now : Instant} {result : Except Admission.AdmissionError Unit}
    (hmem : .budgeted now result ∈ s'.trace) :
    (∃ s, v.sockets k = some s ∧ s.roomId = s'.roomId ∧ .budgeted now result ∈ s.trace) ∨
      (k = k₀ ∧ s'.roomId = s₀.roomId ∧ .budgeted now result ∈ obs) := by
  rcases setSocket_cases hk with ⟨rfl, rfl⟩ | ⟨-, hold⟩
  · rcases List.mem_append.mp hmem with hmem | hmem
    · exact .inl ⟨s₀, hk₀, rfl, hmem⟩
    · exact .inr ⟨rfl, rfl, hmem⟩
  · exact .inl ⟨s', hold, rfl, hmem⟩

/-- A socket has moved, with nothing of its budget to tell. -/
theorem budgeted_of_silent {k₀ : Nat} {s₀ : Session} {pc : Pc} {obs : List Obs} {sh : Shared}
    (hk₀ : v.sockets k₀ = some s₀) (hobs : ∀ now result, .budgeted now result ∉ obs) :
    ∀ k s', (v.setSocket k₀ { s₀ with pc, trace := s₀.trace ++ obs } sh).sockets k = some s' →
      ∀ now result, .budgeted now result ∈ s'.trace →
        ∃ s, v.sockets k = some s ∧ s.roomId = s'.roomId ∧ .budgeted now result ∈ s.trace := by
  intro k s' hk now result hmem
  rcases budgeted_setSocket hk₀ hk hmem with hold | ⟨-, -, hnew⟩
  · exact hold
  · exact absurd hnew (hobs now result)

/-- A socket is given the answer of its room's budget. -/
theorem Ledger.paid (h : Ledger calls v) {k₀ : Nat} {s₀ : Session} {pc : Pc} {obs : List Obs}
    {sh : Shared} {now₀ : Instant} (hk₀ : v.sockets k₀ = some s₀)
    (hlimits : sh.limits = (v.shared.limits.checkAt (.room s₀.roomId) now₀).2)
    (hobs : ∀ now result, .budgeted now result ∈ obs →
      now = now₀ ∧ result = (v.shared.limits.checkAt (.room s₀.roomId) now₀).1) :
    Ledger (calls ++ [.check (.room s₀.roomId) now₀])
      (v.setSocket k₀ { s₀ with pc, trace := s₀.trace ++ obs } sh) := by
  obtain ⟨hresult, hbuckets⟩ := Admission.checkAt_congr h.buckets (.room s₀.roomId) now₀
  have hanswers : Admission.answers .empty (calls ++ [.check (.room s₀.roomId) now₀]) =
      Admission.answers .empty calls ++ [⟨.room s₀.roomId, now₀,
        (v.shared.limits.checkAt (.room s₀.roomId) now₀).1⟩] := by
    rw [Admission.answers_append, hresult]; rfl
  refine ⟨?_, ?_, ?_⟩
  · rw [Admission.after_snoc, Limits.apply, ← hbuckets, ← hlimits]
    rfl
  · intro k s' now result hk hmem
    rw [hanswers, List.mem_append]
    rcases budgeted_setSocket hk₀ hk hmem with ⟨s, hs, hroom, hbudgeted⟩ | ⟨-, hroom, hnew⟩
    · have hanswer := h.answered k s now result hs hbudgeted
      rw [hroom] at hanswer
      exact .inl hanswer
    · obtain ⟨rfl, rfl⟩ := hobs now result hnew
      rw [hroom]
      exact .inr (List.mem_singleton.mpr rfl)
  · intro roomId a b ks hks
    have hothers : ∀ k ∈ ks.erase k₀, v.PaidWithin roomId a b k := by
      intro k hk
      obtain ⟨hne, hmem⟩ := Finset.mem_erase.mp hk
      obtain ⟨s', now, hs', hroom', hbudgeted', hin⟩ := hks k hmem
      rcases budgeted_setSocket hk₀ hs' hbudgeted' with ⟨s, hs, hroom, hbudgeted⟩ | ⟨he, -, -⟩
      · exact ⟨s, now, hs, hroom.trans hroom', hbudgeted, hin⟩
      · exact absurd he hne
    have hcount := h.counted roomId a b (ks.erase k₀) hothers
    rw [hanswers, Admission.okOfWithin_append]
    by_cases hin₀ : k₀ ∈ ks
    · have herase := Finset.card_erase_add_one hin₀
      obtain ⟨s', now, hs', hroom', hbudgeted', hin⟩ := hks k₀ hin₀
      rcases budgeted_setSocket hk₀ hs' hbudgeted' with ⟨s, hs, hroom, hbudgeted⟩ | ⟨-, hroom, hnew⟩
      · -- `k₀` had paid inside the window before
        have hall : ∀ k ∈ ks, v.PaidWithin roomId a b k := by
          intro k hk
          by_cases he : k = k₀
          · rw [he]
            exact ⟨s, now, hs, hroom.trans hroom', hbudgeted, hin⟩
          · exact hothers k (Finset.mem_erase.mpr ⟨he, hk⟩)
        have := h.counted roomId a b ks hall
        omega
      · obtain ⟨rfl, hok⟩ := hobs now _ hnew
        rw [← hok, ← hroom, hroom']
        have hnew : Admission.okOfWithin (.room roomId) [⟨.room roomId, now, .ok ()⟩] a b = 1 := by
          simp [Admission.okOfWithin, Admission.okOf, hin, Except.isOk, Except.toBool]
        omega
    · rw [Finset.erase_eq_of_notMem hin₀] at hcount
      omega

/-- A step that asks the limiter nothing and leaves no socket an answer. -/
theorem Ledger.keep (h : Ledger calls v)
    (hbuckets : v'.shared.limits.buckets = v.shared.limits.buckets)
    (hsockets : ∀ k s', v'.sockets k = some s' → ∀ now result, .budgeted now result ∈ s'.trace →
      ∃ s, v.sockets k = some s ∧ s.roomId = s'.roomId ∧ .budgeted now result ∈ s.trace) :
    Ledger calls v' := by
  have hgrown : Ledger (calls ++ []) v' :=
    h.grow (by rw [List.append_nil, hbuckets, h.buckets]) hsockets
  rw [List.append_nil] at hgrown
  exact hgrown

/-- A call from no socket. -/
theorem Ledger.other (h : Ledger calls v) {limits : Limits} {op : Admission.Op}
    (hlimits : limits = v.shared.limits.apply op) :
    Ledger (calls ++ [op]) { v with shared := { v.shared with limits } } := by
  refine h.grow ?_ ?_
  · rw [Admission.after_snoc, hlimits]
    cases op with
    | check key now => exact (Admission.checkAt_congr h.buckets key now).2
    | maintain now => simp only [Limits.apply, Limits.maintain, Limits.prune, h.buckets]
  · intro k s' hk now result hmem
    exact ⟨s', hk, rfl, hmem⟩

theorem Ledger.socket (h : Ledger calls v) {k : Nat} {ch : Choice}
    (hs : v.socket env k ch = some v') : Ledger (calls ++ v.limiterCall (.socket k ch)) v' := by
  obtain ⟨s, m, hk, hm, rfl⟩ := socket_next hs
  cases hasks : s.pc.asks s.roomId with
  | none =>
    have hcall : v.limiterCall (.socket k ch) = [] := by
      cases ch <;> simp [limiterCall, hk, hasks]
    obtain ⟨hbuckets, hobs⟩ := (Pc.next_cases hm).unasked hasks
    rw [hcall, List.append_nil]
    exact h.keep hbuckets (budgeted_of_silent hk hobs)
  | some key =>
    obtain ⟨now, rfl, hlimits, hobs⟩ := Pc.next_asks hm hasks
    have hcall : v.limiterCall (.socket k (.clock now)) = [.check key now] := by
      simp [limiterCall, hk, hasks]
    rw [hcall]
    by_cases hkey : key = .room s.roomId
    · subst hkey
      refine h.paid hk hlimits ?_
      intro now' result hmem
      exact ⟨(hobs now' result hmem).1, (hobs now' result hmem).2.2⟩
    · refine h.grow ?_ (budgeted_of_silent hk fun now' result hmem =>
        hkey (hobs now' result hmem).2.1)
      rw [Admission.after_snoc]
      have hbuckets := (Admission.checkAt_congr h.buckets key now).2
      rw [← hlimits] at hbuckets
      exact hbuckets

theorem Ledger.step (h : Ledger calls v) {l : Label} (hs : v.step env l = some v') :
    Ledger (calls ++ v.limiterCall l) v' := by
  have hquiet : v.limiterCall l = [] → v'.shared.limits.buckets = v.shared.limits.buckets →
      v'.sockets = v.sockets → Ledger (calls ++ v.limiterCall l) v' := by
    intro hcall hbuckets hsockets
    rw [hcall, List.append_nil]
    exact h.keep hbuckets fun k s hk now result hmem => ⟨s, hsockets ▸ hk, rfl, hmem⟩
  cases step_does hs with
  | @connect k roomId hk =>
    rw [show v.limiterCall (.connect k roomId) = [] from rfl, List.append_nil]
    refine h.keep rfl ?_
    intro k' s' hk' now result hmem
    rcases setSocket_cases hk' with ⟨-, rfl⟩ | ⟨-, hold⟩
    · cases hmem
    · exact ⟨s', hold, rfl, hmem⟩
  | socket hmove => exact h.socket hmove
  | creationBudget => exact h.other rfl
  | maintain => exact h.other rfl
  | _ => exact hquiet rfl rfl rfl

theorem ledger_run (db : Db.Rooms) {ls : List Label} (h : Machine.run (step env) (start db) ls = some v) :
    Ledger (limiterCalls env (start db) ls) v := by
  refine Machine.run_induction
    (motive := fun ls v => Ledger (limiterCalls env (start db) ls) v) (ledger_start db) ?_ h
  intro ls v l v' hrun hs ih
  rw [limiterCalls, Machine.emitted_snoc hrun]
  exact ih.step hs

/-! ## The bound -/

/-- Socket `k` has started a verification against the room, paid for inside the window. -/
def GuessedWithin (v : Server) (roomId : String) (a b : Instant) (k : Nat) : Prop :=
  v.PaidWithin roomId a b k ∧
    ∃ s password hash, v.sockets k = some s ∧ .verifying password hash ∈ s.trace

/-- What a socket has tried, after the limiter was called as in `calls`. -/
structure Tried (calls : List Admission.Op) (s : Session) : Prop where
  guess : Guess s.trace
  asked : ∀ now result, .budgeted now result ∈ s.trace →
    ⟨.room s.roomId, now, result⟩ ∈ Admission.answers .empty calls
  refused : ∀ password hash, .verified password hash (.error .invalid) ∈ s.trace →
    ∃ now, .budgeted now (.ok ()) ∈ s.trace

/-- Only an `authenticate` request that is well formed spends a token of the room. -/
structure Thrift (env : Env) (v : Server) : Prop where
  frames : ∀ k s received now s' sh, v.sockets k = some s →
    s.next env v.shared (.frame received now) = some (s', sh) →
      sh.limits.buckets = v.shared.limits.buckets
  wellFormed : ∀ k s ch s' sh guard hash password, v.sockets k = some s →
    s.next env v.shared ch = some (s', sh) → s'.pc = .auth guard hash (.budget password) →
      ∃ text now, ch = .frame (.text text) now ∧ text.utf8ByteSize ≤ 4096 ∧
        env.codec.parseAuthenticate text = some password
  asked : ∀ l roomId now, .check (.room roomId) now ∈ v.limiterCall l →
    ∃ k s guard hash password, l = .socket k (.clock now) ∧ v.sockets k = some s ∧
      s.roomId = roomId ∧ s.pc = .auth guard hash (.budget password)
  spent : ∀ key now, (v.shared.limits.checkAt key now).1 = .ok () →
    (v.shared.limits.checkAt key now).2.credit key now + 1 = v.shared.limits.credit key now

theorem tried {s : Session} (hg : Guess s.trace)
    (hasked : ∀ now result, .budgeted now result ∈ s.trace →
      ⟨.room s.roomId, now, result⟩ ∈ Admission.answers .empty calls) : Tried calls s where
  guess := hg
  asked := hasked
  refused password hash hmem := by
    obtain ⟨pre, post, hsplit⟩ := List.append_of_mem hmem
    have hbegun := hg.begun pre _ post hsplit password hash _ rfl
    obtain ⟨pre', post', hsplit'⟩ := List.append_of_mem hbegun
    have hall : s.trace = pre' ++ .verifying password hash ::
        (post' ++ .verified password hash (.error .invalid) :: post) := by
      rw [hsplit, hsplit']
      simp
    obtain ⟨now, hnow⟩ := hg.paid pre' _ _ hall password hash rfl
    exact ⟨now, by rw [hall]; exact List.mem_append_left _ hnow⟩

theorem next_budget {sh sh' : Shared} {s s' : Session} {ch : Choice} {guard : Option IpAddr}
    {hash password : String} (h : s.next env sh ch = some (s', sh'))
    (hpc : s'.pc = .auth guard hash (.budget password)) :
    ∃ text now, ch = .frame (.text text) now ∧ text.utf8ByteSize ≤ 4096 ∧
      env.codec.parseAuthenticate text = some password := by
  obtain ⟨m, hm, hmove⟩ := Option.map_eq_some_iff.mp h
  cases hmove
  have hplace := (Pc.next_cases hm).receives hpc
  rw [hplace] at hm
  cases ch with
  | frame received now =>
    cases hm
    obtain ⟨text, rfl, hsize, hparse⟩ := authFrame_budget (Pc.auth.inj hpc).2.2
    exact ⟨text, now, rfl, hsize, hparse⟩
  | elapsed => cases hm; cases hpc
  | _ => cases hm

theorem thrift (env : Env) (v : Server) : Thrift env v where
  frames k s received now s' sh hk hnext := by
    obtain ⟨m, hm, hmove⟩ := Option.map_eq_some_iff.mp hnext
    cases hmove
    cases hasks : s.pc.asks s.roomId with
    | none => exact ((Pc.next_cases hm).unasked hasks).1
    | some key =>
      obtain ⟨now', hclock, -⟩ := Pc.next_asks hm hasks
      cases hclock
  wellFormed k s ch s' sh guard hash password hk hnext hpc := next_budget hnext hpc
  asked l roomId now hmem := by
    unfold limiterCall at hmem
    split at hmem
    · rename_i k now'
      split at hmem
      · rename_i key hasks
        obtain ⟨s, hk, hs⟩ := Option.bind_eq_some_iff.mp hasks
        cases List.mem_singleton.mp hmem
        unfold Pc.asks at hs
        split at hs
        · cases hs
        · rename_i guard hash password hpc
          cases hs
          exact ⟨k, s, guard, hash, password, rfl, hk, rfl, hpc⟩
        · cases hs
      · cases hmem
    · cases List.mem_singleton.mp hmem
    · cases List.mem_singleton.mp hmem
    · cases hmem
  spent key now hok := Admission.checkAt_spends hok

/-- **How often a room's password can be tried.** In every run a socket asks its room's budget at most
once and verifies at most once, after an `Ok`; only a well-formed `authenticate` asks. Where checks
read a clock that does not run back, also from the prunings nine minutes before, at most
`20 + T / 3` verifications of a room are paid for in a window of `T` seconds. -/
theorem guessing_bound (env : Env) (db : Db.Rooms) {ls : List Label} {v : Server}
    (h : Machine.run (step env) (start db) ls = some v) :
    (∀ k s, v.sockets k = some s → Tried (limiterCalls env (start db) ls) s) ∧
      (Admission.Steady (limiterCalls env (start db) ls) →
        ∀ roomId a b (ks : Finset Nat), (∀ k ∈ ks, v.GuessedWithin roomId a b k) →
          (ks.card : ℚ) ≤ 20 + secsSince a b / 3) ∧ Thrift env v := by
  have hledger := ledger_run db h
  have hreach : Reachable env v := ⟨db, ls, h⟩
  refine ⟨?_, ?_, thrift env v⟩
  · intro k s hk
    exact tried (hreach.guess hk) (hledger.answered k s · · hk)
  · intro hsteady roomId a b ks hks
    have hcount := hledger.counted roomId a b ks fun k hk => (hks k hk).1
    have hwindow := Admission.okOf_window hsteady (.room roomId) a b
    have hcard : (ks.card : ℚ) ≤ (Admission.okOfWithin (.room roomId)
        (Admission.answers .empty (limiterCalls env (start db) ls)) a b : ℚ) := Nat.cast_le.mpr hcount
    have hrefill : (Admission.Budget.room roomId).refill = 1 / 3 := by
      norm_num [Admission.Budget.refill, Admission.Budget.capacity]
    rw [hrefill, show (Admission.Budget.room roomId).capacity = 20 from rfl] at hwindow
    linarith

/-- Socket `k`, from the request to its verification, by a clock that reads `now`. -/
def guess (k : Nat) (now : Instant) : List Label :=
  [.connect k "room",
    .socket k (.request [some "https://parrhesia.example"] (.v4 (BitVec.ofNat 32 k)) []),
    .socket k (.clock now), .socket k (.statement false), .socket k .proceed,
    .socket k (.upgraded true), .socket k (.sent .ok),
    .socket k (.frame (.text authenticateText) now), .socket k (.clock now), .socket k .proceed]

/-- Whether `k` is a socket of `"room"` that verifies, paid for at the origin of the clock. -/
def hasGuessed (v : Server) (k : Nat) : Bool :=
  (v.sockets k).any fun s =>
    decide (s.roomId = "room") && s.trace.any Obs.isVerifying &&
      s.trace.any fun
        | .budgeted 0 (.ok ()) => true
        | _ => false

theorem guessedWithin_of_hasGuessed {v : Server} {k : Nat} (h : v.hasGuessed k = true) :
    v.GuessedWithin "room" 0 0 k := by
  unfold hasGuessed at h
  cases hk : v.sockets k with
  | none => rw [hk] at h; cases h
  | some s =>
    rw [hk, Option.any_some, Bool.and_eq_true, Bool.and_eq_true, decide_eq_true_eq] at h
    obtain ⟨⟨hroom, hverifying⟩, hpaid⟩ := h
    obtain ⟨o, ho, hmade⟩ := List.any_eq_true.mp hverifying
    obtain ⟨o', ho', hmade'⟩ := List.any_eq_true.mp hpaid
    constructor
    · split at hmade'
      · exact ⟨s, 0, hk, hroom, ho', Nat.le_refl 0, Nat.le_refl 0⟩
      · cases hmade'
    · cases o with
      | verifying password hash => exact ⟨s, password, hash, hk, ho⟩
      | _ => cases hmade

/-- Two sockets guess at the same instant. -/
theorem guessing_bound_passphrase : ∃ v, Machine.run (step passphraseEnv) (start protectedRoom)
    (guess 0 0 ++ guess 1 0) = some v ∧
      (({0, 1} : Finset Nat).card : ℚ) ≤ 20 + secsSince 0 0 / 3 := by
  have hrun : ((Machine.run (step passphraseEnv) (start protectedRoom)
      (guess 0 0 ++ guess 1 0)).map fun v => v.hasGuessed 0 && v.hasGuessed 1) = some true := by
    decide +kernel
  have hsteady : Admission.Steady (limiterCalls passphraseEnv (start protectedRoom)
      (guess 0 0 ++ guess 1 0)) := by decide +kernel
  obtain ⟨v, hv, hguessed⟩ := Option.map_eq_some_iff.mp hrun
  rw [Bool.and_eq_true] at hguessed
  refine ⟨v, hv, (guessing_bound passphraseEnv protectedRoom hv).2.1 hsteady "room" 0 0 _ ?_⟩
  intro k hk
  rcases Finset.mem_insert.mp hk with rfl | hk
  · exact guessedWithin_of_hasGuessed hguessed.1
  · rw [Finset.mem_singleton.mp hk]
    exact guessedWithin_of_hasGuessed hguessed.2

/-- A pruning that reads the clock 700 seconds ahead of a check which takes the mutex after it: a
21st verification is paid for at the same instant. -/
theorem guessing_ahead : ∃ v, Machine.run (step passphraseEnv) (start protectedRoom)
    ((List.range 20).flatMap (guess · 0) ++ .maintain (fromSecs 700) :: guess 20 0) = some v ∧
      (Admission.checkInstants (limiterCalls passphraseEnv (start protectedRoom)
        ((List.range 20).flatMap (guess · 0) ++ .maintain (fromSecs 700) :: guess 20 0))).Pairwise
          (· ≤ ·) ∧
      (∀ k ∈ Finset.range 21, v.GuessedWithin "room" 0 0 k) ∧
      ¬ ((Finset.range 21).card : ℚ) ≤ 20 + secsSince 0 0 / 3 := by
  have hrun : ((Machine.run (step passphraseEnv) (start protectedRoom)
      ((List.range 20).flatMap (guess · 0) ++ .maintain (fromSecs 700) :: guess 20 0)).map
        fun v => (List.range 21).all v.hasGuessed) = some true := by decide +kernel
  obtain ⟨v, hv, hguessed⟩ := Option.map_eq_some_iff.mp hrun
  refine ⟨v, hv, by decide +kernel, ?_, ?_⟩
  · intro k hk
    rw [List.all_eq_true] at hguessed
    exact guessedWithin_of_hasGuessed (hguessed k (List.mem_range.mpr (Finset.mem_range.mp hk)))
  · rw [Finset.card_range, secsSince_self]
    norm_num

end Server
end Parrhesia
