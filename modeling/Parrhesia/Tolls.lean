import Parrhesia.Guessing
import Parrhesia.Protection

/-!
# Parrhesia.Tolls

Calls of `create_room` and requests for a socket each pay once, from the budget of the address that
`client_ip` reads, before they reach the database or the password service.

* `App.payments` : the checks of a run that an address is granted, with the call or socket that asked.
* `Toll`         : an agent at its toll; it goes in only once it has paid, and pays once.
* `App.Tolls`    : the limiter grants an address what is in the payments, and nothing else.

`tolls_run` shows this of every run of the router; what it bounds is in `Parrhesia.Growth`.
-/

namespace Parrhesia

open Lib
open Admission (Budget Limits)

/-- The address whose budget it is. -/
def Admission.Budget.address : Budget → Option IpAddr
  | .connection ip => some ip
  | .creation ip => some ip
  | .room _ => none

/-- The budget that a call at this place asks for. -/
def CreatePc.asks : CreatePc → Option Budget
  | .budget ip => some (.creation ip)
  | _ => none

/-- Before the budget. -/
def CreatePc.isOutside : CreatePc → Bool
  | .request => true
  | .budget _ => true
  | _ => false

/-- At a place that only a granted call reaches. -/
def CreatePc.isInside : CreatePc → Bool
  | .hash _ => true
  | .hashing _ _ => true
  | .insert _ => true
  | .responded (.json _) => true
  | _ => false

/-- The budget of its address that a socket at this place asks for. -/
def Pc.toll : Pc → Option Budget
  | .connectionBudget ip => some (.connection ip)
  | _ => none

def Pc.isOutside : Pc → Bool
  | .request => true
  | .connectionBudget _ => true
  | _ => false

/-- The socket is let in to look its room up, or has. -/
def Session.Inside (s : Session) : Prop :=
  (∃ ip, s.pc = .roomPassword ip) ∨ ∃ room, .looked room ∈ s.trace

/-! ## The payments of a run -/

/-- Who asks the limiter. -/
inductive Agent where
  | create (k : Nat)
  | socket (k : Nat)
  deriving DecidableEq

/-- A check of the limiter. -/
structure Payment where
  agent : Agent
  key : Budget
  now : Instant
  deriving DecidableEq

namespace App

/-- The check that a step makes, if it makes one. -/
def asks (w : App) : Label → Option Payment
  | .serve (.socket k (.clock now)) =>
    ((w.server.sockets k).bind fun s => s.pc.asks s.roomId).map fun key => ⟨.socket k, key, now⟩
  | .create k (.clock now) =>
    ((w.creates k).bind fun t => t.pc.asks).map fun key => ⟨.create k, key, now⟩
  | _ => none

def limiterCall (w : App) : Label → List Admission.Op
  | .serve (.maintain now) => [.maintain now]
  | l => (w.asks l).toList.map fun p => .check p.key p.now

/-- The check of a step, if it is made for an address and granted. -/
def payment (w : App) (l : Label) : List Payment :=
  (w.asks l).toList.filter fun p =>
    p.key.address.isSome && (w.server.shared.limits.checkAt p.key p.now).1.isOk

variable (env : Http) (w : App) (ls : List Label)

/-- What a run asks of the limiter, in processing order. -/
def limiterCalls : List Admission.Op := Machine.emitted (step env) limiterCall w ls

def payments : List Payment := Machine.emitted (step env) payment w ls

end App

/-! ## One toll -/

/-- An agent that asks for its own budgets only, has not paid while it is outside, and has paid once
it is inside. -/
structure Toll (paid : List Payment) (agent : Agent) (outside inside : Prop) (toll : Option Budget)
    (Own : Budget → Prop) : Prop where
  unpaid : outside → agent ∉ paid.map Payment.agent
  settled : inside → agent ∈ paid.map Payment.agent
  asked : ∀ key, toll = some key → outside ∧ Own key
  own : ∀ p ∈ paid, p.agent = agent → Own p.key

section Toll

variable {paid : List Payment} {agent : Agent} {outside outside' inside inside' : Prop}
  {toll toll' : Option Budget} {Own Own' : Budget → Prop}

/-- An agent of whom nothing is known yet. -/
theorem Toll.stranger (hpaid : ∀ p ∈ paid, p.agent ≠ agent) (hin : ¬ inside) (htoll : toll = none) :
    Toll paid agent outside inside toll Own where
  unpaid _ hmem := by
    obtain ⟨p, hp, he⟩ := List.mem_map.mp hmem
    exact hpaid p hp he
  settled hi := absurd hi hin
  asked key hkey := by cases htoll.symm.trans hkey
  own p hp he := absurd he (hpaid p hp)

/-- The agent moves and does not pay. -/
theorem Toll.move (h : Toll paid agent outside inside toll Own) (hout : outside' → outside)
    (hin : inside' → inside) (htoll : ∀ key, toll' = some key → outside' ∧ Own key) :
    Toll paid agent outside' inside' toll' Own where
  unpaid ho := h.unpaid (hout ho)
  settled hi := h.settled (hin hi)
  asked := htoll
  own := h.own

/-- The agent pays. -/
theorem Toll.pay (h : Toll paid agent outside inside toll Own) {key : Budget}
    (hkey : toll = some key) (now : Instant) (hout : ¬ outside') :
    Toll (paid ++ [⟨agent, key, now⟩]) agent outside' inside' none Own where
  unpaid ho := absurd ho hout
  settled _ := by simp
  asked key' hnone := by cases hnone
  own p hp hagent := by
    rcases List.mem_append.mp hp with hold | hnew
    · exact h.own p hold hagent
    · cases List.mem_singleton.mp hnew
      exact (h.asked key hkey).2

/-- Others pay. -/
theorem Toll.others (h : Toll paid agent outside inside toll Own) {more : List Payment}
    (hmore : ∀ p ∈ more, p.agent ≠ agent) : Toll (paid ++ more) agent outside inside toll Own where
  unpaid ho hmem := by
    rw [List.map_append, List.mem_append] at hmem
    rcases hmem with hold | hnew
    · exact h.unpaid ho hold
    · obtain ⟨p, hp, he⟩ := List.mem_map.mp hnew
      exact hmore p hp he
  settled hi := by
    rw [List.map_append]
    exact List.mem_append_left _ (h.settled hi)
  asked := h.asked
  own p hp hagent := by
    rcases List.mem_append.mp hp with hold | hnew
    · exact h.own p hold hagent
    · exact absurd hagent (hmore p hnew)

theorem Toll.mono (h : Toll paid agent outside inside toll Own) (hown : ∀ key, Own key → Own' key) :
    Toll paid agent outside inside toll Own' where
  unpaid := h.unpaid
  settled := h.settled
  asked key hkey := ⟨(h.asked key hkey).1, hown key (h.asked key hkey).2⟩
  own p hp hagent := hown _ (h.own p hp hagent)

end Toll

/-! ## What a step does to the limiter -/

variable {env : Http}

/-- A call that waits for its budget gets the answer of the limiter. -/
theorem CreatePc.next_asks {sh : Shared} {call : CreateCall} {pc : CreatePc} {ch : CreateChoice}
    {m : CreateMove} (h : pc.next env sh call ch = some m) {key : Budget}
    (hasks : pc.asks = some key) :
    ∃ now, ch = .clock now ∧ m.shared.limits = (sh.limits.checkAt key now).2 ∧
      m.pc.isOutside = false ∧
      (m.pc.isInside = true → (sh.limits.checkAt key now).1 = .ok ()) := by
  cases pc with
  | budget ip =>
    cases hasks
    cases ch with
    | clock now =>
      refine ⟨now, rfl, ?_⟩
      simp only [next] at h
      split at h
      · rename_i hcheck
        cases h
        rw [hcheck]
        refine ⟨rfl, ?_, fun _ => rfl⟩
        cases call.read env with
        | error response => rfl
        | ok request => obtain ⟨_ | password⟩ := request <;> rfl
      · rename_i e limits hcheck
        cases h
        rw [hcheck]
        exact ⟨rfl, rfl, fun hin => by cases e <;> cases hin⟩
    | _ => cases h
  | _ => cases hasks

theorem CreatePc.isOutside_of_asks {pc : CreatePc} {key : Budget} (h : pc.asks = some key) :
    pc.isOutside = true := by
  cases pc with
  | budget ip => rfl
  | _ => cases h

theorem CreatePc.asks_eq_none {pc : CreatePc} (h : pc.isOutside = false) : pc.asks = none := by
  cases pc with
  | budget ip => cases h
  | _ => rfl

/-- A call waits for the budget of the address that `client_ip` reads. -/
theorem CreatePc.next_addressed {sh : Shared} {call : CreateCall} {pc : CreatePc}
    {ch : CreateChoice} {m : CreateMove} (h : pc.next env sh call ch = some m) {key : Budget}
    (hasks : m.pc.asks = some key) :
    ∃ ip, key = .creation ip ∧ env.clientIp call.peer call.forwarded = some ip := by
  cases hpc : pc.asks with
  | some key' =>
    obtain ⟨-, -, -, hout, -⟩ := next_asks h hpc
    rw [asks_eq_none hout] at hasks
    cases hasks
  | none =>
    unfold next at h
    split at h
    · split at h
      · cases h; cases hasks
      · split at h
        · rename_i ip hip; cases h; cases hasks; exact ⟨ip, rfl, hip⟩
        · cases h; cases hasks
    · cases hpc
    · split at h <;> cases h <;> cases hasks
    · obtain ⟨result, -, rfl⟩ := Option.map_eq_some_iff.mp h
      cases result <;> cases hasks
    · split at h
      · cases h; cases hasks
      · obtain ⟨sh', -, rfl⟩ := Option.map_eq_some_iff.mp h
        cases hasks
    · cases h

theorem CreateStep.isOutside {sh : Shared} {call : CreateCall} {pc : CreatePc} {m : CreateMove}
    (h : CreateStep env sh call pc m) (hout : m.pc.isOutside = true) : pc.isOutside = true := by
  cases h with
  | rejected => rfl
  | addressed => rfl
  | limited => rfl
  | paid => rfl
  | _ => cases hout

theorem Rooms.not_isInside_of_failed {response : Response CreateRoomResponse}
    (h : response.isSuccess = false) : (CreatePc.responded response).isInside = false := by
  cases response with
  | json body => cases h
  | _ => rfl

theorem CreateStep.isInside {sh : Shared} {call : CreateCall} {pc : CreatePc} {m : CreateMove}
    (h : CreateStep env sh call pc m) (hasks : pc.asks = none) (hin : m.pc.isInside = true) :
    pc.isInside = true := by
  cases h with
  | rejected hfail =>
    rw [Rooms.not_isInside_of_failed hfail] at hin
    cases hin
  | addressed => cases hin
  | limited => cases hasks
  | paid => cases hasks
  | _ => rfl

theorem PcStep.isOutside {sh : Shared} {roomId : String} {pc : Pc} {m : Move Pc}
    (h : PcStep env.toEnv sh roomId pc m) (hout : m.pc.isOutside = true) :
    pc.isOutside = true := by
  cases h with
  | turnedDown => rfl
  | requested => rfl
  | limited => rfl
  | passed => rfl
  | upgraded => simp only [afterUpgrade] at hout; split at hout <;> cases hout
  | auth hauth => cases hauth <;> cases hout
  | dropped => dsimp only at hout; split at hout <;> cases hout
  | attaching => dsimp only at hout; split at hout <;> cases hout
  | _ => cases hout

theorem Pc.toll_eq_some {pc : Pc} {key : Budget} (h : pc.toll = some key) :
    ∃ ip, pc = .connectionBudget ip ∧ key = .connection ip := by
  cases pc with
  | connectionBudget ip => cases h; exact ⟨ip, rfl, rfl⟩
  | _ => cases h

theorem Pc.isOutside_of_toll {pc : Pc} {key : Budget} (h : pc.toll = some key) :
    pc.isOutside = true := by
  obtain ⟨ip, rfl, -⟩ := toll_eq_some h
  rfl

/-- A socket waits for the budget of the address that `client_ip` reads. -/
theorem Pc.next_toll {sh : Shared} {roomId : String} {pc : Pc} {ch : Choice} {m : Move Pc}
    (h : pc.next env.toEnv sh roomId ch = some m) {key : Budget} (htoll : m.pc.toll = some key) :
    ∃ origins peer forwarded ip, ch = .request origins peer forwarded ∧
      env.originAllowed origins = true ∧ env.clientIp peer forwarded = some ip ∧
      key = .connection ip := by
  have hout := isOutside_of_toll htoll
  cases pc with
  | request =>
    cases ch with
    | request origins peer forwarded =>
      simp only [next] at h
      split at h
      · rename_i horigin
        split at h
        · rename_i ip hip
          cases h
          cases htoll
          exact ⟨origins, peer, forwarded, ip, rfl, horigin, hip, rfl⟩
        · cases h; cases htoll
      · cases h; cases htoll
    | _ => cases h
  | connectionBudget ip =>
    cases next_cases h with
    | limited => cases htoll
    | passed => cases htoll
  | _ => cases (next_cases h).isOutside hout

/-- A socket at its toll is let in, or ended. -/
theorem Pc.next_connection {sh : Shared} {roomId : String} {ip : IpAddr} {ch : Choice}
    {m : Move Pc} (h : (Pc.connectionBudget ip).next env.toEnv sh roomId ch = some m) :
    ∃ now, ch = .clock now ∧ m.obs = [] ∧
      ((sh.limits.checkAt (.connection ip) now).1.isOk = true ∧ m.pc = .roomPassword ip ∨
        (sh.limits.checkAt (.connection ip) now).1.isOk = false ∧ m.pc = .finished none) := by
  cases ch with
  | clock now =>
    refine ⟨now, rfl, ?_⟩
    simp only [next] at h
    split at h
    · rename_i hcheck; cases h; rw [hcheck]; exact ⟨rfl, .inl ⟨rfl, rfl⟩⟩
    · rename_i hcheck; cases h; rw [hcheck]; exact ⟨rfl, .inr ⟨rfl, rfl⟩⟩
  | _ => cases h

/-- A socket is inside only if it was, unless it has just paid. -/
theorem PcStep.inside {sh : Shared} {roomId : String} {pc : Pc} {m : Move Pc}
    (h : PcStep env.toEnv sh roomId pc m) (htoll : pc.toll = none) {trace : List Obs}
    (hin : Session.Inside ⟨roomId, m.pc, trace ++ m.obs⟩) : Session.Inside ⟨roomId, pc, trace⟩ := by
  rcases hin with ⟨ip, hpc⟩ | ⟨room, hlooked⟩
  · dsimp only at hpc
    cases h with
    | passed => cases htoll
    | upgraded => simp only [afterUpgrade] at hpc; split at hpc <;> cases hpc
    | auth hauth => cases hauth <;> cases hpc
    | dropped => dsimp only at hpc; split at hpc <;> cases hpc
    | attaching => dsimp only at hpc; split at hpc <;> cases hpc
    | _ => cases hpc
  · rcases List.mem_append.mp hlooked with hold | hnew
    · exact .inr ⟨room, hold⟩
    · refine .inl ?_
      cases h with
      | guarded => exact ⟨_, rfl⟩
      | unguarded => exact ⟨_, rfl⟩
      | auth hauth => cases hauth <;> simp at hnew
      | live hlive => cases hlive.isLive _ hnew
      | attaching => simp at hnew
      | unavailable => simp at hnew
      | _ => cases hnew

theorem CreateStep.unasked {sh : Shared} {call : CreateCall} {pc : CreatePc} {m : CreateMove}
    (h : CreateStep env sh call pc m) (hasks : pc.asks = none) : m.shared.limits = sh.limits := by
  cases h with
  | limited => cases hasks
  | paid => cases hasks
  | _ => rfl

namespace App

variable {w w' : App} {l : Label} {k : Nat}

/-- What each label does. -/
inductive Does (env : Http) (w : App) : Label → App → Prop
  | serve {l server} (hl : l.isEndpoint = false) (hs : Server.Does env.toEnv w.server l server) :
      Does env w (.serve l) { w with server }
  | createRoom {k call} (hk : w.creates k = none) :
      Does env w (.createRoom k call) (w.setCreate k ⟨call, .request, []⟩ w.server.shared)
  | create {k ch t m} (hk : w.creates k = some t)
      (hm : t.pc.next env w.server.shared t.call ch = some m) :
      Does env w (.create k ch)
        (w.setCreate k { t with pc := m.pc, inserted := t.inserted ++ m.inserted } m.shared)
  | getRoom {k roomId} (hk : w.gets k = none) :
      Does env w (.getRoom k roomId) (w.setGet k ⟨roomId, none⟩)
  | get {k roomId fault} (hk : w.gets k = some ⟨roomId, none⟩) :
      Does env w (.get k fault)
        (w.setGet k ⟨roomId, some (Rooms.getRoom w.server.shared.store.app.db roomId fault)⟩)

theorem step_does (h : w.step env l = some w') : Does env w l w' := by
  cases l with
  | serve l =>
    simp only [step] at h
    split at h
    · cases h
    · rename_i hl
      obtain ⟨server, hs, rfl⟩ := Option.map_eq_some_iff.mp h
      exact .serve (Bool.eq_false_iff.mpr hl) (Server.step_does hs)
  | createRoom k call =>
    simp only [step] at h
    split at h
    · rename_i hk; cases h; exact .createRoom hk
    · cases h
  | create k ch =>
    simp only [step] at h
    split at h
    · cases h
    · rename_i t hk
      obtain ⟨m, hm, rfl⟩ := Option.map_eq_some_iff.mp h
      exact .create hk hm
  | getRoom k roomId =>
    simp only [step] at h
    split at h
    · rename_i hk; cases h; exact .getRoom hk
    · cases h
  | get k fault =>
    simp only [step] at h
    split at h
    · rename_i hk; cases h; exact .get hk
    · cases h

theorem setCreate_self_or {k k' : Nat} {t t' : Create} {sh : Shared}
    (h : (w.setCreate k t sh).creates k' = some t') :
    (k' = k ∧ t' = t) ∨ k' ≠ k ∧ w.creates k' = some t' := by
  simp only [setCreate, Function.update_apply] at h
  split at h
  · rename_i he; cases h; exact .inl ⟨he, rfl⟩
  · rename_i hne; exact .inr ⟨hne, h⟩

theorem asks_socket {now : Instant} {s : Session} {key : Budget} (hk : w.server.sockets k = some s)
    (hasks : s.pc.asks s.roomId = some key) :
    w.asks (.serve (.socket k (.clock now))) = some ⟨.socket k, key, now⟩ := by
  simp only [asks, hk, Option.bind_some, hasks, Option.map_some]

theorem asks_create {now : Instant} {t : Create} {key : Budget} (hk : w.creates k = some t)
    (hasks : t.pc.asks = some key) :
    w.asks (.create k (.clock now)) = some ⟨.create k, key, now⟩ := by
  simp only [asks, hk, Option.bind_some, hasks, Option.map_some]

theorem asks_socket_none {ch : Choice} {s : Session} (hk : w.server.sockets k = some s)
    (hasks : s.pc.asks s.roomId = none) : w.asks (.serve (.socket k ch)) = none := by
  cases ch with
  | clock now => simp only [asks, hk, Option.bind_some, hasks, Option.map_none]
  | _ => rfl

theorem asks_create_none {ch : CreateChoice} {t : Create} (hk : w.creates k = some t)
    (hasks : t.pc.asks = none) : w.asks (.create k ch) = none := by
  cases ch with
  | clock now => simp only [asks, hk, Option.bind_some, hasks, Option.map_none]
  | _ => rfl

theorem limiterCall_some {p : Payment} (h : w.asks l = some p) :
    w.limiterCall l = [.check p.key p.now] := by
  unfold limiterCall
  split
  · cases h
  · rw [h]; rfl

theorem limiterCall_none (h : w.asks l = none) (hl : ∀ now, l ≠ .serve (.maintain now)) :
    w.limiterCall l = [] := by
  unfold limiterCall
  split
  · rename_i now
    exact absurd rfl (hl now)
  · rw [h]; rfl

theorem payment_none (h : w.asks l = none) : w.payment l = [] := by
  rw [payment, h]; rfl

/-- What the limiter is after a step: what the calls of the step make of it. -/
theorem step_limits (hs : w.step env l = some w') :
    w'.server.shared.limits.buckets =
      (w.server.shared.limits.after (w.limiterCall l)).buckets := by
  cases step_does hs with
  | serve hl hserver =>
    cases hserver with
    | @socket k ch v' hmove =>
      obtain ⟨s, m, hk, hm, rfl⟩ := Server.socket_next hmove
      cases hasks : s.pc.asks s.roomId with
      | none =>
        rw [limiterCall_none (asks_socket_none hk hasks) nofun]
        exact ((Pc.next_cases hm).unasked hasks).1
      | some key =>
        obtain ⟨now, rfl, hlimits, -⟩ := Pc.next_asks hm hasks
        rw [limiterCall_some (asks_socket hk hasks)]
        exact congrArg _ hlimits
    | creationBudget => cases hl
    | _ => rfl
  | @create k ch t m hk hm =>
    cases hasks : t.pc.asks with
    | none =>
      rw [limiterCall_none (asks_create_none hk hasks) nofun]
      exact congrArg _ ((CreatePc.next_cases hm).unasked hasks)
    | some key =>
      obtain ⟨now, rfl, hlimits, -⟩ := CreatePc.next_asks hm hasks
      rw [limiterCall_some (asks_create hk hasks)]
      exact congrArg _ hlimits
  | _ => rfl

/-- The limiter grants the addresses the payments of a step. -/
theorem payment_granted {limits : Limits} (hlimits : limits.buckets = w.server.shared.limits.buckets)
    (l : Label) {key : Budget} (hkey : key.address.isSome) :
    Admission.okOf key (Admission.answers limits (w.limiterCall l)) =
      ((w.payment l).filter fun p => decide (p.key = key)).map Payment.now := by
  cases hasks : w.asks l with
  | none =>
    rw [payment_none hasks]
    unfold limiterCall
    split
    · rfl
    · rw [hasks]; rfl
  | some p =>
    have hanswer := (Admission.checkAt_congr hlimits p.key p.now).1
    rw [limiterCall_some hasks, payment, hasks]
    simp only [Admission.answers, Admission.okOf, Option.toList_some, hanswer]
    by_cases he : p.key = key
    · subst he
      cases hok : (w.server.shared.limits.checkAt p.key p.now).1.isOk <;> simp [hkey, hok]
    · rw [List.filter_filter]
      simp [he]

/-! ## The tolls of a run -/

/-- A request for socket `k` came from `ip`. -/
def Came (env : Http) (ls : List Label) (k : Nat) (ip : IpAddr) : Prop :=
  ∃ origins peer forwarded, .serve (.socket k (.request origins peer forwarded)) ∈ ls ∧
    env.originAllowed origins ∧ env.clientIp peer forwarded = some ip

end App

/-- Call `k` at its toll. -/
def Create.Toll (env : Http) (paid : List Payment) (k : Nat) (t : Create) : Prop :=
  Parrhesia.Toll paid (.create k) (t.pc.isOutside = true) (t.pc.isInside = true) t.pc.asks fun key =>
    ∃ ip, key = .creation ip ∧ env.clientIp t.call.peer t.call.forwarded = some ip

/-- Socket `k` at its toll. -/
def Session.Toll (env : Http) (ls : List App.Label) (paid : List Payment) (k : Nat) (s : Session) :
    Prop :=
  Parrhesia.Toll paid (.socket k) (s.pc.isOutside = true) s.Inside s.pc.toll fun key =>
    ∃ ip, key = .connection ip ∧ App.Came env ls k ip

namespace App

/-- After the run `ls`, with what it asked of the limiter and what addresses were granted. -/
structure Tolls (env : Http) (ls : List Label) (calls : List Admission.Op) (paid : List Payment)
    (w : App) : Prop where
  buckets : w.server.shared.limits.buckets = (Limits.empty.after calls).buckets
  granted : ∀ key : Budget, key.address.isSome →
    Admission.okOf key (Admission.answers .empty calls) =
      (paid.filter fun p => decide (p.key = key)).map Payment.now
  once : (paid.map Payment.agent).Nodup
  known : ∀ p ∈ paid, (∃ k, p.agent = .create k ∧ (w.creates k).isSome) ∨
    ∃ k, p.agent = .socket k ∧ (w.server.sockets k).isSome
  creates : ∀ k t, w.creates k = some t → t.Toll env paid k
  sockets : ∀ k s, w.server.sockets k = some s → s.Toll env ls paid k

theorem tolls_start (env : Http) (db : Db.Rooms) : Tolls env [] [] [] (start db) where
  buckets := rfl
  granted _ _ := rfl
  once := List.nodup_nil
  known p hp := by cases hp
  creates k t hk := by cases hk
  sockets k s hk := by cases hk

/-! ### One step -/

variable {w w' : App} {l : Label} {k : Nat}

theorem after_congr {limits limits' : Limits} (h : limits.buckets = limits'.buckets)
    (ops : List Admission.Op) : (limits.after ops).buckets = (limits'.after ops).buckets := by
  induction ops generalizing limits limits' with
  | nil => exact h
  | cons op ops ih =>
    refine ih ?_
    cases op with
    | check key now => exact (Admission.checkAt_congr h key now).2
    | maintain now => simp only [Limits.apply, Limits.maintain, Limits.prune, h]

/-- Who pays in a step. -/
theorem payment_cases (w : App) (l : Label) : w.payment l = [] ∨
    (∃ k now t key, l = .create k (.clock now) ∧ w.creates k = some t ∧ t.pc.asks = some key ∧
      w.payment l = [⟨.create k, key, now⟩]) ∨
    ∃ k now s key, l = .serve (.socket k (.clock now)) ∧ w.server.sockets k = some s ∧
      s.pc.toll = some key ∧ w.payment l = [⟨.socket k, key, now⟩] := by
  cases hasks : w.asks l with
  | none => exact .inl (payment_none hasks)
  | some p =>
    have hpayment : w.payment l = [p] ∧ p.key.address.isSome = true ∨ w.payment l = [] := by
      rw [payment, hasks, Option.toList_some, List.filter_singleton]
      cases p.key.address.isSome with
      | false => exact .inr rfl
      | true =>
        rw [Bool.true_and]
        cases (w.server.shared.limits.checkAt p.key p.now).1.isOk with
        | false => exact .inr rfl
        | true => exact .inl ⟨rfl, rfl⟩
    rcases hpayment with ⟨hpayment, haddress⟩ | hnone
    · refine .inr ?_
      unfold asks at hasks
      split at hasks
      · rename_i k now
        obtain ⟨key, hkey, rfl⟩ := Option.map_eq_some_iff.mp hasks
        obtain ⟨s, hk, hs⟩ := Option.bind_eq_some_iff.mp hkey
        refine .inr ⟨k, now, s, key, rfl, hk, ?_, hpayment⟩
        unfold Pc.asks at hs
        split at hs
        · rename_i ip hpc; cases hs; rw [hpc]; rfl
        · cases hs; cases haddress
        · cases hs
      · rename_i k now
        obtain ⟨key, hkey, rfl⟩ := Option.map_eq_some_iff.mp hasks
        obtain ⟨t, hk, ht⟩ := Option.bind_eq_some_iff.mp hkey
        exact .inl ⟨k, now, t, key, rfl, hk, ht, hpayment⟩
      · cases hasks
    · exact .inl hnone

theorem agent_of_payment {p : Payment} (h : p ∈ w.payment l) :
    (∃ k ch, p.agent = .create k ∧ l = .create k ch) ∨
      ∃ k ch, p.agent = .socket k ∧ l = .serve (.socket k ch) := by
  rcases payment_cases w l with hnone | ⟨k, now, t, key, rfl, -, -, hpaid⟩ |
    ⟨k, now, s, key, rfl, -, -, hpaid⟩
  · rw [hnone] at h; cases h
  · rw [hpaid] at h
    cases List.mem_singleton.mp h
    exact .inl ⟨k, _, rfl, rfl⟩
  · rw [hpaid] at h
    cases List.mem_singleton.mp h
    exact .inr ⟨k, _, rfl, rfl⟩

variable {ls : List Label} {calls : List Admission.Op} {paid : List Payment}

theorem Tolls.payer (h : Tolls env ls calls paid w) {p : Payment} (hp : p ∈ w.payment l) :
    p.agent ∉ paid.map Payment.agent ∧
      ((∃ k, p.agent = .create k ∧ (w.creates k).isSome) ∨
        ∃ k, p.agent = .socket k ∧ (w.server.sockets k).isSome) := by
  rcases payment_cases w l with hnone | ⟨k, now, t, key, rfl, hk, hasks, hpaid⟩ |
    ⟨k, now, s, key, rfl, hk, htoll, hpaid⟩
  · rw [hnone] at hp; cases hp
  · rw [hpaid] at hp
    cases List.mem_singleton.mp hp
    have htoll := h.creates k t hk
    exact ⟨htoll.unpaid (htoll.asked key hasks).1, .inl ⟨k, rfl, Option.isSome_iff_exists.mpr ⟨t, hk⟩⟩⟩
  · rw [hpaid] at hp
    cases List.mem_singleton.mp hp
    have hown := h.sockets k s hk
    exact ⟨hown.unpaid (hown.asked key htoll).1, .inr ⟨k, rfl, Option.isSome_iff_exists.mpr ⟨s, hk⟩⟩⟩

theorem Tolls.once_step (h : Tolls env ls calls paid w) (l : Label) :
    ((paid ++ w.payment l).map Payment.agent).Nodup := by
  rcases payment_cases w l with hnone | ⟨k, now, t, key, hl, hk, hasks, hpaid⟩ |
    ⟨k, now, s, key, hl, hk, htoll, hpaid⟩
  · rw [hnone, List.append_nil]
    exact h.once
  all_goals
    have hnew := (h.payer (l := l) (hpaid ▸ List.mem_singleton_self _)).1
    rw [hpaid, List.map_append, List.map_singleton, List.nodup_append]
    refine ⟨h.once, List.nodup_singleton _, ?_⟩
    intro agent hagent agent' hagent' he
    rw [List.mem_singleton.mp hagent'] at he
    exact hnew (he ▸ hagent)

/-- A call after a step: as it was, just arrived, or moved. -/
theorem create_after (hs : w.step env l = some w') {k : Nat} {t' : Create}
    (hk : w'.creates k = some t') :
    (w.creates k = some t' ∧ ∀ ch, l ≠ .create k ch) ∨
      (w.creates k = none ∧ t'.pc = .request ∧ w.payment l = []) ∨
      ∃ ch t m, l = .create k ch ∧ w.creates k = some t ∧
        t.pc.next env w.server.shared t.call ch = some m ∧
        t' = { t with pc := m.pc, inserted := t.inserted ++ m.inserted } := by
  cases step_does hs with
  | createRoom hk₀ =>
    rcases setCreate_self_or hk with ⟨rfl, rfl⟩ | ⟨-, hold⟩
    · exact .inr (.inl ⟨hk₀, rfl, payment_none rfl⟩)
    · exact .inl ⟨hold, nofun⟩
  | @create k₀ ch t m hk₀ hm =>
    rcases setCreate_self_or hk with ⟨rfl, rfl⟩ | ⟨hne, hold⟩
    · exact .inr (.inr ⟨ch, t, m, rfl, hk₀, hm, rfl⟩)
    · refine .inl ⟨hold, ?_⟩
      intro ch' he
      cases he
      exact hne rfl
  | _ => exact .inl ⟨hk, nofun⟩

/-- A socket after a step: as it was, just opened, or moved. -/
theorem socket_after (hs : w.step env l = some w') {k : Nat} {s' : Session}
    (hk : w'.server.sockets k = some s') :
    (w.server.sockets k = some s' ∧ ∀ ch, l ≠ .serve (.socket k ch)) ∨
      (w.server.sockets k = none ∧ s'.pc = .request ∧ s'.trace = [] ∧ w.payment l = []) ∨
      ∃ ch s m, l = .serve (.socket k ch) ∧ w.server.sockets k = some s ∧
        s.pc.next env.toEnv w.server.shared s.roomId ch = some m ∧
        s' = { s with pc := m.pc, trace := s.trace ++ m.obs } := by
  cases step_does hs with
  | serve hl hserver =>
    cases hserver with
    | connect hk₀ =>
      rcases Server.setSocket_cases hk with ⟨rfl, rfl⟩ | ⟨-, hold⟩
      · exact .inr (.inl ⟨hk₀, rfl, rfl, payment_none rfl⟩)
      · exact .inl ⟨hold, nofun⟩
    | @socket k₀ ch v' hmove =>
      obtain ⟨s, m, hk₀, hm, rfl⟩ := Server.socket_next hmove
      rcases Server.setSocket_cases hk with ⟨rfl, rfl⟩ | ⟨hne, hold⟩
      · exact .inr (.inr ⟨ch, s, m, rfl, hk₀, hm, rfl⟩)
      · refine .inl ⟨hold, ?_⟩
        intro ch' he
        cases he
        exact hne rfl
    | _ => exact .inl ⟨hk, nofun⟩
  | _ => exact .inl ⟨hk, nofun⟩

/-- The payment of a call that asks. -/
theorem payment_create {k : Nat} {now : Instant} {t : Create} {key : Budget}
    (hk : w.creates k = some t) (hasks : t.pc.asks = some key) :
    w.payment (.create k (.clock now)) =
      if (w.server.shared.limits.checkAt key now).1.isOk then [⟨.create k, key, now⟩] else [] := by
  have haddress : key.address.isSome = true := by
    unfold CreatePc.asks at hasks
    split at hasks <;> cases hasks
    rfl
  rw [payment, asks_create hk hasks, Option.toList_some, List.filter_singleton]
  dsimp only
  rw [haddress, Bool.true_and]
  cases (w.server.shared.limits.checkAt key now).1.isOk <;> rfl

theorem Tolls.create_moved (h : Tolls env ls calls paid w) {k : Nat} {ch : CreateChoice}
    {t : Create} {m : CreateMove} (hk : w.creates k = some t)
    (hm : t.pc.next env w.server.shared t.call ch = some m) :
    Create.Toll env (paid ++ w.payment (.create k ch)) k
      { t with pc := m.pc, inserted := t.inserted ++ m.inserted } := by
  have htoll := h.creates k t hk
  have hstep := CreatePc.next_cases hm
  cases hasks : t.pc.asks with
  | none =>
    rw [payment_none (asks_create_none hk hasks), List.append_nil]
    refine htoll.move hstep.isOutside (hstep.isInside hasks) ?_
    intro key hkey
    exact ⟨CreatePc.isOutside_of_asks hkey, CreatePc.next_addressed hm hkey⟩
  | some key =>
    obtain ⟨now, rfl, -, hout, hin⟩ := CreatePc.next_asks hm hasks
    have hnone := CreatePc.asks_eq_none hout
    rw [payment_create hk hasks]
    split
    · have hpaid : Parrhesia.Toll (paid ++ [⟨.create k, key, now⟩]) (.create k)
          (m.pc.isOutside = true) (m.pc.isInside = true) none _ :=
        htoll.pay hasks now (by rw [hout]; nofun)
      rw [← hnone] at hpaid
      exact hpaid
    · rename_i hrefused
      rw [List.append_nil]
      refine htoll.move (fun ho => by rw [hout] at ho; cases ho) ?_ ?_
      · intro hi
        rw [hin hi] at hrefused
        exact absurd rfl hrefused
      · intro key' hkey'
        dsimp only at hkey'
        rw [hnone] at hkey'
        cases hkey'

theorem payment_socket_none {k : Nat} {ch : Choice} {s : Session}
    (hk : w.server.sockets k = some s) (htoll : s.pc.toll = none) :
    w.payment (.serve (.socket k ch)) = [] := by
  rcases payment_cases w (.serve (.socket k ch)) with hnone | ⟨_, _, _, _, hl, -⟩ |
    ⟨k', now, s', key, hl, hk', hasks, -⟩
  · exact hnone
  · cases hl
  · cases hl
    cases hk.symm.trans hk'
    cases htoll.symm.trans hasks

theorem payment_socket {k : Nat} {now : Instant} {s : Session} {ip : IpAddr}
    (hk : w.server.sockets k = some s) (hpc : s.pc = .connectionBudget ip) :
    w.payment (.serve (.socket k (.clock now))) =
      if (w.server.shared.limits.checkAt (.connection ip) now).1.isOk then
        [⟨.socket k, .connection ip, now⟩] else [] := by
  have hasks : s.pc.asks s.roomId = some (.connection ip) := by rw [hpc]; rfl
  rw [payment, asks_socket hk hasks, Option.toList_some, List.filter_singleton]
  change (bif true && _ then _ else _) = _
  rw [Bool.true_and]
  cases (w.server.shared.limits.checkAt (.connection ip) now).1.isOk <;> rfl

theorem Came.mono {k : Nat} {ip : IpAddr} (h : Came env ls k ip) (l : Label) :
    Came env (ls ++ [l]) k ip := by
  obtain ⟨origins, peer, forwarded, hmem, hrest⟩ := h
  exact ⟨origins, peer, forwarded, List.mem_append_left _ hmem, hrest⟩

theorem Tolls.socket_came (h : Tolls env ls calls paid w) {k : Nat} {s : Session}
    (hk : w.server.sockets k = some s) (l : Label) : s.Toll env (ls ++ [l]) paid k :=
  (h.sockets k s hk).mono fun _ ⟨ip, hkey, hcame⟩ => ⟨ip, hkey, hcame.mono l⟩

theorem Tolls.socket_moved (h : Tolls env ls calls paid w) {k : Nat} {ch : Choice} {s : Session}
    {m : Move Pc} (hk : w.server.sockets k = some s)
    (hm : s.pc.next env.toEnv w.server.shared s.roomId ch = some m) :
    Session.Toll env (ls ++ [.serve (.socket k ch)]) (paid ++ w.payment (.serve (.socket k ch))) k
      { s with pc := m.pc, trace := s.trace ++ m.obs } := by
  have htoll := h.socket_came hk (.serve (.socket k ch))
  have hstep := Pc.next_cases hm
  cases hasks : s.pc.toll with
  | none =>
    rw [payment_socket_none hk hasks, List.append_nil]
    refine htoll.move hstep.isOutside (hstep.inside hasks) ?_
    intro key hkey
    obtain ⟨origins, peer, forwarded, ip, rfl, horigin, hip, rfl⟩ := Pc.next_toll hm hkey
    refine ⟨Pc.isOutside_of_toll hkey, ip, rfl, origins, peer, forwarded, ?_, horigin, hip⟩
    exact List.mem_append_right _ (List.mem_singleton_self _)
  | some key =>
    obtain ⟨ip, hpc, rfl⟩ := Pc.toll_eq_some hasks
    rw [hpc] at hm
    obtain ⟨now, rfl, hobs, ⟨hok, hin⟩ | ⟨hok, hout⟩⟩ := Pc.next_connection hm
    · rw [payment_socket hk hpc, if_pos hok]
      obtain ⟨pc, obs, shared⟩ := m
      cases hin
      exact htoll.pay hasks now nofun
    · rw [payment_socket hk hpc, if_neg (by rw [hok]; nofun), List.append_nil]
      obtain ⟨pc, obs, shared⟩ := m
      cases hout
      cases hobs
      refine htoll.move nofun ?_ nofun
      rintro (⟨ip', hpc'⟩ | ⟨room, hlooked⟩)
      · cases hpc'
      · rw [List.append_nil] at hlooked
        exact .inr ⟨room, hlooked⟩

/-- An agent that does not move in a step does not pay in it. -/
theorem payment_others (hcreate : ∀ ch, l ≠ .create k ch) :
    ∀ p ∈ w.payment l, p.agent ≠ .create k := by
  intro p hp he
  rcases agent_of_payment hp with ⟨k', ch, hagent, rfl⟩ | ⟨k', ch, hagent, -⟩
  · cases hagent.symm.trans he
    exact hcreate ch rfl
  · cases hagent.symm.trans he

theorem payment_other_sockets (hsocket : ∀ ch, l ≠ .serve (.socket k ch)) :
    ∀ p ∈ w.payment l, p.agent ≠ .socket k := by
  intro p hp he
  rcases agent_of_payment hp with ⟨k', ch, hagent, -⟩ | ⟨k', ch, hagent, rfl⟩
  · cases hagent.symm.trans he
  · cases hagent.symm.trans he
    exact hsocket ch rfl

theorem Tolls.create_step (h : Tolls env ls calls paid w) (hs : w.step env l = some w')
    {t' : Create} (hk : w'.creates k = some t') : t'.Toll env (paid ++ w.payment l) k := by
  rcases create_after hs hk with ⟨hold, hl⟩ | ⟨hnone, hpc, hpayment⟩ | ⟨ch, t, m, rfl, hk₀, hm, rfl⟩
  · exact (h.creates k t' hold).others (payment_others hl)
  · rw [hpayment, List.append_nil]
    refine .stranger ?_ (by rw [hpc]; nofun) (by rw [hpc]; rfl)
    intro p hp he
    rcases h.known p hp with ⟨k', hagent, hsome⟩ | ⟨k', hagent, -⟩
    · cases hagent.symm.trans he
      rw [hnone] at hsome
      cases hsome
    · cases hagent.symm.trans he
  · exact h.create_moved hk₀ hm

theorem Tolls.socket_step (h : Tolls env ls calls paid w) (hs : w.step env l = some w')
    {s' : Session} (hk : w'.server.sockets k = some s') :
    s'.Toll env (ls ++ [l]) (paid ++ w.payment l) k := by
  rcases socket_after hs hk with ⟨hold, hl⟩ | ⟨hnone, hpc, htrace, hpayment⟩ |
    ⟨ch, s, m, rfl, hk₀, hm, rfl⟩
  · exact (h.socket_came hold l).others (payment_other_sockets hl)
  · rw [hpayment, List.append_nil]
    refine .stranger ?_ ?_ (by rw [hpc]; rfl)
    · intro p hp he
      rcases h.known p hp with ⟨k', hagent, -⟩ | ⟨k', hagent, hsome⟩
      · cases hagent.symm.trans he
      · cases hagent.symm.trans he
        rw [hnone] at hsome
        cases hsome
    · rintro (⟨ip, hin⟩ | ⟨room, hlooked⟩)
      · rw [hpc] at hin; cases hin
      · rw [htrace] at hlooked; cases hlooked
  · exact h.socket_moved hk₀ hm

theorem creates_keep (hs : w.step env l = some w') (h : (w.creates k).isSome) :
    (w'.creates k).isSome := by
  cases step_does hs with
  | createRoom => simp only [setCreate, Function.update_apply]; split; exacts [rfl, h]
  | create => simp only [setCreate, Function.update_apply]; split; exacts [rfl, h]
  | _ => exact h

theorem sockets_keep (hs : w.step env l = some w') (h : (w.server.sockets k).isSome) :
    (w'.server.sockets k).isSome := by
  cases step_does hs with
  | serve hl hserver =>
    cases hserver with
    | connect => simp only [Server.setSocket, Function.update_apply]; split; exacts [rfl, h]
    | socket hmove =>
      obtain ⟨s, m, -, -, rfl⟩ := Server.socket_next hmove
      simp only [Server.setSocket, Function.update_apply]
      split
      exacts [rfl, h]
    | _ => exact h
  | _ => exact h

theorem Tolls.step (h : Tolls env ls calls paid w) (hs : w.step env l = some w') :
    Tolls env (ls ++ [l]) (calls ++ w.limiterCall l) (paid ++ w.payment l) w' where
  buckets := by
    rw [step_limits hs, after_congr h.buckets]
    simp only [Limits.after, List.foldl_append]
  granted key hkey := by
    rw [Admission.answers_append, List.filter_append, List.map_append, ← h.granted key hkey,
      ← payment_granted h.buckets.symm l hkey]
    simp only [Admission.okOf, List.filter_append, List.map_append]
  once := h.once_step l
  known p hp := by
    have hknown : (∃ k, p.agent = .create k ∧ (w.creates k).isSome) ∨
        ∃ k, p.agent = .socket k ∧ (w.server.sockets k).isSome := by
      rcases List.mem_append.mp hp with hold | hnew
      · exact h.known p hold
      · exact (h.payer hnew).2
    rcases hknown with ⟨k, hagent, hsome⟩ | ⟨k, hagent, hsome⟩
    · exact .inl ⟨k, hagent, creates_keep hs hsome⟩
    · exact .inr ⟨k, hagent, sockets_keep hs hsome⟩
  creates k t' hk := h.create_step hs hk
  sockets k s' hk := h.socket_step hs hk

theorem tolls_run (db : Db.Rooms) (h : Machine.run (App.step env) (start db) ls = some w) :
    Tolls env ls (limiterCalls env (start db) ls) (payments env (start db) ls) w := by
  refine Machine.run_induction
    (motive := fun ls w => Tolls env ls (limiterCalls env (start db) ls)
      (payments env (start db) ls) w) (tolls_start env db) ?_ h
  intro ls w l w' hrun hs ih
  rw [limiterCalls, payments, Machine.emitted_snoc hrun, Machine.emitted_snoc hrun]
  exact ih.step hs

end App
end Parrhesia
