import Parrhesia.Session

/-!
# Parrhesia.Moves

What a socket can do at each place, case by case, with everything it required. The `_cases` theorems
read these off the functions of `Session`; what is proved of sockets is proved by cases on them.
-/

namespace Parrhesia

open Lib
open Admission (AdmissionError)

variable {env : Env} {sh : Shared} {roomId : String} {ch : Choice}

theorem Shared.apply_eq_some {sh' : Shared} {op : Store.Op} :
    sh.apply op = some sh' ↔
      ∃ store, sh.store.step op = some store ∧ { sh with store } = sh' := Option.map_eq_some_iff

theorem Shared.dropGuard_store {sh' : Shared} {guard : Option IpAddr}
    (h : sh.dropGuard guard = some sh') : sh'.store = sh.store := by
  cases guard with
  | none => cases h; rfl
  | some ip => obtain ⟨limits, -, rfl⟩ := Option.map_eq_some_iff.mp h; rfl

/-! ## `authenticate` -/

/-- The places where a frame, the end of the stream or the timeout ends the wait. -/
def AuthPc.waits : AuthPc → Bool
  | .receive => true
  | .verify _ => true
  | .computing _ _ => true
  | _ => false

section Auth

variable (env sh roomId) (guard : Option IpAddr) (hash : String)

inductive AuthStep : AuthPc → Move Pc → Prop
  | required {result} :
      AuthStep .sendRequired
        ⟨.auth guard hash (authSent result), [.wrote (.json (.authRequired 2))], sh⟩
  | ponged {data result} :
      AuthStep (.sendPong data) ⟨.auth guard hash (authSent result), [.wrote (.pong data)], sh⟩
  | read {received} : AuthStep .receive ⟨.auth guard hash (authFrame env received), [], sh⟩
  | cancelled {p} (hwaits : AuthPc.waits p = true) :
      AuthStep p ⟨.auth guard hash (.sendFailure .authFailed), [], sh⟩
  | paid {password now limits}
      (hcheck : sh.limits.checkAt (.room roomId) now = (.ok (), limits)) :
      AuthStep (.budget password)
        ⟨.auth guard hash (.verify password), [.budgeted now (.ok ())], { sh with limits }⟩
  | refused {password now e limits}
      (hcheck : sh.limits.checkAt (.room roomId) now = (.error e, limits)) :
      AuthStep (.budget password)
        ⟨.auth guard hash (.sendFailure (budgetFailure e)), [.budgeted now (.error e)],
          { sh with limits }⟩
  | started {password job passwords}
      (hverify : sh.passwords.verify env.crates password hash = .ok (job, passwords)) :
      AuthStep (.verify password)
        ⟨.auth guard hash (.computing password job), [.verifying password hash],
          { sh with passwords }⟩
  | notStarted {password e} (hverify : sh.passwords.verify env.crates password hash = .error e) :
      AuthStep (.verify password)
        ⟨.auth guard hash (.sendFailure (verificationFailure (.error e))),
          [.verifying password hash, .verified password hash (.error e)], sh⟩
  | accepted {password job} (hjob : sh.passwords.verified job = some (.ok true)) :
      AuthStep (.computing password job)
        ⟨.dropGuard guard true true, [.verified password hash (.ok true)], sh⟩
  | rejected {password job result} (hjob : sh.passwords.verified job = some result)
      (hne : result ≠ .ok true) :
      AuthStep (.computing password job)
        ⟨.auth guard hash (.sendFailure (verificationFailure result)),
          [.verified password hash result], sh⟩
  | failed {failure} :
      AuthStep (.sendFailure failure) ⟨.auth guard hash .sendClose, [.wrote (.json failure)], sh⟩
  | failedLate {failure} :
      AuthStep (.sendFailure failure) ⟨.dropGuard guard true false, [.wrote (.json failure)], sh⟩
  | closed : AuthStep .sendClose ⟨.dropGuard guard true false, [.wrote .close], sh⟩

end Auth

theorem verification_of_ne {guard : Option IpAddr} {hash : String}
    {result : Except PasswordError Bool} (h : result ≠ .ok true) :
    verification guard hash result =
      .auth guard hash (.sendFailure (verificationFailure result)) := by
  unfold verification
  split
  · exact absurd rfl h
  · rfl

theorem authNext_cases {guard : Option IpAddr} {hash : String} {p : AuthPc} {m : Move Pc}
    (h : authNext env sh roomId guard hash p ch = some m) :
    AuthStep env sh roomId guard hash p m := by
  unfold authNext at h
  split at h
  · cases h; exact .required
  · cases h; exact .read
  · cases h; exact .cancelled rfl
  · cases h; exact .ponged
  · split at h
    · rename_i hcheck; cases h; exact .paid hcheck
    · rename_i hcheck; cases h; exact .refused hcheck
  · split at h
    · rename_i hverify; cases h; exact .started hverify
    · rename_i hverify; cases h; exact .notStarted hverify
  · cases h; exact .cancelled rfl
  · obtain ⟨result, hjob, rfl⟩ := Option.map_eq_some_iff.mp h
    by_cases hok : result = .ok true
    · subst hok; exact .accepted hjob
    · rw [verification_of_ne hok]; exact .rejected hjob hok
  · cases h; exact .cancelled rfl
  · cases h; exact .cancelled rfl
  · cases h
    split
    · exact .failedLate
    · exact .failed
  · cases h; exact .closed
  · cases h

/-! ## The relay loop -/

section Relay

variable (env sh roomId) (connId : String) (r : Relay)

inductive RelayStep : RelayPc → Move LivePc → Prop
  | tick {now} (hdue : r.nextTick ≤ now) : RelayStep .select ⟨relayTick r now, [], sh⟩
  | received {event}
      (hrecv : Broadcast.recv channelWindow (sh.store.log r.rx.tx) r.rx.next = .item event) :
      RelayStep .select
        ⟨relayEvent connId { r with rx := { r.rx with next := r.rx.next + 1 } } event,
          [.received event], sh⟩
  | lagged {missed}
      (hrecv : Broadcast.recv channelWindow (sh.store.log r.rx.tx) r.rx.next = .lagged missed) :
      RelayStep .select ⟨.detach, [.lagged], sh⟩
  | frame {received now} :
      RelayStep .select ⟨relayFrame env connId r now received, received.heard now, sh⟩
  | pinged {result} :
      RelayStep .sendPing
        ⟨if result = SendResult.ok then .relay { r with waitingForPong := true } .select
          else .detach, [.wrote .ping], sh⟩
  | sent {event result} :
      RelayStep (.sendEvent event)
        ⟨if result = SendResult.ok then
            (if event = .roomExpired then .sendClose else .relay r .select) else .detach,
          [.wrote (.json (.ofRoomEvent event))], sh⟩
  | ponged {data result} :
      RelayStep (.sendPong data)
        ⟨if result = SendResult.ok then .relay r .select else .detach, [.wrote (.pong data)], sh⟩
  | updated {event now fault store}
      (hstep : sh.store.step (.updateActivity roomId now fault) = some store) :
      RelayStep (.updateActivity event) ⟨.relay r (.publish event), [], { sh with store }⟩
  | published {event store} (hstep : sh.store.step (.publish connId event) = some store) :
      RelayStep (.publish event) ⟨.relay r .select, [.published event], { sh with store }⟩

end Relay

theorem relayNext_cases {connId : String} {r : Relay} {p : RelayPc} {m : Move LivePc}
    (h : relayNext env sh roomId connId r p ch = some m) :
    RelayStep env sh roomId connId r p m := by
  unfold relayNext at h
  split at h
  · split at h
    · rename_i hdue; cases h; exact .tick hdue
    · cases h
  · split at h
    · rename_i hrecv; cases h; exact .received hrecv
    · rename_i hrecv; cases h; exact .lagged hrecv
    · cases h
  · cases h; exact .frame
  · cases h; exact .pinged
  · cases h; exact .sent
  · cases h; exact .ponged
  · obtain ⟨sh', happly, rfl⟩ := Option.map_eq_some_iff.mp h
    obtain ⟨store, hstep, rfl⟩ := Shared.apply_eq_some.mp happly
    exact .updated hstep
  · obtain ⟨sh', happly, rfl⟩ := Option.map_eq_some_iff.mp h
    obtain ⟨store, hstep, rfl⟩ := Shared.apply_eq_some.mp happly
    exact .published hstep
  · cases h

/-! ## The session body -/

section Live

variable (env sh roomId) (isProtected : Bool) (connId : String) (attached : Attached)

inductive LiveStep : LivePc → Move LivePc → Prop
  | welcomed {result} :
      LiveStep .sendWelcome
        ⟨if result = SendResult.ok then .handshake else .detach,
          [.wrote (.json (welcome isProtected connId attached))], sh⟩
  | handshook {received} : LiveStep .handshake ⟨handshakeFrame env received, [], sh⟩
  | late : LiveStep .handshake ⟨.detach, [], sh⟩
  | asked {participant peers store}
      (hstep : sh.store.step (.joinSubscribe connId participant peers) = some store) :
      LiveStep (.join participant) ⟨joinOutcome (store.conns connId), [], { sh with store }⟩
  | joined {c r store} (hlock : sh.store.lock = .joining c r)
      (hstep : sh.store.step .joinInsert = some store) :
      LiveStep .joinInsert
        ⟨if isProtected then .sendJoined r.receiver r.peers else afterPeer r.receiver r.peers,
          [.joined r.receiver r.peers], { sh with store }⟩
  | full : LiveStep .sendRoomFull ⟨.detach, [.wrote (.json .roomFull)], sh⟩
  | told {rx peers result} :
      LiveStep (.sendJoined rx peers)
        ⟨if result = SendResult.ok then afterPeer rx peers else .detach,
          [.wrote (.json .joined)], sh⟩
  | introduced {rx peer rest result} :
      LiveStep (.sendPeer rx peer rest)
        ⟨if result = SendResult.ok then afterPeer rx rest else .detach,
          [.wrote (.json (.ofPeer peer))], sh⟩
  | began {rx ticker lastPong limiter} :
      LiveStep (.startRelay rx)
        ⟨.relay ⟨rx, ticker, lastPong, false,
          .new msgRateCapacity msgRateRefillPerSec limiter⟩ .select, [], sh⟩
  | relayed {r p m} (hrelay : RelayStep env sh roomId connId r p m) : LiveStep (.relay r p) m
  | closed : LiveStep .sendClose ⟨.detach, [.wrote .close], sh⟩

end Live

theorem liveNext_cases {isProtected : Bool} {connId : String} {attached : Attached} {p : LivePc}
    {m : Move LivePc} (h : liveNext env sh roomId isProtected connId attached p ch = some m) :
    LiveStep env sh roomId isProtected connId attached p m := by
  unfold liveNext at h
  split at h
  · cases h; exact .welcomed
  · cases h; exact .handshook
  · cases h; exact .late
  · obtain ⟨sh', happly, rfl⟩ := Option.map_eq_some_iff.mp h
    obtain ⟨store, hstep, rfl⟩ := Shared.apply_eq_some.mp happly
    exact .asked hstep
  · split at h
    · rename_i hlock
      obtain ⟨sh', happly, rfl⟩ := Option.map_eq_some_iff.mp h
      obtain ⟨store, hstep, rfl⟩ := Shared.apply_eq_some.mp happly
      exact .joined hlock hstep
    · cases h
  · cases h; exact .full
  · cases h; exact .told
  · cases h; exact .introduced
  · cases h; exact .began
  · exact .relayed (relayNext_cases h)
  · cases h; exact .closed
  · cases h

/-- What is observed from `Welcome` to `detach`. -/
def Obs.isLive : Obs → Bool
  | .joined _ _ => true
  | .received _ => true
  | .lagged => true
  | .heard _ _ => true
  | .published _ => true
  | .wrote _ => true
  | _ => false

theorem RelayStep.isLive {connId : String} {r : Relay} {p : RelayPc} {m : Move LivePc}
    (hm : RelayStep env sh roomId connId r p m) : ∀ o ∈ m.obs, o.isLive = true := by
  cases hm with
  | @frame received now => cases received <;> simp [Received.heard, Obs.isLive]
  | _ => simp [Obs.isLive]

theorem LiveStep.isLive {isProtected : Bool} {connId : String} {attached : Attached} {p : LivePc}
    {m : Move LivePc} (hm : LiveStep env sh roomId isProtected connId attached p m) :
    ∀ o ∈ m.obs, o.isLive = true := by
  cases hm with
  | relayed hrelay => exact hrelay.isLive
  | _ => simp [Obs.isLive]

/-! ## The whole socket -/

section Whole

variable (env sh roomId)

inductive PcStep : Pc → Move Pc → Prop
  | turnedDown : PcStep .request ⟨.finished none, [], sh⟩
  | requested {ip} : PcStep .request ⟨.connectionBudget ip, [], sh⟩
  | limited {ip now e limits}
      (hcheck : sh.limits.checkAt (.connection ip) now = (.error e, limits)) :
      PcStep (.connectionBudget ip) ⟨.finished none, [], { sh with limits }⟩
  | passed {ip now limits}
      (hcheck : sh.limits.checkAt (.connection ip) now = (.ok (), limits)) :
      PcStep (.connectionBudget ip) ⟨.roomPassword ip, [], { sh with limits }⟩
  | unknown {ip} : PcStep (.roomPassword ip) ⟨.finished none, [], sh⟩
  | guarded {ip hash}
      (hrow : (sh.store.row roomId).map Db.Row.passwordHash = some (some hash)) :
      PcStep (.roomPassword ip) ⟨.pending ip hash, [.looked (some (some hash))], sh⟩
  | unguarded {ip room} (hrow : (sh.store.row roomId).map Db.Row.passwordHash = room)
      (hroom : room.join = none) :
      PcStep (.roomPassword ip) ⟨.upgrade none room, [.looked room], sh⟩
  | crowded {ip hash e} (hslot : sh.limits.acquire ip = .error e) :
      PcStep (.pending ip hash) ⟨.finished none, [], sh⟩
  | counted {ip hash limits} (hslot : sh.limits.acquire ip = .ok limits) :
      PcStep (.pending ip hash) ⟨.upgrade (some ip) (some (some hash)), [], { sh with limits }⟩
  | upgraded {guard room ok} : PcStep (.upgrade guard room) ⟨afterUpgrade guard room ok, [], sh⟩
  | auth {guard hash p m} (hauth : AuthStep env sh roomId guard hash p m) :
      PcStep (.auth guard hash p) m
  | dropped {guard isProtected accepted sh'} (hdrop : sh.dropGuard guard = some sh') :
      PcStep (.dropGuard guard isProtected accepted)
        ⟨if accepted then .attach isProtected else .finished none, [], sh'⟩
  | attaching {isProtected connId fault store}
      (hstep : sh.store.step (.attachSelect connId roomId fault) = some store) :
      PcStep (.attach isProtected)
        ⟨if store.lock = .attaching roomId connId then .attachInsert isProtected connId
          else .sendUnavailable connId, [.attaching connId], { sh with store }⟩
  | attached {isProtected connId store} (hstep : sh.store.step .attachInsert = some store) :
      PcStep (.attachInsert isProtected connId)
        ⟨.live isProtected connId (sh.store.app.enter roomId connId).1 .sendWelcome, [],
          { sh with store }⟩
  | unavailable {connId} :
      PcStep (.sendUnavailable connId)
        ⟨.finished (some connId), [.wrote (.json .authUnavailable)], sh⟩
  | live {isProtected connId attached p m}
      (hlive : LiveStep env sh roomId isProtected connId attached p m) :
      PcStep (.live isProtected connId attached p)
        ⟨.live isProtected connId attached m.pc, m.obs, m.shared⟩
  | detached {isProtected connId attached store}
      (hstep : sh.store.step (.detach connId) = some store) :
      PcStep (.live isProtected connId attached .detach)
        ⟨.finished (some connId), [], { sh with store }⟩

end Whole

theorem roomPassword_ok {db : Db.Rooms} {fault : Bool} {room : Option (Option String)}
    (h : Db.roomPassword db roomId fault = .ok room) :
    (HashMap.get db roomId).map Db.Row.passwordHash = room := by
  cases fault with
  | true => cases h
  | false => exact Except.ok.inj h

theorem Pc.next_cases {pc : Pc} {m : Move Pc} (h : pc.next env sh roomId ch = some m) :
    PcStep env sh roomId pc m := by
  unfold Pc.next at h
  split at h
  · split at h
    · split at h
      · cases h; exact .requested
      · cases h; exact .turnedDown
    · cases h; exact .turnedDown
  · split at h
    · rename_i hcheck; cases h; exact .passed hcheck
    · rename_i hcheck; cases h; exact .limited hcheck
  · split at h
    · rename_i hrow; cases h; exact .guarded (roomPassword_ok hrow)
    · rename_i room hne hrow
      cases h
      refine .unguarded (roomPassword_ok hrow) ?_
      match room, hne with
      | none, _ => rfl
      | some none, _ => rfl
      | some (some hash), hne => exact absurd rfl (hne hash)
    · cases h; exact .unknown
  · split at h
    · rename_i hslot; cases h; exact .counted hslot
    · rename_i hslot; cases h; exact .crowded hslot
  · cases h; exact .upgraded
  · exact .auth (authNext_cases h)
  · obtain ⟨sh', hdrop, rfl⟩ := Option.map_eq_some_iff.mp h
    exact .dropped hdrop
  · obtain ⟨sh', happly, rfl⟩ := Option.map_eq_some_iff.mp h
    obtain ⟨store, hstep, rfl⟩ := Shared.apply_eq_some.mp happly
    exact .attaching hstep
  · obtain ⟨sh', happly, rfl⟩ := Option.map_eq_some_iff.mp h
    obtain ⟨store, hstep, rfl⟩ := Shared.apply_eq_some.mp happly
    exact .attached hstep
  · cases h; exact .unavailable
  · obtain ⟨sh', happly, rfl⟩ := Option.map_eq_some_iff.mp h
    obtain ⟨store, hstep, rfl⟩ := Shared.apply_eq_some.mp happly
    exact .detached hstep
  · obtain ⟨m', hm', rfl⟩ := Option.map_eq_some_iff.mp h
    exact .live (liveNext_cases hm')
  · cases h

end Parrhesia
