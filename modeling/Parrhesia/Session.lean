import Parrhesia.Admission
import Parrhesia.Lib.Broadcast
import Parrhesia.Messages
import Parrhesia.Passwords

/-!
# Parrhesia.Session

One socket, from the upgrade request to the end of `handle_socket`: `ws_handler`, `authenticate` and
the session body of `routes/ws.rs` as one machine.

A `Pc` is a place where the code waits: for the outcome of a send, for a frame, for a timer, or for
its turn on the state all sockets share. `Pc.next` takes what came of the wait (`Choice`) to the next
place, works on the shared state, and says what was done on the way (`Obs`). Every branch of a
`select!`, every timeout, every failure and every reading of a clock is a choice, so the scheduler
and the client are arbitrary. A frame is noted when it is handed to the sink, whether or not the send
then succeeds.

Logging, HTTP response bodies and the admission counters are left out.
-/

namespace Parrhesia

open Lib
open Admission (AdmissionError)

structure Config where
  allowedOrigins : List String
  trustedProxies : List IpAddr

/-- The configuration and the third-party functions. -/
structure Env where
  config : Config
  codec : Codec
  crates : PasswordCrates
  parseIp : String → Option IpAddr

/-- `security::client_ip`; a forwarded address counts only from a trusted proxy, and alone. -/
def Env.clientIp (env : Env) (peer : IpAddr) (forwarded : List (Option String)) : Option IpAddr :=
  if env.config.trustedProxies.contains peer then
    match forwarded with
    | [some value] => env.parseIp value
    | _ => none
  else some peer

/-- Exactly one `Origin` header, with an allowed value. -/
def Env.originAllowed (env : Env) (origins : List (Option String)) : Bool :=
  match origins with
  | [some origin] => env.config.allowedOrigins.contains origin
  | _ => false

def protocolVersion : Nat := 1

def pingInterval : Nat := fromSecs 30

def pongTimeout : Nat := fromSecs 10

/-- The bytes of a text that `authenticate` still reads. -/
def maxAuthenticateBytes : Nat := 4096

/-- What tokio's `broadcast::channel(100)` retains. -/
def channelWindow : Nat := 128

/-! ## The inbound rate limiter -/

structure RateLimiter where
  tokens : ℚ
  capacity : ℚ
  refillPerSec : ℚ
  lastRefill : Instant

def RateLimiter.new (capacity refillPerSec : ℚ) (now : Instant) : RateLimiter :=
  ⟨capacity, capacity, refillPerSec, now⟩

def RateLimiter.check (rl : RateLimiter) (now : Instant) : Bool × RateLimiter :=
  let tokens := min (rl.tokens + secsSince rl.lastRefill now * rl.refillPerSec) rl.capacity
  if 1 ≤ tokens then (true, { rl with tokens := tokens - 1, lastRefill := now })
  else (false, { rl with tokens, lastRefill := now })

def msgRateCapacity : ℚ := 60

def msgRateRefillPerSec : ℚ := 30

/-! ## Places -/

/-- The places of `authenticate`. -/
inductive AuthPc where
  | sendRequired
  | receive
  | sendPong (data : Bytes)
  | budget (password : String)
  | verify (password : String)
  | computing (password : String) (job : Nat)
  | sendFailure (failure : OutgoingMessage)
  | sendClose

/-- The locals of the relay loop. `nextTick` is when the interval is due next. -/
structure Relay where
  rx : Receiver
  nextTick : Instant
  lastPong : Instant
  waitingForPong : Bool
  rateLimiter : RateLimiter

/-- The places of the relay loop; `select` is the head of the loop. -/
inductive RelayPc where
  | select
  | sendPing
  | sendEvent (event : RoomEvent)
  | sendPong (data : Bytes)
  | updateActivity (event : RoomEvent)
  | publish (event : RoomEvent)

/-- The places of `handle_socket` after a successful `attach`. -/
inductive LivePc where
  | sendWelcome
  | handshake
  | join (participant : Participant)
  | joinInsert
  | sendRoomFull
  | sendJoined (rx : Receiver) (peers : PeerSnapshot)
  | sendPeer (rx : Receiver) (peer : Peer) (rest : PeerSnapshot)
  | startRelay (rx : Receiver)
  | relay (r : Relay) (p : RelayPc)
  | sendClose
  | detach

/-- The places of a socket. `guard` is the address of a `PendingAuth` that is still held. -/
inductive Pc where
  | request
  | connectionBudget (ip : IpAddr)
  | roomPassword (ip : IpAddr)
  | pending (ip : IpAddr) (hash : String)
  | upgrade (guard : Option IpAddr) (room : Option (Option String))
  | auth (guard : Option IpAddr) (hash : String) (p : AuthPc)
  | dropGuard (guard : Option IpAddr) (isProtected : Bool) (accepted : Bool)
  | attach (isProtected : Bool)
  | attachInsert (isProtected : Bool) (connId : String)
  | sendUnavailable (connId : String)
  | live (isProtected : Bool) (connId : String) (attached : Attached) (p : LivePc)
  | finished (connId : Option String)

/-- The connection id, from `attach` on. -/
def Pc.conn : Pc → Option String
  | .attachInsert _ connId => some connId
  | .sendUnavailable connId => some connId
  | .live _ connId _ _ => some connId
  | .finished connId => connId
  | _ => none

/-! ## Choices and observations -/

/-- What all sockets share. -/
structure Shared where
  store : Store
  limits : Admission.Limits
  passwords : PasswordService

def Shared.apply (sh : Shared) (op : Store.Op) : Option Shared :=
  (sh.store.step op).map fun store => { sh with store }

/-- Dropping the `PendingAuth`, if one is held. -/
def Shared.dropGuard (sh : Shared) : Option IpAddr → Option Shared
  | none => some sh
  | some ip => (sh.limits.release ip).map fun limits => { sh with limits }

/-- What comes of a wait; `proceed` where the shared state alone decides. -/
inductive Choice where
  | request (origins : List (Option String)) (peer : IpAddr) (forwarded : List (Option String))
  | upgraded (ok : Bool)
  | sent (result : SendResult)
  | frame (received : Received) (now : Instant)
  | elapsed
  | tick (now : Instant)
  | clock (now : Instant)
  | clocks (ticker lastPong limiter : Instant)
  | statement (fault : Bool)
  | uuid (connId : String) (fault : Bool)
  | snapshot (peers : PeerSnapshot)
  | activity (now : Int) (fault : Bool)
  | proceed

/-- What a socket did. -/
inductive Obs where
  | looked (room : Option (Option String))
  | budgeted (now : Instant) (result : Except AdmissionError Unit)
  | verifying (password hash : String)
  | verified (password hash : String) (result : Except PasswordError Bool)
  | attaching (connId : String)
  | joined (rx : Receiver) (peers : PeerSnapshot)
  | received (event : RoomEvent)
  | lagged
  | heard (text : String) (now : Instant)
  | published (event : RoomEvent)
  | wrote (frame : Frame)

structure Move (π : Type) where
  pc : π
  obs : List Obs
  shared : Shared

/-! ## `authenticate` -/

/-- What is sent when the room's budget refuses. -/
def budgetFailure : AdmissionError → OutgoingMessage
  | .limited retryAfterSecs => .authRateLimited retryAfterSecs
  | .unavailable => .authUnavailable

/-- What is sent when the verification does not return `Ok(true)`. -/
def verificationFailure : Except PasswordError Bool → OutgoingMessage
  | .ok _ => .authFailed
  | .error .invalid => .authFailed
  | .error _ => .authUnavailable

/-- The end of a verification. -/
def verification (guard : Option IpAddr) (hash : String) (result : Except PasswordError Bool) : Pc :=
  match result with
  | .ok true => .dropGuard guard true true
  | result => .auth guard hash (.sendFailure (verificationFailure result))

/-- A text that is read in place of the password. -/
def authText (env : Env) (text : String) : AuthPc :=
  if text.utf8ByteSize ≤ maxAuthenticateBytes then
    match env.codec.parseAuthenticate text with
    | some password => .budget password
    | none => .sendFailure .authFailed
  else .sendFailure .authFailed

/-- A frame while `authenticate` waits for the password. -/
def authFrame (env : Env) : Received → AuthPc
  | .text text => authText env text
  | .ping data => .sendPong data
  | .pong => .receive
  | _ => .sendFailure .authFailed

/-- Where a send inside `authenticate` leads. -/
def authSent (result : SendResult) : AuthPc :=
  if result = .ok then .receive else .sendFailure .authFailed

def authNext (env : Env) (sh : Shared) (roomId : String) (guard : Option IpAddr) (hash : String)
    (p : AuthPc) (ch : Choice) : Option (Move Pc) :=
  match p, ch with
  | .sendRequired, .sent result =>
    some ⟨.auth guard hash (authSent result), [.wrote (.json (.authRequired 2))], sh⟩
  | .receive, .frame received _ => some ⟨.auth guard hash (authFrame env received), [], sh⟩
  | .receive, .elapsed => some ⟨.auth guard hash (.sendFailure .authFailed), [], sh⟩
  | .sendPong data, .sent result =>
    some ⟨.auth guard hash (authSent result), [.wrote (.pong data)], sh⟩
  | .budget password, .clock now =>
    match sh.limits.checkAt (.room roomId) now with
    | (.ok (), limits) =>
      some ⟨.auth guard hash (.verify password), [.budgeted now (.ok ())], { sh with limits }⟩
    | (.error e, limits) =>
      some ⟨.auth guard hash (.sendFailure (budgetFailure e)), [.budgeted now (.error e)],
        { sh with limits }⟩
  -- the first poll of the `select!` takes its branches in any order
  | .verify password, .proceed =>
    match sh.passwords.verify env.crates password hash with
    | .ok (job, passwords) =>
      some ⟨.auth guard hash (.computing password job), [.verifying password hash],
        { sh with passwords }⟩
    | .error e =>
      some ⟨verification guard hash (.error e),
        [.verifying password hash, .verified password hash (.error e)], sh⟩
  | .verify _, .frame _ _ => some ⟨.auth guard hash (.sendFailure .authFailed), [], sh⟩
  | .computing password job, .proceed =>
    (sh.passwords.verified job).map fun result =>
      ⟨verification guard hash result, [.verified password hash result], sh⟩
  | .computing _ _, .frame _ _ => some ⟨.auth guard hash (.sendFailure .authFailed), [], sh⟩
  | .computing _ _, .elapsed => some ⟨.auth guard hash (.sendFailure .authFailed), [], sh⟩
  -- one timeout bounds both writes
  | .sendFailure failure, .sent result =>
    some ⟨if result = .elapsed then .dropGuard guard true false else .auth guard hash .sendClose,
      [.wrote (.json failure)], sh⟩
  | .sendClose, .sent _ => some ⟨.dropGuard guard true false, [.wrote .close], sh⟩
  | _, _ => none

/-! ## The relay loop -/

/-- What client `connId` is sent for an event: nothing for its own, nor for one with another
target. -/
def deliver (connId : String) (event : RoomEvent) : Option OutgoingMessage :=
  if event.sender = some connId then none
  else
    match event.target with
    | some target => if target ≠ connId then none else some (.ofRoomEvent event)
    | none => some (.ofRoomEvent event)

/-- An event received in the relay loop. -/
def relayEvent (connId : String) (r : Relay) (event : RoomEvent) : LivePc :=
  match deliver connId event with
  | none => .relay r .select
  | some _ => .relay r (.sendEvent event)

/-- A text received in the relay loop, once the rate limiter lets it pass. -/
def relayText (env : Env) (connId text : String) : RelayPc :=
  match env.codec.parseIncoming text with
  | none => .select
  | some m =>
    match m.event connId with
    | none => .select
    | some event =>
      match event with
      | .chat .. => .updateActivity event
      | _ => .publish event

/-- A frame received in the relay loop. -/
def relayFrame (env : Env) (connId : String) (r : Relay) (now : Instant) : Received → LivePc
  | .text text =>
    let (allowed, rateLimiter) := r.rateLimiter.check now
    .relay { r with rateLimiter } (if allowed then relayText env connId text else .select)
  | .pong => .relay { r with lastPong := now, waitingForPong := false } .select
  | .ping data => .relay r (.sendPong data)
  | .binary => .relay r .select
  | _ => .detach

def Received.heard (now : Instant) : Received → List Obs
  | .text t => [.heard t now]
  | _ => []

/-- A tick of the ping interval that is due. -/
def relayTick (r : Relay) (now : Instant) : LivePc :=
  if r.waitingForPong ∧ pongTimeout < now - r.lastPong then .detach
  else .relay { r with nextTick := r.nextTick + pingInterval } .sendPing

def relayNext (env : Env) (sh : Shared) (roomId connId : String) (r : Relay) (p : RelayPc)
    (ch : Choice) : Option (Move LivePc) :=
  match p, ch with
  | .select, .tick now => if r.nextTick ≤ now then some ⟨relayTick r now, [], sh⟩ else none
  | .select, .proceed =>
    match Broadcast.recv channelWindow (sh.store.log r.rx.tx) r.rx.next with
    | .item event =>
      some ⟨relayEvent connId { r with rx := { r.rx with next := r.rx.next + 1 } } event,
        [.received event], sh⟩
    | .lagged _ => some ⟨.detach, [.lagged], sh⟩
    | .pending => none
  | .select, .frame received now =>
    some ⟨relayFrame env connId r now received, received.heard now, sh⟩
  | .sendPing, .sent result =>
    some ⟨if result = .ok then .relay { r with waitingForPong := true } .select else .detach,
      [.wrote .ping], sh⟩
  | .sendEvent event, .sent result =>
    some ⟨if result = .ok then (if event = .roomExpired then .sendClose else .relay r .select)
      else .detach, [.wrote (.json (.ofRoomEvent event))], sh⟩
  | .sendPong data, .sent result =>
    some ⟨if result = .ok then .relay r .select else .detach, [.wrote (.pong data)], sh⟩
  -- an error of the update is only logged
  | .updateActivity event, .activity now fault =>
    (sh.apply (.updateActivity roomId now fault)).map fun sh => ⟨.relay r (.publish event), [], sh⟩
  | .publish event, .proceed =>
    (sh.apply (.publish connId event)).map fun sh => ⟨.relay r .select, [.published event], sh⟩
  | _, _ => none

/-! ## The session body -/

/-- After a peer's keys are written. -/
def afterPeer (rx : Receiver) : PeerSnapshot → LivePc
  | [] => .startRelay rx
  | peer :: rest => .sendPeer rx peer rest

/-- A frame while the session waits for `key_announce`. -/
def handshakeFrame (env : Env) : Received → LivePc
  | .text text =>
    match env.codec.announcement text with
    | some participant => .join participant
    | none => .detach
  | .ping _ => .handshake
  | .pong => .handshake
  | _ => .detach

/-- What the outcome of `join` leads to; without one, the lock is held for `joinInsert`. -/
def joinOutcome : Conn → LivePc
  | .refused _ .full => .sendRoomFull
  | .refused _ .roomGone => .detach
  | _ => .joinInsert

def welcome (isProtected : Bool) (connId : String) (attached : Attached) : OutgoingMessage :=
  .welcome (if isProtected then 2 else protocolVersion) connId attached.isCreator attached.creatorId

def liveNext (env : Env) (sh : Shared) (roomId : String) (isProtected : Bool) (connId : String)
    (attached : Attached) (p : LivePc) (ch : Choice) : Option (Move LivePc) :=
  match p, ch with
  | .sendWelcome, .sent result =>
    some ⟨if result = .ok then .handshake else .detach,
      [.wrote (.json (welcome isProtected connId attached))], sh⟩
  | .handshake, .frame received _ => some ⟨handshakeFrame env received, [], sh⟩
  | .handshake, .elapsed => some ⟨.detach, [], sh⟩
  | .join participant, .snapshot peers =>
    (sh.apply (.joinSubscribe connId participant peers)).map fun sh =>
      ⟨joinOutcome (sh.store.conns connId), [], sh⟩
  | .joinInsert, .proceed =>
    match sh.store.lock with
    | .joining _ r =>
      (sh.apply .joinInsert).map fun sh =>
        ⟨if isProtected then .sendJoined r.receiver r.peers else afterPeer r.receiver r.peers,
          [.joined r.receiver r.peers], sh⟩
    | _ => none
  | .sendRoomFull, .sent _ => some ⟨.detach, [.wrote (.json .roomFull)], sh⟩
  | .sendJoined rx peers, .sent result =>
    some ⟨if result = .ok then afterPeer rx peers else .detach, [.wrote (.json .joined)], sh⟩
  | .sendPeer rx peer rest, .sent result =>
    some ⟨if result = .ok then afterPeer rx rest else .detach, [.wrote (.json (.ofPeer peer))], sh⟩
  | .startRelay rx, .clocks ticker lastPong limiter =>
    some ⟨.relay ⟨rx, ticker, lastPong, false,
      .new msgRateCapacity msgRateRefillPerSec limiter⟩ .select, [], sh⟩
  | .relay r p, ch => relayNext env sh roomId connId r p ch
  | .sendClose, .sent _ => some ⟨.detach, [.wrote .close], sh⟩
  | _, _ => none

/-! ## The whole socket -/

/-- After the upgrade; a failed one drops the callback with its guard. -/
def afterUpgrade (guard : Option IpAddr) (room : Option (Option String)) (ok : Bool) : Pc :=
  match ok, room with
  | true, some (some hash) => .auth guard hash .sendRequired
  | true, some none => .dropGuard guard false true
  | _, room => .dropGuard guard room.join.isSome false

def Pc.next (env : Env) (sh : Shared) (roomId : String) (pc : Pc) (ch : Choice) :
    Option (Move Pc) :=
  match pc, ch with
  | .request, .request origins peer forwarded =>
    if env.originAllowed origins then
      match env.clientIp peer forwarded with
      | some ip => some ⟨.connectionBudget ip, [], sh⟩
      | none => some ⟨.finished none, [], sh⟩
    else some ⟨.finished none, [], sh⟩
  | .connectionBudget ip, .clock now =>
    match sh.limits.checkAt (.connection ip) now with
    | (.ok (), limits) => some ⟨.roomPassword ip, [], { sh with limits }⟩
    | (.error _, limits) => some ⟨.finished none, [], { sh with limits }⟩
  | .roomPassword ip, .statement fault =>
    match Db.roomPassword sh.store.app.db roomId fault with
    | .ok (some (some hash)) => some ⟨.pending ip hash, [.looked (some (some hash))], sh⟩
    | .ok room => some ⟨.upgrade none room, [.looked room], sh⟩
    | .error _ => some ⟨.finished none, [], sh⟩
  | .pending ip hash, .proceed =>
    match sh.limits.acquire ip with
    | .ok limits => some ⟨.upgrade (some ip) (some (some hash)), [], { sh with limits }⟩
    | .error _ => some ⟨.finished none, [], sh⟩
  | .upgrade guard room, .upgraded ok => some ⟨afterUpgrade guard room ok, [], sh⟩
  | .auth guard hash p, ch => authNext env sh roomId guard hash p ch
  | .dropGuard guard isProtected accepted, .proceed =>
    (sh.dropGuard guard).map fun sh =>
      ⟨if accepted then .attach isProtected else .finished none, [], sh⟩
  | .attach isProtected, .uuid connId fault =>
    (sh.apply (.attachSelect connId roomId fault)).map fun sh =>
      ⟨if sh.store.lock = .attaching roomId connId then .attachInsert isProtected connId
        else .sendUnavailable connId, [.attaching connId], sh⟩
  | .attachInsert isProtected connId, .proceed =>
    (sh.apply .attachInsert).map fun sh' =>
      ⟨.live isProtected connId (sh.store.app.enter roomId connId).1 .sendWelcome, [], sh'⟩
  | .sendUnavailable connId, .sent _ =>
    some ⟨.finished (some connId), [.wrote (.json .authUnavailable)], sh⟩
  | .live _ connId _ .detach, .proceed =>
    (sh.apply (.detach connId)).map fun sh => ⟨.finished (some connId), [], sh⟩
  | .live isProtected connId attached p, ch =>
    (liveNext env sh roomId isProtected connId attached p ch).map fun m =>
      ⟨.live isProtected connId attached m.pc, m.obs, m.shared⟩
  | _, _ => none

/-- A socket opened on `roomId`, where it is and what it has done. -/
structure Session where
  roomId : String
  pc : Pc
  trace : List Obs

/-- A request for an upgrade arrives. -/
def Session.connect (roomId : String) : Session := ⟨roomId, .request, []⟩

def Session.next (env : Env) (sh : Shared) (s : Session) (ch : Choice) : Option (Session × Shared) :=
  (s.pc.next env sh s.roomId ch).map fun m =>
    ({ s with pc := m.pc, trace := s.trace ++ m.obs }, m.shared)

/-- The frames handed to the socket. -/
def framesOf (trace : List Obs) : List Frame :=
  trace.filterMap fun
    | .wrote f => some f
    | _ => none

def Session.frames (s : Session) : List Frame := framesOf s.trace

end Parrhesia
