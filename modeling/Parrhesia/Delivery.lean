import Parrhesia.Ending
import Parrhesia.Sockets

/-!
# Parrhesia.Delivery

What a client gets of its room.

* `gap_free_delivery` : the event frames are a prefix of what the room sent after the subscription,
  cut at its end and without what is not for this client; a lag ends the session.
* `no_unknown_peer`   : frames of a peer come only while it is in the view the client builds.

The second rests on the first: the frames show, through `Roster.Shown`, the log from the position of
the snapshot on, and that log is well formed.
-/

namespace Parrhesia

open Lib

/-! ## Event frames -/

/-- Frames that relay an event. -/
def Frame.event : Frame → Option OutgoingMessage
  | .json m => if m.isEvent then some m else none
  | _ => none

/-- The events that client `c` is to be told of. -/
def RoomEvent.isFor (c : String) (e : RoomEvent) : Bool :=
  decide (e.sender ≠ some c) && decide (e.target = none ∨ e.target = some c)

theorem deliver_eq (c : String) (e : RoomEvent) :
    deliver c e = if e.isFor c then some (.ofRoomEvent e) else none := by
  unfold deliver RoomEvent.isFor
  by_cases hsender : e.sender = some c
  · simp [hsender]
  · cases htarget : e.target with
    | none => simp [hsender]
    | some target =>
      by_cases htc : target = c
      · simp [hsender, htc]
      · simp [hsender, htc]

theorem filterMap_deliver (c : String) (events : List RoomEvent) :
    events.filterMap (deliver c) = (events.filter (RoomEvent.isFor c)).map .ofRoomEvent := by
  induction events with
  | nil => rfl
  | cons e events ih =>
    rw [List.filterMap_cons, deliver_eq, List.filter_cons]
    cases e.isFor c <;> simp [ih]

/-- What client `c` is to be told of the events of its room, from its subscription on. -/
def owed (c : String) (events : List RoomEvent) : List OutgoingMessage :=
  ((Broadcast.upTo RoomEvent.isExpiry events).filter (RoomEvent.isFor c)).map .ofRoomEvent

theorem delivered_eq_owed (c : String) (events : List RoomEvent) :
    Broadcast.delivered (deliver c) RoomEvent.isExpiry events = owed c events := by
  rw [Broadcast.delivered_eq, filterMap_deliver]; rfl

theorem owed_isEvent {c : String} {events : List RoomEvent} {m : OutgoingMessage}
    (h : m ∈ owed c events) : m.isEvent = true := by
  obtain ⟨e, -, rfl⟩ := List.mem_map.mp h
  exact isEvent_ofRoomEvent e

theorem events_eq (trace : List Obs) :
    (framesOf trace).filterMap Frame.event = (newsOf trace).filter OutgoingMessage.isEvent := by
  induction trace with
  | nil => rfl
  | cons o trace ih =>
    have hcons : o :: trace = [o] ++ trace := rfl
    rw [hcons, framesOf_append, newsOf_append, List.filterMap_append, List.filter_append, ih]
    congr 1
    cases o with
    | wrote f =>
      cases f with
      | json m => cases m <;> rfl
      | _ => rfl
    | _ => rfl

theorem filter_isEvent_ofPeer (peers : PeerSnapshot) :
    (peers.map OutgoingMessage.ofPeer).filter OutgoingMessage.isEvent = [] := by
  simp [List.filter_eq_nil_iff, OutgoingMessage.ofPeer, OutgoingMessage.isEvent]

theorem Told.events {c : String} {trace : List Obs} {rx : Receiver} {peers written : PeerSnapshot}
    {settled : List RoomEvent} (h : Told c trace rx peers written settled) :
    (framesOf trace).filterMap Frame.event = owed c settled := by
  rw [events_eq, h.news, List.filter_append, filter_isEvent_ofPeer, List.nil_append,
    delivered_eq_owed, List.filter_eq_self]
  exact fun m hm => owed_isEvent hm

theorem owed_mono {c : String} {es es' : List RoomEvent} (h : es <+: es') : owed c es <+: owed c es' := by
  rw [← delivered_eq_owed, ← delivered_eq_owed]
  exact Broadcast.delivered_mono h

/-! ## The view of the client -/

def OutgoingMessage.change : OutgoingMessage → Roster.Change String Participant
  | .peerKey peerId publicKey pqPublicKey sig => .enter peerId ⟨publicKey, pqPublicKey, sig⟩
  | .peerJoined peerId publicKey pqPublicKey sig => .enter peerId ⟨publicKey, pqPublicKey, sig⟩
  | .peerLeft peerId => .leave peerId
  | .message peerId _ _ _ => .act peerId
  | .treeCommit peerId _ => .act peerId
  | .typing peerId => .act peerId
  | _ => .idle

/-- The peer that a relayed frame is from. -/
def OutgoingMessage.author : OutgoingMessage → Option String
  | .message peerId _ _ _ => some peerId
  | .treeCommit peerId _ => some peerId
  | .typing peerId => some peerId
  | _ => none

/-- What a client makes of a frame. -/
def Frame.follow (view : String → Option Participant) : Frame → String → Option Participant
  | .json (.peerKey peerId publicKey pqPublicKey sig) =>
    Function.update view peerId (some ⟨publicKey, pqPublicKey, sig⟩)
  | .json (.peerJoined peerId publicKey pqPublicKey sig) =>
    Function.update view peerId (some ⟨publicKey, pqPublicKey, sig⟩)
  | .json (.peerLeft peerId) => Function.update view peerId none
  | _ => view

/-- The peers a client knows from the frames it was sent. -/
def clientView (frames : List Frame) : String → Option Participant :=
  frames.foldl Frame.follow fun _ => none

theorem clientView_eq (frames : List Frame) :
    clientView frames =
      Roster.roster ((frames.filterMap Frame.news).map OutgoingMessage.change) := by
  have hstep : ∀ (view : String → Option Participant) (f : Frame),
      f.follow view = Roster.replay view (f.news.toList.map OutgoingMessage.change) := by
    intro view f
    cases f with
    | json m => cases m <;> rfl
    | _ => rfl
  have hfold : ∀ (frames : List Frame) (view : String → Option Participant),
      frames.foldl Frame.follow view =
        Roster.replay view ((frames.filterMap Frame.news).map OutgoingMessage.change) := by
    intro frames
    induction frames with
    | nil => intro view; rfl
    | cons f frames ih =>
      intro view
      have hcons : (f :: frames).filterMap Frame.news =
          f.news.toList ++ frames.filterMap Frame.news := by
        cases h : f.news <;> simp [h]
      rw [List.foldl_cons, hcons, List.map_append, Roster.replay_append, ← hstep, ih]
  exact hfold frames _

theorem news_framesOf (trace : List Obs) : (framesOf trace).filterMap Frame.news = newsOf trace := by
  rw [framesOf, List.filterMap_filterMap, newsOf]
  refine List.filterMap_congr ?_
  intro o _
  cases o <;> rfl

theorem map_change_ofPeer (peers : PeerSnapshot) :
    (peers.map OutgoingMessage.ofPeer).map OutgoingMessage.change =
      Roster.snapshot (peers.map Peer.entry) := by
  rw [Roster.snapshot, List.map_map, List.map_map]; rfl

theorem Store.Admitted.snapshot_self {st : Store} {c : String} {t : Ticket} {r : Receipt}
    (h : st.Admitted c t r) : ∀ ch ∈ Roster.snapshot (r.peers.map Peer.entry), ch.who ≠ some c := by
  intro ch hch hwho
  obtain ⟨e, he, rfl⟩ := List.mem_map.mp hch
  cases hwho
  have hview := (Roster.roster_snapshot h.nodup_entries).mpr he
  rw [← PeerSnapshot.view, h.view_self] at hview
  cases hview

/-- A member is shown the changes of its room. -/
theorem deliver_shown (c : String) (e : RoomEvent) :
    Roster.Shown c e.change ((deliver c e).map OutgoingMessage.change) := by
  by_cases hwho : e.change.who = some c
  · have hnone : deliver c e = none := by
      rw [RoomEvent.change_who] at hwho
      simp [deliver, hwho]
    rw [hnone]
    exact .own hwho
  · have hsender : e.sender ≠ some c := by rwa [RoomEvent.change_who] at hwho
    cases e with
    | treeWelcome sender target treeData =>
      have htree : deliver c (.treeWelcome sender target treeData) =
          if target ≠ c then none else some (.treeWelcome treeData) := by
        rw [deliver, if_neg hsender]; rfl
      rw [htree]
      split
      · exact .hidden
      · exact .blank
    | _ => rw [deliver, if_neg hsender]; exact .whole hwho

namespace Server

variable {env : Env} {v : Server} {k : Nat} {s : Session} {c : String}

/-- A connection that joined was told what its session told, and received its section of the log. -/
theorem Reachable.told (hv : Reachable env v) (hk : v.sockets k = some s)
    (hconn : s.pc.conn = some c) {r : Receipt} (hr : (v.shared.store.conns c).receipt = some r) :
    ∃ written settled, Told c s.trace r.receiver r.peers written settled ∧
      receivedOf s.trace <+: (v.shared.store.log r.receiver.tx).drop r.receiver.next := by
  have hbound := hv.sockets.bound k s hk
  have hjoins : joinsOf s.trace = [(r.receiver, r.peers)] := by
    rw [hbound.joins, hconn, Store.answers_some hr]; rfl
  rcases (hv.script hk).over hconn with huntold | ⟨rx, peers, written, settled, htold⟩
  · rw [huntold.joins] at hjoins; cases hjoins
  · have hsame := htold.joins.symm.trans hjoins
    simp only [List.cons.injEq, Prod.mk.injEq, and_true] at hsame
    obtain ⟨rfl, rfl⟩ := hsame
    obtain ⟨-, hspan⟩ := hbound.streamed r.receiver r.peers (by rw [hjoins]; simp)
    exact ⟨written, settled, htold, by rw [hspan]; exact Broadcast.span_initial _ _ _⟩

/-! ## Two sockets that talk -/

/-- The base64 of `n` zero bytes, when `n` is 2 modulo 3. -/
@[irreducible] def zeros (n : Nat) : String :=
  String.ofList (List.replicate ((4 * n + 1) / 3) 'A' ++ ['='])

def zeroKeys : Participant := ⟨zeros 1952, zeros 1184, none⟩

def announceText (key pqKey : String) : String :=
  "\x7b\"type\":\"key_announce\",\"public_key\":\"" ++ key ++ "\",\"pq_public_key\":\"" ++
    pqKey ++ "\"\x7d"

def keyText : String := announceText (zeros 1952) (zeros 1184)

def messageText : String := "\x7b\"type\":\"message\",\"payload\":\"aGk=\"\x7d"

def parseTexts (s : String) : Option IncomingMessage :=
  if s = messageText then some (.message (some "aGk=") none none)
  else if s = keyText then some (.keyAnnounce (some (zeros 1952)) (some (zeros 1184)) none)
  else none

def decodeKeys (s : String) : Option Bytes :=
  if s = zeros 1952 then some (List.replicate 1952 0)
  else if s = zeros 1184 then some (List.replicate 1184 0)
  else none

/-- The third-party functions on the texts of this run. -/
def talkEnv : Env :=
  { passphraseEnv with codec := ⟨fun _ => none, parseTexts, decodeKeys, OutgoingMessage.compact⟩ }

theorem length_zeros (n : Nat) : (zeros n).length = (4 * n + 1) / 3 + 1 := by
  rw [zeros, String.length_ofList, List.length_append, List.length_replicate, List.length_singleton]

theorem length_le_append (a key b c d : String) : key.length ≤ (a ++ key ++ b ++ c ++ d).length := by
  simp only [String.length_append]
  omega

theorem length_announceText (key pqKey : String) :
    key.length ≤ (announceText key pqKey).length := length_le_append ..

theorem keyText_ne : keyText ≠ messageText := by
  intro h
  have hlong := length_announceText (zeros 1952) (zeros 1184)
  have hshort : messageText.length ≤ 40 := by decide +kernel
  rw [← keyText, h, length_zeros] at hlong
  omega

theorem zeros_ne : zeros 1184 ≠ zeros 1952 := by
  intro h
  have hlen := congrArg String.length h
  rw [length_zeros, length_zeros] at hlen
  omega

theorem parseTexts_keyText :
    parseTexts keyText = some (.keyAnnounce (some (zeros 1952)) (some (zeros 1184)) none) := by
  rw [parseTexts, if_neg keyText_ne, if_pos rfl]

theorem decodeKeys_sign : decodeKeys (zeros 1952) = some (List.replicate 1952 0) := by
  rw [decodeKeys, if_pos rfl]

theorem decodeKeys_kem : decodeKeys (zeros 1184) = some (List.replicate 1184 0) := by
  rw [decodeKeys, if_neg zeros_ne, if_pos rfl]

theorem valid_sign : talkEnv.codec.isValidMldsa65PublicKey (zeros 1952) = true :=
  Codec.isKeyOfLength_of_decode decodeKeys_sign List.length_replicate

theorem valid_kem : talkEnv.codec.isValidMlkem768PublicKey (zeros 1184) = true :=
  Codec.isKeyOfLength_of_decode decodeKeys_kem List.length_replicate

theorem announcement_keyText : talkEnv.codec.announcement keyText = some zeroKeys :=
  Codec.announcement_of parseTexts_keyText valid_sign valid_kem

/-- From the request to the wait for the keys. -/
def arrives (k : Nat) (c : String) : List Label :=
  [.connect k "room", .socket k (.request [some "https://parrhesia.example"] (.v4 0) []),
    .socket k (.clock 0), .socket k (.statement false), .socket k (.upgraded true),
    .socket k .proceed, .socket k (.uuid c false), .socket k .proceed, .socket k (.sent .ok)]

/-- Socket `k` announces `keys`, and `join` subscribes. The run takes these two labels by
`announces_labels`: the texts of the keys are too long to be compared by evaluation. -/
def announces (v : Server) (k : Nat) (keys : Participant) : Option Server :=
  match v.sockets k with
  | some ⟨roomId, .live isProtected c attached .handshake, trace⟩ =>
    match v.shared.store.lock, v.shared.store.conns c with
    | .free, .attached t =>
      match v.shared.store.room t.room with
      | some room =>
        if maxParticipants ≤ HashMap.len room.participants then none
        else
          some (v.setSocket k ⟨roomId, .live isProtected c attached .joinInsert, trace⟩
            { v.shared with store := { v.shared.store with
                lock := .joining c ⟨keys, v.shared.store.app.subscribe room, room.peers⟩ } })
      | none => none
    | _, _ => none
  | _ => none

theorem announces_labels {env : Env} {text : String} {keys : Participant}
    (htext : env.codec.announcement text = some keys) {v v' : Server} {k : Nat}
    (h : v.announces k keys = some v') : ∃ peers, Machine.run (step env) v
      [.socket k (.frame (.text text) 0), .socket k (.snapshot peers)] = some v' := by
  simp only [announces] at h
  split at h
  · rename_i roomId isProtected c attached trace hk
    split at h
    · rename_i t hlock hc
      split at h
      · rename_i room hroom
        split at h
        · cases h
        · rename_i hlen
          cases h
          refine ⟨room.peers, ?_⟩
          have hperm : room.peers.isPerm room.peers = true := List.isPerm_iff.mpr (.refl _)
          simp [Machine.run, step, socket, hk, Session.next, Pc.next, liveNext, handshakeFrame,
            htext, setSocket, Shared.apply, Store.step, Store.joinSubscribe, hlock, hc,
            hroom, hlen, hperm, joinOutcome]
      · cases h
    · cases h
  · cases h

theorem announces_run {env : Env} {text : String} {keys : Participant}
    (htext : env.codec.announcement text = some keys) {v v' : Server} {k : Nat}
    (h : v.announces k keys = some v') : Machine.Reachable (step env) v v' := by
  obtain ⟨peers, hrun⟩ := announces_labels htext h
  exact ⟨_, hrun⟩

/-- Socket 0 joins and is about to begin its relay loop. -/
def joins : Option Server := do
  let v ← Machine.run (step talkEnv) (start Store.openRoom) (arrives 0 "a")
  let v ← v.announces 0 zeroKeys
  v.step talkEnv (.socket 0 .proceed)

def joiningLabels (peers : PeerSnapshot) : List Label :=
  arrives 0 "a" ++
    ([.socket 0 (.frame (.text keyText) 0), .socket 0 (.snapshot peers)] ++ [.socket 0 .proceed])

theorem joins_labels {v : Server} (h : joins = some v) : ∃ peers,
    Machine.run (step talkEnv) (start Store.openRoom) (joiningLabels peers) = some v := by
  obtain ⟨v₁, h₁, hrest⟩ := Option.bind_eq_some_iff.mp h
  obtain ⟨v₂, h₂, h₃⟩ := Option.bind_eq_some_iff.mp hrest
  obtain ⟨peers, hlabels⟩ := announces_labels announcement_keyText h₂
  exact ⟨peers, Machine.run_trans h₁ (Machine.run_trans hlabels (Machine.run_cons h₃))⟩

/-- Two sockets join; the second sends a message, which the first is written. -/
def talk : Option Server := do
  let v ← Machine.run (step talkEnv) (start Store.openRoom) (arrives 0 "a" ++ arrives 1 "b")
  let v ← v.announces 0 zeroKeys
  let v ← Machine.run (step talkEnv) v
    [.socket 0 .proceed, .socket 0 (.clocks 0 0 0), .socket 0 .proceed]
  let v ← v.announces 1 zeroKeys
  Machine.run (step talkEnv) v
    [.socket 1 .proceed, .socket 1 (.sent .ok), .socket 1 (.clocks 0 0 0), .socket 0 .proceed,
      .socket 0 (.sent .ok), .socket 1 (.frame (.text messageText) 0),
      .socket 1 (.activity 1 false), .socket 1 .proceed, .socket 0 .proceed, .socket 0 (.sent .ok)]

theorem talk_reachable {v : Server} (h : talk = some v) : Reachable talkEnv v := by
  obtain ⟨v₁, h₁, h⟩ := Option.bind_eq_some_iff.mp h
  obtain ⟨v₂, h₂, h⟩ := Option.bind_eq_some_iff.mp h
  obtain ⟨v₃, h₃, h⟩ := Option.bind_eq_some_iff.mp h
  obtain ⟨v₄, h₄, h₅⟩ := Option.bind_eq_some_iff.mp h
  have hearly : Machine.Reachable (step talkEnv) (start Store.openRoom) v₃ :=
    (Machine.Reachable.trans ⟨_, h₁⟩ (announces_run announcement_keyText h₂)).trans ⟨_, h₃⟩
  exact ⟨Store.openRoom, (hearly.trans (announces_run announcement_keyText h₄)).trans ⟨_, h₅⟩⟩

theorem talk_run : ∃ v s r, talk = some v ∧ v.sockets 0 = some s ∧ s.pc.conn = some "a" ∧
    (v.shared.store.conns "a").receipt = some r ∧
    s.frames.drop 2 = [.json (.message "b" "aGk=" none none)] := by
  have hrun : (talk.bind fun v => (v.sockets 0).bind fun s =>
      (v.shared.store.conns "a").receipt.map fun _ => (s.pc.conn, s.frames.drop 2)) =
        some (some "a", [.json (.message "b" "aGk=" none none)]) := by decide +kernel
  obtain ⟨v, hv, hsocket⟩ := Option.bind_eq_some_iff.mp hrun
  obtain ⟨s, hk, hreceipt⟩ := Option.bind_eq_some_iff.mp hsocket
  obtain ⟨r, hr, hs⟩ := Option.map_eq_some_iff.mp hreceipt
  obtain ⟨hconn, hframes⟩ := Prod.ext_iff.mp hs
  exact ⟨v, s, r, hv, hk, hconn, hr, hframes⟩

/-! ## The results -/

/-- The ticket of a connection that joined. -/
theorem Reachable.admitted (hv : Reachable env v) (hk : v.sockets k = some s)
    (hconn : s.pc.conn = some c) {r : Receipt} (hr : (v.shared.store.conns c).receipt = some r) :
    ∃ t, (v.shared.store.conns c).ticket = some t ∧ t.room = s.roomId ∧
      v.shared.store.Admitted c t r := by
  obtain ⟨t, ht⟩ := Store.ticket_of_receipt hr
  exact ⟨t, ht, (hv.sockets.bound k s hk).tied.room hv.inv hconn ht,
    hv.inv.logs.admitted c t r ht hr⟩

/-- **Gap-free ordered delivery.** The receiver of a connection `c` that joined reads the channel of
its room. The event frames written to `c` are a prefix of what it is owed of the events sent there
after its subscription. After a lag the session does nothing more but leave, and after
`room_expired` it writes nothing but `Close`. -/
theorem gap_free_delivery (env : Env) (v : Server) (hv : Reachable env v) (k : Nat) (s : Session)
    (hk : v.sockets k = some s) (c : String) (hconn : s.pc.conn = some c) (r : Receipt)
    (hr : (v.shared.store.conns c).receipt = some r) :
    (∀ room, v.shared.store.room s.roomId = some room → room.tx = r.receiver.tx) ∧
      s.frames.filterMap Frame.event <+:
        owed c ((v.shared.store.log r.receiver.tx).drop r.receiver.next) ∧
      (∀ pre post, s.trace = pre ++ .lagged :: post → post = [] ∧
        ((∃ isProtected attached, s.pc = .live isProtected c attached .detach) ∨
          s.pc = .finished (some c))) ∧
      (∀ pre post, s.trace = pre ++ .wrote (.json .roomExpired) :: post →
        ∀ o ∈ post, o = .wrote .close) := by
  obtain ⟨written, settled, htold, hreceived⟩ := hv.told hk hconn hr
  obtain ⟨t, ht, hroomId, hadm⟩ := hv.admitted hk hconn hr
  refine ⟨?_, ?_, fun pre post hsplit => ⟨?_, ?_⟩, ?_⟩
  · intro room hroom
    rw [hadm.tx]
    exact hv.inv.channels.tx_eq ht (by rw [hroomId]; exact hroom)
  · rw [Session.frames, htold.events]
    exact owed_mono (htold.seen.trans hreceived)
  · cases post with
    | nil => rfl
    | cons o post =>
      have hnext := hv.ending hk (pre ++ [.lagged]) o post (by rw [hsplit]; simp)
      exact absurd (by simp) hnext.1
  · exact (hv.calm hk).lagged hconn (by rw [hsplit]; simp)
  · intro pre post hsplit o ho
    obtain ⟨mid, post', rfl⟩ := List.append_of_mem ho
    have hnext := hv.ending hk (pre ++ .wrote (.json .roomExpired) :: mid) o post'
      (by rw [hsplit]; simp)
    exact hnext.2 (by simp)

theorem gap_free_delivery_talk : ∃ v s r, talk = some v ∧ v.sockets 0 = some s ∧
    (v.shared.store.conns "a").receipt = some r ∧ s.frames.filterMap Frame.event <+:
      owed "a" ((v.shared.store.log r.receiver.tx).drop r.receiver.next) := by
  obtain ⟨v, s, r, hv, hk, hconn, hr, -⟩ := talk_run
  exact ⟨v, s, r, hv, hk, hr,
    (gap_free_delivery talkEnv v (talk_reachable hv) 0 s hk "a" hconn r hr).2.1⟩

/-! ## Relayed frames and the view -/

/-- The changes a joined client was told of are a well-formed log, none about itself. -/
theorem Reachable.wellFormed (hv : Reachable env v) (hk : v.sockets k = some s)
    (hconn : s.pc.conn = some c) {r : Receipt} (hr : (v.shared.store.conns c).receipt = some r) :
    Roster.WellFormed ((newsOf s.trace).map OutgoingMessage.change) ∧
      ∀ ch ∈ (newsOf s.trace).map OutgoingMessage.change, ch.who ≠ some c := by
  obtain ⟨written, settled, htold, hreceived⟩ := hv.told hk hconn hr
  obtain ⟨t, ht, -, hadm⟩ := hv.admitted hk hconn hr
  have hsnapshot := Roster.wellFormed_snapshot hadm.nodup_entries
  have hself := hadm.snapshot_self
  have hwritten : Roster.snapshot (written.map Peer.entry) <+:
      Roster.snapshot (r.peers.map Peer.entry) := (htold.keys.map _).map _
  -- the events that were told, as a section of the log
  let told := Broadcast.upTo RoomEvent.isExpiry settled
  have htoldsub : told <+: (v.shared.store.log t.tx).drop r.receiver.next := by
    rw [← hadm.tx]
    exact (Broadcast.upTo_initial _ _).trans (htold.seen.trans hreceived)
  have hnews : (newsOf s.trace).map OutgoingMessage.change =
      Roster.snapshot (written.map Peer.entry) ++
        told.filterMap fun e => (deliver c e).map OutgoingMessage.change := by
    rw [htold.news, List.map_append, map_change_ofPeer, Broadcast.delivered_eq, List.map_filterMap]
  by_cases hempty : told = []
  · rw [hnews, hempty, List.filterMap_nil, List.append_nil]
    exact ⟨hsnapshot.initial hwritten, fun ch hch => hself ch (hwritten.subset hch)⟩
  · have hfull : written = r.peers := htold.full fun hnil => hempty (by
      have hs : settled = [] := List.prefix_nil.mp (hnil ▸ htold.seen)
      exact List.prefix_nil.mp (hs ▸ Broadcast.upTo_initial _ _))
    have hlog : Roster.WellFormed ((v.shared.store.changes t.tx).take r.receiver.next ++
        told.map RoomEvent.change) := by
      have hinit := htoldsub.map RoomEvent.change
      rw [List.map_drop] at hinit
      refine (hv.inv.logs.wellFormed t.tx).initial ?_
      conv_rhs => rw [← List.take_append_drop r.receiver.next (v.shared.store.changes t.tx)]
      exact (List.prefix_append_right_inj _).mpr hinit
    have hroster : Roster.roster (Roster.snapshot (r.peers.map Peer.entry)) =
        Roster.hide c (Roster.roster ((v.shared.store.changes t.tx).take r.receiver.next)) := by
      rw [← hadm.view, Roster.hide_of_none hadm.view_self]; rfl
    rw [hnews, hfull]
    refine ⟨Roster.wellFormed_shown RoomEvent.change _ (deliver_shown c) hlog hsnapshot hroster,
      ?_⟩
    intro ch hch
    rcases List.mem_append.mp hch with hch | hch
    · exact hself ch hch
    · obtain ⟨e, -, he⟩ := List.mem_filterMap.mp hch
      exact (he ▸ deliver_shown c e).who

theorem author_news {m : OutgoingMessage} {x : String} (h : m.author = some x) :
    (Frame.json m).news = some m ∧ m.change = .act x := by
  cases m <;> cases h <;> exact ⟨rfl, rfl⟩

/-- **No message from an unknown peer.** Whenever a message, a tree commit or a typing notice of peer
`x` is written to a client, `x` is in the view the client builds from the frames before, and is not
the client itself. -/
theorem no_unknown_peer (env : Env) (v : Server) (hv : Reachable env v) (k : Nat) (s : Session)
    (hk : v.sockets k = some s) (pre post : List Frame) (m : OutgoingMessage) (x : String)
    (hframes : s.frames = pre ++ .json m :: post) (hauthor : m.author = some x) :
    (clientView pre x).isSome ∧ ∃ c, s.pc.conn = some c ∧ x ≠ c := by
  obtain ⟨hnews, hact⟩ := author_news hauthor
  have hsplit : newsOf s.trace = pre.filterMap Frame.news ++ m :: post.filterMap Frame.news := by
    rw [← news_framesOf, show framesOf s.trace = _ from hframes, List.filterMap_append,
      List.filterMap_cons, hnews]
  -- a client that is told something has joined
  obtain ⟨c, hconn⟩ : ∃ c, s.pc.conn = some c := by
    refine Option.ne_none_iff_exists'.mp ?_
    intro hnone
    rw [((hv.script hk).untold hnone).news] at hsplit
    simp at hsplit
  obtain ⟨r, hr⟩ : ∃ r, (v.shared.store.conns c).receipt = some r := by
    refine Option.ne_none_iff_exists'.mp ?_
    intro hnone
    have hjoins := (hv.sockets.bound k s hk).joins
    rw [hconn, Store.answers_some hnone] at hjoins
    rcases (hv.script hk).over hconn with huntold | ⟨rx, peers, written, settled, htold⟩
    · rw [huntold.news] at hsplit; simp at hsplit
    · rw [htold.joins] at hjoins; cases hjoins
  obtain ⟨hwf, hself⟩ := hv.wellFormed hk hconn hr
  rw [hsplit, List.map_append, List.map_cons, hact] at hwf hself
  refine ⟨?_, c, hconn, ?_⟩
  · rw [clientView_eq]
    exact hwf _ _ _ rfl
  · rintro rfl
    exact hself (.act x) (by simp) rfl

theorem no_unknown_peer_talk : ∃ v s pre, talk = some v ∧ v.sockets 0 = some s ∧
    s.frames = pre ++ [.json (.message "b" "aGk=" none none)] ∧ (clientView pre "b").isSome := by
  obtain ⟨v, s, r, hv, hk, hconn, hr, hframes⟩ := talk_run
  have hsplit : s.frames = s.frames.take 2 ++ [.json (.message "b" "aGk=" none none)] := by
    rw [← hframes, List.take_append_drop]
  exact ⟨v, s, _, hv, hk, hsplit,
    (no_unknown_peer talkEnv v (talk_reachable hv) 0 s hk _ [] _ "b" hsplit rfl).1⟩

end Server

end Parrhesia
