import Mathlib.Logic.Function.Basic
import Parrhesia.Db

/-!
# Parrhesia.State

`state.rs`: the room map, the events of a room and the four operations that change the map.

* A `broadcast::Sender` is the number of a channel; `channels` keeps everything ever sent on each.
* A `broadcast::Receiver` is a position in one channel.
* The database calls take `fault`, which says whether the statement fails.

`enter`, `subscribe`, `addParticipant` and `expireRoom` are the parts of the operations between their await
points.
-/

namespace Parrhesia

open Lib

inductive RoomEvent where
  | peerJoined (sender publicKey pqPublicKey : String) (sig : Option String)
  | chat (sender payload : String) (epoch counter : Option Nat)
  | treeCommit (sender treeData : String)
  | treeWelcome (sender target treeData : String)
  | typing (sender : String)
  | peerLeft (sender : String)
  | roomExpired
  deriving DecidableEq, Repr

def RoomEvent.sender : RoomEvent → Option String
  | .peerJoined sender _ _ _ => some sender
  | .chat sender _ _ _ => some sender
  | .treeCommit sender _ => some sender
  | .treeWelcome sender _ _ => some sender
  | .typing sender => some sender
  | .peerLeft sender => some sender
  | .roomExpired => none

def RoomEvent.target : RoomEvent → Option String
  | .treeWelcome _ target _ => some target
  | _ => none

structure Participant where
  publicKey : String
  pqPublicKey : String
  sig : Option String
  deriving DecidableEq, Repr

structure Room where
  tx : Nat
  creatorId : Option String
  participants : HashMap String Participant

def Room.new (tx : Nat) : Room := ⟨tx, none, ∅⟩

structure Peer where
  id : String
  publicKey : String
  pqPublicKey : String
  sig : Option String
  deriving DecidableEq, Repr

abbrev PeerSnapshot := List Peer

def Peer.of (e : String × Participant) : Peer := ⟨e.1, e.2.publicKey, e.2.pqPublicKey, e.2.sig⟩

def Room.with (room : Room) (connId : String) (participant : Participant) : Room :=
  { room with participants := HashMap.insert room.participants connId participant }

/-- The room once `connId` is removed; the creator is forgotten when nobody is left. -/
def Room.without (room : Room) (connId : String) : Room :=
  let participants := HashMap.remove room.participants connId
  { room with participants,
              creatorId := if HashMap.isEmpty participants then none else room.creatorId }

def Room.peers (room : Room) : PeerSnapshot := (HashMap.toList room.participants).map Peer.of

/-- A subscriber of channel `tx` that has read everything before position `next`. -/
structure Receiver where
  tx : Nat
  next : Nat
  deriving DecidableEq, Repr

inductive JoinOutcome where
  | joined (receiver : Receiver) (peers : PeerSnapshot)
  | full
  | roomGone
  deriving DecidableEq, Repr

/-- What a successful `attach` returns. -/
structure Attached where
  tx : Nat
  isCreator : Bool
  creatorId : Option String
  deriving DecidableEq, Repr

structure AppState where
  db : Db.Rooms
  rooms : HashMap String Room
  channels : Nat → List RoomEvent
  nextChannel : Nat

namespace AppState

/-- `AppState::new` on a database that may hold rooms of an earlier process. -/
def new (db : Db.Rooms) : AppState := ⟨db, ∅, fun _ => [], 0⟩

/-- `broadcast::Sender::send`; without receivers nobody will read the event. -/
def send (s : AppState) (tx : Nat) (event : RoomEvent) : AppState :=
  { s with channels := Function.update s.channels tx (s.channels tx ++ [event]) }

/-- `rooms.entry(room_id).or_insert_with(Room::new)`. -/
def entry (s : AppState) (roomId : String) : Room × AppState :=
  match HashMap.get s.rooms roomId with
  | some room => (room, s)
  | none =>
    (Room.new s.nextChannel,
      { s with rooms := HashMap.insert s.rooms roomId (Room.new s.nextChannel),
               nextChannel := s.nextChannel + 1 })

/-- `attach` once the row has been found. -/
def enter (s : AppState) (roomId connId : String) : Attached × AppState :=
  let (room, s) := s.entry roomId
  match room.creatorId with
  | none =>
    (⟨room.tx, true, some connId⟩,
      { s with rooms := HashMap.insert s.rooms roomId { room with creatorId := some connId } })
  | some creator => (⟨room.tx, false, some creator⟩, s)

def attach (s : AppState) (roomId connId : String) (fault : Bool) :
    Except SqlxError (Option Attached) × AppState :=
  match Db.roomExists s.db roomId fault with
  | .error e => (.error e, s)
  | .ok false => (.ok none, s)
  | .ok true => (.ok (some (s.enter roomId connId).1), (s.enter roomId connId).2)

/-- `room.tx.subscribe()`. -/
def subscribe (s : AppState) (room : Room) : Receiver := ⟨room.tx, (s.channels room.tx).length⟩

/-- `join` once the snapshot is taken: insert the participant and announce it. -/
def addParticipant (s : AppState) (roomId connId : String) (participant : Participant) : AppState :=
  match HashMap.get s.rooms roomId with
  | none => s
  | some room =>
    { s with rooms := HashMap.insert s.rooms roomId (room.with connId participant) }.send room.tx
      (.peerJoined connId participant.publicKey participant.pqPublicKey participant.sig)

def join (s : AppState) (roomId connId : String) (participant : Participant)
    (maxParticipants : Nat) : JoinOutcome × AppState :=
  match HashMap.get s.rooms roomId with
  | none => (.roomGone, s)
  | some room =>
    if maxParticipants ≤ HashMap.len room.participants then (.full, s)
    else (.joined (s.subscribe room) room.peers, s.addParticipant roomId connId participant)

def detach (s : AppState) (roomId connId : String) : AppState :=
  match HashMap.get s.rooms roomId with
  | none => s
  | some room =>
    let s' := { s with rooms := HashMap.insert s.rooms roomId (room.without connId) }
    if HashMap.containsKey room.participants connId then s'.send room.tx (.peerLeft connId) else s'

/-- The body of the loop of `expire_inactive_rooms`. -/
def expireRoom (s : AppState) (id : String) : AppState :=
  match HashMap.get s.rooms id with
  | none => s
  | some room => { s with rooms := HashMap.remove s.rooms id }.send room.tx .roomExpired

def expireInactiveRooms (s : AppState) (now threshold : Int) (fault : Bool) :
    Except SqlxError (List String) × AppState :=
  match Db.deleteInactiveRooms s.db now threshold fault with
  | .error e => (.error e, s)
  | .ok (deleted, db) => (.ok deleted, deleted.foldl expireRoom { s with db })

/-! ## What each part does to the map and to the channels -/

variable (s : AppState)

@[simp] theorem send_rooms (tx : Nat) (e : RoomEvent) : (s.send tx e).rooms = s.rooms := rfl

@[simp] theorem send_channels_self (tx : Nat) (e : RoomEvent) :
    (s.send tx e).channels tx = s.channels tx ++ [e] := by simp [send]

theorem send_channels_of_ne {tx tx' : Nat} (h : tx' ≠ tx) (e : RoomEvent) :
    (s.send tx e).channels tx' = s.channels tx' := by simp [send, h]

end AppState
end Parrhesia
