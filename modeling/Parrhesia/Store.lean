import Parrhesia.Lib.Machine
import Parrhesia.State

/-!
# Parrhesia.Store

The room store shared by all connections: the table, the map behind its lock, the channels, and how
far every connection is.

The write lock is held from the first to the last line of each operation. A statement runs while it
is held, and so do the sends of connections that relay, which do not take it; so each operation is
cut where others can come between:

* `attach` : `attachSelect`, then `attachInsert` when the row was found.
* `join`   : `joinSubscribe`, the snapshot and the subscription, then `joinInsert`.
* `detach` : one step, the announcement being its only effect outside the lock.
* `expire_inactive_rooms` : `expireDelete`, one `expireRemove` for each deleted id, `expireDone`.

A connection attaches once, joins at most once after that, and detaches once at the end. `created`
records the rows ever inserted; ids are never reused. `Step` says what a step can do, and every
invariant is derived from it.
-/

namespace Parrhesia

open Lib

/-- `MAX_PARTICIPANTS`. -/
def maxParticipants : Nat := 16

/-- What a connection keeps from `attach`: the room it asked for and what it was given. -/
structure Ticket extends Attached where
  room : String
  deriving DecidableEq, Repr

/-- What a connection keeps from a `join` that returned `Joined`. -/
structure Receipt where
  participant : Participant
  receiver : Receiver
  peers : PeerSnapshot
  deriving DecidableEq, Repr

/-- The outcomes of a `join` that did not join. -/
inductive Refusal where
  | full
  | roomGone
  deriving DecidableEq, Repr

inductive Conn where
  | fresh
  | turnedAway (room : String)
  | attached (t : Ticket)
  | joined (t : Ticket) (r : Receipt)
  | refused (t : Ticket) (why : Refusal)
  | detached (t : Ticket) (r : Option Receipt) (expired : Bool)
  deriving DecidableEq, Repr

namespace Conn

/-- What `attach` gave, also after the connection has detached. -/
def ticket : Conn → Option Ticket
  | .attached t => some t
  | .joined t _ => some t
  | .refused t _ => some t
  | .detached t _ _ => some t
  | _ => none

/-- What `join` gave, also after the connection has detached. -/
def receipt : Conn → Option Receipt
  | .joined _ r => some r
  | .detached _ r _ => r
  | _ => none

/-- The ticket of a connection that has attached and not detached. -/
def present : Conn → Option Ticket
  | .attached t => some t
  | .joined t _ => some t
  | .refused t _ => some t
  | _ => none

/-- The ticket and receipt of a connection that has joined and not detached. -/
def seat : Conn → Option (Ticket × Receipt)
  | .joined t r => some (t, r)
  | _ => none

end Conn

inductive Lock where
  | free
  | attaching (room conn : String)
  | joining (conn : String) (r : Receipt)
  | expiring (ids : List String)
  deriving DecidableEq, Repr

structure Store where
  app : AppState
  lock : Lock
  conns : String → Conn
  created : String → Option (Option String)

/-- The events a connection sends by itself. -/
def RoomEvent.isRelayed : RoomEvent → Bool
  | .chat .. => true
  | .treeCommit .. => true
  | .treeWelcome .. => true
  | .typing .. => true
  | _ => false

namespace Store

/-- A process that starts on a database with the rooms of earlier ones. -/
def start (db : Db.Rooms) : Store where
  app := .new db
  lock := .free
  conns _ := .fresh
  created id := (HashMap.get db id).map Db.Row.passwordHash

def log (s : Store) (tx : Nat) : List RoomEvent := s.app.channels tx

def room (s : Store) (id : String) : Option Room := HashMap.get s.app.rooms id

def row (s : Store) (id : String) : Option Db.Row := HashMap.get s.app.db id

def setConn (s : Store) (conn : String) (c : Conn) : Store :=
  { s with conns := Function.update s.conns conn c }

inductive Op where
  | createRoom (id : String) (passwordHash : Option String) (now : Int) (fault : Bool)
  | roomPassword (id : String) (fault : Bool)
  | updateActivity (id : String) (now : Int) (fault : Bool)
  | attachSelect (conn room : String) (fault : Bool)
  | attachInsert
  | joinSubscribe (conn : String) (participant : Participant) (peers : PeerSnapshot)
  | joinInsert
  | detach (conn : String)
  | expireDelete (now threshold : Int) (ids : List String) (fault : Bool)
  | expireRemove
  | expireDone
  | publish (conn : String) (event : RoomEvent)

def createRoom (s : Store) (id : String) (passwordHash : Option String) (now : Int) (fault : Bool) :
    Option Store :=
  match s.created id with
  | some _ => none
  | none =>
    match Db.createRoomWithPassword s.app.db id passwordHash now fault with
    | .error _ => some s
    | .ok db =>
      some { s with app := { s.app with db },
                    created := Function.update s.created id (some passwordHash) }

def updateActivity (s : Store) (id : String) (now : Int) (fault : Bool) : Store :=
  match Db.updateActivity s.app.db id now fault with
  | .error _ => s
  | .ok db => { s with app := { s.app with db } }

/-- `attach` takes the lock and looks for the row; an error or a missing row gives the lock back. -/
def attachSelect (s : Store) (conn room : String) (fault : Bool) : Option Store :=
  match s.lock, s.conns conn with
  | .free, .fresh =>
    match Db.roomExists s.app.db room fault with
    | .ok true => some { s with lock := .attaching room conn }
    | _ => some (s.setConn conn (.turnedAway room))
  | _, _ => none

def attachInsert (s : Store) : Option Store :=
  match s.lock with
  | .attaching room conn =>
    let (attached, app) := s.app.enter room conn
    some { s with app, lock := .free,
                  conns := Function.update s.conns conn (.attached { attached with room }) }
  | _ => none

/-- `join` takes the lock, refuses, or takes the snapshot, in an order of the map's own, and
subscribes. -/
def joinSubscribe (s : Store) (conn : String) (participant : Participant) (peers : PeerSnapshot) :
    Option Store :=
  match s.lock, s.conns conn with
  | .free, .attached t =>
    match s.room t.room with
    | none => some (s.setConn conn (.refused t .roomGone))
    | some room =>
      if maxParticipants ≤ HashMap.len room.participants then
        some (s.setConn conn (.refused t .full))
      else if peers.isPerm room.peers then
        some { s with lock := .joining conn ⟨participant, s.app.subscribe room, peers⟩ }
      else none
  | _, _ => none

/-- The room found by `joinSubscribe` is still there: the lock is held (`joinInsert_enabled`). -/
def joinInsert (s : Store) : Option Store :=
  match s.lock with
  | .joining conn r =>
    match s.conns conn with
    | .attached t =>
      if (s.room t.room).isSome then
        some { s with app := s.app.addParticipant t.room conn r.participant, lock := .free,
                      conns := Function.update s.conns conn (.joined t r) }
      else none
    | _ => none
  | _ => none

def detach (s : Store) (conn : String) : Option Store :=
  match s.lock, (s.conns conn).present with
  | .free, some t =>
    some { s with app := s.app.detach t.room conn,
                  conns := Function.update s.conns conn
                    (.detached t (s.conns conn).receipt (decide (.roomExpired ∈ s.log t.tx))) }
  | _, _ => none

/-- `expire_inactive_rooms` takes the lock and deletes; the ids come in an order of the database's
own. -/
def expireDelete (s : Store) (now threshold : Int) (ids : List String) (fault : Bool) :
    Option Store :=
  match s.lock with
  | .free =>
    match Db.deleteInactiveRooms s.app.db now threshold fault with
    | .error _ => some s
    | .ok (deleted, db) =>
      if ids.isPerm deleted then some { s with app := { s.app with db }, lock := .expiring ids }
      else none
  | _ => none

def expireRemove (s : Store) : Option Store :=
  match s.lock with
  | .expiring (id :: ids) => some { s with app := s.app.expireRoom id, lock := .expiring ids }
  | _ => none

def expireDone (s : Store) : Option Store :=
  match s.lock with
  | .expiring [] => some { s with lock := .free }
  | _ => none

def publish (s : Store) (conn : String) (event : RoomEvent) : Option Store :=
  match s.conns conn with
  | .joined t _ =>
    if event.sender = some conn ∧ event.isRelayed then
      some { s with app := s.app.send t.tx event }
    else none
  | _ => none

def step (s : Store) : Op → Option Store
  | .createRoom id passwordHash now fault => s.createRoom id passwordHash now fault
  | .roomPassword _ _ => some s
  | .updateActivity id now fault => some (s.updateActivity id now fault)
  | .attachSelect conn room fault => s.attachSelect conn room fault
  | .attachInsert => s.attachInsert
  | .joinSubscribe conn participant peers => s.joinSubscribe conn participant peers
  | .joinInsert => s.joinInsert
  | .detach conn => s.detach conn
  | .expireDelete now threshold ids fault => s.expireDelete now threshold ids fault
  | .expireRemove => s.expireRemove
  | .expireDone => s.expireDone
  | .publish conn event => s.publish conn event

/-- A database with one open room. -/
def openRoom : Db.Rooms := HashMap.insert ∅ "room" ⟨0, 0, none⟩

/-- A state some run reaches from the start of a process. -/
def Reachable (s : Store) : Prop := ∃ db, Machine.Reachable step (start db) s

end Store
end Parrhesia
