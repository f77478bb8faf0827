import Mathlib.Data.Multiset.Basic
import Parrhesia.Lib.Linear
import Parrhesia.Creator

/-!
# Parrhesia.Atomic

The room store as the functions of `state.rs` taken one after the other.

`attach`, `join` and `expire_inactive_rooms` hold the lock over several steps, between which rooms
are created, rows are touched and members relay. `Call.apply` is the sequential store: every call is
one application of `AppState.attach`, `join`, `detach` or `expireInactiveRooms`. `served` is what a
step of the store answers, where the operation takes effect.

Relaying does not take the lock: an event can be sent between the subscription of a newcomer and its
announcement, which no single `join` does. So the channels are compared without the relayed events
(`membership`), and the receiver of a newcomer is counted in the others.
-/

namespace Parrhesia

open Lib

inductive Call where
  | createRoom (roomId : String) (passwordHash : Option String) (now : Int) (fault : Bool)
  | roomPassword (roomId : String) (fault : Bool)
  | updateActivity (roomId : String) (now : Int) (fault : Bool)
  | attach (roomId connId : String) (fault : Bool)
  | join (roomId connId : String) (participant : Participant)
  | detach (roomId connId : String)
  | expireInactiveRooms (now threshold : Int) (fault : Bool)

/-- What the calls return. The order of a snapshot is the map's own, that of the deleted ids the
database's. -/
inductive Answer where
  | done (result : Except SqlxError Unit)
  | room (result : Except SqlxError (Option (Option String)))
  | attached (result : Except SqlxError (Option Attached))
  | joined (receiver : Receiver) (peers : Multiset Peer)
  | full
  | roomGone
  | expired (result : Except SqlxError (Multiset String))

/-- The outcome of a statement that changes the table. -/
def AppState.execute (s : AppState) : Except SqlxError Db.Rooms → Answer × AppState
  | .ok db => (.done (.ok ()), { s with db })
  | .error e => (.done (.error e), s)

def Answer.ofJoin : JoinOutcome → Answer
  | .joined receiver peers => .joined receiver peers
  | .full => .full
  | .roomGone => .roomGone

def Answer.ofExpire : Except SqlxError (List String) → Answer
  | .ok ids => .expired (.ok ids)
  | .error e => .expired (.error e)

/-- One call on the sequential store. -/
def Call.apply (s : AppState) : Call → Answer × AppState
  | .createRoom roomId passwordHash now fault =>
    s.execute (Db.createRoomWithPassword s.db roomId passwordHash now fault)
  | .roomPassword roomId fault => (.room (Db.roomPassword s.db roomId fault), s)
  | .updateActivity roomId now fault => s.execute (Db.updateActivity s.db roomId now fault)
  | .attach roomId connId fault =>
    (.attached (s.attach roomId connId fault).1, (s.attach roomId connId fault).2)
  | .join roomId connId participant =>
    (.ofJoin (s.join roomId connId participant maxParticipants).1,
      (s.join roomId connId participant maxParticipants).2)
  | .detach roomId connId => (.done (.ok ()), s.detach roomId connId)
  | .expireInactiveRooms now threshold fault =>
    (.ofExpire (s.expireInactiveRooms now threshold fault).1,
      (s.expireInactiveRooms now threshold fault).2)

/-- The state without the relayed events. -/
def AppState.membership (s : AppState) : AppState :=
  { s with channels := fun tx => (s.channels tx).filter fun e => !e.isRelayed }

namespace Store

/-- The store as its callers will find it: a removal that has begun is over. -/
def settled (s : Store) : AppState :=
  match s.lock with
  | .expiring ids => ids.foldl AppState.expireRoom s.app.membership
  | _ => s.app.membership

/-- A position among the events that are not relayed. -/
def membershipReceiver (s : Store) (rx : Receiver) : Receiver :=
  ⟨rx.tx, (((s.log rx.tx).take rx.next).filter fun e => !e.isRelayed).length⟩

/-- The calls that take effect with a step, and what they return. -/
def served (s : Store) : Op → List (Call × Answer)
  | .createRoom id passwordHash now fault =>
    [(.createRoom id passwordHash now fault,
      .done ((Db.createRoomWithPassword s.app.db id passwordHash now fault).map fun _ => ()))]
  | .roomPassword id fault => [(.roomPassword id fault, .room (Db.roomPassword s.app.db id fault))]
  | .updateActivity id now fault =>
    [(.updateActivity id now fault,
      .done ((Db.updateActivity s.app.db id now fault).map fun _ => ()))]
  | .attachSelect conn id fault =>
    match Db.roomExists s.app.db id fault with
    | .ok true => []
    | .ok false => [(.attach id conn fault, .attached (.ok none))]
    | .error e => [(.attach id conn fault, .attached (.error e))]
  | .attachInsert =>
    match s.lock with
    | .attaching id conn => [(.attach id conn false, .attached (.ok (some (s.app.enter id conn).1)))]
    | _ => []
  | .joinSubscribe conn participant _ =>
    match s.conns conn with
    | .attached t =>
      match s.room t.room with
      | none => [(.join t.room conn participant, .roomGone)]
      | some room =>
        if maxParticipants ≤ HashMap.len room.participants then
          [(.join t.room conn participant, .full)]
        else []
    | _ => []
  | .joinInsert =>
    match s.lock with
    | .joining conn r =>
      match s.conns conn with
      | .attached t =>
        [(.join t.room conn r.participant, .joined (s.membershipReceiver r.receiver) r.peers)]
      | _ => []
    | _ => []
  | .detach conn =>
    match (s.conns conn).present with
    | some t => [(.detach t.room conn, .done (.ok ()))]
    | none => []
  | .expireDelete now threshold ids fault =>
    [(.expireInactiveRooms now threshold fault,
      .expired (if fault then .error .failed else .ok ids))]
  | _ => []

end Store

/-! ## The relayed events and the rest -/

namespace AppState

variable (s : AppState) {tx : Nat} {e : RoomEvent}

theorem membership_send (h : e.isRelayed = false) :
    (s.send tx e).membership = s.membership.send tx e := by
  unfold membership send
  congr 1
  funext tx'
  by_cases he : tx' = tx
  · subst he
    simp [h]
  · simp [he]

theorem membership_relay (h : e.isRelayed = true) : (s.send tx e).membership = s.membership := by
  unfold membership send
  congr 1
  funext tx'
  by_cases he : tx' = tx
  · subst he
    simp [h]
  · simp [he]

theorem membership_enter (roomId connId : String) : s.membership.enter roomId connId =
    ((s.enter roomId connId).1, (s.enter roomId connId).2.membership) := by
  unfold enter entry
  cases hroom : HashMap.get s.rooms roomId with
  | none => simp [membership, hroom, Room.new]
  | some room =>
    cases hcreator : room.creatorId <;> simp [membership, hroom, hcreator]

theorem membership_expireRoom (id : String) :
    (s.expireRoom id).membership = s.membership.expireRoom id := by
  unfold expireRoom
  cases hroom : HashMap.get s.rooms id with
  | none => simp [membership, hroom]
  | some room =>
    rw [membership_send _ rfl]
    simp [membership, hroom]

/-! ## Removing rooms -/

/-- The order in which rooms are removed does not matter. -/
theorem expireRoom_comm (id id' : String) :
    (s.expireRoom id).expireRoom id' = (s.expireRoom id').expireRoom id := by
  by_cases he : id = id'
  · rw [he]
  · have he' : id' ≠ id := Ne.symm he
    have hget : ∀ {i j : String}, i ≠ j → HashMap.get (HashMap.remove s.rooms i) j =
        HashMap.get s.rooms j := fun h => HashMap.get_remove_of_ne (Ne.symm h)
    unfold expireRoom
    cases hroom : HashMap.get s.rooms id with
    | none =>
      cases hroom' : HashMap.get s.rooms id' with
      | none => simp [hroom]
      | some room' => simp [hget he', hroom]
    | some room =>
      cases hroom' : HashMap.get s.rooms id' with
      | none => simp [hget he, hroom', hroom]
      | some room' =>
        simp only [send_rooms, hget he, hget he', hroom, hroom']
        unfold send
        congr 1
        · exact AList.ext (List.kerase_kerase ..)
        · funext tx
          by_cases htx : tx = room.tx <;> by_cases htx' : tx = room'.tx <;>
            by_cases hsame : room.tx = room'.tx <;> simp_all [Function.update_apply]

theorem foldl_expireRoom_perm {ids ids' : List String} (h : ids.Perm ids') :
    ids.foldl expireRoom s = ids'.foldl expireRoom s := by
  have : RightCommutative expireRoom := ⟨fun s id id' => expireRoom_comm s id id'⟩
  exact h.foldl_eq s

/-- Removing rooms has nothing to do with the table. -/
theorem expireRoom_db (db : Db.Rooms) (id : String) :
    ({ s with db } : AppState).expireRoom id = { s.expireRoom id with db } := by
  unfold expireRoom
  cases HashMap.get s.rooms id <;> simp [send]

theorem foldl_expireRoom_db (db : Db.Rooms) (ids : List String) : ∀ s : AppState,
    ids.foldl expireRoom { s with db } = { ids.foldl expireRoom s with db } := by
  induction ids with
  | nil => intro s; rfl
  | cons id ids ih =>
    intro s
    rw [List.foldl_cons, expireRoom_db, ih]
    rfl

theorem db_foldl_expireRoom (ids : List String) : ∀ s : AppState,
    (ids.foldl expireRoom s).db = s.db := by
  induction ids with
  | nil => intro s; rfl
  | cons id ids ih =>
    intro s
    rw [List.foldl_cons, ih]
    unfold expireRoom
    split <;> rfl

end AppState

namespace Store

variable {s s' : Store} {op : Op}

/-! ## While `join` holds the lock -/

/-- The room of a newcomer that is about to be inserted, since its snapshot: nobody came or went. -/
structure Waiting (s : Store) (c : String) (r : Receipt) (t : Ticket) (room : Room) : Prop where
  conn : s.conns c = .attached t
  found : s.room t.room = some room
  seats : HashMap.len room.participants < maxParticipants
  tx : r.receiver.tx = room.tx
  peers : r.peers.Perm room.peers
  next : r.receiver.next ≤ (s.log room.tx).length
  relayed : ∀ e ∈ (s.log room.tx).drop r.receiver.next, e.isRelayed = true

def Unmoved (s : Store) : Prop := ∀ c r, s.lock = .joining c r → ∃ t room, s.Waiting c r t room

theorem Unmoved.of_lock (h : ∀ c r, s.lock ≠ .joining c r) : s.Unmoved :=
  fun c r hlock => absurd hlock (h c r)

/-- A step that neither changes the map nor moves a connection, and sends relayed events alone. -/
theorem Unmoved.keep (h : s.Unmoved) (hlock : s'.lock = s.lock) (hconns : s'.conns = s.conns)
    (hrooms : s'.app.rooms = s.app.rooms)
    (hlog : ∀ tx, ∃ more, s'.log tx = s.log tx ++ more ∧ ∀ e ∈ more, e.isRelayed = true) :
    s'.Unmoved := by
  intro c r hl
  obtain ⟨t, room, hw⟩ := h c r (hlock ▸ hl)
  obtain ⟨more, hmore, hrelayed⟩ := hlog room.tx
  refine ⟨t, room, ⟨?_, ?_, hw.seats, hw.tx, hw.peers, ?_, ?_⟩⟩
  · rw [hconns]; exact hw.conn
  · rw [Store.room, hrooms]; exact hw.found
  · rw [hmore, List.length_append]; exact Nat.le_add_right_of_le hw.next
  · intro e he
    rw [hmore, List.drop_append_of_le_length hw.next] at he
    exact (List.mem_append.mp he).elim (hw.relayed e) (hrelayed e)

theorem Unmoved.step (h : s.Unmoved) (hs : Step s op s') : s'.Unmoved := by
  have hsame : ∀ tx, ∃ more, s.log tx = s.log tx ++ more ∧ ∀ e ∈ more, e.isRelayed = true :=
    fun tx => ⟨[], (List.append_nil _).symm, by simp⟩
  have hfree : ∀ {s₁ : Store}, s₁.lock = .free → s₁.Unmoved := by
    intro s₁ hlock
    exact .of_lock fun c r hl => by rw [hlock] at hl; cases hl
  cases hs with
  | idle => exact h
  | created => exact h.keep rfl rfl rfl hsame
  | touched => exact h.keep rfl rfl rfl hsame
  | turnedAway hlock => exact hfree hlock
  | attaching => exact .of_lock fun c r hl => by cases hl
  | enteredNew => exact hfree rfl
  | entered => exact hfree rfl
  | refused hlock => exact hfree hlock
  | @subscribed c participant peers t room hlock hc hroom hlen hpeers =>
    intro c' r hl
    cases hl
    refine ⟨t, room, hc, hroom, hlen, rfl, hpeers, Nat.le_refl _, ?_⟩
    intro e he
    have hnil : (s.log room.tx).drop (s.log room.tx).length = [] := List.drop_length
    rw [show (s.app.subscribe room).next = (s.log room.tx).length from rfl] at he
    exact absurd (hnil ▸ he) List.not_mem_nil
  | admitted => exact hfree rfl
  | detachedGone hlock => exact hfree hlock
  | detached hlock => exact hfree hlock
  | left hlock => exact hfree hlock
  | deleted => exact .of_lock fun c r hl => by cases hl
  | removed => exact .of_lock fun c r hl => by cases hl
  | skipped => exact .of_lock fun c r hl => by cases hl
  | done => exact hfree rfl
  | @published c t r event hc hsender hrelayed =>
    refine h.keep rfl rfl rfl fun tx => ?_
    by_cases htx : tx = t.tx
    · subst htx
      exact ⟨[event], AppState.send_channels_self .., by simp [hrelayed]⟩
    · exact ⟨[], by rw [List.append_nil]; exact AppState.send_channels_of_ne _ htx _, by simp⟩

/-- The subscription of a newcomer, among the events that are not relayed, is at their end. -/
theorem Waiting.receiver {c : String} {r : Receipt} {t : Ticket} {room : Room}
    (h : s.Waiting c r t room) :
    s.membershipReceiver r.receiver = s.app.membership.subscribe room := by
  have hall : (s.log room.tx).filter (fun e => !e.isRelayed) =
      ((s.log room.tx).take r.receiver.next).filter fun e => !e.isRelayed := by
    conv_lhs => rw [← List.take_append_drop r.receiver.next (s.log room.tx), List.filter_append]
    rw [List.append_right_eq_self, List.filter_eq_nil_iff]
    intro e he
    simp [h.relayed e he]
  rw [membershipReceiver, h.tx, ← hall]
  rfl

/-! ## Every step is the calls it serves -/

theorem settled_of_lock (h : ∀ ids, s.lock ≠ .expiring ids) : s.settled = s.app.membership := by
  unfold settled
  split
  · rename_i ids hlock; exact absurd hlock (h ids)
  · rfl

theorem settled_free (h : s.lock = .free) : s.settled = s.app.membership :=
  settled_of_lock fun ids hlock => by rw [h] at hlock; cases hlock

theorem settled_db : s.settled.db = s.app.db := by
  unfold settled
  split
  · exact AppState.db_foldl_expireRoom _ _
  · rfl

/-- A statement on the table alone, which runs beside whatever holds the lock. -/
theorem settled_withDb (db : Db.Rooms) (created : String → Option (Option String)) :
    ({ s with app := { s.app with db }, created } : Store).settled = { s.settled with db } := by
  unfold settled
  dsimp only
  split
  · exact AppState.foldl_expireRoom_db db _ s.app.membership
  · rfl

theorem settled_congr (hlock : s'.lock = s.lock)
    (happ : s'.app.membership = s.app.membership) : s'.settled = s.settled := by
  unfold settled
  rw [hlock, happ]

theorem execute_legal {result : Except SqlxError Db.Rooms} {c : Call}
    (hc : c.apply s.settled = s.settled.execute result)
    (hs : s'.settled = (s.settled.execute result).2) :
    Linear.Legal Call.apply s.settled [(c, .done (result.map fun _ => ()))] s'.settled := by
  refine .single ?_
  rw [hc, hs]
  cases result <;> rfl

theorem served_createRoom {id : String} {passwordHash : Option String} {now : Int} {fault : Bool}
    (h : s.createRoom id passwordHash now fault = some s') :
    Linear.Legal Call.apply s.settled (s.served (.createRoom id passwordHash now fault))
      s'.settled := by
  refine execute_legal (by rw [Call.apply, settled_db]) ?_
  unfold createRoom at h
  split at h
  · cases h
  · split at h
    · rename_i e he
      cases h
      rw [he]
      rfl
    · rename_i db hdb
      cases h
      rw [hdb]
      exact settled_withDb db _

theorem served_updateActivity {id : String} {now : Int} {fault : Bool} :
    Linear.Legal Call.apply s.settled (s.served (.updateActivity id now fault))
      (s.updateActivity id now fault).settled := by
  refine execute_legal (by rw [Call.apply, settled_db]) ?_
  unfold updateActivity
  split
  · rename_i e he
    rw [he]
    rfl
  · rename_i db hdb
    rw [hdb]
    exact settled_withDb db _

theorem served_attachSelect {c id : String} {fault : Bool}
    (h : s.attachSelect c id fault = some s') :
    Linear.Legal Call.apply s.settled (s.served (.attachSelect c id fault)) s'.settled := by
  unfold attachSelect at h
  split at h
  · rename_i hlock hc
    have hsettled : (s.setConn c (.turnedAway id)).settled = s.settled := settled_congr rfl rfl
    cases hexists : Db.roomExists s.app.db id fault with
    | error e =>
      rw [hexists] at h
      cases h
      rw [hsettled, served, hexists]
      refine .single ?_
      simp only [Call.apply, AppState.attach, settled_db, hexists]
    | ok found =>
      rw [hexists] at h
      cases found with
      | false =>
        cases h
        rw [hsettled, served, hexists]
        refine .single ?_
        simp only [Call.apply, AppState.attach, settled_db, hexists]
      | true =>
        cases h
        have hsame : ({ s with lock := .attaching id c } : Store).settled = s.settled := by
          rw [settled_free hlock]
          rfl
        rw [hsame, served, hexists]
        exact .nil
  · cases h

theorem served_attachInsert (hrows : RowsInv s) (h : s.attachInsert = some s') :
    Linear.Legal Call.apply s.settled (s.served .attachInsert) s'.settled := by
  unfold attachInsert at h
  split at h
  · rename_i id c hlock
    cases h
    have hexists : Db.roomExists s.app.db id false = .ok true := by
      have hrow : (HashMap.get s.app.db id).isSome = true := (hrows.attaching id c hlock).1
      simp only [Db.roomExists, Db.statement, HashMap.containsKey, hrow]
      rfl
    have hsettled : s.settled = s.app.membership :=
      settled_of_lock fun ids hl => by rw [hlock] at hl; cases hl
    have hexists' : Db.roomExists s.app.membership.db id false = .ok true := hexists
    rw [served, hlock, hsettled]
    refine .single ?_
    change _ = (_, AppState.membership _)
    simp only [Call.apply, AppState.attach, hexists', AppState.membership_enter]
    rfl
  · cases h

theorem served_joinSubscribe {c : String} {participant : Participant} {peers : PeerSnapshot}
    (h : s.joinSubscribe c participant peers = some s') :
    Linear.Legal Call.apply s.settled (s.served (.joinSubscribe c participant peers))
      s'.settled := by
  unfold joinSubscribe at h
  split at h
  · rename_i t hlock hc
    have hsettled : ∀ conn, (s.setConn c conn).settled = s.settled := fun _ => settled_congr rfl rfl
    have hrooms : HashMap.get s.settled.rooms t.room = s.room t.room := by
      rw [settled_free hlock]; rfl
    rw [served, hc]
    dsimp only at h ⊢
    cases hroom : s.room t.room with
    | none =>
      simp only [hroom] at h
      cases h
      rw [hsettled]
      refine .single ?_
      simp only [Call.apply, AppState.join, hrooms, hroom, Answer.ofJoin]
    | some room =>
      simp only [hroom] at h
      split at h
      · rename_i hfull
        cases h
        rw [hsettled]
        simp only [hfull, if_true]
        refine .single ?_
        simp only [Call.apply, AppState.join, hrooms, hroom, hfull, if_true, Answer.ofJoin]
      · rename_i hlen
        split at h
        · cases h
          simp only [hlen, if_false]
          rw [settled_free hlock]
          exact .nil
        · cases h
  · cases h

theorem served_joinInsert (hu : s.Unmoved) (h : s.joinInsert = some s') :
    Linear.Legal Call.apply s.settled (s.served .joinInsert) s'.settled := by
  unfold joinInsert at h
  split at h
  · rename_i c r hlock
    obtain ⟨t, room, hw⟩ := hu c r hlock
    have hfound : HashMap.get s.app.rooms t.room = some room := hw.found
    have hsettled : s.settled = s.app.membership :=
      settled_of_lock fun ids hl => by rw [hlock] at hl; cases hl
    rw [hw.conn] at h
    dsimp only at h
    rw [hw.found] at h
    cases h
    rw [served, hlock, hsettled]
    dsimp only
    rw [hw.conn]
    refine .single ?_
    change _ = (_, AppState.membership _)
    have hpeers : (r.peers : Multiset Peer) = room.peers := Multiset.coe_eq_coe.mpr hw.peers
    have hroom : HashMap.get s.app.membership.rooms t.room = some room := hfound
    simp only [Call.apply, AppState.join, hroom, Nat.not_le.mpr hw.seats, if_false, Answer.ofJoin,
      hw.receiver, hpeers, AppState.addParticipant, hfound]
    rw [AppState.membership_send _ rfl]
    rfl
  · cases h

theorem served_detach {c : String} (h : s.detach c = some s') :
    Linear.Legal Call.apply s.settled (s.served (.detach c)) s'.settled := by
  unfold detach at h
  split at h
  · rename_i t hlock hc
    cases h
    rw [served, hc, settled_free hlock]
    refine .single ?_
    have hdetach : (s.app.detach t.room c).membership = s.app.membership.detach t.room c := by
      unfold AppState.detach
      cases hroom : HashMap.get s.app.rooms t.room with
      | none => simp [AppState.membership, hroom]
      | some room =>
        by_cases hin : HashMap.containsKey room.participants c
        · have hroom' : HashMap.get s.app.membership.rooms t.room = some room := hroom
          simp only [hroom', hin, if_true]
          rw [AppState.membership_send _ rfl]
          rfl
        · simp [AppState.membership, hroom, hin]
    rw [Call.apply, ← hdetach, settled_free (by exact hlock)]
  · cases h

theorem served_expireDelete {now threshold : Int} {ids : List String} {fault : Bool}
    (h : s.expireDelete now threshold ids fault = some s') :
    Linear.Legal Call.apply s.settled (s.served (.expireDelete now threshold ids fault))
      s'.settled := by
  unfold expireDelete at h
  split at h
  · rename_i hlock
    rw [served, settled_free hlock]
    refine .single ?_
    cases fault with
    | true =>
      simp only [Db.deleteInactiveRooms, Db.statement, if_true, Option.some.injEq] at h
      subst h
      simp only [Call.apply, AppState.expireInactiveRooms, Db.deleteInactiveRooms, Db.statement,
        if_true, Answer.ofExpire, settled_free hlock]
    | false =>
      simp only [Db.deleteInactiveRooms, Db.statement, Bool.false_eq_true, if_false] at h
      split at h
      · rename_i hperm
        cases h
        have hids := List.isPerm_iff.mp hperm
        have hcoe : (ids : Multiset String) =
            Db.inactive s.app.db (Db.cutoff now threshold) := Multiset.coe_eq_coe.mpr hids
        simp only [Call.apply, AppState.expireInactiveRooms, Db.deleteInactiveRooms, Db.statement,
          Bool.false_eq_true, if_false, Answer.ofExpire, settled, hcoe]
        rw [AppState.foldl_expireRoom_perm _ hids]
        rfl
      · cases h
  · cases h

theorem served_expireRemove (h : s.expireRemove = some s') : s'.settled = s.settled := by
  unfold expireRemove at h
  split at h
  · rename_i id ids hlock
    cases h
    simp only [settled, hlock, AppState.membership_expireRoom, List.foldl_cons]
  · cases h

/-- A step is the calls that take effect with it. -/
theorem served_legal (hrows : RowsInv s) (hu : s.Unmoved) (h : s.step op = some s') :
    Linear.Legal Call.apply s.settled (s.served op) s'.settled := by
  have hnone : ∀ {s₁ : Store}, s₁.settled = s.settled →
      Linear.Legal Call.apply s.settled [] s₁.settled := by
    intro s₁ hsame
    rw [hsame]
    exact .nil
  cases op with
  | createRoom id passwordHash now fault => exact served_createRoom h
  | roomPassword id fault =>
    cases h
    exact .single (by rw [Call.apply, settled_db])
  | updateActivity id now fault => cases h; exact served_updateActivity
  | attachSelect c id fault => exact served_attachSelect h
  | attachInsert => exact served_attachInsert hrows h
  | joinSubscribe c participant peers => exact served_joinSubscribe h
  | joinInsert => exact served_joinInsert hu h
  | detach c => exact served_detach h
  | expireDelete now threshold ids fault => exact served_expireDelete h
  | expireRemove => exact hnone (served_expireRemove h)
  | expireDone =>
    simp only [step, expireDone] at h
    split at h
    · rename_i hlock
      cases h
      exact hnone (by simp [settled, hlock])
    · cases h
  | publish c event =>
    simp only [step, publish] at h
    split at h
    · split at h
      · rename_i hevent
        cases h
        exact hnone (settled_congr rfl (AppState.membership_relay _ hevent.2))
      · cases h
    · cases h

/-! ## What the connections hold was served -/

/-- The answers a connection holds are in the history. -/
structure Holds (s : Store) (history : List (Call × Answer)) (c : String) : Prop where
  turnedAway : ∀ id, s.conns c = .turnedAway id → ∃ fault result,
    (.attach id c fault, .attached result) ∈ history ∧
      (result = .ok none ∨ ∃ e, result = .error e)
  attached : ∀ t, (s.conns c).ticket = some t →
    (.attach t.room c false, .attached (.ok (some t.toAttached))) ∈ history
  joined : ∀ t r, (s.conns c).ticket = some t → (s.conns c).receipt = some r →
    (.join t.room c r.participant, .joined (s.membershipReceiver r.receiver) r.peers) ∈ history
  full : ∀ t, s.conns c = .refused t .full →
    ∃ participant, (.join t.room c participant, .full) ∈ history
  roomGone : ∀ t, s.conns c = .refused t .roomGone →
    ∃ participant, (.join t.room c participant, .roomGone) ∈ history

theorem holds_start (db : Db.Rooms) (c : String) : (start db).Holds [] c where
  turnedAway id h := by cases h
  attached t h := by cases h
  joined t r h := by cases h
  full t h := by cases h
  roomGone t h := by cases h

theorem membershipReceiver_grows (hgrow : ∀ tx, s.log tx <+: s'.log tx) {rx : Receiver}
    (hrx : rx.next ≤ (s.log rx.tx).length) :
    s'.membershipReceiver rx = s.membershipReceiver rx := by
  obtain ⟨more, hmore⟩ := hgrow rx.tx
  rw [membershipReceiver, membershipReceiver, ← hmore, List.take_append_of_le_length hrx]

/-- A connection that does not move, in a history that grows. -/
theorem Holds.keep {history more : List (Call × Answer)} {c : String} (h : s.Holds history c)
    (hinv : s.Inv) (hgrow : ∀ tx, s.log tx <+: s'.log tx) (hc : s'.conns c = s.conns c) :
    s'.Holds (history ++ more) c where
  turnedAway id hid := by
    obtain ⟨fault, result, hmem, hresult⟩ := h.turnedAway id (hc ▸ hid)
    exact ⟨fault, result, List.mem_append_left _ hmem, hresult⟩
  attached t ht := List.mem_append_left _ (h.attached t (hc ▸ ht))
  joined t r ht hr := by
    rw [hc] at ht hr
    have hadm := hinv.logs.admitted c t r ht hr
    rw [membershipReceiver_grows hgrow (hadm.tx ▸ hadm.next)]
    exact List.mem_append_left _ (h.joined t r ht hr)
  full t ht := (h.full t (hc ▸ ht)).imp fun _ hmem => List.mem_append_left _ hmem
  roomGone t ht := (h.roomGone t (hc ▸ ht)).imp fun _ hmem => List.mem_append_left _ hmem

/-- A detached connection keeps what it held. -/
theorem Holds.detached {history more : List (Call × Answer)} {c : String} {t : Ticket}
    {expired : Bool} (h : s.Holds history c) (hinv : s.Inv)
    (hgrow : ∀ tx, s.log tx <+: s'.log tx) (ht : (s.conns c).present = some t)
    (hc : s'.conns c = .detached t (s.conns c).receipt expired) :
    s'.Holds (history ++ more) c where
  turnedAway id hid := by rw [hc] at hid; cases hid
  attached t' ht' := by
    rw [hc] at ht'
    cases ht'
    exact List.mem_append_left _ (h.attached t (present_ticket ht))
  joined t' r ht' hr := by
    rw [hc] at ht' hr
    cases ht'
    have hadm := hinv.logs.admitted c t r (present_ticket ht) hr
    rw [membershipReceiver_grows hgrow (hadm.tx ▸ hadm.next)]
    exact List.mem_append_left _ (h.joined t r (present_ticket ht) hr)
  full t' ht' := by rw [hc] at ht'; cases ht'
  roomGone t' ht' := by rw [hc] at ht'; cases ht'

/-- What `enter` gave, as the connection has it. -/
theorem served_entered {id c : String} (hlock : s.lock = .attaching id c)
    (h : s.step .attachInsert = some s') {t : Ticket} (hc : s'.conns c = .attached t) :
    (.attach t.room c false, .attached (.ok (some t.toAttached))) ∈ s.served .attachInsert := by
  simp only [step, attachInsert, hlock, Option.some.injEq] at h
  subst h
  dsimp only at hc
  rw [Function.update_self] at hc
  cases hc
  simp only [served, hlock, List.mem_singleton]

/-- What `attach` answered a connection that got nowhere. -/
theorem served_turnedAway {id c : String} {fault : Bool} (hrow : fault = true ∨ s.row id = none) :
    ∃ result, (.attach id c fault, .attached result) ∈ s.served (.attachSelect c id fault) ∧
      (result = .ok none ∨ ∃ e, result = .error e) := by
  cases fault with
  | true => exact ⟨_, List.mem_singleton_self _, .inr ⟨_, rfl⟩⟩
  | false =>
    have hnone : HashMap.get s.app.db id = none := hrow.resolve_left (by simp)
    have hexists : Db.roomExists s.app.db id false = .ok false := by
      simp [Db.roomExists, Db.statement, HashMap.containsKey, hnone]
    refine ⟨.ok none, ?_, .inl rfl⟩
    simp only [served, hexists, List.mem_singleton]

theorem Holds.step {history : List (Call × Answer)} (h : ∀ c, s.Holds history c) (hinv : s.Inv)
    (hs : s.step op = some s') (c : String) : s'.Holds (history ++ s.served op) c := by
  have hgrow : ∀ tx, s.log tx <+: s'.log tx := (step_cases hs).log_grows
  have hkeep : s'.conns c = s.conns c → s'.Holds (history ++ s.served op) c :=
    fun hc => (h c).keep hinv hgrow hc
  -- a connection that moves, with what it holds then
  have hmove : ∀ {c₀ : String} {conn : Conn}, s'.conns = Function.update s.conns c₀ conn →
      (c₀ = c → s'.conns c = conn → s'.Holds (history ++ s.served op) c) →
        s'.Holds (history ++ s.served op) c := by
    intro c₀ conn hconns hmoved
    by_cases he : c = c₀
    · exact hmoved he.symm (by rw [hconns, he, Function.update_self])
    · exact hkeep (by rw [hconns, Function.update_of_ne he])
  cases step_cases hs with
  | turnedAway hlock hc hrow =>
    refine hmove rfl fun he hc' => ?_
    subst he
    refine ⟨fun id' hid => ?_, by simp [hc', Conn.ticket], by simp [hc', Conn.ticket],
      by simp [hc'], by simp [hc']⟩
    rw [hc'] at hid
    cases hid
    obtain ⟨result, hmem, hresult⟩ := served_turnedAway hrow
    exact ⟨_, result, List.mem_append_right _ hmem, hresult⟩
  | enteredNew hlock hroom =>
    refine hmove rfl fun he hc' => ?_
    subst he
    refine ⟨by simp, fun t ht => ?_, by simp [Conn.receipt], by simp, by simp⟩
    rw [hc'] at ht
    cases ht
    exact List.mem_append_right _ (served_entered hlock hs hc')
  | entered hlock hroom hputs =>
    refine hmove rfl fun he hc' => ?_
    subst he
    refine ⟨by simp, fun t ht => ?_, by simp [Conn.receipt], by simp, by simp⟩
    rw [hc'] at ht
    cases ht
    exact List.mem_append_right _ (served_entered hlock hs hc')
  | @refused c₀ participant peers t why hlock hc hroom =>
    refine hmove rfl fun he hc' => ?_
    subst he
    have hserved : ∀ a, (Call.join t.room c₀ participant, a) ∈
        s.served (.joinSubscribe c₀ participant peers) → ∃ p, (Call.join t.room c₀ p, a) ∈
          history ++ s.served (.joinSubscribe c₀ participant peers) :=
      fun a ha => ⟨participant, List.mem_append_right _ ha⟩
    refine ⟨by simp [hc'], fun t' ht => ?_, by simp [hc', Conn.receipt], fun t' ht => ?_,
      fun t' ht => ?_⟩
    · rw [hc'] at ht
      cases ht
      exact List.mem_append_left _ ((h c₀).attached t (by rw [hc]; rfl))
    · rw [hc'] at ht
      cases ht
      rcases hroom with ⟨hwhy, -⟩ | ⟨-, room, hroom, hfull⟩
      · cases hwhy
      · exact hserved _ (by simp [served, hc, hroom, hfull])
    · rw [hc'] at ht
      cases ht
      rcases hroom with ⟨-, hroom⟩ | ⟨hwhy, -⟩
      · exact hserved _ (by simp [served, hc, hroom])
      · cases hwhy
  | @admitted c₀ r t room hlock hc hroom =>
    refine hmove rfl fun he hc' => ?_
    subst he
    refine ⟨by simp, fun t' ht => ?_, fun t' r' ht hr => ?_, by simp, by simp⟩
    · rw [hc'] at ht
      cases ht
      exact List.mem_append_left _ ((h c₀).attached t (by rw [hc]; rfl))
    · rw [hc'] at ht hr
      cases ht
      cases hr
      obtain ⟨u, room', hsub⟩ := hinv.members.joining c₀ r hlock
      rw [membershipReceiver_grows hgrow (hsub.tx ▸ hsub.next)]
      exact List.mem_append_right _ (by simp [served, hlock, hc])
  | detachedGone hlock hc hroom =>
    refine hmove rfl fun he hc' => ?_
    subst he
    exact (h _).detached hinv hgrow hc hc'
  | detached hlock hc hroom hout =>
    refine hmove rfl fun he hc' => ?_
    subst he
    exact (h _).detached hinv hgrow hc hc'
  | left hlock hc hroom hin =>
    refine hmove rfl fun he hc' => ?_
    subst he
    exact (h _).detached hinv hgrow hc hc'
  | _ => exact hkeep rfl

/-- A run of the store is a run of the sequential store, which returned what the connections hold. -/
structure Linearizes (db : Db.Rooms) (s : Store) (history : List (Call × Answer)) : Prop where
  legal : Linear.Legal Call.apply (.new db) history s.settled
  holds : ∀ c, s.Holds history c

/-- **The lock makes the operations atomic.** In every run, with statements that fail, relays and
removals in between, the answers are those of the functions of `state.rs` called one after the
other, each somewhere between its first and its last step. -/
theorem linearizable (db : Db.Rooms) {ops : List Op} {s : Store}
    (h : Machine.run step (start db) ops = some s) :
    Linearizes db s (Machine.emitted step served (start db) ops) where
  legal := by
    have hlegal : Linear.Legal Call.apply (start db).settled
        (Machine.emitted step served (start db) ops) s.settled :=
      Linear.legal_run (I := fun s => s.Inv ∧ s.Unmoved)
        ⟨inv_start db, .of_lock fun c r hl => by cases hl⟩
        (fun s op s' hI hs => ⟨hI.1.step (step_cases hs), hI.2.step (step_cases hs)⟩)
        (fun s op s' hI hs => served_legal hI.1.rows hI.2 hs) h
    exact hlegal
  holds := by
    refine (Machine.run_induction
      (motive := fun ops s => s.Inv ∧ ∀ c, s.Holds (Machine.emitted step served (start db) ops) c)
      ⟨inv_start db, holds_start db⟩ ?_ h).2
    intro ops s op s' hrun hs ⟨hinv, hholds⟩
    refine ⟨hinv.step (step_cases hs), fun c => ?_⟩
    rw [Machine.emitted_snoc hrun]
    exact Holds.step hholds hinv hs c

/-- `b` takes its snapshot, `a` relays, and only then is `b` announced. `c` asks for a room that is not
there. -/
def relayedBetween : List Op :=
  attaches "a" ++ attaches "b" ++ joins "a" [] ++
    [.joinSubscribe "b" announced [seenAs "a"], .publish "a" (.typing "a"), .joinInsert,
      .attachSelect "c" "elsewhere" false]

theorem linearizable_relayedBetween : ∃ s, Machine.run step (start openRoom) relayedBetween = some s ∧
    Linearizes openRoom s (Machine.emitted step served (start openRoom) relayedBetween) ∧
      (s.log 0).map RoomEvent.isRelayed = [false, true, false] := by
  have hrun : ∃ s, Machine.run step (start openRoom) relayedBetween = some s ∧
      (s.log 0).map RoomEvent.isRelayed = [false, true, false] :=
    ⟨_, rfl, by decide +kernel⟩
  obtain ⟨s, hs, hlog⟩ := hrun
  exact ⟨s, hs, linearizable openRoom hs, hlog⟩

end Store
end Parrhesia
