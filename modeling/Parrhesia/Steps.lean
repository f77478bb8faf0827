import Parrhesia.Store

/-!
# Parrhesia.Steps

What a step of the store can do, case by case, with everything it required. `step_cases` reads a
`Step` off the step function; the invariants are proved by cases on it.

`attach_run`, `join_run` and `expire_run` say that the pieces of an operation, taken one after the
other, are the operation as the source has it.
-/

namespace Parrhesia

open Lib

namespace Store

/-- The map `rooms'` is `rooms` with `room` at `id`. -/
def Puts (rooms rooms' : HashMap String Room) (id : String) (room : Room) : Prop :=
  ∀ id', HashMap.get rooms' id' = if id' = id then some room else HashMap.get rooms id'

/-- The calls that may leave everything as it was. -/
def Op.mayIdle : Op → Bool
  | .createRoom .. => true
  | .roomPassword .. => true
  | .updateActivity .. => true
  | .expireDelete _ _ _ fault => fault
  | _ => false

inductive Step (s : Store) : Op → Store → Prop
  | idle {op : Op} (hop : op.mayIdle = true) : Step s op s
  | created {id passwordHash now} (hnew : s.created id = none) (hrow : s.row id = none) :
      Step s (.createRoom id passwordHash now false)
        { s with app := { s.app with db := HashMap.insert s.app.db id ⟨now, now, passwordHash⟩ },
                 created := Function.update s.created id (some passwordHash) }
  | touched {id now row} (hrow : s.row id = some row) :
      Step s (.updateActivity id now false)
        { s with app := { s.app with
            db := HashMap.insert s.app.db id { row with lastActivity := now } } }
  | turnedAway {c id fault} (hlock : s.lock = .free) (hc : s.conns c = .fresh)
      (hrow : fault = true ∨ s.row id = none) :
      Step s (.attachSelect c id fault) (s.setConn c (.turnedAway id))
  | attaching {c id row} (hlock : s.lock = .free) (hc : s.conns c = .fresh)
      (hrow : s.row id = some row) :
      Step s (.attachSelect c id false) { s with lock := .attaching id c }
  | enteredNew {c id} (hlock : s.lock = .attaching id c) (hroom : s.room id = none) :
      Step s .attachInsert
        { s with
          app := { s.app with
            rooms := HashMap.insert s.app.rooms id ⟨s.app.nextChannel, some c, ∅⟩,
            nextChannel := s.app.nextChannel + 1 },
          lock := .free,
          conns := Function.update s.conns c
            (.attached ⟨⟨s.app.nextChannel, true, some c⟩, id⟩) }
  | entered {c id room rooms'} (hlock : s.lock = .attaching id c) (hroom : s.room id = some room)
      (hputs : Puts s.app.rooms rooms' id
        { room with creatorId := some (room.creatorId.getD c) }) :
      Step s .attachInsert
        { s with
          app := { s.app with rooms := rooms' },
          lock := .free,
          conns := Function.update s.conns c
            (.attached ⟨⟨room.tx, room.creatorId.isNone, some (room.creatorId.getD c)⟩, id⟩) }
  | refused {c participant peers t why} (hlock : s.lock = .free) (hc : s.conns c = .attached t)
      (hroom : why = .roomGone ∧ s.room t.room = none ∨
        why = .full ∧ ∃ room, s.room t.room = some room ∧
          maxParticipants ≤ HashMap.len room.participants) :
      Step s (.joinSubscribe c participant peers) (s.setConn c (.refused t why))
  | subscribed {c participant peers t room} (hlock : s.lock = .free)
      (hc : s.conns c = .attached t) (hroom : s.room t.room = some room)
      (hlen : HashMap.len room.participants < maxParticipants) (hpeers : peers.Perm room.peers) :
      Step s (.joinSubscribe c participant peers)
        { s with lock := .joining c ⟨participant, s.app.subscribe room, peers⟩ }
  | admitted {c r t room} (hlock : s.lock = .joining c r) (hc : s.conns c = .attached t)
      (hroom : s.room t.room = some room) :
      Step s .joinInsert
        { s with
          app := { s.app with
            rooms := HashMap.insert s.app.rooms t.room (room.with c r.participant) }.send room.tx
              (.peerJoined c r.participant.publicKey r.participant.pqPublicKey r.participant.sig),
          lock := .free,
          conns := Function.update s.conns c (.joined t r) }
  | detachedGone {c t} (hlock : s.lock = .free) (hc : (s.conns c).present = some t)
      (hroom : s.room t.room = none) :
      Step s (.detach c)
        (s.setConn c
          (.detached t (s.conns c).receipt (decide (RoomEvent.roomExpired ∈ s.log t.tx))))
  | detached {c t room} (hlock : s.lock = .free) (hc : (s.conns c).present = some t)
      (hroom : s.room t.room = some room) (hout : HashMap.get room.participants c = none) :
      Step s (.detach c)
        { s with
          app := { s.app with rooms := HashMap.insert s.app.rooms t.room (room.without c) },
          conns := Function.update s.conns c
            (.detached t (s.conns c).receipt (decide (RoomEvent.roomExpired ∈ s.log t.tx))) }
  | left {c t room p} (hlock : s.lock = .free) (hc : (s.conns c).present = some t)
      (hroom : s.room t.room = some room) (hin : HashMap.get room.participants c = some p) :
      Step s (.detach c)
        { s with
          app := { s.app with
            rooms := HashMap.insert s.app.rooms t.room (room.without c) }.send room.tx (.peerLeft c),
          conns := Function.update s.conns c
            (.detached t (s.conns c).receipt (decide (RoomEvent.roomExpired ∈ s.log t.tx))) }
  | deleted {now threshold ids} (hlock : s.lock = .free)
      (hids : ids.Perm (Db.inactive s.app.db (Db.cutoff now threshold))) :
      Step s (.expireDelete now threshold ids false)
        { s with
          app := { s.app with db := Db.active s.app.db (Db.cutoff now threshold) },
          lock := .expiring ids }
  | removed {id ids room} (hlock : s.lock = .expiring (id :: ids)) (hroom : s.room id = some room) :
      Step s .expireRemove
        { s with
          app := { s.app with rooms := HashMap.remove s.app.rooms id }.send room.tx .roomExpired,
          lock := .expiring ids }
  | skipped {id ids} (hlock : s.lock = .expiring (id :: ids)) (hroom : s.room id = none) :
      Step s .expireRemove { s with lock := .expiring ids }
  | done (hlock : s.lock = .expiring []) : Step s .expireDone { s with lock := .free }
  | published {c t r event} (hc : s.conns c = .joined t r) (hsender : event.sender = some c)
      (hrelayed : event.isRelayed = true) :
      Step s (.publish c event) { s with app := s.app.send t.tx event }

variable {s s' : Store}

theorem createRoom_cases {id : String} {passwordHash : Option String} {now : Int} {fault : Bool}
    (h : s.createRoom id passwordHash now fault = some s') :
    Step s (.createRoom id passwordHash now fault) s' := by
  simp only [createRoom, Db.createRoomWithPassword] at h
  split at h
  · cases h
  · rename_i hnew
    by_cases hrow : HashMap.containsKey s.app.db id = true
    · simp only [hrow, if_true, Option.some.injEq] at h
      subst h; exact .idle rfl
    · simp only [hrow, Bool.false_eq_true, if_false] at h
      cases fault with
      | true => simp only [Db.statement, if_true, Option.some.injEq] at h; subst h; exact .idle rfl
      | false =>
        simp only [Db.statement, Bool.false_eq_true, if_false, Option.some.injEq] at h
        subst h
        refine .created hnew ?_
        simpa [HashMap.containsKey, row] using hrow

theorem updateActivity_cases {id : String} {now : Int} {fault : Bool} :
    Step s (.updateActivity id now fault) (s.updateActivity id now fault) := by
  simp only [updateActivity, Db.updateActivity]
  cases fault with
  | true => exact .idle rfl
  | false =>
    simp only [Db.statement, Bool.false_eq_true, if_false]
    cases hrow : HashMap.get s.app.db id with
    | none => exact .idle rfl
    | some row => exact .touched hrow

theorem attachSelect_cases {c id : String} {fault : Bool} (h : s.attachSelect c id fault = some s') :
    Step s (.attachSelect c id fault) s' := by
  simp only [attachSelect, Db.roomExists] at h
  split at h
  · rename_i hlock hc
    cases fault with
    | true =>
      simp only [Db.statement, if_true, Option.some.injEq] at h
      subst h
      exact .turnedAway hlock hc (.inl rfl)
    | false =>
      simp only [Db.statement, Bool.false_eq_true, if_false, HashMap.containsKey] at h
      cases hrow : HashMap.get s.app.db id with
      | none =>
        simp only [hrow, Option.isSome_none, Option.some.injEq] at h
        subst h
        exact .turnedAway hlock hc (.inr hrow)
      | some row =>
        simp only [hrow, Option.isSome_some, Option.some.injEq] at h
        subst h
        exact .attaching hlock hc hrow
  · cases h

theorem puts_insert (rooms : HashMap String Room) (id : String) (room : Room) :
    Puts rooms (HashMap.insert rooms id room) id room :=
  fun id' => HashMap.get_insert rooms id id' room

theorem puts_self {rooms : HashMap String Room} {id : String} {room : Room}
    (h : HashMap.get rooms id = some room) : Puts rooms rooms id room := by
  intro id'
  split
  · rename_i he; rw [he, h]
  · rfl

theorem attachInsert_cases (h : s.attachInsert = some s') : Step s .attachInsert s' := by
  simp only [attachInsert] at h
  split at h
  · rename_i id c hlock
    simp only [Option.some.injEq] at h
    subst h
    cases hroom : HashMap.get s.app.rooms id with
    | none =>
      have : HashMap.insert (HashMap.insert s.app.rooms id (Room.new s.app.nextChannel)) id
          ⟨s.app.nextChannel, some c, ∅⟩ = HashMap.insert s.app.rooms id
            ⟨s.app.nextChannel, some c, ∅⟩ := AList.insert_insert _
      simp only [AppState.enter, AppState.entry, hroom, Room.new] at this ⊢
      rw [this]
      exact .enteredNew hlock hroom
    | some room =>
      cases hcreator : room.creatorId with
      | none =>
        simp only [AppState.enter, AppState.entry, hroom, hcreator]
        have hstep := Step.entered hlock hroom
          (puts_insert s.app.rooms id { room with creatorId := some (room.creatorId.getD c) })
        simpa only [hcreator, Option.getD_none, Option.isNone_none] using hstep
      | some creator =>
        simp only [AppState.enter, AppState.entry, hroom, hcreator]
        have hself : HashMap.get s.app.rooms id =
            some { room with creatorId := some (room.creatorId.getD c) } := by
          rw [hroom, hcreator, Option.getD_some, ← hcreator]
        have hstep := Step.entered hlock hroom (puts_self hself)
        simpa only [hcreator, Option.getD_some, Option.isNone_some] using hstep
  · cases h

theorem joinSubscribe_cases {c : String} {p : Participant} {peers : PeerSnapshot}
    (h : s.joinSubscribe c p peers = some s') : Step s (.joinSubscribe c p peers) s' := by
  simp only [joinSubscribe] at h
  split at h
  · rename_i t hlock hc
    split at h
    · rename_i hroom
      cases h
      exact .refused hlock hc (.inl ⟨rfl, hroom⟩)
    · rename_i room hroom
      split at h
      · rename_i hfull
        cases h
        exact .refused hlock hc (.inr ⟨rfl, room, hroom, hfull⟩)
      · rename_i hlen
        split at h
        · rename_i hperm
          cases h
          exact .subscribed hlock hc hroom (Nat.not_le.mp hlen) (List.isPerm_iff.mp hperm)
        · cases h
  · cases h

theorem joinInsert_cases (h : s.joinInsert = some s') : Step s .joinInsert s' := by
  simp only [joinInsert] at h
  split at h
  · rename_i c r hlock
    split at h
    · rename_i t hc
      cases hroom : s.room t.room with
      | none => simp [hroom] at h
      | some room =>
        simp only [hroom, Option.isSome_some, if_true, Option.some.injEq] at h
        subst h
        have hget : HashMap.get s.app.rooms t.room = some room := hroom
        simp only [AppState.addParticipant, hget]
        exact .admitted hlock hc hroom
    · cases h
  · cases h

theorem detach_cases {c : String} (h : s.detach c = some s') : Step s (.detach c) s' := by
  simp only [detach] at h
  split at h
  · rename_i t hlock hc
    simp only [Option.some.injEq] at h
    subst h
    cases hroom : HashMap.get s.app.rooms t.room with
    | none =>
      simp only [AppState.detach, hroom]
      exact .detachedGone hlock hc hroom
    | some room =>
      cases hmem : HashMap.get room.participants c with
      | none =>
        simp only [AppState.detach, hroom, HashMap.containsKey, hmem, Option.isSome_none,
          Bool.false_eq_true, if_false]
        exact .detached hlock hc hroom hmem
      | some p =>
        simp only [AppState.detach, hroom, HashMap.containsKey, hmem, Option.isSome_some, if_true]
        exact .left hlock hc hroom hmem
  · cases h

theorem expireDelete_cases {now threshold : Int} {ids : List String} {fault : Bool}
    (h : s.expireDelete now threshold ids fault = some s') :
    Step s (.expireDelete now threshold ids fault) s' := by
  simp only [expireDelete, Db.deleteInactiveRooms] at h
  split at h
  · rename_i hlock
    cases fault with
    | true => simp only [Db.statement, if_true, Option.some.injEq] at h; subst h; exact .idle rfl
    | false =>
      simp only [Db.statement, Bool.false_eq_true, if_false] at h
      split at h
      · rename_i hperm
        cases h
        exact .deleted hlock (List.isPerm_iff.mp hperm)
      · cases h
  · cases h

theorem expireRemove_cases (h : s.expireRemove = some s') : Step s .expireRemove s' := by
  simp only [expireRemove] at h
  split at h
  · rename_i id ids hlock
    cases h
    cases hroom : HashMap.get s.app.rooms id with
    | none => simp only [AppState.expireRoom, hroom]; exact .skipped hlock hroom
    | some room => simp only [AppState.expireRoom, hroom]; exact .removed hlock hroom
  · cases h

/-- Everything a step can do. -/
theorem step_cases {op : Op} (h : step s op = some s') : Step s op s' := by
  cases op with
  | createRoom id passwordHash now fault => exact createRoom_cases h
  | roomPassword id fault => cases h; exact .idle rfl
  | updateActivity id now fault => cases h; exact updateActivity_cases
  | attachSelect c id fault => exact attachSelect_cases h
  | attachInsert => exact attachInsert_cases h
  | joinSubscribe c p peers => exact joinSubscribe_cases h
  | joinInsert => exact joinInsert_cases h
  | detach c => exact detach_cases h
  | expireDelete now threshold ids fault => exact expireDelete_cases h
  | expireRemove => exact expireRemove_cases h
  | expireDone =>
    simp only [step, expireDone] at h
    split at h
    · rename_i hlock; cases h; exact .done hlock
    · cases h
  | publish c event =>
    simp only [step, publish] at h
    split at h
    · rename_i t r hc
      split at h
      · rename_i hev; cases h; exact .published hc hev.1 hev.2
      · cases h
    · cases h

/-! ## Who moves -/

/-- The connection whose operation holds the lock. -/
def owner (s : Store) : Option String :=
  match s.lock with
  | .attaching _ conn => some conn
  | .joining conn _ => some conn
  | _ => none

/-- The connection that an operation moves on. -/
def Op.actor (s : Store) : Op → Option String
  | .attachSelect conn _ _ => some conn
  | .attachInsert => s.owner
  | .joinSubscribe conn _ _ => some conn
  | .joinInsert => s.owner
  | .detach conn => some conn
  | _ => none

/-- An operation moves nobody but its actor. -/
theorem Step.conns_frame {op : Op} (hs : Step s op s') {d : String} (hd : op.actor s ≠ some d) :
    s'.conns d = s.conns d := by
  have hupd : ∀ {c : String} {conn : Conn}, s'.conns = Function.update s.conns c conn →
      op.actor s = some c → s'.conns d = s.conns d := by
    intro c conn hconns hc
    have hne : d ≠ c := by
      rintro rfl
      exact hd hc
    rw [hconns, Function.update_of_ne hne]
  cases hs with
  | turnedAway hlock hc => exact hupd rfl rfl
  | enteredNew hlock hroom => exact hupd rfl (by rw [Op.actor, owner, hlock])
  | entered hlock hroom hputs => exact hupd rfl (by rw [Op.actor, owner, hlock])
  | refused hlock hc hroom => exact hupd rfl rfl
  | admitted hlock hc hroom => exact hupd rfl (by rw [Op.actor, owner, hlock])
  | detachedGone hlock hc hroom => exact hupd rfl rfl
  | detached hlock hc hroom hout => exact hupd rfl rfl
  | left hlock hc hroom hin => exact hupd rfl rfl
  | _ => rfl

/-- While an operation holds the lock, only its own steps change it. -/
theorem Step.lock_frame {op : Op} (hs : Step s op s') {d : String} (hd : s.owner = some d)
    (hne : op.actor s ≠ some d) : s'.lock = s.lock := by
  have hfree : ∀ {P : Prop}, s.lock = .free → P := by
    intro P hlock
    rw [owner, hlock] at hd; cases hd
  have hexpiring : ∀ {P : Prop} {ids : List String}, s.lock = .expiring ids → P := by
    intro P ids hlock
    rw [owner, hlock] at hd; cases hd
  cases hs with
  | attaching hlock hc hrow => exact hfree hlock
  | enteredNew hlock hroom => exact absurd hd hne
  | entered hlock hroom hputs => exact absurd hd hne
  | subscribed hlock hc hroom hlen hpeers => exact hfree hlock
  | admitted hlock hc hroom => exact absurd hd hne
  | deleted hlock hids => exact hfree hlock
  | removed hlock hroom => exact hexpiring hlock
  | skipped hlock hroom => exact hexpiring hlock
  | done hlock => exact hexpiring hlock
  | _ => rfl

/-! ## The operations of the source -/

/-- A connection whose `attach` found the room. -/
def attachedAs (s : Store) (app : AppState) (c id : String) (attached : Attached) : Store :=
  { s with app, conns := Function.update s.conns c (.attached { attached with room := id }) }

/-- The pieces of `attach` on a free lock are `attach`. -/
theorem attach_run {c id : String} (hlock : s.lock = .free) (hc : s.conns c = .fresh) (fault : Bool) :
    (∃ attached, (s.app.attach id c fault).1 = .ok (some attached) ∧
        Machine.run step s [.attachSelect c id fault, .attachInsert] =
          some (s.attachedAs (s.app.attach id c fault).2 c id attached)) ∨
      ((s.app.attach id c fault).1 = .error .failed ∨ (s.app.attach id c fault).1 = .ok none) ∧
        (s.app.attach id c fault).2 = s.app ∧
        Machine.run step s [.attachSelect c id fault] = some (s.setConn c (.turnedAway id)) := by
  cases fault with
  | true =>
    exact .inr ⟨.inl rfl, rfl, by
      simp [Machine.run, step, attachSelect, hlock, hc, Db.roomExists, Db.statement]⟩
  | false =>
    cases hrow : HashMap.containsKey s.app.db id with
    | false =>
      have hattach : s.app.attach id c false = (.ok none, s.app) := by
        simp [AppState.attach, Db.roomExists, Db.statement, hrow]
      rw [hattach]
      exact .inr ⟨.inr rfl, rfl, by
        simp [Machine.run, step, attachSelect, hlock, hc, Db.roomExists, Db.statement, hrow]⟩
    | true =>
      have hattach : s.app.attach id c false =
          (.ok (some (s.app.enter id c).1), (s.app.enter id c).2) := by
        simp [AppState.attach, Db.roomExists, Db.statement, hrow]
      rw [hattach]
      refine .inl ⟨_, rfl, ?_⟩
      simp [Machine.run, step, attachSelect, attachInsert, attachedAs, hlock, hc, Db.roomExists,
        Db.statement, hrow]

/-- The pieces of `join` on a free lock are `join`. -/
theorem join_run {c : String} {t : Ticket} (hlock : s.lock = .free) (hc : s.conns c = .attached t)
    (p : Participant) :
    match s.app.join t.room c p maxParticipants with
    | (.joined receiver peers, app) =>
      Machine.run step s [.joinSubscribe c p peers, .joinInsert] =
        some { s with app, conns := Function.update s.conns c (.joined t ⟨p, receiver, peers⟩) }
    | (.full, app) =>
      Machine.run step s [.joinSubscribe c p []] = some (s.setConn c (.refused t .full)) ∧ app = s.app
    | (.roomGone, app) =>
      Machine.run step s [.joinSubscribe c p []] = some (s.setConn c (.refused t .roomGone)) ∧
        app = s.app := by
  cases hroom : HashMap.get s.app.rooms t.room with
  | none => simp [AppState.join, Machine.run, step, joinSubscribe, hlock, hc, room, hroom]
  | some r =>
    by_cases hfull : maxParticipants ≤ HashMap.len r.participants
    · simp [AppState.join, Machine.run, step, joinSubscribe, hlock, hc, room, hroom, hfull]
    · have hperm : r.peers.isPerm r.peers = true := List.isPerm_iff.mpr (List.Perm.refl _)
      simp [AppState.join, Machine.run, step, joinSubscribe, joinInsert, hlock, hc, room, hroom,
        hfull, hperm]

/-- `detach` on a free lock is `detach`. -/
theorem detach_run {c : String} {t : Ticket} (hlock : s.lock = .free)
    (hc : (s.conns c).present = some t) :
    ∃ conn, Machine.run step s [.detach c] =
      some { s with app := s.app.detach t.room c, conns := Function.update s.conns c conn } := by
  refine ⟨.detached t (s.conns c).receipt (decide (RoomEvent.roomExpired ∈ s.log t.tx)), ?_⟩
  simp [Machine.run, step, detach, hlock, hc]

theorem expireRemove_run (ids : List String) : ∀ s : Store, s.lock = .expiring ids →
    Machine.run step s (ids.map (fun _ => .expireRemove) ++ [.expireDone]) =
      some { s with app := ids.foldl AppState.expireRoom s.app, lock := .free } := by
  induction ids with
  | nil => intro s hlock; simp [Machine.run, step, expireDone, hlock]
  | cons id ids ih =>
    intro s hlock
    have hstep : step s .expireRemove =
        some { s with app := s.app.expireRoom id, lock := .expiring ids } := by
      simp [step, expireRemove, hlock]
    rw [List.map_cons, List.cons_append, Machine.run_cons hstep, ih _ rfl]
    rfl

/-- The pieces of `expire_inactive_rooms` on a free lock are `expire_inactive_rooms`. -/
theorem expire_run (hlock : s.lock = .free) (now threshold : Int) (fault : Bool) :
    (∃ ids app, s.app.expireInactiveRooms now threshold fault = (.ok ids, app) ∧
        Machine.run step s (.expireDelete now threshold ids fault ::
          (ids.map (fun _ => .expireRemove) ++ [.expireDone])) = some { s with app }) ∨
      s.app.expireInactiveRooms now threshold fault = (.error .failed, s.app) ∧
        Machine.run step s [.expireDelete now threshold [] fault] = some s := by
  cases fault with
  | true =>
    refine .inr ⟨rfl, ?_⟩
    simp [Machine.run, step, expireDelete, hlock, Db.deleteInactiveRooms, Db.statement]
  | false =>
    refine .inl ⟨Db.inactive s.app.db (Db.cutoff now threshold), _, rfl, ?_⟩
    have hperm : (Db.inactive s.app.db (Db.cutoff now threshold)).isPerm
        (Db.inactive s.app.db (Db.cutoff now threshold)) = true :=
      List.isPerm_iff.mpr (List.Perm.refl _)
    have hstep : step s (.expireDelete now threshold
          (Db.inactive s.app.db (Db.cutoff now threshold)) false) =
        some { s with app := { s.app with db := Db.active s.app.db (Db.cutoff now threshold) },
                      lock := .expiring (Db.inactive s.app.db (Db.cutoff now threshold)) } := by
      simp [step, expireDelete, hlock, Db.deleteInactiveRooms, Db.statement, hperm]
    rw [Machine.run_cons hstep, expireRemove_run _ _ rfl]
    simp [hlock]

end Store
end Parrhesia
