import Parrhesia.Creator

/-!
# Parrhesia.Isolation

One room of a store, and the same room in a store of its own.

All rooms share one map, one lock, one table and the statements of the cleanup. `within r` keeps of an
operation what concerns room `r`: the operations on other rooms go, and of the ids of a cleanup round
only `r` is left. `Alone r s u` says that `u` holds of room `r` what `s` holds of it, on channel 0, and
nothing else. Every run of the store, cut down to `r`, is a run of a store that never had another room
(`isolated`): what the other rooms did shows nowhere.
-/

namespace Parrhesia

open Lib

namespace Store

/-! ## What concerns a room -/

/-- The room a connection attached to. -/
def home (s : Store) (c : String) : Option String := (s.conns c).ticket.map Ticket.room

/-- The room of the operation that holds the lock. -/
def lockRoom (s : Store) : Option String :=
  match s.lock with
  | .attaching id _ => some id
  | .joining c _ => s.home c
  | .expiring (id :: _) => some id
  | _ => none

/-- The room an operation is about, but for the statements on the whole table. -/
def Op.about (s : Store) : Op → Option String
  | .createRoom id _ _ _ => some id
  | .roomPassword id _ => some id
  | .updateActivity id _ _ => some id
  | .attachSelect _ id _ => some id
  | .attachInsert => s.lockRoom
  | .joinSubscribe c _ _ => s.home c
  | .joinInsert => s.lockRoom
  | .detach c => s.home c
  | .expireDelete .. => none
  | .expireRemove => s.lockRoom
  | .expireDone => none
  | .publish c _ => s.home c

/-- What is left of an operation for room `r`. -/
def Op.within (r : String) (s : Store) : Op → List Op
  | .expireDelete now threshold ids fault =>
    [.expireDelete now threshold (ids.filter fun id => id = r) fault]
  | .expireDone => [.expireDone]
  | op => if op.about s = some r then [op] else []

/-! ## The room on channel 0 -/

end Store

def Room.alone (room : Room) : Room := { room with tx := 0 }

def Ticket.alone (t : Ticket) : Ticket := { t with tx := 0 }

def Receipt.alone (r : Receipt) : Receipt := { r with receiver := { r.receiver with tx := 0 } }

def Conn.alone : Conn → Conn
  | .fresh => .fresh
  | .turnedAway room => .turnedAway room
  | .attached t => .attached t.alone
  | .joined t r => .joined t.alone r.alone
  | .refused t why => .refused t.alone why
  | .detached t r expired => .detached t.alone (r.map Receipt.alone) expired

/-- The room that a connection asked `attach` for. -/
def Conn.asked : Conn → Option String
  | .turnedAway room => some room
  | conn => conn.ticket.map Ticket.room

/-- A connection that asked for room `r` is as it is; one that asked for another has not come yet. -/
inductive Conn.Alone (r : String) : Conn → Conn → Prop
  | fresh : Conn.Alone r .fresh .fresh
  | here {conn} (hasked : conn.asked = some r) : Conn.Alone r conn conn.alone
  | elsewhere {conn id} (hasked : conn.asked = some id) (hne : id ≠ r) : Conn.Alone r conn .fresh

namespace Store

/-- The lock as room `r` sees it. -/
def lockWithin (r : String) (s : Store) : Lock :=
  match s.lock with
  | .free => .free
  | .attaching id c => if id = r then .attaching id c else .free
  | .joining c rc => if s.home c = some r then .joining c rc.alone else .free
  | .expiring ids => .expiring (ids.filter fun id => id = r)

/-- `u` holds what `s` holds of room `r`, and nothing else. -/
structure Alone (r : String) (s u : Store) : Prop where
  row : ∀ id, u.row id = if id = r then s.row r else none
  created : u.created r = s.created r
  room : u.room r = (s.room r).map Room.alone
  log : ∀ tx, s.Known r tx → u.log 0 = s.log tx
  unopened : s.room r = none → s.created r = none ∨ (s.row r).isSome →
    u.app.nextChannel = 0 ∧ u.log 0 = []
  conn : ∀ c, Conn.Alone r (s.conns c) (u.conns c)
  lock : u.lock = s.lockWithin r

variable {r : String} {s s' u : Store} {op : Op}

theorem alone_start (r : String) (db : Db.Rooms) :
    Alone r (start db) (start (HashMap.retain (fun id _ => id = r) db)) where
  row id := by
    show HashMap.get (HashMap.retain _ db) id = if id = r then HashMap.get db r else none
    rw [HashMap.get_retain]
    split
    · rename_i he; subst he; cases HashMap.get db id <;> simp
    · rename_i hne; cases HashMap.get db id <;> simp [hne]
  created := by
    show (HashMap.get (HashMap.retain _ db) r).map _ = (HashMap.get db r).map _
    rw [HashMap.get_retain]
    cases HashMap.get db r <;> simp
  room := rfl
  log tx _ := rfl
  unopened _ _ := ⟨rfl, rfl⟩
  conn _ := .fresh
  lock := rfl

end Store

namespace Conn

variable {r : String} {conn conn' : Conn} {t : Ticket}

theorem asked_of_ticket (h : conn.ticket = some t) : conn.asked = some t.room := by
  cases conn <;> simp_all [asked, ticket]

theorem Alone.eq_fresh (h : Conn.Alone r .fresh conn') : conn' = .fresh := by
  cases h with
  | fresh => rfl
  | here hasked => cases hasked
  | elsewhere hasked => cases hasked

theorem Alone.eq_alone (h : Conn.Alone r conn conn') (ht : conn.ticket = some t) (hr : t.room = r) :
    conn' = conn.alone := by
  cases h with
  | fresh => cases ht
  | here hasked => rfl
  | elsewhere hasked hne =>
    rw [asked_of_ticket ht] at hasked
    cases hasked
    exact absurd hr hne

theorem Alone.absent (h : Conn.Alone r conn conn') (ht : conn.ticket = some t) (hr : t.room ≠ r) :
    conn' = .fresh := by
  cases h with
  | fresh => rfl
  | here hasked =>
    rw [asked_of_ticket ht] at hasked
    cases hasked
    exact absurd rfl hr
  | elsewhere hasked hne => rfl

theorem ticket_of_present (h : conn.present = some t) : conn.ticket = some t := by
  cases conn <;> simp_all [present, ticket]

@[simp] theorem present_alone : conn.alone.present = conn.present.map Ticket.alone := by
  cases conn <;> rfl

@[simp] theorem receipt_alone : conn.alone.receipt = conn.receipt.map Receipt.alone := by
  cases conn <;> rfl

end Conn

namespace Store

variable {r : String} {s s' u : Store} {op : Op}

/-- Channels of different rooms are different. -/
theorem Inv.apart (h : s.Inv) {id id' : String} {tx tx' : Nat} (hk : s.Known id tx)
    (hk' : s.Known id' tx') (hne : id' ≠ id) : tx ≠ tx' := by
  rintro rfl
  exact hne ((h.channels.owns id tx hk).only id' hk')

/-- A room that is not open and may still be opened has no channel. -/
theorem Inv.unknown (h : s.Inv) {id : String} (hroom : s.room id = none)
    (hcond : s.created id = none ∨ (s.row id).isSome) (tx : Nat) : ¬ s.Known id tx := by
  intro hk
  rcases (h.channels.owns id tx hk).fate with ⟨room, hr, -⟩ | hgone
  · rw [hroom] at hr; cases hr
  · rcases hcond with hnone | hsome
    · exact absurd hgone.created (by rw [hnone]; simp)
    · exact absurd hsome (by rw [hgone.row]; simp)

/-- The frame: a step that leaves alone what concerns the room. -/
theorem Alone.frame (h : Alone r s u) (hs : Step s op s') (hrow : s'.row r = s.row r)
    (hcreated : s'.created r = s.created r) (hroom : s'.room r = s.room r)
    (hlog : ∀ tx, s.Known r tx → s'.log tx = s.log tx)
    (hconn : ∀ c, s'.conns c = s.conns c ∨ Conn.Alone r (s'.conns c) (u.conns c))
    (hlock : s'.lockWithin r = s.lockWithin r) : Alone r s' u where
  row id := by rw [h.row, hrow]
  created := h.created.trans hcreated.symm
  room := by rw [h.room, hroom]
  log tx hk := by
    rcases hk.of_step hs with hk | hfresh
    · rw [hlog tx hk, h.log tx hk]
    · obtain ⟨room', hr, -⟩ := hfresh.room
      rw [hroom, hfresh.absent] at hr
      cases hr
  unopened hnone hcond := by
    rw [hroom] at hnone
    rw [hcreated, hrow] at hcond
    exact h.unopened hnone hcond
  conn c := by
    rcases hconn c with hsame | hconn
    · rw [hsame]; exact h.conn c
    · exact hconn
  lock := h.lock.trans hlock.symm

/-- The statements on the whole table, and the end of a round. -/
def Op.isWide : Op → Bool
  | .expireDelete .. => true
  | .expireDone => true
  | _ => false

/-- A connection of another room moves on. -/
theorem update_elsewhere {c id : String} {conn : Conn} (hasked : conn.asked = some id)
    (hne : id ≠ r) (hold : u.conns c = .fresh) (d : String) :
    Function.update s.conns c conn d = s.conns d ∨
      Conn.Alone r (Function.update s.conns c conn d) (u.conns d) := by
  by_cases hd : d = c
  · subst hd
    rw [Function.update_self, hold]
    exact .inr (.elsewhere hasked hne)
  · exact .inl (Function.update_of_ne hd ..)

/-- What happens to another room. -/
theorem Alone.other (hinv : s.Inv) (h : Alone r s u) (hs : Step s op s')
    (habout : op.about s ≠ some r) (hwide : op.isWide = false) : Alone r s' u := by
  have hs' := hs
  have hknown : ∀ {id : String} {room : Room}, s.room id = some room → s.Known id room.tx :=
    fun hroom => .inl ⟨_, hroom, rfl⟩
  -- the log of room `r` when an event is sent to another room
  have hsend : ∀ {app : AppState} {id : String} {tx' : Nat} {event : RoomEvent},
      app.channels = s.app.channels → s.Known id tx' → id ≠ r →
        ∀ tx, s.Known r tx → (app.send tx' event).channels tx = s.log tx := by
    intro app id tx' event happ hk' hne tx hk
    rw [AppState.send_channels_of_ne _ (hinv.apart hk hk' hne), happ]
    rfl
  cases hs with
  | idle => exact h
  | @created id hash now hnew hrow =>
    have hne : r ≠ id := fun he => habout (by rw [he]; rfl)
    exact h.frame hs' (HashMap.get_insert_of_ne hne) (Function.update_of_ne hne ..) rfl
      (fun _ _ => rfl) (fun _ => .inl rfl) rfl
  | @touched id now row hrow =>
    have hne : r ≠ id := fun he => habout (by rw [he]; rfl)
    exact h.frame hs' (HashMap.get_insert_of_ne hne) rfl rfl (fun _ _ => rfl) (fun _ => .inl rfl) rfl
  | @turnedAway c id fault hlock hc hrow =>
    have hfresh : u.conns c = .fresh := (hc ▸ h.conn c).eq_fresh
    have hne : id ≠ r := fun he => habout (by rw [he]; rfl)
    refine h.frame hs' rfl rfl rfl (fun _ _ => rfl) (update_elsewhere rfl hne hfresh) ?_
    simp only [lockWithin, setConn, hlock]
  | @attaching c id row hlock hc hrow =>
    have hne : id ≠ r := fun he => habout (by rw [he]; rfl)
    refine h.frame hs' rfl rfl rfl (fun _ _ => rfl) (fun _ => .inl rfl) ?_
    simp only [lockWithin, hlock, if_neg hne]
  | @enteredNew c id hlock hroom =>
    have hne : r ≠ id := fun he => habout (by rw [Op.about, lockRoom, hlock, he])
    have hfresh : u.conns c = .fresh := ((hinv.rows.attaching id c hlock).2 ▸ h.conn c).eq_fresh
    refine h.frame hs' rfl rfl (HashMap.get_insert_of_ne hne) (fun _ _ => rfl)
      (update_elsewhere rfl hne.symm hfresh) ?_
    simp only [lockWithin, hlock, if_neg hne.symm]
  | @entered c id room rooms' hlock hroom hputs =>
    have hne : r ≠ id := fun he => habout (by rw [Op.about, lockRoom, hlock, he])
    have hfresh : u.conns c = .fresh := ((hinv.rows.attaching id c hlock).2 ▸ h.conn c).eq_fresh
    refine h.frame hs' rfl rfl ((hputs r).trans (if_neg hne)) (fun _ _ => rfl)
      (update_elsewhere rfl hne.symm hfresh) ?_
    simp only [lockWithin, hlock, if_neg hne.symm]
  | @refused c participant peers t why hlock hc hroom =>
    have hne : t.room ≠ r := fun he => habout (by rw [Op.about, home, hc, ← he]; rfl)
    have hfresh : u.conns c = .fresh := (h.conn c).absent (by rw [hc]; rfl) hne
    refine h.frame hs' rfl rfl rfl (fun _ _ => rfl) (update_elsewhere rfl hne hfresh) ?_
    simp only [lockWithin, setConn, hlock]
  | @subscribed c participant peers t room hlock hc hroom hlen hpeers =>
    have hhome : s.home c = some t.room := by rw [home, hc]; rfl
    have hne : s.home c ≠ some r := habout
    refine h.frame hs' rfl rfl rfl (fun _ _ => rfl) (fun _ => .inl rfl) ?_
    simp only [lockWithin, hlock]
    exact if_neg hne
  | @admitted c rc t room hlock hc hroom =>
    have hhome : s.home c = some t.room := by rw [home, hc]; rfl
    have hne : t.room ≠ r := fun he => habout (by rw [Op.about, lockRoom, hlock, ← he]; exact hhome)
    have hfresh : u.conns c = .fresh := (h.conn c).absent (by rw [hc]; rfl) hne
    refine h.frame hs' rfl rfl (HashMap.get_insert_of_ne hne.symm) (hsend rfl (hknown hroom) hne)
      (update_elsewhere rfl hne hfresh) ?_
    simp only [lockWithin, hlock, hhome, Option.some.injEq, if_neg hne]
  | @detachedGone c t hlock hc hroom =>
    have ht := Conn.ticket_of_present hc
    have hne : t.room ≠ r := fun he => habout (by rw [Op.about, home, ht, ← he]; rfl)
    refine h.frame hs' rfl rfl rfl (fun _ _ => rfl)
      (update_elsewhere rfl hne ((h.conn c).absent ht hne)) ?_
    simp only [lockWithin, setConn, hlock]
  | @detached c t room hlock hc hroom hout =>
    have ht := Conn.ticket_of_present hc
    have hne : t.room ≠ r := fun he => habout (by rw [Op.about, home, ht, ← he]; rfl)
    refine h.frame hs' rfl rfl (HashMap.get_insert_of_ne hne.symm) (fun _ _ => rfl)
      (update_elsewhere rfl hne ((h.conn c).absent ht hne)) ?_
    simp only [lockWithin, hlock]
  | @left c t room p hlock hc hroom hin =>
    have ht := Conn.ticket_of_present hc
    have hne : t.room ≠ r := fun he => habout (by rw [Op.about, home, ht, ← he]; rfl)
    refine h.frame hs' rfl rfl (HashMap.get_insert_of_ne hne.symm) (hsend rfl (hknown hroom) hne)
      (update_elsewhere rfl hne ((h.conn c).absent ht hne)) ?_
    simp only [lockWithin, hlock]
  | deleted => cases hwide
  | @removed id ids room hlock hroom =>
    have hne : id ≠ r := fun he => habout (by rw [Op.about, lockRoom, hlock, he])
    refine h.frame hs' rfl rfl (HashMap.get_remove_of_ne hne.symm) (hsend rfl (hknown hroom) hne)
      (fun _ => .inl rfl) ?_
    simp only [lockWithin, hlock, List.filter_cons, hne, decide_false, Bool.false_eq_true, if_false]
  | @skipped id ids hlock hroom =>
    have hne : id ≠ r := fun he => habout (by rw [Op.about, lockRoom, hlock, he])
    refine h.frame hs' rfl rfl rfl (fun _ _ => rfl) (fun _ => .inl rfl) ?_
    simp only [lockWithin, hlock, List.filter_cons, hne, decide_false, Bool.false_eq_true, if_false]
  | done => cases hwide
  | @published c t rc event hc hsender hrelayed =>
    have hne : t.room ≠ r := fun he => habout (by rw [Op.about, home, hc, ← he]; rfl)
    exact h.frame hs' rfl rfl rfl (hsend rfl (.inr ⟨c, t, by rw [hc]; rfl, rfl, rfl⟩) hne)
      (fun _ => .inl rfl) rfl

/-! ## The operations on the room itself -/

theorem Alone.row_self (h : Alone r s u) : u.row r = s.row r := by rw [h.row, if_pos rfl]

theorem Alone.containsKey (h : Alone r s u) :
    HashMap.containsKey u.app.db r = HashMap.containsKey s.app.db r :=
  congrArg Option.isSome h.row_self

/-- The row of `r` is written in both tables. -/
theorem Alone.insert_row (h : Alone r s u) (row : Db.Row) (id : String) :
    HashMap.get (HashMap.insert u.app.db r row) id =
      if id = r then HashMap.get (HashMap.insert s.app.db r row) r else none := by
  rw [HashMap.get_insert_self, HashMap.get_insert]
  split
  · rfl
  · rename_i hne
    exact (h.row id).trans (if_neg hne)

/-- A step that opens no room and sends nothing to `r`. -/
theorem Alone.log_quiet (h : Alone r s u) (hs : Step s op s') (hroom : s'.room r = s.room r)
    (hlog : s'.app.channels = s.app.channels) {tx : Nat} (hk : s'.Known r tx) :
    u.log 0 = s'.log tx := by
  rcases hk.of_step hs with hk | hfresh
  · rw [h.log tx hk]
    exact (congrFun hlog tx).symm
  · obtain ⟨room', hr, -⟩ := hfresh.room
    rw [hroom, hfresh.absent] at hr
    cases hr

theorem Alone.createRoom (h : Alone r s u) {hash : Option String} {now : Int} {fault : Bool}
    (hs : s.createRoom r hash now fault = some s') :
    ∃ u', u.createRoom r hash now fault = some u' ∧ Alone r s' u' := by
  have hstep := createRoom_cases hs
  simp only [Store.createRoom, Db.createRoomWithPassword] at hs
  simp only [Store.createRoom, Db.createRoomWithPassword, h.created, h.containsKey]
  split at hs
  · cases hs
  · rename_i hnew
    by_cases hkey : HashMap.containsKey s.app.db r = true
    · simp only [hkey, if_true, Option.some.injEq] at hs ⊢
      subst hs
      exact ⟨u, rfl, h⟩
    · simp only [hkey, Bool.false_eq_true, if_false] at hs ⊢
      cases fault with
      | true =>
        simp only [Db.statement, if_true, Option.some.injEq] at hs ⊢
        subst hs
        exact ⟨u, rfl, h⟩
      | false =>
        simp only [Db.statement, Bool.false_eq_true, if_false, Option.some.injEq] at hs ⊢
        subst hs
        exact ⟨_, rfl,
          { row := h.insert_row _
            created := (Function.update_self ..).trans (Function.update_self r (some hash) s.created).symm
            room := h.room
            log := fun tx hk => h.log_quiet hstep rfl rfl hk
            unopened := fun hnone _ => h.unopened hnone (.inl hnew)
            conn := h.conn
            lock := h.lock }⟩

theorem Alone.updateActivity (h : Alone r s u) (now : Int) (fault : Bool) :
    Alone r (s.updateActivity r now fault) (u.updateActivity r now fault) := by
  have hstep : Step s (.updateActivity r now fault) (s.updateActivity r now fault) :=
    updateActivity_cases
  have hrow : HashMap.get u.app.db r = HashMap.get s.app.db r := h.row_self
  simp only [Store.updateActivity, Db.updateActivity] at hstep ⊢
  cases fault with
  | true => exact h
  | false =>
    simp only [Db.statement, Bool.false_eq_true, if_false, hrow] at hstep ⊢
    cases hget : HashMap.get s.app.db r with
    | none => exact h
    | some row =>
      simp only [hget] at hstep
      exact
        { row := h.insert_row _
          created := h.created
          room := h.room
          log := fun tx hk => h.log_quiet hstep rfl rfl hk
          unopened := fun hnone _ => h.unopened hnone (.inr (by rw [Store.row, hget]; rfl))
          conn := h.conn
          lock := h.lock }

/-- The two connections of `c` move on together. -/
theorem Alone.conn_update (h : Alone r s u) (c : String) (conn : Conn)
    (hhere : conn.asked = some r) (d : String) :
    Conn.Alone r (Function.update s.conns c conn d) (Function.update u.conns c conn.alone d) := by
  by_cases hd : d = c
  · subst hd
    rw [Function.update_self, Function.update_self]
    exact .here hhere
  · rw [Function.update_of_ne hd, Function.update_of_ne hd]
    exact h.conn d

theorem Alone.lock_free (h : Alone r s u) (hlock : s.lock = .free) : u.lock = .free := by
  rw [h.lock, lockWithin, hlock]

theorem Alone.attachSelect (h : Alone r s u) {c : String} {fault : Bool}
    (hs : s.attachSelect c r fault = some s') :
    ∃ u', u.attachSelect c r fault = some u' ∧ Alone r s' u' := by
  have hstep := attachSelect_cases hs
  have hexists : Db.roomExists u.app.db r fault = Db.roomExists s.app.db r fault := by
    rw [Db.roomExists, Db.roomExists, h.containsKey]
  simp only [Store.attachSelect] at hs
  split at hs
  · rename_i hlock hc
    have hfresh : u.conns c = .fresh := (hc ▸ h.conn c).eq_fresh
    simp only [Store.attachSelect, h.lock_free hlock, hfresh, hexists]
    split at hs
    · cases hs
      exact ⟨_, rfl,
        { row := h.row
          created := h.created
          room := h.room
          log := fun tx hk => h.log_quiet hstep rfl rfl hk
          unopened := h.unopened
          conn := h.conn
          lock := (if_pos rfl).symm }⟩
    · rename_i hnot
      cases hs
      refine ⟨u.setConn c (.turnedAway r), rfl,
        { row := h.row
          created := h.created
          room := h.room
          log := fun tx hk => h.log_quiet hstep rfl rfl hk
          unopened := h.unopened
          conn := h.conn_update c (.turnedAway r) rfl
          lock := ?_ }⟩
      show u.lock = _
      rw [h.lock_free hlock, lockWithin]
      simp only [setConn, hlock]
  · cases hs

/-- Channels are as they were, and no room is opened. -/
theorem Alone.log_kept (h : Alone r s u) (hs : Step s op s') (hopen : (s.room r).isSome)
    (hlog : s'.app.channels = s.app.channels) {tx : Nat} (hk : s'.Known r tx) :
    u.log 0 = s'.log tx := by
  rcases hk.of_step hs with hk | hfresh
  · rw [h.log tx hk]
    exact (congrFun hlog tx).symm
  · rw [hfresh.absent] at hopen
    cases hopen

/-- An event is sent to the room. -/
theorem Alone.log_send (hinv : s.Inv) (h : Alone r s u) (hs : Step s op s') {tx₀ : Nat}
    {event : RoomEvent} (hk₀ : s.Known r tx₀) (hlock : ∀ c, s.lock ≠ .attaching r c)
    (hlog : s'.app.channels = Function.update s.app.channels tx₀ (s.app.channels tx₀ ++ [event]))
    {tx : Nat} (hk : s'.Known r tx) :
    Function.update u.app.channels 0 (u.app.channels 0 ++ [event]) 0 = s'.log tx := by
  rcases hk.of_step hs with hk | hfresh
  · have htx : tx = tx₀ := (hinv.channels.owns r tx₀ hk₀).sole tx hk
    have hold : u.app.channels 0 = s.app.channels tx₀ := h.log tx₀ hk₀
    show _ = s'.app.channels tx
    rw [Function.update_self, hlog, htx, Function.update_self, hold]
  · obtain ⟨c, hc⟩ := hfresh.lock
    exact absurd hc (hlock c)

theorem Alone.attachInsert (hinv : s.Inv) (h : Alone r s u) (hs : s.attachInsert = some s')
    (habout : s.lockRoom = some r) : ∃ u', u.attachInsert = some u' ∧ Alone r s' u' := by
  have hstep := attachInsert_cases hs
  cases hlock : s.lock with
  | attaching id c =>
    rw [lockRoom, hlock] at habout
    cases habout
    have hulock : u.lock = .attaching r c := by rw [h.lock, lockWithin, hlock]; exact if_pos rfl
    obtain ⟨u', hu'⟩ : ∃ u', u.attachInsert = some u' := by
      simp only [Store.attachInsert, hulock]
      exact ⟨_, rfl⟩
    refine ⟨u', hu', ?_⟩
    cases attachInsert_cases hu' with
    | idle hop => cases hop
    | @enteredNew c₁ id₁ hulock' hunone =>
      cases hulock.symm.trans hulock'
      cases attachInsert_cases hs with
      | idle hop => cases hop
      | @enteredNew c₁ id₁ hlock' hnone =>
        cases hlock.symm.trans hlock'
        obtain ⟨hnext, hempty⟩ := h.unopened hnone (.inr (hinv.rows.attaching r c hlock).1)
        exact
          { row := h.row
            created := h.created
            room := by
              simp only [Store.room, HashMap.get_insert_self, hnext]
              rfl
            log := fun tx hk => by
              rcases hk.of_step hstep with hk | hfresh
              · exact absurd hk (hinv.unknown hnone (.inr (hinv.rows.attaching r c hlock).1) tx)
              · have hunused := hinv.channels.unused tx (Nat.le_of_eq hfresh.new.symm)
                exact hempty.trans hunused.symm
            unopened := fun hroom _ => by
              rw [Store.room, HashMap.get_insert_self] at hroom
              cases hroom
            conn := by
              rw [hnext]
              exact h.conn_update c (.attached ⟨⟨s.app.nextChannel, true, some c⟩, r⟩) rfl
            lock := rfl }
      | @entered c₁ id₁ room rooms' hlock' hroom hputs =>
        cases hlock.symm.trans hlock'
        rw [h.room, hroom] at hunone
        cases hunone
    | @entered c₁ id₁ uroom urooms' hulock' huroom huputs =>
      cases hulock.symm.trans hulock'
      cases attachInsert_cases hs with
      | idle hop => cases hop
      | @enteredNew c₁ id₁ hlock' hnone =>
        cases hlock.symm.trans hlock'
        rw [h.room, hnone] at huroom
        cases huroom
      | @entered c₁ id₁ room rooms' hlock' hroom hputs =>
        cases hlock.symm.trans hlock'
        rw [h.room, hroom] at huroom
        cases huroom
        exact
          { row := h.row
            created := h.created
            room := by
              simp only [Store.room, hputs r, huputs r, if_true]
              rfl
            log := fun tx hk => h.log_kept hstep (by rw [hroom]; rfl) rfl hk
            unopened := fun hnone _ => by
              rw [Store.room, hputs r, if_pos rfl] at hnone
              cases hnone
            conn := h.conn_update c
              (.attached ⟨⟨room.tx, room.creatorId.isNone, some (room.creatorId.getD c)⟩, r⟩) rfl
            lock := rfl }
  | free => simp [Store.attachInsert, hlock] at hs
  | joining c rc => simp [Store.attachInsert, hlock] at hs
  | expiring ids => simp [Store.attachInsert, hlock] at hs

theorem Alone.joinSubscribe (h : Alone r s u) {c : String} {participant : Participant}
    {peers : PeerSnapshot} (hs : s.joinSubscribe c participant peers = some s')
    (habout : s.home c = some r) :
    ∃ u', u.joinSubscribe c participant peers = some u' ∧ Alone r s' u' := by
  have hstep := joinSubscribe_cases hs
  cases hstep with
  | idle hop => cases hop
  | @refused _ _ _ t why hlock hc hroom =>
    have hr : t.room = r := by
      rw [home, hc] at habout
      exact Option.some.inj habout
    have huc : u.conns c = .attached t.alone :=
      ((h.conn c).eq_alone (by rw [hc]; rfl) hr).trans (by rw [hc]; rfl)
    have huroom : u.room t.alone.room = (s.room t.room).map Room.alone := by
      rw [show t.alone.room = r from hr, hr, h.room]
    refine ⟨u.setConn c (.refused t.alone why), ?_,
      { row := h.row
        created := h.created
        room := h.room
        log := fun tx hk => h.log_quiet (joinSubscribe_cases hs) rfl rfl hk
        unopened := h.unopened
        conn := h.conn_update c (.refused t why) (congrArg some hr)
        lock := ?_ }⟩
    · simp only [Store.joinSubscribe, h.lock_free hlock, huc]
      rcases hroom with ⟨rfl, hnone⟩ | ⟨rfl, room, hroom, hfull⟩
      · rw [hnone] at huroom
        simp only [huroom, Option.map_none]
      · rw [hroom] at huroom
        simp only [huroom, Option.map_some]
        exact if_pos hfull
    · show u.lock = _
      rw [h.lock_free hlock, lockWithin]
      simp only [setConn, hlock]
  | @subscribed _ _ _ t room hlock hc hroom hlen hpeers =>
    have hr : t.room = r := by
      rw [home, hc] at habout
      exact Option.some.inj habout
    have huc : u.conns c = .attached t.alone :=
      ((h.conn c).eq_alone (by rw [hc]; rfl) hr).trans (by rw [hc]; rfl)
    have huroom : u.room t.alone.room = some room.alone := by
      rw [show t.alone.room = r from hr, h.room, ← hr, hroom]
      rfl
    have hlog : u.app.channels 0 = s.app.channels room.tx :=
      h.log room.tx (.inl ⟨room, by rw [← hr]; exact hroom, rfl⟩)
    have hsubscribe : u.app.subscribe room.alone =
        { s.app.subscribe room with tx := 0 } := by
      simp only [AppState.subscribe, Room.alone, hlog]
    refine ⟨{ u with lock := .joining c ⟨participant, u.app.subscribe room.alone, peers⟩ }, ?_,
      { row := h.row
        created := h.created
        room := h.room
        log := fun tx hk => h.log_quiet (joinSubscribe_cases hs) rfl rfl hk
        unopened := h.unopened
        conn := h.conn
        lock := ?_ }⟩
    · simp only [Store.joinSubscribe, h.lock_free hlock, huc, huroom]
      have hulen : ¬ maxParticipants ≤ HashMap.len room.alone.participants := Nat.not_le.mpr hlen
      have hupeers : peers.isPerm room.alone.peers = true := List.isPerm_iff.mpr hpeers
      rw [if_neg hulen, if_pos hupeers]
    · show Lock.joining c _ = _
      rw [lockWithin, hsubscribe]
      exact (if_pos habout).symm

theorem Alone.joinInsert (hinv : s.Inv) (h : Alone r s u) (hs : s.joinInsert = some s')
    (habout : s.lockRoom = some r) : ∃ u', u.joinInsert = some u' ∧ Alone r s' u' := by
  have hstep := joinInsert_cases hs
  cases hstep with
  | idle hop => cases hop
  | @admitted c rc t room hlock hc hroom =>
    have hhome : s.home c = some r := by
      rw [lockRoom, hlock] at habout
      exact habout
    have hr : t.room = r := by
      rw [home, hc] at hhome
      exact Option.some.inj hhome
    subst hr
    have huc : u.conns c = .attached t.alone :=
      ((h.conn c).eq_alone (by rw [hc]; rfl) rfl).trans (by rw [hc]; rfl)
    have huroom : u.room t.room = some room.alone := by rw [h.room, hroom]; rfl
    have hulock : u.lock = .joining c rc.alone := by
      rw [h.lock, lockWithin, hlock]
      exact if_pos hhome
    have hget : HashMap.get u.app.rooms t.room = some room.alone := huroom
    refine ⟨{ u with app := u.app.addParticipant t.room c rc.participant, lock := .free,
                     conns := Function.update u.conns c (.joined t.alone rc.alone) }, ?_, ?_⟩
    · simp only [Store.joinInsert, hulock, huc]
      exact if_pos (by rw [show t.alone.room = t.room from rfl, huroom]; rfl)
    · simp only [AppState.addParticipant, hget]
      exact
        { row := h.row
          created := h.created
          room := by
            simp only [Store.room, AppState.send_rooms, HashMap.get_insert_self]
            rfl
          log := fun tx hk => h.log_send hinv (joinInsert_cases hs)
            (.inl ⟨room, hroom, rfl⟩) (by simp [hlock]) rfl hk
          unopened := fun hnone _ => by
            rw [Store.room, AppState.send_rooms, HashMap.get_insert_self] at hnone
            cases hnone
          conn := h.conn_update c (.joined t rc) rfl
          lock := rfl }

/-- What `detach` makes of the connection and of the room, in both stores. -/
theorem Alone.detach_run (h : Alone r s u) {c : String} {t : Ticket} (hlock : s.lock = .free)
    (hc : (s.conns c).present = some t) (hr : t.room = r) :
    u.detach c = some { u with
      app := u.app.detach t.room c,
      conns := Function.update u.conns c
        (Conn.detached t (s.conns c).receipt (decide (.roomExpired ∈ s.log t.tx))).alone } := by
  have ht := Conn.ticket_of_present hc
  have huc : u.conns c = (s.conns c).alone := (h.conn c).eq_alone ht hr
  have hlog : u.log t.alone.tx = s.log t.tx := h.log t.tx (.inr ⟨c, t, ht, hr, rfl⟩)
  simp only [Store.detach, h.lock_free hlock, huc, Conn.present_alone, hc, Option.map_some,
    Conn.receipt_alone, hlog]
  rfl

theorem Alone.detach (hinv : s.Inv) (h : Alone r s u) {c : String} (hs : s.detach c = some s')
    (habout : s.home c = some r) : ∃ u', u.detach c = some u' ∧ Alone r s' u' := by
  have hstep := detach_cases hs
  have hroomOf : ∀ {t : Ticket}, (s.conns c).present = some t → t.room = r := by
    intro t hc
    rw [home, Conn.ticket_of_present hc] at habout
    exact Option.some.inj habout
  cases hstep with
  | idle hop => cases hop
  | @detachedGone _ t hlock hc hroom =>
    have hr := hroomOf hc
    subst hr
    have huroom : HashMap.get u.app.rooms t.room = none := h.room.trans (by rw [hroom]; rfl)
    refine ⟨_, h.detach_run hlock hc rfl, ?_⟩
    simp only [AppState.detach, huroom]
    exact
      { row := h.row
        created := h.created
        room := h.room
        log := fun tx hk => h.log_quiet (detach_cases hs) rfl rfl hk
        unopened := h.unopened
        conn := h.conn_update c _ rfl
        lock := by rw [lockWithin]; simp only [setConn, hlock]; exact h.lock_free hlock }
  | @detached _ t room hlock hc hroom hout =>
    have hr := hroomOf hc
    subst hr
    have huroom : HashMap.get u.app.rooms t.room = some room.alone :=
      h.room.trans (by rw [hroom]; rfl)
    have hkey : HashMap.containsKey room.alone.participants c = false := by
      rw [HashMap.containsKey, show room.alone.participants = room.participants from rfl, hout]
      rfl
    refine ⟨_, h.detach_run hlock hc rfl, ?_⟩
    simp only [AppState.detach, huroom, hkey, Bool.false_eq_true, if_false]
    exact
      { row := h.row
        created := h.created
        room := by
          simp only [Store.room, HashMap.get_insert_self]
          rfl
        log := fun tx hk => h.log_kept (detach_cases hs) (by rw [hroom]; rfl) rfl hk
        unopened := fun hnone _ => by
          rw [Store.room, HashMap.get_insert_self] at hnone
          cases hnone
        conn := h.conn_update c _ rfl
        lock := by rw [lockWithin]; simp only [hlock]; exact h.lock_free hlock }
  | @left _ t room p hlock hc hroom hin =>
    have hr := hroomOf hc
    subst hr
    have huroom : HashMap.get u.app.rooms t.room = some room.alone :=
      h.room.trans (by rw [hroom]; rfl)
    have hkey : HashMap.containsKey room.alone.participants c = true := by
      rw [HashMap.containsKey, show room.alone.participants = room.participants from rfl, hin]
      rfl
    refine ⟨_, h.detach_run hlock hc rfl, ?_⟩
    simp only [AppState.detach, huroom, hkey, if_true]
    exact
      { row := h.row
        created := h.created
        room := by
          simp only [Store.room, AppState.send_rooms, HashMap.get_insert_self]
          rfl
        log := fun tx hk => h.log_send hinv (detach_cases hs) (.inl ⟨room, hroom, rfl⟩)
          (by simp [hlock]) rfl hk
        unopened := fun hnone _ => by
          rw [Store.room, AppState.send_rooms, HashMap.get_insert_self] at hnone
          cases hnone
        conn := h.conn_update c _ rfl
        lock := by rw [lockWithin]; simp only [hlock]; exact h.lock_free hlock }

/-- The deleted ids of the two tables. -/
theorem Alone.inactive (h : Alone r s u) (cutoff : Int) {ids : List String}
    (hids : ids.Perm (Db.inactive s.app.db cutoff)) :
    (ids.filter fun id => id = r).Perm (Db.inactive u.app.db cutoff) := by
  refine ((hids.filter _).trans ?_)
  refine (List.perm_ext_iff_of_nodup ((Db.nodup_inactive ..).filter _) (Db.nodup_inactive ..)).mpr ?_
  intro id
  have hrow : HashMap.get u.app.db id = if id = r then HashMap.get s.app.db r else none := h.row id
  rw [List.mem_filter, decide_eq_true_eq, Db.mem_inactive, Db.mem_inactive, hrow]
  split
  · rename_i he; subst he; simp
  · rename_i hne; simp [hne]

theorem Alone.expireDelete (h : Alone r s u) {now threshold : Int} {ids : List String} {fault : Bool}
    (hs : s.expireDelete now threshold ids fault = some s') :
    ∃ u', u.expireDelete now threshold (ids.filter fun id => id = r) fault = some u' ∧
      Alone r s' u' := by
  have hstep := expireDelete_cases hs
  cases hlock : s.lock with
  | free =>
    cases hstep with
    | idle hop =>
      cases fault with
      | true =>
        refine ⟨u, ?_, h⟩
        simp only [Store.expireDelete, h.lock_free hlock, Db.deleteInactiveRooms, Db.statement,
          if_true]
      | false => cases hop
    | deleted hlock' hids =>
      have hactive : ∀ id, HashMap.get (Db.active u.app.db (Db.cutoff now threshold)) id =
          if id = r then HashMap.get (Db.active s.app.db (Db.cutoff now threshold)) r else none := by
        intro id
        have hrow : HashMap.get u.app.db id = if id = r then HashMap.get s.app.db r else none :=
          h.row id
        rw [Db.active, Db.active, HashMap.get_retain, HashMap.get_retain, hrow]
        split <;> rfl
      refine ⟨{ u with app := { u.app with db := Db.active u.app.db (Db.cutoff now threshold) },
                       lock := .expiring (ids.filter fun id => id = r) }, ?_,
        { row := hactive
          created := h.created
          room := h.room
          log := fun tx hk => h.log_quiet (expireDelete_cases hs) rfl rfl hk
          unopened := fun hnone hcond => h.unopened hnone (hcond.imp_right fun hrow => ?_)
          conn := h.conn
          lock := rfl }⟩
      · simp only [Store.expireDelete, h.lock_free hlock, Db.deleteInactiveRooms, Db.statement,
          Bool.false_eq_true, if_false]
        exact if_pos (List.isPerm_iff.mpr (h.inactive _ hids))
      · obtain ⟨row, hget⟩ := Option.isSome_iff_exists.mp hrow
        exact Option.isSome_iff_exists.mpr ⟨row, (Db.get_active.mp hget).1⟩
  | attaching id c => simp [Store.expireDelete, hlock] at hs
  | joining c rc => simp [Store.expireDelete, hlock] at hs
  | expiring ids => simp [Store.expireDelete, hlock] at hs

theorem Alone.expireRemove (hinv : s.Inv) (h : Alone r s u) (hs : s.expireRemove = some s')
    (habout : s.lockRoom = some r) : ∃ u', u.expireRemove = some u' ∧ Alone r s' u' := by
  have hstep := expireRemove_cases hs
  cases hstep with
  | idle hop => cases hop
  | @removed id ids room hlock hroom =>
    have hr : id = r := by
      rw [lockRoom, hlock] at habout
      exact Option.some.inj habout
    subst hr
    have hulock : u.lock = .expiring (id :: ids.filter fun id' => id' = id) := by
      rw [h.lock, lockWithin, hlock]
      simp
    have huroom : HashMap.get u.app.rooms id = some room.alone := h.room.trans (by rw [hroom]; rfl)
    obtain ⟨hrow, hcreated⟩ := hinv.rows.deleted _ hlock id List.mem_cons_self
    refine ⟨_, by simp only [Store.expireRemove, hulock]; rfl, ?_⟩
    simp only [AppState.expireRoom, huroom]
    exact
      { row := h.row
        created := h.created
        room := by
          simp only [Store.room, AppState.send_rooms, HashMap.get_remove_self]
          rfl
        log := fun tx hk => h.log_send hinv (expireRemove_cases hs) (.inl ⟨room, hroom, rfl⟩)
          (by simp [hlock]) rfl hk
        unopened := fun _ hcond => by
          have hcond : s.created id = none ∨ (s.row id).isSome := hcond
          rw [hrow] at hcond
          exact absurd hcreated (by rw [hcond.resolve_right (by simp)]; simp)
        conn := h.conn
        lock := rfl }
  | @skipped id ids hlock hroom =>
    have hr : id = r := by
      rw [lockRoom, hlock] at habout
      exact Option.some.inj habout
    subst hr
    have hulock : u.lock = .expiring (id :: ids.filter fun id' => id' = id) := by
      rw [h.lock, lockWithin, hlock]
      simp
    have huroom : HashMap.get u.app.rooms id = none := h.room.trans (by rw [hroom]; rfl)
    refine ⟨_, by simp only [Store.expireRemove, hulock]; rfl, ?_⟩
    simp only [AppState.expireRoom, huroom]
    exact
      { row := h.row
        created := h.created
        room := h.room
        log := fun tx hk => h.log_quiet (expireRemove_cases hs) rfl rfl hk
        unopened := h.unopened
        conn := h.conn
        lock := rfl }

theorem Alone.expireDone (h : Alone r s u) (hs : s.expireDone = some s') :
    ∃ u', u.expireDone = some u' ∧ Alone r s' u' := by
  cases hlock : s.lock with
  | expiring ids =>
    cases ids with
    | nil =>
      simp only [Store.expireDone, hlock, Option.some.injEq] at hs
      subst hs
      have hulock : u.lock = .expiring [] := by rw [h.lock, lockWithin, hlock]; rfl
      refine ⟨{ u with lock := .free }, by simp only [Store.expireDone, hulock], ?_⟩
      exact
        { row := h.row, created := h.created, room := h.room, log := h.log,
          unopened := h.unopened, conn := h.conn, lock := rfl }
    | cons id ids => simp [Store.expireDone, hlock] at hs
  | free => simp [Store.expireDone, hlock] at hs
  | attaching id c => simp [Store.expireDone, hlock] at hs
  | joining c rc => simp [Store.expireDone, hlock] at hs

theorem Alone.publish (hinv : s.Inv) (h : Alone r s u) {c : String} {event : RoomEvent}
    (hs : s.publish c event = some s') (habout : s.home c = some r) :
    ∃ u', u.publish c event = some u' ∧ Alone r s' u' := by
  have hstep : Step s (.publish c event) s' := step_cases hs
  cases hstep with
  | idle hop => cases hop
  | @published _ t rc _ hc hsender hrelayed =>
    have hr : t.room = r := by
      rw [home, hc] at habout
      exact Option.some.inj habout
    have huc : u.conns c = .joined t.alone rc.alone :=
      ((h.conn c).eq_alone (by rw [hc]; rfl) hr).trans (by rw [hc]; rfl)
    refine ⟨{ u with app := u.app.send 0 event }, ?_, ?_⟩
    · simp only [Store.publish, huc]
      exact if_pos ⟨hsender, hrelayed⟩
    · exact
        { row := h.row
          created := h.created
          room := h.room
          log := fun tx hk => by
            have hlogs : ∀ tx, s.Known r tx → (u.app.send 0 event).channels 0 =
                (s.app.send t.tx event).channels tx := by
              intro tx hk
              have htx : tx = t.tx :=
                (hinv.channels.owns r t.tx (.inr ⟨c, t, by rw [hc]; rfl, hr, rfl⟩)).sole tx hk
              have hold : u.app.channels 0 = s.app.channels t.tx := htx ▸ h.log tx hk
              rw [htx, AppState.send_channels_self, AppState.send_channels_self, hold]
            exact hlogs tx hk
          unopened := fun hnone hcond => by
            have hk : s.Known r t.tx := .inr ⟨c, t, by rw [hc]; rfl, hr, rfl⟩
            exact absurd hk (hinv.unknown hnone hcond t.tx)
          conn := h.conn
          lock := h.lock }

/-- A step, and what is left of it for the room. -/
theorem Alone.step (hinv : s.Inv) (h : Alone r s u) (hs : s.step op = some s') :
    ∃ u', Machine.run Store.step u (op.within r s) = some u' ∧ Alone r s' u' := by
  have hone : ∀ {op' : Op}, (∃ u', u.step op' = some u' ∧ Alone r s' u') →
      ∃ u', Machine.run Store.step u [op'] = some u' ∧ Alone r s' u' := by
    rintro op' ⟨u', hu', halone⟩
    exact ⟨u', Machine.run_cons hu', halone⟩
  cases hwide : op.isWide with
  | true =>
    cases op with
    | expireDelete now threshold ids fault => exact hone (h.expireDelete hs)
    | expireDone => exact hone (h.expireDone hs)
    | _ => cases hwide
  | false =>
    have hwithin : op.within r s = if op.about s = some r then [op] else [] := by
      cases op <;> first | rfl | cases hwide
    rw [hwithin]
    by_cases habout : op.about s = some r
    · rw [if_pos habout]
      refine hone ?_
      cases op with
      | createRoom id hash now fault => cases habout; exact h.createRoom hs
      | roomPassword id fault => cases hs; exact ⟨u, rfl, h⟩
      | updateActivity id now fault => cases habout; cases hs; exact ⟨_, rfl, h.updateActivity ..⟩
      | attachSelect c id fault => cases habout; exact h.attachSelect hs
      | attachInsert => exact h.attachInsert hinv hs habout
      | joinSubscribe c participant peers => exact h.joinSubscribe hs habout
      | joinInsert => exact h.joinInsert hinv hs habout
      | detach c => exact h.detach hinv hs habout
      | expireRemove => exact h.expireRemove hinv hs habout
      | publish c event => exact h.publish hinv hs habout
      | expireDelete now threshold ids fault => cases hwide
      | expireDone => cases hwide
    · rw [if_neg habout]
      exact ⟨u, rfl, h.other hinv (step_cases hs) habout hwide⟩

/-- **Rooms are isolated.** Cut any run of the store down to one room: what is left is a run of a
store that has no other room, and it ends with the same row, the same members and creator, the same
events, and the same answers to every connection of the room. -/
theorem isolated (r : String) (db : Db.Rooms) {ops : List Op} {s : Store}
    (h : Machine.run step (start db) ops = some s) :
    ∃ u, Machine.run step (start (HashMap.retain (fun id _ => id = r) db))
        (Machine.emitted step (fun s op => op.within r s) (start db) ops) = some u ∧
      Alone r s u := by
  obtain ⟨u, hu, -, halone⟩ := Machine.run_simulation (R := fun s u => s.Inv ∧ Alone r s u)
    ⟨inv_start db, alone_start r db⟩
    (fun s u op s' hR hs => by
      obtain ⟨u', hu', halone⟩ := hR.2.step hR.1 hs
      exact ⟨u', hu', hR.1.step (step_cases hs), halone⟩) h
  exact ⟨u, hu, halone⟩

def twoRooms : Db.Rooms := HashMap.insert (HashMap.insert ∅ "room" ⟨100, 100, none⟩) "other" ⟨0, 0, none⟩

/-- `a` joins its room and `b` is turned away from it by a statement that fails, while `x` joins and
types in the other one, which is then deleted. -/
def besides : List Op :=
  [.attachSelect "x" "other" false, .attachInsert] ++ attaches "a" ++
    [.attachSelect "b" "room" true] ++
    [.joinSubscribe "x" announced [], .joinInsert, .joinSubscribe "a" announced [],
      .publish "x" (.typing "x"), .joinInsert, .expireDelete 60 10 ["other"] false, .expireRemove,
      .expireDone]

theorem isolated_besides : ∃ s u, Machine.run step (start twoRooms) besides = some s ∧
    Machine.run step (start (HashMap.retain (fun id _ => id = "room") twoRooms))
      (Machine.emitted step (fun s op => op.within "room" s) (start twoRooms) besides) = some u ∧
    Alone "room" s u ∧
    (Machine.emitted step (fun s op => op.within "room" s) (start twoRooms) besides).length = 7 := by
  obtain ⟨s, hs⟩ : ∃ s, Machine.run step (start twoRooms) besides = some s :=
    Option.isSome_iff_exists.mp (by decide +kernel)
  obtain ⟨u, hu, halone⟩ := isolated "room" twoRooms hs
  exact ⟨s, u, hs, hu, halone, by decide +kernel⟩

end Store
end Parrhesia
