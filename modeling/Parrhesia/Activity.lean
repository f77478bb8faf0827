import Parrhesia.Expiry
import Parrhesia.Hearing

/-!
# Parrhesia.Activity

Which rooms a cleanup round deletes, and what keeps a room alive.

* `touches`     : the timestamps that `update_activity` wrote for a room in a run.
* `Chronicle`   : `last_activity` is the last of them, or what the room began with.
* `Earned`      : what a socket that is about to run `update_activity` has done.

`expiry_exact` reads the deletion of `expire_inactive_rooms` off the history, for the table and, once
nothing is left to be removed, for the map.
-/

namespace Parrhesia

open Lib

namespace Store

/-- The operations that write to the table. -/
def Op.isWrite : Op → Bool
  | .createRoom .. => true
  | .updateActivity .. => true
  | .expireDelete .. => true
  | _ => false

/-- A statement of `expire_inactive_rooms` that goes through. -/
def Op.isDelete : Op → Bool
  | .expireDelete _ _ _ fault => !fault
  | _ => false

variable {s s' : Store} {op : Op}

theorem Step.db (hs : Step s op s') (hop : op.isWrite = false) : s'.app.db = s.app.db := by
  cases hs with
  | created hnew hrow => cases hop
  | touched hrow => cases hop
  | deleted hlock hids => cases hop
  | _ => rfl

/-- The rows after an update: it writes to its own, when there is one. -/
theorem updateActivity_row (s : Store) (id id' : String) (now : Int) :
    (s.updateActivity id now false).row id' =
      if id' = id then (s.row id).map fun row => { row with lastActivity := now } else s.row id' := by
  have hget : ∀ db, Db.updateActivity s.app.db id now false = .ok db →
      (s.updateActivity id now false).row id' = HashMap.get db id' := by
    intro db hdb
    simp only [updateActivity, hdb]
    rfl
  cases hrow : s.row id with
  | none =>
    rw [hget s.app.db (by rw [Db.updateActivity, show HashMap.get s.app.db id = none from hrow]; rfl)]
    split
    · rename_i he; rw [he]; exact hrow
    · rfl
  | some row =>
    rw [hget (HashMap.insert s.app.db id { row with lastActivity := now })
      (by rw [Db.updateActivity, show HashMap.get s.app.db id = some row from hrow]; rfl)]
    exact HashMap.get_insert _ _ _ _

theorem Step.row_keep (hs : Step s op s') (hop : op.isDelete = false) {id : String}
    (h : (s.row id).isSome) : (s'.row id).isSome := by
  cases hs with
  | @created id₀ hash now hnew hrow =>
    simp only [Store.row, HashMap.get_insert]
    split
    · rfl
    · exact h
  | @touched id₀ now row₀ hrow =>
    simp only [Store.row, HashMap.get_insert]
    split
    · rfl
    · exact h
  | deleted hlock hids => cases hop
  | _ => exact h

/-- A room of the map that still has a row is still in the map. -/
theorem Step.room_keep (hs : Step s op s') (hinv : Inv s) {id : String}
    (hcr : (s.created id).isSome) (h : (s.row id).isSome → (s.room id).isSome)
    (hrow : (s'.row id).isSome) : (s'.room id).isSome := by
  have hbefore : (s.row id).isSome := by
    cases hrow' : s.row id with
    | some row => rfl
    | none => rw [hs.row_none hcr hrow'] at hrow; cases hrow
  obtain ⟨room, hroom⟩ := Option.isSome_iff_exists.mp (h hbefore)
  rcases hs.room_isSome hroom with ⟨room', hroom', -⟩ | ⟨ids, hlock, -, -⟩
  · rw [hroom']; rfl
  · obtain ⟨hgone, -⟩ := hinv.rows.deleted _ hlock id List.mem_cons_self
    rw [hgone] at hbefore
    cases hbefore

/-- Where nothing is left to be removed, every room of the map has a row. -/
theorem Inv.room_none_of_row (hinv : Inv s) (hlock : ∀ rest, s.lock = .expiring rest → rest = [])
    {id : String} (hrow : s.row id = none) : s.room id = none := by
  rcases hinv.room_none hrow with hnone | ⟨ids, hexpiring, hmem⟩
  · exact hnone
  · rw [hlock ids hexpiring] at hmem
    cases hmem

end Store

/-! ## The moves that write to the table -/

/-- The place where `update_activity` runs. -/
def Pc.touches : Pc → Bool
  | .live _ _ _ (.relay _ (.updateActivity _)) => true
  | _ => false

section Moves

variable {env : Env} {sh : Shared} {roomId : String} {pc : Pc} {ch : Choice} {m : Move Pc}

theorem RelayStep.db {connId : String} {r : Relay} {p : RelayPc} {m : Move LivePc}
    (h : RelayStep env sh roomId connId r p m) (hp : ∀ event, p ≠ .updateActivity event) :
    m.shared.store.app.db = sh.store.app.db := by
  cases h with
  | updated hstep => exact absurd rfl (hp _)
  | published hstep => exact (Store.step_cases hstep).db rfl
  | _ => rfl

theorem PcStep.db (h : PcStep env sh roomId pc m) (hpc : pc.touches = false) :
    m.shared.store.app.db = sh.store.app.db := by
  cases h with
  | auth hauth => rw [hauth.store]
  | dropped hdrop => rw [Shared.dropGuard_store hdrop]
  | attaching hstep => exact (Store.step_cases hstep).db rfl
  | attached hstep => exact (Store.step_cases hstep).db rfl
  | live hlive =>
    cases hlive with
    | asked hstep => exact (Store.step_cases hstep).db rfl
    | joined hlock hstep => exact (Store.step_cases hstep).db rfl
    | relayed hrelay =>
      refine hrelay.db ?_
      rintro event rfl
      cases hpc
    | _ => rfl
  | detached hstep => exact (Store.step_cases hstep).db rfl
  | _ => rfl

/-- A socket's own moves are none of the background's. -/
theorem PcStep.foreground (h : PcStep env sh roomId pc m) :
    m.shared.store = sh.store ∨
      ∃ op, op.isBackground = false ∧ sh.store.step op = some m.shared.store := by
  cases h with
  | auth hauth => exact .inl hauth.store
  | dropped hdrop => exact .inl (Shared.dropGuard_store hdrop)
  | attaching hstep => exact .inr ⟨_, rfl, hstep⟩
  | attached hstep => exact .inr ⟨_, rfl, hstep⟩
  | live hlive =>
    cases hlive with
    | asked hstep => exact .inr ⟨_, rfl, hstep⟩
    | joined hlock hstep => exact .inr ⟨_, rfl, hstep⟩
    | relayed hrelay =>
      cases hrelay with
      | updated hstep => exact .inr ⟨_, rfl, hstep⟩
      | published hstep => exact .inr ⟨_, rfl, hstep⟩
      | _ => exact .inl rfl
    | _ => exact .inl rfl
  | detached hstep => exact .inr ⟨_, rfl, hstep⟩
  | _ => exact .inl rfl

/-- At its place, `update_activity` runs with the reading it is given. -/
theorem Pc.next_touches (h : pc.next env sh roomId ch = some m) (hpc : pc.touches = true) :
    ∃ now fault, ch = .activity now fault ∧
      sh.store.step (.updateActivity roomId now fault) = some m.shared.store := by
  unfold Pc.touches at hpc
  split at hpc
  · rename_i isProtected connId attached r event
    cases ch with
    | activity now fault =>
      refine ⟨now, fault, rfl, ?_⟩
      simp only [Pc.next, liveNext, relayNext] at h
      obtain ⟨m₁, hm₁, rfl⟩ := Option.map_eq_some_iff.mp h
      obtain ⟨sh', happly, rfl⟩ := Option.map_eq_some_iff.mp hm₁
      obtain ⟨store, hstep, rfl⟩ := Shared.apply_eq_some.mp happly
      exact hstep
    | _ => cases h
  · cases hpc

end Moves

theorem Cleared.mono {pre trace : List Obs} (h : Cleared pre) (hsub : pre ⊆ trace) :
    Cleared trace := by
  rcases h with hopen | ⟨hash, hlooked, password, hverified⟩
  · exact .inl (hsub hopen)
  · exact .inr ⟨hash, hsub hlooked, password, hsub hverified⟩

namespace Server

/-! ## The history of a room -/

/-- The row that a step's `update_activity` writes to, and the timestamp. -/
def touch (v : Server) : Label → List (String × Int)
  | .socket k (.activity now false) =>
    match v.sockets k with
    | some s =>
      if s.pc.touches ∧ (v.shared.store.row s.roomId).isSome then [(s.roomId, now)] else []
    | none => []
  | _ => []

/-- The timestamps that `update_activity` wrote for a room in a run, in order. -/
def touches (env : Env) (v : Server) (ls : List Label) (id : String) : List Int :=
  (Machine.emitted (step env) touch v ls).filterMap fun e => if e.1 = id then some e.2 else none

/-- The last of them. A room of the database starts with what its row says, a new one with its
creation. -/
def lastTouch (env : Env) (db : Db.Rooms) (ls : List Label) (id : String) (row : Db.Row) : Int :=
  (touches env (start db) ls id).getLast?.getD
    (((HashMap.get db id).map Db.Row.lastActivity).getD row.createdAt)

/-- What is needed of a wall clock that does not run back: `update_activity` reads no time before the
creation of the room. -/
structure Clocked (env : Env) (db : Db.Rooms) (ls : List Label) : Prop where
  started : ∀ id row, HashMap.get db id = some row → row.createdAt ≤ row.lastActivity
  updated : Machine.Along (step env) (fun v l => ∀ id now row, (id, now) ∈ v.touch l →
    v.shared.store.row id = some row → row.createdAt ≤ now) (start db) ls

variable {env : Env} {v v' : Server} {db : Db.Rooms} {ls : List Label} {l : Label} {id : String}

theorem mem_touch {now : Int} (h : (id, now) ∈ v.touch l) :
    v.touch l = [(id, now)] ∧ (v.shared.store.row id).isSome ∧
      ∃ k s, l = .socket k (.activity now false) ∧ v.sockets k = some s ∧ s.pc.touches = true ∧
        s.roomId = id := by
  unfold touch at h ⊢
  split at h
  · rename_i k now'
    split at h
    · rename_i s hk
      split at h
      · rename_i hplace
        cases List.mem_singleton.mp h
        rw [if_pos hplace]
        exact ⟨rfl, hplace.2, k, s, rfl, hk, hplace.1, rfl⟩
      · cases h
    · cases h
  · cases h

theorem touches_snoc (h : Machine.run (step env) v ls = some v') (l : Label) (id : String) :
    touches env v (ls ++ [l]) id = touches env v ls id ++
      (v'.touch l).filterMap fun e => if e.1 = id then some e.2 else none := by
  rw [touches, Machine.emitted_snoc h, List.filterMap_append]
  rfl

/-- The operation of a step; one of the background is its label. -/
theorem step_op (h : v.step env l = some v') : v'.shared.store = v.shared.store ∨
    ∃ op, v.shared.store.step op = some v'.shared.store ∧
      (op.isBackground = true → l = .background op) := by
  cases step_does h with
  | socket hmove =>
    obtain ⟨s, m, hk, hm, rfl⟩ := socket_cases hmove
    rcases hm.foreground with hsame | ⟨op, hop, hstep⟩
    · exact .inl hsame
    · exact .inr ⟨op, hstep, fun hback => absurd hback (by simp [hop])⟩
  | background hop hstep => exact .inr ⟨_, hstep, fun _ => rfl⟩
  | _ => exact .inl rfl

/-- Where the row `row'` of an id comes from: it is new, it is touched, or it is as before. -/
def Follows (v : Server) (l : Label) (id : String) (row' : Db.Row) : Prop :=
  (v.shared.store.created id = none ∧ row'.lastActivity = row'.createdAt ∧ v.touch l = []) ∨
    ∃ row, v.shared.store.row id = some row ∧
      ((∃ now, (id, now) ∈ v.touch l ∧ row' = { row with lastActivity := now }) ∨
        (row' = row ∧ ∀ now, (id, now) ∉ v.touch l))

theorem follows_of_db {row' : Db.Row} (hdb : v'.shared.store.app.db = v.shared.store.app.db)
    (hnone : ∀ now, (id, now) ∉ v.touch l) (hr : v'.shared.store.row id = some row') :
    v.Follows l id row' := by
  rw [Store.row, hdb] at hr
  exact .inr ⟨row', hr, .inr ⟨rfl, hnone⟩⟩

theorem socket_follows {k : Nat} {ch : Choice} (h : v.socket env k ch = some v') {row' : Db.Row}
    (hr : v'.shared.store.row id = some row') : v.Follows (.socket k ch) id row' := by
  obtain ⟨s, m, hk, hm, rfl⟩ := socket_next h
  cases hpc : s.pc.touches with
  | false =>
    refine follows_of_db ((Pc.next_cases hm).db hpc) ?_ hr
    intro now hmem
    obtain ⟨-, -, k', s', hl, hk', htouches, -⟩ := mem_touch hmem
    cases hl
    rw [hk] at hk'
    cases hk'
    rw [hpc] at htouches
    cases htouches
  | true =>
    obtain ⟨now, fault, rfl, hstep⟩ := Pc.next_touches hm hpc
    have hstore : m.shared.store = v.shared.store.updateActivity s.roomId now fault :=
      (Option.some.inj hstep).symm
    have hr : m.shared.store.row id = some row' := hr
    cases fault with
    | true =>
      refine .inr ⟨row', by rw [hstore] at hr; exact hr, .inr ⟨rfl, ?_⟩⟩
      intro now' hmem
      obtain ⟨-, -, k', s', hl, -⟩ := mem_touch hmem
      cases hl
    | false =>
      have htouch : v.touch (.socket k (.activity now false)) =
          if (v.shared.store.row s.roomId).isSome then [(s.roomId, now)] else [] := by
        simp only [touch, hk, hpc, true_and]
      rw [hstore, Store.updateActivity_row] at hr
      split at hr
      · rename_i he
        obtain ⟨row, hrow, hrow'⟩ := Option.map_eq_some_iff.mp hr
        refine .inr ⟨row, by rw [he]; exact hrow, .inl ⟨now, ?_, hrow'.symm⟩⟩
        rw [htouch, hrow, he]
        exact List.mem_singleton.mpr rfl
      · rename_i he
        refine .inr ⟨row', hr, .inr ⟨rfl, ?_⟩⟩
        intro now' hmem
        obtain ⟨-, -, k', s', hl, hk', -, hid⟩ := mem_touch hmem
        cases hl
        rw [hk] at hk'
        cases hk'
        exact he hid.symm

theorem row_step (h : v.step env l = some v') {row' : Db.Row}
    (hr : v'.shared.store.row id = some row') : v.Follows l id row' := by
  cases step_does h with
  | socket hmove => exact socket_follows hmove hr
  | @background op store hback hstep =>
    cases hop : op.isWrite with
    | false => exact follows_of_db ((Store.step_cases hstep).db hop) (by simp [touch]) hr
    | true =>
      cases Store.step_cases hstep with
      | @created id₀ hash now hnew hrow =>
        simp only [Store.row, HashMap.get_insert] at hr
        split at hr
        · rename_i he
          cases hr
          exact .inl ⟨by rw [he]; exact hnew, rfl, rfl⟩
        · exact .inr ⟨row', hr, .inr ⟨rfl, by simp [touch]⟩⟩
      | deleted hlock hids =>
        exact .inr ⟨row', (Db.get_active.mp hr).1, .inr ⟨rfl, by simp [touch]⟩⟩
      | touched hrow => cases hback
      | idle hidle => exact follows_of_db rfl (by simp [touch]) hr
      | _ => cases hop
  | _ => exact follows_of_db rfl (by simp [touch]) hr

/-- The rows are what the history makes of them. -/
structure Chronicle (env : Env) (db : Db.Rooms) (ls : List Label) (v : Server) : Prop where
  last : ∀ id row, v.shared.store.row id = some row → row.lastActivity = lastTouch env db ls id row
  after : ∀ id row, v.shared.store.row id = some row → row.createdAt ≤ row.lastActivity
  unborn : ∀ id, v.shared.store.created id = none →
    touches env (start db) ls id = [] ∧ HashMap.get db id = none

theorem chronicle_start (hdb : ∀ id row, HashMap.get db id = some row → row.createdAt ≤ row.lastActivity) :
    Chronicle env db [] (start db) where
  last id row hr := by
    have hget : HashMap.get db id = some row := hr
    simp [lastTouch, touches, Machine.emitted, hget]
  after id row hr := hdb id row hr
  unborn id hnone := by
    refine ⟨rfl, ?_⟩
    have hcreated : (HashMap.get db id).map Db.Row.passwordHash = none := hnone
    exact Option.map_eq_none_iff.mp hcreated

theorem Chronicle.step (h : Chronicle env db ls v) (hrun : Machine.run (step env) (start db) ls = some v)
    (hclock : ∀ id now row, (id, now) ∈ v.touch l → v.shared.store.row id = some row →
      row.createdAt ≤ now)
    (hs : v.step env l = some v') : Chronicle env db (ls ++ [l]) v' := by
  have hreach : Reachable env v := ⟨db, ls, hrun⟩
  have hnone : ∀ {id}, (∀ now, (id, now) ∉ v.touch l) →
      touches env (start db) (ls ++ [l]) id = touches env (start db) ls id := by
    intro id hid
    rw [touches_snoc hrun]
    have : (v.touch l).filterMap (fun e => if e.1 = id then some e.2 else none) = [] := by
      refine List.filterMap_eq_nil_iff.mpr ?_
      rintro ⟨id', now⟩ hmem
      refine if_neg ?_
      rintro rfl
      exact hid now hmem
    rw [this, List.append_nil]
  have htouched : ∀ {id now}, (id, now) ∈ v.touch l →
      touches env (start db) (ls ++ [l]) id = touches env (start db) ls id ++ [now] := by
    intro id now hmem
    rw [touches_snoc hrun, (mem_touch hmem).1]
    simp
  constructor
  · intro id row' hr
    rcases row_step hs hr with ⟨hnew, hsame, hquiet⟩ | ⟨row, hrow, ⟨now, hmem, rfl⟩ | ⟨rfl, hid⟩⟩
    · obtain ⟨hempty, hdb⟩ := h.unborn id hnew
      rw [lastTouch, hnone (by simp [hquiet]), hempty, hdb, hsame]
      rfl
    · rw [lastTouch, htouched hmem, List.getLast?_append]
      rfl
    · rw [lastTouch, hnone hid]
      exact h.last id row' hrow
  · intro id row' hr
    rcases row_step hs hr with ⟨-, hsame, -⟩ | ⟨row, hrow, ⟨now, hmem, rfl⟩ | ⟨rfl, -⟩⟩
    · exact le_of_eq hsame.symm
    · exact hclock id now row hmem hrow
    · exact h.after id row' hrow
  · intro id hunborn
    have hbefore : v.shared.store.created id = none := by
      cases hcreated : v.shared.store.created id with
      | none => rfl
      | some hash =>
        rw [(step_cases hs).store.created_keep hcreated] at hunborn
        cases hunborn
    obtain ⟨hempty, hdb⟩ := h.unborn id hbefore
    refine ⟨?_, hdb⟩
    rw [hnone, hempty]
    intro now hmem
    obtain ⟨row, hrow⟩ := Option.isSome_iff_exists.mp (mem_touch hmem).2.1
    rw [hreach.inv.rows.created id row hrow] at hbefore
    cases hbefore

theorem Clocked.chronicle (h : Clocked env db ls) (hrun : Machine.run (step env) (start db) ls = some v) :
    Chronicle env db ls v := by
  have hupdated := h.updated
  induction ls using List.reverseRecOn generalizing v with
  | nil => cases hrun; exact chronicle_start h.started
  | append_singleton ls l ih =>
    obtain ⟨u, hu, hs⟩ := Machine.run_snoc.mp hrun
    obtain ⟨hbefore, hlast⟩ := hupdated.snoc
    exact (ih ⟨h.started, hbefore⟩ hu hbefore).step hu (hlast u hu) hs

/-! ## What earns an update -/

/-- A socket that is about to run `update_activity` was let in, has joined its room, and has just
heard a text that the rate limiter let pass and that is a message with a payload. -/
structure Earned (env : Env) (v : Server) (s : Session) : Prop where
  cleared : Cleared s.trace
  joined : ∃ c t r, s.pc.conn = some c ∧ v.shared.store.conns c = .joined t r ∧ t.room = s.roomId
  heard : ∃ began pre text now payload epoch counter, s.trace = pre ++ [.heard text now] ∧
    (((socketLimiter began).after (heardAt pre)).check now).1 = true ∧
      env.codec.parseIncoming text = some (.message (some payload) epoch counter)

theorem event_isChat {c : String} {m : IncomingMessage} {event : RoomEvent}
    (h : m.event c = some event) (hchat : event.isChat = true) :
    ∃ payload epoch counter, m = .message (some payload) epoch counter := by
  unfold IncomingMessage.event at h
  split at h
  · exact ⟨_, _, _, rfl⟩
  · cases h; cases hchat
  · cases h; cases hchat
  · cases h; cases hchat
  · cases h

theorem Reachable.earned (h : Reachable env v) {k : Nat} {s : Session} (hk : v.sockets k = some s)
    (hpc : s.pc.touches = true) : Earned env v s := by
  have hgate := h.gate hk
  have hhears := h.hears hk
  have htied := (h.sockets.bound k s hk).tied
  unfold Pc.touches at hpc
  split at hpc
  · rename_i isProtected c attached r event hplace
    rw [hplace] at hhears htied
    obtain ⟨began, hhearing⟩ := hhears
    obtain ⟨⟨pre, text, now, htrace, hallowed, m, hparse, hevent⟩, hchat⟩ := hhearing.place
    obtain ⟨payload, epoch, counter, rfl⟩ := event_isChat hevent hchat
    obtain ⟨receipt, hjoined⟩ := htied
    refine ⟨?_, ⟨c, _, receipt, by rw [hplace]; rfl, hjoined, rfl⟩,
      ⟨began, pre, text, now, payload, epoch, counter, htrace, hallowed, hparse⟩⟩
    have hphase := hgate.phase
    rw [hplace] at hphase
    obtain ⟨connId, hattaching⟩ := hphase
    obtain ⟨before, later, hsplit⟩ := List.append_of_mem hattaching
    refine (hgate.entry before _ later hsplit connId rfl).mono ?_
    rw [hsplit]
    exact List.subset_append_left _ _
  · cases hpc

/-! ## A cleanup round -/

/-- The statement of a cleanup round. -/
def Label.isDelete : Label → Bool
  | .background op => op.isDelete
  | _ => false

/-- A room is idle at `now`: its creation and its last update are more than `threshold` seconds ago. -/
def Idle (env : Env) (db : Db.Rooms) (ls : List Label) (id : String) (row : Db.Row)
    (now threshold : Int) : Prop :=
  threshold < now - max row.createdAt (lastTouch env db ls id row)

theorem Chronicle.deleted (h : Chronicle env db ls v) {now threshold : Int} {ids : List String}
    (hlower : -9223372036854775808 ≤ now - threshold) (hupper : now - threshold < 9223372036854775808)
    (hs : v.step env (.background (.expireDelete now threshold ids false)) = some v') {row : Db.Row}
    (hrow : v.shared.store.row id = some row) :
    v'.shared.store.row id = none ↔ Idle env db ls id row now threshold := by
  have hcutoff : Db.cutoff now threshold = now - threshold := Db.cutoff_eq hlower hupper
  have hlatest : max row.createdAt (lastTouch env db ls id row) = row.lastActivity := by
    rw [← h.last id row hrow]
    exact max_eq_right (h.after id row hrow)
  rw [Idle, hlatest]
  simp only [Server.step, Store.Op.isBackground, if_true] at hs
  obtain ⟨sh, happly, rfl⟩ := Option.map_eq_some_iff.mp hs
  obtain ⟨store, hstep, rfl⟩ := Shared.apply_eq_some.mp happly
  have hget : ∀ row', store.row id = some row' ↔
      v.shared.store.row id = some row' ∧ ¬ row'.lastActivity < Db.cutoff now threshold := by
    cases Store.step_cases hstep with
    | idle hidle => cases hidle
    | deleted hlock hids =>
      intro row'
      rw [show Store.row _ id = HashMap.get (Db.active _ _) id from rfl, Db.get_active]
      refine and_congr_right fun hrow' => not_congr ?_
      rw [Db.mem_inactive]
      constructor
      · rintro ⟨row'', hrow'', hlt⟩
        cases hrow'.symm.trans hrow''
        exact hlt
      · intro hlt
        exact ⟨row', hrow', hlt⟩
  rw [hcutoff] at hget
  show store.row id = none ↔ _
  constructor
  · intro hnone
    by_contra hlate
    have hkept := (hget row).mpr ⟨hrow, by omega⟩
    rw [hnone] at hkept
    cases hkept
  · intro hidle
    refine Option.eq_none_iff_forall_ne_some.mpr ?_
    intro row' hkept
    obtain ⟨hrow', hnot⟩ := (hget row').mp hkept
    cases hrow.symm.trans hrow'
    omega

/-- Until the next deletion a row stays as it is found, there or not there. -/
theorem row_isSome_run (hcr : (v.shared.store.created id).isSome) {w : Server}
    (hrun : Machine.run (step env) v ls = some w) (hls : ∀ l ∈ ls, l.isDelete = false) :
    (w.shared.store.row id).isSome ↔ (v.shared.store.row id).isSome := by
  have hreach : Machine.Reachable Store.step v.shared.store w.shared.store := store_run ⟨ls, hrun⟩
  constructor
  · intro hrow
    cases hbefore : v.shared.store.row id with
    | some row => rfl
    | none =>
      rw [Store.Inv.row_none hreach hcr hbefore] at hrow
      cases hrow
  · intro hrow
    refine Machine.run_invariant_along (I := fun w => (w.shared.store.row id).isSome)
      (C := fun _ l => l.isDelete = false) hrow ?_ ?_ hrun
    · intro u l u' hu hl hs
      rcases step_op hs with hsame | ⟨op, hop, hback⟩
      · rw [hsame]; exact hu
      · refine (Store.step_cases hop).row_keep ?_ hu
        cases hdelete : op.isDelete with
        | false => rfl
        | true =>
          have hlabel := hback (by cases op <;> first | rfl | cases hdelete)
          rw [hlabel] at hl
          exact absurd hdelete (by rw [show op.isDelete = false from hl]; exact Bool.false_ne_true)
    · rintro pre l post t rfl -
      exact hls l (by simp)

/-- A room of the map goes with its row. -/
theorem room_iff_row (hv : Reachable env v) {room : Room} (hroom : v.shared.store.room id = some room)
    (hrow : (v.shared.store.row id).isSome) {w : Server} (hrun : Machine.run (step env) v ls = some w)
    (hdone : ∀ rest, w.shared.store.lock = .expiring rest → rest = []) :
    w.shared.store.room id = none ↔ w.shared.store.row id = none := by
  have hcreated : (v.shared.store.created id).isSome := by
    obtain ⟨row, hr⟩ := Option.isSome_iff_exists.mp hrow
    rw [hv.inv.rows.created id row hr]; rfl
  have hkeep := (show Machine.Reachable Store.step v.shared.store w.shared.store from
    store_run ⟨ls, hrun⟩).invariant
      (I := fun s => Store.Inv s ∧ (s.created id).isSome ∧ ((s.row id).isSome → (s.room id).isSome))
      ⟨hv.inv, hcreated, fun _ => by rw [hroom]; rfl⟩ (by
        rintro s op s' ⟨hinv, hcr, hboth⟩ hs
        have hstep := Store.step_cases hs
        exact ⟨hinv.step hstep, hstep.created_isSome hcr, hstep.room_keep hinv hcr hboth⟩)
  constructor
  · intro hnone
    cases hr : w.shared.store.row id with
    | none => rfl
    | some row =>
      have := hkeep.2.2 (by rw [hr]; rfl)
      rw [hnone] at this
      cases this
  · exact hkeep.1.room_none_of_row hdone

/-- **Expiry removes exactly the idle rooms.** Only a member's message with a payload, let through by
the rate limiter, reaches `update_activity`, and nothing else changes a row. By a clock that does not
run back, a cleanup round deletes exactly the rooms that are idle, from the table with its statement
and from the map by the time nothing is left to be removed. -/
theorem expiry_exact (env : Env) (db : Db.Rooms) {ls : List Label} {v : Server}
    (hrun : Machine.run (step env) (start db) ls = some v) :
    (∀ k s, v.sockets k = some s → s.pc.touches = true → Earned env v s) ∧
    (∀ l v' id row row', v.step env l = some v' → v.shared.store.row id = some row →
      v'.shared.store.row id = some row' → row' ≠ row →
        ∃ k s now, l = .socket k (.activity now false) ∧ v.sockets k = some s ∧
          s.pc.touches = true ∧ s.roomId = id ∧ row' = { row with lastActivity := now }) ∧
    (Clocked env db ls → ∀ now threshold ids v', -9223372036854775808 ≤ now - threshold →
      now - threshold < 9223372036854775808 →
      v.step env (.background (.expireDelete now threshold ids false)) = some v' →
        ∀ later w, Machine.run (step env) v' later = some w → (∀ l ∈ later, l.isDelete = false) →
          ∀ id row, v.shared.store.row id = some row →
            (w.shared.store.row id = none ↔ Idle env db ls id row now threshold) ∧
            ((∀ rest, w.shared.store.lock = .expiring rest → rest = []) →
              ∀ room, v.shared.store.room id = some room →
                (w.shared.store.room id = none ↔ Idle env db ls id row now threshold))) := by
  have hreach : Reachable env v := ⟨db, ls, hrun⟩
  refine ⟨fun k s hk hpc => hreach.earned hk hpc, ?_, ?_⟩
  · intro l v' id row row' hs hrow hrow' hne
    rcases row_step hs hrow' with ⟨hnew, -, -⟩ | ⟨row₀, hrow₀, ⟨now, hmem, rfl⟩ | ⟨rfl, -⟩⟩
    · rw [hreach.inv.rows.created id row hrow] at hnew
      cases hnew
    · cases hrow.symm.trans hrow₀
      obtain ⟨-, -, k, s, hl, hk, hpc, hid⟩ := mem_touch hmem
      exact ⟨k, s, now, hl, hk, hpc, hid, rfl⟩
    · cases hrow.symm.trans hrow₀
      exact absurd rfl hne
  · intro hclock now threshold ids v' hlower hupper hs later w hlater hquiet id row hrow
    have hdeleted := (hclock.chronicle hrun).deleted hlower hupper hs hrow
    have hcreated : (v'.shared.store.created id).isSome := by
      have hcr : (v.shared.store.created id).isSome := by
        rw [hreach.inv.rows.created id row hrow]; rfl
      exact (step_cases hs).store.created_isSome hcr
    have hkept := row_isSome_run hcreated hlater hquiet
    have hrows : w.shared.store.row id = none ↔ Idle env db ls id row now threshold := by
      rw [← hdeleted, ← Option.not_isSome_iff_eq_none, ← Option.not_isSome_iff_eq_none, hkept]
    refine ⟨hrows, ?_⟩
    intro hdone room hroom
    have hwhole : Machine.run (step env) v (.background (.expireDelete now threshold ids false) :: later) =
        some w := (Machine.run_cons hs).trans hlater
    rw [room_iff_row hreach hroom (by rw [hrow]; rfl) hwhole hdone]
    exact hrows

def Label.isActivity : Label → Bool
  | .socket _ (.activity _ _) => true
  | _ => false

/-- Without `update_activity` no room is touched. -/
theorem clocked_openRoom {ls : List Label} (h : ∀ l ∈ ls, l.isActivity = false) :
    Clocked talkEnv Store.openRoom ls := by
  constructor
  · intro id row hrow
    rw [Store.openRoom, HashMap.get_insert] at hrow
    split at hrow
    · cases hrow; exact le_refl _
    · cases hrow
  · rintro pre l post v rfl hpre id now row hmem
    obtain ⟨-, -, k, s, rfl, -⟩ := mem_touch hmem
    cases h (.socket k (.activity now false)) (by simp)

/-- The relay loop of socket 0 begins and hears a message. -/
def hears : List Label :=
  [.socket 0 (.clocks 0 0 0), .socket 0 (.frame (.text messageText) 0)]

/-- The wall clock is at second 50 when the room is updated. -/
def updates : Label := .socket 0 (.activity 50 false)

/-- A room updated at second 50 is kept by a round at second 60 and expired by one at second 61, each
with a threshold of ten seconds. -/
theorem expiry_exact_openRoom : ∃ ls v,
    Machine.run (step talkEnv) (start Store.openRoom) ls = some v ∧
    (∃ v' w, v.step talkEnv (.background (.expireDelete 60 10 [] false)) = some v' ∧
      Machine.run (step talkEnv) v' [.background .expireDone] = some w ∧
      w.shared.store.row "room" ≠ none ∧ w.shared.store.room "room" ≠ none) ∧
    ∃ v' w, v.step talkEnv (.background (.expireDelete 61 10 ["room"] false)) = some v' ∧
      Machine.run (step talkEnv) v' [.background .expireRemove, .background .expireDone] = some w ∧
      w.shared.store.row "room" = none ∧ w.shared.store.room "room" = none := by
  have hrun : (joins.bind fun v₀ => (Machine.run (step talkEnv) v₀ hears).bind fun v₁ =>
      (v₁.step talkEnv updates).bind fun v =>
        (v.step talkEnv (.background (.expireDelete 60 10 [] false))).bind fun early =>
          (v.step talkEnv (.background (.expireDelete 61 10 ["room"] false))).bind fun late =>
            (Machine.run (step talkEnv) early [.background .expireDone]).bind fun kept =>
              (Machine.run (step talkEnv) late
                [.background .expireRemove, .background .expireDone]).bind fun gone =>
                  (v.shared.store.room "room").map fun _ =>
                    (v₁.touch updates, v₁.shared.store.row "room", v.shared.store.row "room",
                      kept.shared.store.lock, gone.shared.store.lock)) =
      some ([("room", 50)], some ⟨0, 0, none⟩, some ⟨0, 50, none⟩, .free, .free) := by
    decide +kernel
  obtain ⟨v₀, h₀, hrest⟩ := Option.bind_eq_some_iff.mp hrun
  obtain ⟨v₁, h₁, hrest⟩ := Option.bind_eq_some_iff.mp hrest
  obtain ⟨v, h₂, hrest⟩ := Option.bind_eq_some_iff.mp hrest
  obtain ⟨early, hearly, hrest⟩ := Option.bind_eq_some_iff.mp hrest
  obtain ⟨late, hlate, hrest⟩ := Option.bind_eq_some_iff.mp hrest
  obtain ⟨kept, hkept, hrest⟩ := Option.bind_eq_some_iff.mp hrest
  obtain ⟨gone, hgone, hrest⟩ := Option.bind_eq_some_iff.mp hrest
  obtain ⟨room, hroom, hvalues⟩ := Option.map_eq_some_iff.mp hrest
  simp only [Prod.mk.injEq] at hvalues
  obtain ⟨htouch, hrow₁, hrow, hkeptFree, hgoneFree⟩ := hvalues
  obtain ⟨peers, hjoins⟩ := joins_labels h₀
  let ls := joiningLabels peers ++ hears ++ [updates]
  have hls₁ := Machine.run_trans hjoins h₁
  have hls : Machine.run (step talkEnv) (start Store.openRoom) ls = some v :=
    Machine.run_snoc.mpr ⟨v₁, hls₁, h₂⟩
  have hquiet : Clocked talkEnv Store.openRoom (joiningLabels peers ++ hears) :=
    clocked_openRoom (by simp [joiningLabels, arrives, hears, Label.isActivity])
  have hclock : Clocked talkEnv Store.openRoom ls := by
    refine ⟨hquiet.started, hquiet.updated.concat ?_⟩
    intro t ht id now row hmem hr
    cases hls₁.symm.trans ht
    rw [htouch] at hmem
    cases List.mem_singleton.mp hmem
    cases hrow₁.symm.trans hr
    decide
  have hlast := (hclock.chronicle hls).last "room" _ hrow
  have hexpiry := (expiry_exact talkEnv Store.openRoom hls).2.2 hclock
  refine ⟨ls, v, hls, ⟨early, kept, hearly, hkept, ?_⟩, late, gone, hlate, hgone, ?_⟩
  · obtain ⟨hrows, hrooms⟩ := hexpiry 60 10 [] early (by omega) (by omega) hearly _ kept hkept
      (by decide) "room" _ hrow
    have hbusy : ¬ Idle talkEnv Store.openRoom ls "room" ⟨0, 50, none⟩ 60 10 := by
      rw [Idle, ← hlast]
      decide
    refine ⟨fun h => hbusy (hrows.mp h), fun h => hbusy ?_⟩
    exact (hrooms (by rw [hkeptFree]; rintro rest ⟨⟩) room hroom).mp h
  · obtain ⟨hrows, hrooms⟩ := hexpiry 61 10 ["room"] late (by omega) (by omega) hlate _ gone hgone
      (by decide) "room" _ hrow
    have hidle : Idle talkEnv Store.openRoom ls "room" ⟨0, 50, none⟩ 61 10 := by
      rw [Idle, ← hlast]
      decide
    exact ⟨hrows.mpr hidle, (hrooms (by rw [hgoneFree]; rintro rest ⟨⟩) room hroom).mpr hidle⟩

end Server
end Parrhesia
