import Mathlib.Algebra.Order.BigOperators.Group.Finset
import Mathlib.Data.Finset.Union
import Mathlib.Data.Fintype.EquivFin
import Parrhesia.Hearing
import Parrhesia.Membership
import Parrhesia.Permits
import Parrhesia.Slots

/-!
# Parrhesia.Progress

No session is ever stuck, and none leaves anything behind.

* `Move.Closes` : a move on the shortest way out, which every place has once the socket may have the
  lock (`Pc.closes`). It takes a client that hangs up and timers that elapse, and nobody else.
* `Drained`      : all sockets over, and nothing held for them.

`drains` brings any reachable server to a drained one.
-/

namespace Parrhesia

open Lib

/-! ## The way out -/

def RelayPc.rank : RelayPc → Nat
  | .select => 3
  | .sendPing => 4
  | .sendEvent _ => 4
  | .sendPong _ => 4
  | .publish _ => 4
  | .updateActivity _ => 5

def LivePc.rank : LivePc → Nat
  | .detach => 1
  | .sendWelcome => 2
  | .handshake => 2
  | .sendRoomFull => 2
  | .sendClose => 2
  | .sendJoined _ _ => 2
  | .sendPeer _ _ _ => 2
  | .startRelay _ => 4
  | .relay _ p => p.rank
  | .joinInsert => 5
  | .join _ => 6

def AuthPc.rank : AuthPc → Nat
  | .sendClose => 13
  | .sendFailure _ => 14
  | .budget _ => 16
  | _ => 15

/-- The moves that are left until a socket is over, at most. -/
def Pc.rank : Pc → Nat
  | .finished _ => 0
  | .sendUnavailable _ => 1
  | .live _ _ _ p => p.rank
  | .attachInsert _ _ => 10
  | .attach _ => 11
  | .dropGuard _ _ _ => 12
  | .auth _ _ p => p.rank
  | .upgrade _ _ => 17
  | .pending _ _ => 18
  | .roomPassword _ => 19
  | .connectionBudget _ => 20
  | .request => 21

/-- The places that hold the lock. -/
def Pc.holds : Pc → Bool
  | .attachInsert _ _ => true
  | .live _ _ _ .joinInsert => true
  | _ => false

attribute [simp] RelayPc.rank LivePc.rank AuthPc.rank Pc.rank Pc.holds

structure Move.Closes (sh : Shared) (pc : Pc) (m : Move Pc) : Prop where
  rank : m.pc.rank < pc.rank
  lock : m.shared.store.lock = .free ∨ m.pc.holds = true
  passwords : m.shared.passwords = sh.passwords
  rows : m.shared.store.app.db = sh.store.app.db

theorem AppState.enter_db (app : AppState) (roomId connId : String) :
    (app.enter roomId connId).2.db = app.db := by
  unfold AppState.enter AppState.entry
  cases HashMap.get app.rooms roomId with
  | none => rfl
  | some room =>
    dsimp only
    cases room.creatorId <;> rfl

theorem AppState.detach_db (app : AppState) (roomId connId : String) :
    (app.detach roomId connId).db = app.db := by
  unfold AppState.detach
  cases HashMap.get app.rooms roomId with
  | none => rfl
  | some room => dsimp only; split <;> rfl

section Closes

variable {env : Env} {sh : Shared} {roomId c : String}

theorem authSent_failed : authSent .failed = .sendFailure .authFailed := rfl

theorem AuthPc.closes (p : AuthPc) (guard : Option IpAddr) (hash : String)
    (hlock : sh.store.lock = .free) :
    ∃ ch m, authNext env sh roomId guard hash p ch = some m ∧ m.Closes sh (.auth guard hash p) := by
  cases p with
  | sendRequired =>
    exact ⟨.sent .failed, _, rfl, by simp [authSent_failed], .inl hlock, rfl, rfl⟩
  | receive => exact ⟨.elapsed, _, rfl, by simp, .inl hlock, rfl, rfl⟩
  | sendPong data =>
    exact ⟨.sent .failed, _, rfl, by simp [authSent_failed], .inl hlock, rfl, rfl⟩
  | budget password =>
    rcases hcheck : sh.limits.checkAt (.room roomId) 0 with ⟨result, limits⟩
    cases result with
    | ok u => exact ⟨.clock 0, _, by simp only [authNext, hcheck]; rfl, by simp, .inl hlock, rfl, rfl⟩
    | error e =>
      exact ⟨.clock 0, _, by simp only [authNext, hcheck]; rfl, by simp, .inl hlock, rfl, rfl⟩
  | verify password => exact ⟨.frame .ended 0, _, rfl, by simp, .inl hlock, rfl, rfl⟩
  | computing password job => exact ⟨.elapsed, _, rfl, by simp, .inl hlock, rfl, rfl⟩
  | sendFailure failure => exact ⟨.sent .failed, _, rfl, by simp, .inl hlock, rfl, rfl⟩
  | sendClose => exact ⟨.sent .failed, _, rfl, by simp, .inl hlock, rfl, rfl⟩

/-- The move of a session body as a move of its socket. -/
structure Move.Leaves (sh : Shared) (p : LivePc) (m : Move LivePc) : Prop where
  rank : m.pc.rank < p.rank
  lock : m.shared.store.lock = .free ∨ m.pc = .joinInsert
  passwords : m.shared.passwords = sh.passwords
  rows : m.shared.store.app.db = sh.store.app.db

theorem RelayPc.leaves (r : Relay) (p : RelayPc) (hlock : sh.store.lock = .free)
    (hpublish : ∀ event, p = .publish event →
      ∃ store, sh.store.step (.publish c event) = some store ∧ store.lock = .free ∧
        store.app.db = sh.store.app.db) :
    ∃ ch m, relayNext env sh roomId c r p ch = some m ∧ m.Leaves sh (.relay r p) := by
  cases p with
  | select => exact ⟨.frame .close 0, _, rfl, by simp [relayFrame], .inl hlock, rfl, rfl⟩
  | sendPing => exact ⟨.sent .failed, _, rfl, by simp, .inl hlock, rfl, rfl⟩
  | sendEvent event => exact ⟨.sent .failed, _, rfl, by simp, .inl hlock, rfl, rfl⟩
  | sendPong data => exact ⟨.sent .failed, _, rfl, by simp, .inl hlock, rfl, rfl⟩
  | updateActivity event =>
    exact ⟨.activity 0 true, _, rfl, by simp, .inl hlock, rfl, rfl⟩
  | publish event =>
    obtain ⟨store, hstep, hfree, hrows⟩ := hpublish event rfl
    refine ⟨.proceed, ⟨.relay r .select, [.published event], { sh with store }⟩, ?_, by simp,
      .inl hfree, rfl, hrows⟩
    simp only [relayNext, Shared.apply, hstep, Option.map_some]

theorem afterPeer_rank (rx : Receiver) (peers : PeerSnapshot) : (afterPeer rx peers).rank ≤ 4 := by
  cases peers <;> simp [afterPeer]

theorem publish_enabled {st : Store} {t : Ticket} {r : Receipt} {event : RoomEvent}
    (hc : st.conns c = .joined t r) (hsender : event.sender = some c)
    (hrelayed : event.isRelayed = true) :
    ∃ store, st.step (.publish c event) = some store ∧ store.lock = st.lock ∧
      store.app.db = st.app.db := by
  simp [Store.step, Store.publish, hc, hsender, hrelayed, AppState.send]

/-- `join` gets its answer, with some order of the participants. -/
theorem joinSubscribe_enabled {st : Store} {t : Ticket} (participant : Participant)
    (hlock : st.lock = .free) (hc : st.conns c = .attached t) :
    ∃ peers store, st.step (.joinSubscribe c participant peers) = some store ∧
      store.app.db = st.app.db ∧ (store.lock = .free ∧ (joinOutcome (store.conns c)).rank ≤ 2 ∨
        joinOutcome (store.conns c) = .joinInsert) := by
  cases hroom : st.room t.room with
  | none =>
    refine ⟨[], st.setConn c (.refused t .roomGone), ?_, rfl, .inl ⟨hlock, ?_⟩⟩
    · simp only [Store.step, Store.joinSubscribe, hlock, hc, hroom]
    · simp [Store.setConn, joinOutcome]
  | some room =>
    by_cases hfull : maxParticipants ≤ HashMap.len room.participants
    · refine ⟨[], st.setConn c (.refused t .full), ?_, rfl, .inl ⟨hlock, ?_⟩⟩
      · simp only [Store.step, Store.joinSubscribe, hlock, hc, hroom, if_pos hfull]
      · simp [Store.setConn, joinOutcome]
    · have hperm : room.peers.isPerm room.peers = true := List.isPerm_iff.mpr (.refl _)
      refine ⟨room.peers,
        { st with lock := .joining c ⟨participant, st.app.subscribe room, room.peers⟩ }, ?_, rfl,
        .inr ?_⟩
      · simp only [Store.step, Store.joinSubscribe, hlock, hc, hroom, if_neg hfull, hperm, if_true]
      · dsimp only
        rw [hc]; rfl

theorem LivePc.leaves (p : LivePc) (isProtected : Bool) (attached : Attached) {t : Ticket}
    (hinv : sh.store.Inv) (htied : p.Tied sh.store c t) (hp : p ≠ .detach)
    (hlock : sh.store.lock = .free ∨ p = .joinInsert)
    (hpublish : ∀ r event, p = .relay r (.publish event) →
      event.sender = some c ∧ event.isRelayed = true) :
    ∃ ch m, liveNext env sh roomId isProtected c attached p ch = some m ∧ m.Leaves sh p := by
  by_cases hjoin : p = .joinInsert
  · subst hjoin
    obtain ⟨-, r, hjoining⟩ := htied
    obtain ⟨store, hstep, hfree⟩ := hinv.joinInsert_enabled hjoining
    refine ⟨.proceed, ⟨if isProtected then .sendJoined r.receiver r.peers
      else afterPeer r.receiver r.peers, [.joined r.receiver r.peers], { sh with store }⟩, ?_, ?_,
      .inl hfree, rfl, ?_⟩
    · simp only [liveNext, hjoining, Shared.apply, hstep, Option.map_some]
    · have := afterPeer_rank r.receiver r.peers
      dsimp only
      split
      · simp
      · rw [LivePc.rank]; omega
    · cases Store.step_cases hstep with
      | idle hop => cases hop
      | admitted => rfl
  · have hfree := hlock.resolve_right hjoin
    cases p with
    | sendWelcome => exact ⟨.sent .failed, _, rfl, by simp, .inl hfree, rfl, rfl⟩
    | handshake => exact ⟨.elapsed, _, rfl, by simp, .inl hfree, rfl, rfl⟩
    | join participant =>
      obtain ⟨peers, store, hstep, hrows, hnext⟩ := joinSubscribe_enabled participant hfree htied
      refine ⟨.snapshot peers, ⟨joinOutcome (store.conns c), [], { sh with store }⟩, ?_, ?_, ?_, rfl,
        hrows⟩
      · simp only [liveNext, Shared.apply, hstep, Option.map_some]
      · rcases hnext with ⟨-, hrank⟩ | hnext
        · exact Nat.lt_of_le_of_lt hrank (by simp)
        · simp [hnext]
      · exact hnext.imp And.left id
    | joinInsert => exact absurd rfl hjoin
    | sendRoomFull => exact ⟨.sent .failed, _, rfl, by simp, .inl hfree, rfl, rfl⟩
    | sendJoined rx peers => exact ⟨.sent .failed, _, rfl, by simp, .inl hfree, rfl, rfl⟩
    | sendPeer rx peer rest => exact ⟨.sent .failed, _, rfl, by simp, .inl hfree, rfl, rfl⟩
    | startRelay rx => exact ⟨.clocks 0 0 0, _, rfl, by simp, .inl hfree, rfl, rfl⟩
    | relay r p =>
      refine RelayPc.leaves r p hfree ?_
      rintro event rfl
      obtain ⟨hsender, hrelayed⟩ := hpublish r event rfl
      obtain ⟨r', hc⟩ := htied
      obtain ⟨store, hstep, hsame, hrows⟩ := publish_enabled hc hsender hrelayed
      exact ⟨store, hstep, hsame.trans hfree, hrows⟩
    | sendClose => exact ⟨.sent .failed, _, rfl, by simp, .inl hfree, rfl, rfl⟩
    | detach => exact absurd rfl hp

theorem Pc.next_live {isProtected : Bool} {attached : Attached} {p : LivePc} (hp : p ≠ .detach)
    (ch : Choice) : (Pc.live isProtected c attached p).next env sh roomId ch =
      (liveNext env sh roomId isProtected c attached p ch).map fun m =>
        ⟨.live isProtected c attached m.pc, m.obs, m.shared⟩ := by
  cases p <;> first | rfl | exact absurd rfl hp

theorem afterUpgrade_failed (guard : Option IpAddr) (room : Option (Option String)) :
    afterUpgrade guard room false = .dropGuard guard room.join.isSome false := rfl

theorem dropGuard_enabled {guard : Option IpAddr}
    (h : ∀ ip, guard = some ip → (sh.limits.release ip).isSome) :
    ∃ sh', sh.dropGuard guard = some sh' ∧ sh'.store = sh.store ∧ sh'.passwords = sh.passwords := by
  cases guard with
  | none => exact ⟨sh, rfl, rfl, rfl⟩
  | some ip =>
    obtain ⟨limits, hlimits⟩ := Option.isSome_iff_exists.mp (h ip rfl)
    exact ⟨{ sh with limits }, by simp only [Shared.dropGuard, hlimits, Option.map_some], rfl, rfl⟩

/-- Every place that is not the end has a move towards it, once the lock is free or the socket's
own. -/
theorem Pc.closes (pc : Pc) (hinv : sh.store.Inv) (htied : pc.Tied sh.store roomId)
    (hpc : ∀ c, pc ≠ .finished c) (hlock : sh.store.lock = .free ∨ pc.holds = true)
    (hguard : ∀ ip, pc.guard = some ip → (sh.limits.release ip).isSome)
    (hfresh : ∃ c, sh.store.conns c = .fresh)
    (hpublish : ∀ isProtected c attached r event,
      pc = .live isProtected c attached (.relay r (.publish event)) →
        event.sender = some c ∧ event.isRelayed = true) :
    ∃ ch m, pc.next env sh roomId ch = some m ∧ m.Closes sh pc := by
  cases pc with
  | request =>
    exact ⟨.request [] (.v4 0) [], _, rfl, by simp, .inl (hlock.resolve_right (by simp)), rfl, rfl⟩
  | connectionBudget ip =>
    have hfree := hlock.resolve_right (by simp)
    rcases hcheck : sh.limits.checkAt (.connection ip) 0 with ⟨result, limits⟩
    cases result with
    | ok u => exact ⟨.clock 0, _, by simp only [Pc.next, hcheck]; rfl, by simp, .inl hfree, rfl, rfl⟩
    | error e => exact ⟨.clock 0, _, by simp only [Pc.next, hcheck]; rfl, by simp, .inl hfree, rfl, rfl⟩
  | roomPassword ip =>
    exact ⟨.statement true, _, rfl, by simp, .inl (hlock.resolve_right (by simp)), rfl, rfl⟩
  | pending ip hash =>
    have hfree := hlock.resolve_right (by simp)
    cases hslot : sh.limits.acquire ip with
    | ok limits => exact ⟨.proceed, _, by simp only [Pc.next, hslot]; rfl, by simp, .inl hfree, rfl, rfl⟩
    | error e => exact ⟨.proceed, _, by simp only [Pc.next, hslot]; rfl, by simp, .inl hfree, rfl, rfl⟩
  | upgrade guard room =>
    exact ⟨.upgraded false, _, rfl, by simp [afterUpgrade_failed],
      .inl (hlock.resolve_right (by simp)), rfl, rfl⟩
  | auth guard hash p => exact p.closes guard hash (hlock.resolve_right (by simp))
  | dropGuard guard isProtected accepted =>
    obtain ⟨sh', hdrop, hstore, hpasswords⟩ :
        ∃ sh', sh.dropGuard guard = some sh' ∧ sh'.store = sh.store ∧
          sh'.passwords = sh.passwords := dropGuard_enabled hguard
    refine ⟨.proceed, ⟨if accepted then .attach isProtected else .finished none, [], sh'⟩, ?_, ?_,
      .inl ?_, hpasswords, by rw [hstore]⟩
    · simp only [Pc.next, hdrop, Option.map_some]
    · dsimp only
      split <;> simp
    · rw [hstore]
      exact hlock.resolve_right (by simp)
  | attach isProtected =>
    have hfree := hlock.resolve_right (by simp)
    obtain ⟨c, hc⟩ := hfresh
    have hstep : sh.store.step (.attachSelect c roomId true) =
        some (sh.store.setConn c (.turnedAway roomId)) := by
      simp only [Store.step, Store.attachSelect, hfree, hc]
      rfl
    have hunlocked : (sh.store.setConn c (.turnedAway roomId)).lock ≠ .attaching roomId c := by
      rw [show (sh.store.setConn c (.turnedAway roomId)).lock = .free from hfree]
      simp
    refine ⟨.uuid c true, ⟨.sendUnavailable c, [.attaching c],
      { sh with store := sh.store.setConn c (.turnedAway roomId) }⟩, ?_, by simp, .inl hfree, rfl, rfl⟩
    simp only [Pc.next, Shared.apply, hstep, Option.map_some, if_neg hunlocked]
  | attachInsert isProtected c =>
    have hattaching : sh.store.lock = .attaching roomId c := htied
    refine ⟨.proceed, _, by simp only [Pc.next, Shared.apply, Store.step, Store.attachInsert,
      hattaching, Option.map_some]; rfl, by simp, .inl rfl, rfl, AppState.enter_db ..⟩
  | sendUnavailable c =>
    exact ⟨.sent .failed, _, rfl, by simp, .inl (hlock.resolve_right (by simp)), rfl, rfl⟩
  | live isProtected c attached p =>
    by_cases hp : p = .detach
    · subst hp
      have hfree := hlock.resolve_right (by simp)
      have hpresent : (sh.store.conns c).present = some { attached with room := roomId } := htied
      refine ⟨.proceed, _, by simp only [Pc.next, Shared.apply, Store.step, Store.detach, hfree,
        hpresent, Option.map_some]; rfl, by simp, .inl rfl, rfl, AppState.detach_db ..⟩
    · have hheld : sh.store.lock = .free ∨ p = .joinInsert := by
        refine hlock.imp id ?_
        intro h
        cases p <;> first | rfl | cases h
      have hleave : ∃ ch m, liveNext env sh roomId isProtected c attached p ch = some m ∧
          m.Leaves sh p :=
        p.leaves isProtected attached hinv htied hp hheld
          fun r event he => hpublish _ _ _ _ _ (by rw [he])
      obtain ⟨ch, m, hm, hleaves⟩ := hleave
      refine ⟨ch, ⟨.live isProtected c attached m.pc, m.obs, m.shared⟩, ?_, hleaves.rank, ?_,
        hleaves.passwords, hleaves.rows⟩
      · rw [Pc.next_live hp, hm, Option.map_some]
      · exact hleaves.lock.imp id fun h => by rw [h]; rfl
  | finished c => exact absurd rfl (hpc c)

end Closes

/-! ## A room with a creator has somebody in it -/

namespace Store

variable {s s' : Store} {op : Op}

/-- Whoever attached and has not detached; the creator itself may have. -/
def Occupied (s : Store) : Prop :=
  ∀ id room creator, s.room id = some room → room.creatorId = some creator →
    ∃ d t, (s.conns d).present = some t ∧ t.room = id

theorem Step.present_keep (hrows : RowsInv s) (hs : Step s op s') {d : String} {t : Ticket}
    (hd : (s.conns d).present = some t) (hop : op ≠ .detach d) :
    (s'.conns d).present = some t := by
  have hupd : ∀ {c : String} {conn : Conn}, s'.conns = Function.update s.conns c conn →
      (d = c → conn.present = some t) → (s'.conns d).present = some t := by
    intro c conn hconns hat
    by_cases he : d = c
    · rw [hconns, he, Function.update_self]; exact hat he
    · rw [hconns, Function.update_of_ne he]; exact hd
  have hfresh : ∀ {P : Prop}, s.conns d = .fresh → P := by
    intro P hf
    rw [hf] at hd; cases hd
  cases hs with
  | turnedAway hlock hc => exact hupd rfl fun he => hfresh (he ▸ hc)
  | enteredNew hlock => exact hupd rfl fun he => hfresh (he ▸ (hrows.attaching _ _ hlock).2)
  | entered hlock => exact hupd rfl fun he => hfresh (he ▸ (hrows.attaching _ _ hlock).2)
  | refused hlock hc => exact hupd rfl fun he => by rw [he, hc] at hd; exact hd
  | admitted hlock hc => exact hupd rfl fun he => by rw [he, hc] at hd; exact hd
  | detachedGone => exact hupd rfl fun he => absurd (by rw [he]) hop
  | detached => exact hupd rfl fun he => absurd (by rw [he]) hop
  | left => exact hupd rfl fun he => absurd (by rw [he]) hop
  | _ => exact hd

/-- Somebody else is in a room that keeps its creator when `d` is removed. -/
theorem Inv.other (hinv : Inv s) {id d creator : String} {room : Room}
    (hroom : s.room id = some room) (hcreator : (room.without d).creatorId = some creator) :
    ∃ e t, e ≠ d ∧ (s.conns e).present = some t ∧ t.room = id := by
  have hmany : HashMap.isEmpty (HashMap.remove room.participants d) = false := by
    by_contra hempty
    rw [Bool.not_eq_false] at hempty
    simp [Room.without, hempty] at hcreator
  obtain ⟨e, p, he⟩ := HashMap.isEmpty_eq_false_iff.mp hmany
  have hne : e ≠ d := by
    rintro rfl
    rw [HashMap.get_remove_self] at he; cases he
  rw [HashMap.get_remove_of_ne hne] at he
  obtain ⟨t, r, hc, hid, -⟩ := (hinv.members.seated id room hroom e p).mp he
  exact ⟨e, t, hne, by rw [hc]; rfl, hid⟩

theorem Occupied.step (h : Occupied s) (hinv : Inv s) (hs : Step s op s') : Occupied s' := by
  intro id room' creator hr hcreator
  cases hs.creation hr with
  | taken hlock hfree hcreator' hc' => exact ⟨_, _, by rw [hc']; rfl, rfl⟩
  | forgotten hop hc hid hroom hempty hnone => rw [hnone] at hcreator; cases hcreator
  | @kept room hroom htx heq =>
    obtain ⟨d, t, hd, hid⟩ := h id room creator hroom (heq ▸ hcreator)
    by_cases hop : op = .detach d
    · subst hop
      obtain ⟨e, u, hne, he, hid'⟩ : ∃ e u, e ≠ d ∧ (s.conns e).present = some u ∧ u.room = id := by
        have hat : ∀ {t' : Ticket} {room₀ : Room},
            (s.conns d).present = some t' → s.room t'.room = some room₀ →
              HashMap.get (HashMap.insert s.app.rooms t'.room (room₀.without d)) id = some room' →
                ∃ e u, e ≠ d ∧ (s.conns e).present = some u ∧ u.room = id := by
          intro t' room₀ hd' hroom₀ hget
          cases hd.symm.trans hd'
          rw [hid, HashMap.get_insert_self] at hget
          cases hget
          exact hinv.other (hid ▸ hroom₀) hcreator
        cases hs with
        | idle hidle => cases hidle
        | detachedGone hlock hc hgone =>
          cases hd.symm.trans hc
          rw [hid, hroom] at hgone; cases hgone
        | detached hlock hc hroom₀ hout => exact hat hc hroom₀ hr
        | left hlock hc hroom₀ hin => exact hat hc hroom₀ hr
      exact ⟨e, u, hs.present_keep hinv.rows he (by simpa using Ne.symm hne), hid'⟩
    · exact ⟨d, t, hs.present_keep hinv.rows hd hop, hid⟩

end Store

/-! ## Who holds the lock -/

section Lock

variable {env : Env} {sh : Shared} {roomId : String}

theorem Pc.holds_of_conn {pc : Pc} (h : pc.conn = none) : pc.holds = false := by
  cases pc with
  | attachInsert isProtected c => cases h
  | live isProtected c attached p => cases h
  | _ => rfl

theorem holds_of_seated {isProtected : Bool} {c : String} {attached : Attached} {p : LivePc}
    (h : p.isSeated = true) : (Pc.live isProtected c attached p).holds = false := by
  cases p <;> first | rfl | cases h

theorem handshakeFrame_holds (isProtected : Bool) (c : String) (attached : Attached)
    (received : Received) :
    (Pc.live isProtected c attached (handshakeFrame env received)).holds = false := by
  cases received with
  | text t => simp only [handshakeFrame]; split <;> rfl
  | _ => rfl

/-- What a move does to the lock: nothing, it gives it back, or it takes it. -/
theorem PcStep.lock {pc : Pc} {m : Move Pc} (hm : PcStep env sh roomId pc m) :
    m.shared.store.lock = sh.store.lock ∧ m.pc.holds = pc.holds ∨ m.shared.store.lock = .free ∨
      m.pc.holds = true ∧ m.shared.store.owner = m.pc.conn := by
  cases hm with
  | auth hauth => exact .inl ⟨by rw [hauth.store], Pc.holds_of_conn hauth.conn⟩
  | upgraded => exact .inl ⟨rfl, Pc.holds_of_conn (afterUpgrade_conn _ _ _)⟩
  | dropped hdrop =>
    exact .inl ⟨by rw [Shared.dropGuard_store hdrop], Pc.holds_of_conn (dropped_conn _ _)⟩
  | @attaching isProtected c fault store hstep =>
    cases Store.step_cases hstep with
    | idle hop => cases hop
    | turnedAway hlock => exact .inr (.inl hlock)
    | attaching => exact .inr (.inr (by rw [if_pos rfl]; exact ⟨rfl, rfl⟩))
  | attached hstep =>
    refine .inr (.inl ?_)
    cases Store.step_cases hstep with
    | idle hop => cases hop
    | _ => rfl
  | live hlive =>
    cases hlive with
    | welcomed => refine .inl ⟨rfl, ?_⟩; dsimp only; split <;> rfl
    | handshook => exact .inl ⟨rfl, handshakeFrame_holds _ _ _ _⟩
    | asked hstep =>
      cases Store.step_cases hstep with
      | idle hop => cases hop
      | refused hlock => exact .inr (.inl hlock)
      | subscribed hlock hc =>
        refine .inr (.inr ?_)
        dsimp only
        rw [hc]
        exact ⟨rfl, rfl⟩
    | joined hlock hstep =>
      refine .inr (.inl ?_)
      cases Store.step_cases hstep with
      | idle hop => cases hop
      | admitted => rfl
    | told => exact .inl ⟨rfl, holds_of_seated (by dsimp only; split <;> [exact afterPeer_seated _ _; rfl])⟩
    | introduced =>
      exact .inl ⟨rfl, holds_of_seated (by dsimp only; split <;> [exact afterPeer_seated _ _; rfl])⟩
    | relayed hrelay => exact .inl ⟨hrelay.conns.2, holds_of_seated hrelay.seated⟩
    | _ => exact .inl ⟨rfl, rfl⟩
  | detached hstep =>
    cases Store.step_cases hstep with
    | idle hop => cases hop
    | detachedGone hlock => exact .inr (.inl hlock)
    | detached hlock => exact .inr (.inl hlock)
    | left hlock => exact .inr (.inl hlock)
  | _ => exact .inl ⟨rfl, rfl⟩

/-- A background operation leaves the lock to nobody else. -/
theorem Store.Step.background_owner {st st' : Store} {op : Store.Op} (hs : Store.Step st op st')
    (hop : op.isBackground = true) : st'.owner = st.owner ∨ st'.owner = none := by
  cases hs with
  | idle => exact .inl rfl
  | created => exact .inl rfl
  | deleted => exact .inr rfl
  | removed => exact .inr rfl
  | skipped => exact .inr rfl
  | done => exact .inr rfl
  | _ => cases hop

end Lock

namespace Server

variable {env : Env} {v v' : Server} {k : Nat} {s : Session}

/-- Socket `k` holds the lock for its connection `c`. -/
def HeldBy (v : Server) (k : Nat) (c : String) : Prop :=
  ∃ s, v.sockets k = some s ∧ s.pc.conn = some c ∧ s.pc.holds = true

theorem Reachable.held (hv : Reachable env v) {c : String} (hc : v.shared.store.owner = some c) :
    ∃ k, v.HeldBy k c := by
  refine hv.invariant (I := fun v => ∀ c, v.shared.store.owner = some c → ∃ k, v.HeldBy k c)
    (fun db c hc => (by cases hc)) ?_ c hc
  intro v v' hv ih hs c hc
  cases hs with
  | @opened k₀ roomId hk₀ =>
    obtain ⟨k, s, hk, hconn, hholds⟩ := ih c hc
    have hne : k ≠ k₀ := by rintro rfl; rw [hk₀] at hk; cases hk
    exact ⟨k, s, (setSocket_of_ne hne ..).trans hk, hconn, hholds⟩
  | @moved k₀ s₀ m hk₀ hm =>
    rcases hm.lock with ⟨hsame, hholds₀⟩ | hfree | ⟨hholds, howner⟩
    · obtain ⟨k, s, hk, hconn, hholds⟩ := ih c (by rw [Store.owner, ← hsame]; exact hc)
      by_cases he : k = k₀
      · subst he
        cases hk.symm.trans hk₀
        refine ⟨k, _, setSocket_self .., ?_, hholds₀.trans hholds⟩
        rcases hm.conn with hsame | ⟨hnone, -⟩
        · exact hsame.trans hconn
        · rw [hnone] at hconn; cases hconn
      · exact ⟨k, s, (setSocket_of_ne he ..).trans hk, hconn, hholds⟩
    · rw [Store.owner, show (v.setSocket k₀ _ m.shared).shared.store.lock = .free from hfree] at hc
      cases hc
    · exact ⟨k₀, _, setSocket_self .., howner.symm.trans hc, hholds⟩
  | background hop hstep =>
    rcases (Store.step_cases hstep).background_owner hop with hsame | hnone
    · exact ih c (hsame.symm.trans hc)
    · rw [show Store.owner _ = none from hnone] at hc; cases hc
  | _ => exact ih c hc

/-- All sockets are among finitely many. -/
def Among (v : Server) (ks : Finset Nat) : Prop := ∀ k s, v.sockets k = some s → k ∈ ks

theorem Reachable.among (hv : Reachable env v) : ∃ ks, v.Among ks := by
  refine hv.invariant (I := fun v => ∃ ks, v.Among ks) (fun db => ⟨∅, fun k s hk => (by cases hk)⟩) ?_
  rintro v v' hv ⟨ks, ih⟩ hs
  cases hs with
  | @opened k₀ roomId hk₀ =>
    refine ⟨insert k₀ ks, fun k s hk => ?_⟩
    rcases setSocket_cases hk with ⟨rfl, -⟩ | ⟨-, hold⟩
    · exact Finset.mem_insert_self _ _
    · exact Finset.mem_insert_of_mem (ih k s hold)
  | @moved k₀ s₀ m hk₀ hm =>
    refine ⟨ks, fun k s hk => ?_⟩
    rcases setSocket_cases hk with ⟨rfl, -⟩ | ⟨-, hold⟩
    · exact ih _ s₀ hk₀
    · exact ih k s hold
  | _ => exact ⟨ks, ih⟩

/-- There are more connection ids than sockets. -/
theorem Reachable.exists_fresh (hv : Reachable env v) : ∃ c, v.shared.store.conns c = .fresh := by
  obtain ⟨ks, hks⟩ := hv.among
  obtain ⟨c, hc⟩ := Infinite.exists_notMem_finset
    (ks.biUnion fun k => ((v.sockets k).bind fun s => s.pc.conn).toFinset)
  refine ⟨c, ?_⟩
  by_contra hused
  obtain ⟨k, s, hk, hconn⟩ := hv.sockets.owned c hused
  refine hc (Finset.mem_biUnion.mpr ⟨k, hks k s hk, ?_⟩)
  simp [hk, hconn]

/-- An event that a socket is about to publish is one of its own. -/
theorem Reachable.publishes_own (hv : Reachable env v) (hk : v.sockets k = some s)
    {isProtected : Bool} {c : String} {attached : Attached} {r : Relay} {event : RoomEvent}
    (hpc : s.pc = .live isProtected c attached (.relay r (.publish event))) :
    event.sender = some c ∧ event.isRelayed = true := by
  have hears := hv.hears hk
  rw [hpc] at hears
  obtain ⟨began, hhearing⟩ := hears
  obtain ⟨pre, text, now, -, hpasses⟩ := hhearing.place
  obtain ⟨m, -, hevent⟩ := hpasses.parsed
  unfold IncomingMessage.event at hevent
  split at hevent <;> first | (cases hevent; exact ⟨rfl, rfl⟩) | cases hevent

/-- The guard of a socket can be dropped. -/
theorem Reachable.releasable (hv : Reachable env v) (hk : v.sockets k = some s) {ip : IpAddr}
    (hip : s.pc.guard = some ip) : (v.shared.limits.release ip).isSome := by
  obtain ⟨ks, hholds, hreach⟩ := hv.slots_run
  have hguard : v.guardOf k = some ip := by rw [guardOf, hk]; exact hip
  have hmem : ip ∈ v.guards ks :=
    (Multiset.mem_filterMap _ _).mpr ⟨k, (hholds k).mpr (by rw [hguard]; rfl), hguard⟩
  obtain ⟨l', hrelease, -⟩ := hreach.accounted.release hmem
  rw [show v.shared.limits = (v.slots ks).limits from rfl, hrelease]
  rfl

theorem Reachable.closes (hv : Reachable env v) (hk : v.sockets k = some s)
    (hpc : ∀ c, s.pc ≠ .finished c)
    (hlock : v.shared.store.lock = .free ∨ s.pc.holds = true) :
    ∃ (ch : Choice) (m : Move Pc), v.socket env k ch =
        some (v.setSocket k { s with pc := m.pc, trace := s.trace ++ m.obs } m.shared) ∧
      m.Closes v.shared s.pc := by
  have hclose : ∃ ch m, s.pc.next env v.shared s.roomId ch = some m ∧ m.Closes v.shared s.pc :=
    s.pc.closes hv.inv (hv.sockets.bound k s hk).tied hpc hlock
      (fun ip hip => hv.releasable hk hip) hv.exists_fresh
      fun _ _ _ _ _ he => hv.publishes_own hk he
  obtain ⟨ch, m, hm, hcloses⟩ := hclose
  refine ⟨ch, m, ?_, hcloses⟩
  simp only [Server.socket, hk, Session.next, hm, Option.map_some]

theorem Reachable.socket_step (hv : Reachable env v) {ch : Choice}
    (h : v.socket env k ch = some v') : Reachable env v' :=
  hv.run (Machine.Reachable.snoc .refl (a := .socket k ch) h)

/-- The rank of socket `k`. -/
def rankOf (v : Server) (k : Nat) : Nat := ((v.sockets k).map fun s => s.pc.rank).getD 0

theorem rankOf_self (s : Session) (sh : Shared) : (v.setSocket k s sh).rankOf k = s.pc.rank := by
  rw [rankOf, setSocket_self]; rfl

theorem rankOf_of_ne {k' : Nat} (h : k' ≠ k) (s : Session) (sh : Shared) :
    (v.setSocket k s sh).rankOf k' = v.rankOf k' := by
  rw [rankOf, setSocket_of_ne h]; rfl

/-- Socket `k` need not wait for the lock. -/
def MayMove (env : Env) (k : Nat) (v : Server) : Prop :=
  Reachable env v ∧
    ∃ s, v.sockets k = some s ∧ (v.shared.store.lock = .free ∨ s.pc.holds = true)

/-- Socket `k` is over. -/
def Ended (k : Nat) (v : Server) : Prop :=
  ∃ s c, v.sockets k = some s ∧ s.pc = .finished c ∧ v.shared.store.lock = .free

theorem MayMove.step (h : MayMove env k v) (hend : ¬ Ended k v) :
    ∃ ch v', v.socket env k ch = some v' ∧ MayMove env k v' ∧ v'.rankOf k < v.rankOf k := by
  obtain ⟨hv, s, hk, hlock⟩ := h
  have hpc : ∀ c, s.pc ≠ .finished c := by
    intro c hc
    refine hend ⟨s, c, hk, hc, hlock.resolve_right ?_⟩
    rw [hc]; simp
  obtain ⟨ch, m, hs, hcloses⟩ := hv.closes hk hpc hlock
  refine ⟨ch, _, hs, ⟨hv.socket_step hs, _, setSocket_self .., hcloses.lock⟩, ?_⟩
  rw [rankOf_self, rankOf, hk]
  exact hcloses.rank

/-- A socket that need not wait for the lock can end by its own moves. -/
theorem MayMove.ends (h : MayMove env k v) :
    ∃ v', Machine.Reachable (fun v ch => v.socket env k ch) v v' ∧ Ended k v' := by
  obtain ⟨v', hrun, -, hend⟩ := Machine.exists_done (fun v => v.rankOf k)
    (fun v (h : MayMove env k v) hend => h.step hend) h
  exact ⟨v', hrun, hend⟩

/-! ## A drained server -/

/-- All sockets are over, the lock is free, and no job is left. -/
def Quiescent (v : Server) : Prop :=
  (∀ k s, v.sockets k = some s → ∃ c, s.pc = .finished c) ∧ v.shared.store.lock = .free ∧
    v.shared.passwords.running = []

/-- Nothing is held for anybody. -/
structure Drained (v : Server) : Prop where
  quiescent : v.Quiescent
  participants : ∀ id room c, v.shared.store.room id = some room →
    HashMap.get room.participants c = none
  creators : ∀ id room, v.shared.store.room id = some room → room.creatorId = none
  total : v.shared.limits.pendingTotal = 0
  pending : ∀ ip, HashMap.get v.shared.limits.pending ip = none
  permits : v.shared.passwords.available = 2

theorem Reachable.occupied (hv : Reachable env v) : v.shared.store.Occupied := by
  refine hv.invariant (I := fun v => v.shared.store.Occupied) ?_ ?_
  · intro db id room creator hroom
    simp [Store.room, start, Store.start, AppState.new] at hroom
  · intro v v' hv ih hs
    rcases hs.store with hsame | ⟨op, hop⟩
    · rw [hsame]; exact ih
    · exact ih.step hv.inv (Store.step_cases hop)

/-- Nothing leaks. -/
theorem Quiescent.drained (h : v.Quiescent) (hv : Reachable env v) : Drained v := by
  obtain ⟨hfinished, hlock, hrunning⟩ := id h
  -- nobody has attached and not detached
  have habsent : ∀ d, (v.shared.store.conns d).present = none := by
    intro d
    by_contra hpresent
    obtain ⟨t, ht⟩ := Option.ne_none_iff_exists'.mp hpresent
    obtain ⟨k, s, hk, hconn⟩ := hv.sockets.owned d fun hfresh => by rw [hfresh] at ht; cases ht
    obtain ⟨c, hpc⟩ := hfinished k s hk
    have htied := (hv.sockets.bound k s hk).tied
    rw [hpc] at hconn htied
    cases hconn
    rcases htied with hd | ⟨t', r, x, hd, -⟩ <;> rw [hd] at ht <;> cases ht
  have hpending : v.shared.limits.Accounted 0 := by
    obtain ⟨ks, hholds, hreach⟩ := hv.slots_run
    have hempty : ks = ∅ := by
      refine Finset.eq_empty_of_forall_notMem fun k hk => ?_
      have hguard := (hholds k).mp hk
      cases hs : v.sockets k with
      | none => simp [guardOf, hs] at hguard
      | some s =>
        obtain ⟨c, hpc⟩ := hfinished k s hs
        simp [guardOf, hs, hpc, Pc.guard] at hguard
    subst hempty
    exact hreach.accounted
  refine ⟨h, ?_, ?_, hpending.total, fun ip => hpending.entry ip, ?_⟩
  · intro id room c hroom
    refine hv.inv.members.get_none hroom fun t r hc => ?_
    have := habsent c
    rw [hc] at this; cases this
  · intro id room hroom
    refine Option.eq_none_iff_forall_ne_some.mpr fun creator hcreator => ?_
    obtain ⟨d, t, hd, -⟩ := hv.occupied id room creator hroom hcreator
    rw [habsent d] at hd; cases hd
  · have htotal := hv.conserved.total
    rw [hrunning] at htotal
    exact htotal

/-! ## Draining -/

/-- The ids that `expire_inactive_rooms` has still to remove. -/
def lockRank : Lock → Nat
  | .expiring ids => ids.length + 1
  | _ => 0

/-- What is left to do, on the sockets of `ks`. -/
def toGo (ks : Finset Nat) (v : Server) : Nat :=
  ks.sum v.rankOf + lockRank v.shared.store.lock + v.shared.passwords.running.length

/-- The same sockets on the same rows. -/
structure Keeps (v v' : Server) : Prop where
  sockets : ∀ k, (v'.sockets k).isSome = (v.sockets k).isSome
  rows : v'.shared.store.app.db = v.shared.store.app.db

variable {ks : Finset Nat}

theorem Among.keeps (h : v.Among ks) (hkeeps : v.Keeps v') : v'.Among ks := by
  intro k s hk
  have hsome := hkeeps.sockets k
  rw [hk] at hsome
  obtain ⟨s', hk'⟩ := Option.isSome_iff_exists.mp hsome.symm
  exact h k s' hk'

/-- A socket goes on. -/
theorem Reachable.drain_socket (hv : Reachable env v) (hks : v.Among ks) (hk : v.sockets k = some s)
    (hpc : ∀ c, s.pc ≠ .finished c)
    (hlock : v.shared.store.lock = .free ∨ s.pc.holds = true) :
    ∃ l v', v.step env l = some v' ∧ v.Keeps v' ∧ v'.toGo ks < v.toGo ks := by
  obtain ⟨ch, m, hs, hcloses⟩ := hv.closes hk hpc hlock
  have hfree : lockRank m.shared.store.lock = 0 := by
    rcases hcloses.lock with hfree | hholds
    · rw [hfree]; rfl
    · have htied := ((hv.socket_step hs).sockets.bound k _ (setSocket_self ..)).tied
      cases hm : m.pc with
      | attachInsert isProtected c =>
        rw [hm] at htied
        rw [show m.shared.store.lock = _ from htied]; rfl
      | live isProtected c attached p =>
        rw [hm] at htied hholds
        cases p with
        | joinInsert =>
          obtain ⟨-, r, hr⟩ := htied
          rw [show m.shared.store.lock = _ from hr]; rfl
        | _ => cases hholds
      | _ => rw [hm] at hholds; cases hholds
  refine ⟨.socket k ch, _, hs, ⟨fun k' => ?_, hcloses.rows⟩, ?_⟩
  · by_cases he : k' = k
    · subst he; rw [setSocket_self, hk]; rfl
    · rw [setSocket_of_ne he]
  · have hsum : ks.sum (v.setSocket k { s with pc := m.pc, trace := s.trace ++ m.obs }
        m.shared).rankOf < ks.sum v.rankOf := by
      have hself : v.rankOf k = s.pc.rank := by rw [rankOf, hk]; rfl
      have hlt : (v.setSocket k { s with pc := m.pc, trace := s.trace ++ m.obs } m.shared).rankOf k <
          v.rankOf k := by
        rw [rankOf_self, hself]; exact hcloses.rank
      refine Finset.sum_lt_sum ?_ ⟨k, hks k s hk, hlt⟩
      intro k' hk'
      by_cases he : k' = k
      · subst he; exact hlt.le
      · rw [rankOf_of_ne he]
    have hpasswords : (v.setSocket k { s with pc := m.pc, trace := s.trace ++ m.obs }
        m.shared).shared.passwords = v.shared.passwords := hcloses.passwords
    rw [toGo, toGo, hpasswords]
    have : lockRank (v.setSocket k { s with pc := m.pc, trace := s.trace ++ m.obs }
        m.shared).shared.store.lock = 0 := hfree
    omega

/-- Some step always leads on, until there is nothing left to do. -/
theorem Reachable.drain_step (hv : Reachable env v) (hks : v.Among ks) (hnot : ¬ v.Quiescent) :
    ∃ l v', v.step env l = some v' ∧ v.Keeps v' ∧ v'.toGo ks < v.toGo ks := by
  cases hrunning : v.shared.passwords.running with
  | cons e rest =>
    -- a job ends
    obtain ⟨passwords, hfinish⟩ : ∃ passwords,
        v.shared.passwords.finish env.crates e.1 false = some passwords := by
      have hfound : List.lookup e.1 (e :: rest) = some e.2 := List.lookup_cons_self
      simp [PasswordService.finish, hrunning, hfound]
    refine ⟨.jobEnds e.1 false, { v with shared := { v.shared with passwords } }, ?_,
      ⟨fun _ => rfl, rfl⟩, ?_⟩
    · simp only [Server.step, hfinish, Option.map_some]
    · have hlen := (hv.conserved.finish hfinish).2.1
      have hsum : ks.sum ({ v with shared := { v.shared with passwords } } : Server).rankOf =
          ks.sum v.rankOf := rfl
      simp only [toGo, hsum]
      omega
  | nil =>
    cases hlock : v.shared.store.lock with
    | free =>
      obtain ⟨k, s, hk, hpc⟩ : ∃ k s, v.sockets k = some s ∧ ∀ c, s.pc ≠ .finished c := by
        by_contra hall
        refine hnot ⟨fun k s hk => ?_, hlock, hrunning⟩
        by_contra hpc
        exact hall ⟨k, s, hk, fun c hc => hpc ⟨c, hc⟩⟩
      exact hv.drain_socket hks hk hpc (.inl hlock)
    | attaching id c =>
      obtain ⟨k, s, hk, -, hholds⟩ := hv.held (c := c) (by rw [Store.owner, hlock])
      exact hv.drain_socket hks hk (fun c hc => by rw [hc] at hholds; cases hholds) (.inr hholds)
    | joining c r =>
      obtain ⟨k, s, hk, -, hholds⟩ := hv.held (c := c) (by rw [Store.owner, hlock])
      exact hv.drain_socket hks hk (fun c hc => by rw [hc] at hholds; cases hholds) (.inr hholds)
    | expiring ids =>
      have hbackground : ∀ {op : Store.Op} {store : Store}, op.isBackground = true →
          v.shared.store.step op = some store → store.app.db = v.shared.store.app.db →
            lockRank store.lock < lockRank (.expiring ids) →
              ∃ l v', v.step env l = some v' ∧ v.Keeps v' ∧ v'.toGo ks < v.toGo ks := by
        intro op store hop hstep hrows hlt
        refine ⟨.background op, { v with shared := { v.shared with store } }, ?_,
          ⟨fun _ => rfl, hrows⟩, ?_⟩
        · simp only [Server.step, hop, if_true, Shared.apply, hstep, Option.map_some]
        · have hsum : ks.sum ({ v with shared := { v.shared with store } } : Server).rankOf =
              ks.sum v.rankOf := rfl
          simp only [toGo, hsum, hlock]
          omega
      cases ids with
      | nil =>
        have hdone : v.shared.store.step .expireDone = some { v.shared.store with lock := .free } := by
          simp only [Store.step, Store.expireDone, hlock]
        exact hbackground rfl hdone rfl (Nat.succ_pos _)
      | cons id ids =>
        have hremove : v.shared.store.step .expireRemove =
            some { v.shared.store with app := v.shared.store.app.expireRoom id,
                                       lock := .expiring ids } := by
          simp only [Store.step, Store.expireRemove, hlock]
        refine hbackground rfl hremove ?_ (Nat.lt_succ_self _)
        show (v.shared.store.app.expireRoom id).db = _
        unfold AppState.expireRoom
        split <;> rfl

/-- **A server can always be drained.** Whatever state sockets, clients and tasks have brought it to,
each socket can end by its own moves once nobody else holds the lock, whoever holds it can go on, and
a run with no new socket, that deletes no row, ends all of them; then nothing is held for anybody:
no participant, no creator, no pending slot, no permit. -/
theorem drains (env : Env) (v : Server) (hv : Reachable env v) :
    (∀ k s, v.sockets k = some s →
      (v.shared.store.lock = .free ∨ s.pc.holds = true →
        ∃ v', Machine.Reachable (fun v ch => v.socket env k ch) v v' ∧ Ended k v')) ∧
    (v.shared.store.lock ≠ .free → (∃ ids, v.shared.store.lock = .expiring ids) ∨
      ∃ k s, v.sockets k = some s ∧ s.pc.holds = true) ∧
    ∃ v', Machine.Reachable (step env) v v' ∧ v.Keeps v' ∧ Drained v' := by
  refine ⟨fun k s hk hlock => MayMove.ends ⟨hv, s, hk, hlock⟩, ?_, ?_⟩
  · intro hheld
    cases hlock : v.shared.store.lock with
    | free => exact absurd hlock hheld
    | expiring ids => exact .inl ⟨ids, rfl⟩
    | attaching id c =>
      obtain ⟨k, s, hk, -, hholds⟩ := hv.held (c := c) (by rw [Store.owner, hlock])
      exact .inr ⟨k, s, hk, hholds⟩
    | joining c r =>
      obtain ⟨k, s, hk, -, hholds⟩ := hv.held (c := c) (by rw [Store.owner, hlock])
      exact .inr ⟨k, s, hk, hholds⟩
  · obtain ⟨ks, hks⟩ := hv.among
    obtain ⟨v', hrun, ⟨hv', hkeeps⟩, hquiet⟩ := Machine.exists_done (toGo ks)
      (fun u (h : Reachable env u ∧ v.Keeps u) (hnot : ¬ u.Quiescent) => by
        obtain ⟨l, u', hs, hkeeps, hlt⟩ := h.1.drain_step (hks.keeps h.2) hnot
        exact ⟨l, u', hs, ⟨h.1.run (Machine.Reachable.snoc .refl hs),
          fun k => (hkeeps.sockets k).trans (h.2.sockets k), hkeeps.rows.trans h.2.rows⟩, hlt⟩)
      ⟨hv, fun _ => rfl, rfl⟩
    exact ⟨v', hrun, hkeeps, hquiet.drained hv'⟩

theorem drains_talk : ∃ v v', talk = some v ∧ Machine.Reachable (step talkEnv) v v' ∧
    Drained v' := by
  obtain ⟨v, s, r, hv, -⟩ := talk_run
  obtain ⟨-, -, v', hrun, -, hdrained⟩ := drains talkEnv v (talk_reachable hv)
  exact ⟨v, v', hv, hrun, hdrained⟩

end Server
end Parrhesia
