import Parrhesia.Delivery
import Parrhesia.Replay

/-!
# Parrhesia.Membership

Who is in a room, told from the sessions: a participant is a connection whose session got `Joined`
and has not run `detach`. What the store says of its connections (`MembersInv`, `LogInv`) is carried
over to the sockets by `Sockets`.

* `Seated`  : a session between a `join` that returned `Joined` and its `detach`.
* `Detaches`, `Refuses` : the steps of the server that are a `detach`, and a `join` that returned
  `Full` or `RoomGone`.
-/

namespace Parrhesia

open Lib

def RoomEvent.isJoinOf (c : String) : RoomEvent → Bool
  | .peerJoined sender _ _ _ => decide (sender = c)
  | _ => false

def RoomEvent.isLeaveOf (c : String) : RoomEvent → Bool
  | .peerLeft sender => decide (sender = c)
  | _ => false

/-- Joined as `c`, and not detached. -/
def Session.Seated (s : Session) (c : String) : Prop :=
  joinsOf s.trace ≠ [] ∧ ∃ isProtected attached p, s.pc = .live isProtected c attached p

/-! ## In the store -/

namespace Store

variable {s s' : Store} {c : String}

theorem countP_isJoinOf (s : Store) (c : String) (tx : Nat) :
    (s.log tx).countP (RoomEvent.isJoinOf c) = Roster.enters c (s.changes tx) := by
  rw [Roster.enters, changes, List.countP_map]
  refine List.countP_congr ?_
  intro e _
  cases e <;> rfl

theorem countP_isLeaveOf (s : Store) (c : String) (tx : Nat) :
    (s.log tx).countP (RoomEvent.isLeaveOf c) = Roster.leaves c (s.changes tx) := by
  rw [Roster.leaves, changes, List.countP_map]
  refine List.countP_congr ?_
  intro e _
  cases e <;> rfl

/-- A log names a connection only if it is the log its `join` subscribed to. -/
theorem Inv.named (h : Inv s) {tx : Nat} (hr : ∀ r, (s.conns c).receipt = some r → r.receiver.tx ≠ tx) :
    ∀ ch ∈ s.changes tx, ch.who ≠ some c := by
  intro ch hch hwho
  obtain ⟨t, r, ht, hrec, htx⟩ := h.logs.named tx c ⟨ch, hch, hwho⟩
  exact hr r hrec ((h.logs.admitted c t r ht hrec).tx.trans htx)

theorem mem_answers {answer : Receiver × PeerSnapshot} (h : answer ∈ s.answers (some c)) :
    ∃ r, (s.conns c).receipt = some r ∧ r.answer = answer := by
  cases hr : (s.conns c).receipt with
  | none => rw [answers_some hr] at h; cases h
  | some r =>
    rw [answers_some hr] at h
    exact ⟨r, rfl, (List.mem_singleton.mp h).symm⟩

/-- A connection is announced once on the channel its `join` subscribed to, and nowhere else. -/
theorem Inv.enters_eq (h : Inv s) (c : String) (tx : Nat) :
    Roster.enters c (s.changes tx) =
      (s.answers (some c)).countP fun answer => decide (answer.1.tx = tx) := by
  cases hr : (s.conns c).receipt with
  | none =>
    rw [answers_some hr, Roster.enters_eq_zero (h.logs.silent hr tx)]; rfl
  | some r =>
    rw [answers_some hr]
    obtain ⟨t, ht⟩ := ticket_of_receipt hr
    have hadm := h.logs.admitted c t r ht hr
    by_cases htx : r.receiver.tx = tx
    · rw [← htx, hadm.tx, hadm.enters]
      simp [Receipt.answer, hadm.tx]
    · rw [Roster.enters_eq_zero (h.named fun r' hr' => by rw [hr] at hr'; cases hr'; exact htx)]
      simp [Receipt.answer, htx]

theorem Inv.leaves_le (h : Inv s) (c : String) (tx : Nat) :
    Roster.leaves c (s.changes tx) ≤ 1 := by
  by_cases hnamed : ∃ ch ∈ s.changes tx, ch.who = some c
  · obtain ⟨t, r, ht, hr, rfl⟩ := h.logs.named tx c hnamed
    cases hc : s.conns c with
    | joined t' r' =>
      rw [hc] at ht
      cases ht
      rw [(h.logs.joined c t r' hc).1]
      exact Nat.zero_le _
    | detached t' r' expired =>
      rw [hc] at ht hr
      cases ht
      rw [h.logs.detached c t r expired (by rw [hc, show r' = some r from hr])]
      cases expired <;> simp
    | _ => rw [hc] at hr; cases hr
  · rw [Roster.leaves_eq_zero fun ch hch hwho => hnamed ⟨ch, hch, hwho⟩]
    exact Nat.zero_le _

/-- A connection leaves once at most, over all channels. -/
theorem Inv.leaves_once (h : Inv s) (c : String) : ∃ tx, Roster.leaves c (s.changes tx) ≤ 1 ∧
    ∀ tx', tx' ≠ tx → Roster.leaves c (s.changes tx') = 0 := by
  cases hr : (s.conns c).receipt with
  | none => exact ⟨0, h.leaves_le c 0, fun tx' _ => Roster.leaves_eq_zero (h.logs.silent hr tx')⟩
  | some r =>
    refine ⟨r.receiver.tx, h.leaves_le c _, ?_⟩
    intro tx' htx
    refine Roster.leaves_eq_zero (h.named ?_)
    intro r' hr' htx'
    rw [hr] at hr'
    cases hr'
    exact htx htx'.symm

/-- What is known of a connection that has been refused or has detached is final, but for the
`detach` of the first. -/
theorem Step.settled {op : Op} (hs : Step s op s') (hrows : RowsInv s) {t : Ticket} :
    (∀ why, s.conns c = .refused t why →
        s'.conns c = .refused t why ∨ ∃ x, s'.conns c = .detached t none x) ∧
      ∀ r x, s.conns c = .detached t r x → s'.conns c = .detached t r x := by
  rcases hs.conn c with he | hm
  · rw [he]
    exact ⟨fun why hc => .inl hc, fun r x hc => hc⟩
  · cases hm with
    | turnedAway hc hc' =>
      exact ⟨fun _ h => absurd (h.symm.trans hc) (by simp), fun _ _ h => absurd (h.symm.trans hc) (by simp)⟩
    | attached hlock hc' =>
      have hc := (hrows.attaching _ _ hlock).2
      exact ⟨fun _ h => absurd (h.symm.trans hc) (by simp), fun _ _ h => absurd (h.symm.trans hc) (by simp)⟩
    | refused hc hc' =>
      exact ⟨fun _ h => absurd (h.symm.trans hc) (by simp), fun _ _ h => absurd (h.symm.trans hc) (by simp)⟩
    | joined hlock hc hroom hc' =>
      exact ⟨fun _ h => absurd (h.symm.trans hc) (by simp), fun _ _ h => absurd (h.symm.trans hc) (by simp)⟩
    | detached hc hc' =>
      refine ⟨fun why h => ?_, fun r x h => (by rw [h] at hc; cases hc)⟩
      rw [h] at hc hc'
      cases hc
      exact .inr ⟨_, hc'⟩

theorem Inv.refused_keep (hinv : Inv s) (hr : Machine.Reachable Store.step s s') {t : Ticket}
    {why : Refusal} (hc : s.conns c = .refused t why) :
    s'.conns c = .refused t why ∨ ∃ x, s'.conns c = .detached t none x := by
  refine (hr.invariant (I := fun u => Inv u ∧
    (u.conns c = .refused t why ∨ ∃ x, u.conns c = .detached t none x)) ⟨hinv, .inl hc⟩ ?_).2
  rintro u op u' ⟨hu, hcu⟩ hs
  have hstep := step_cases hs
  refine ⟨hu.step hstep, ?_⟩
  rcases hcu with hcu | ⟨x, hcu⟩
  · exact (hstep.settled hu.rows).1 why hcu
  · exact .inr ⟨x, (hstep.settled hu.rows).2 none x hcu⟩

theorem Inv.detached_keep (hinv : Inv s) (hr : Machine.Reachable Store.step s s') {t : Ticket}
    {r : Option Receipt} {x : Bool} (hc : s.conns c = .detached t r x) :
    s'.conns c = .detached t r x :=
  (hr.invariant (I := fun u => Inv u ∧ u.conns c = .detached t r x) ⟨hinv, hc⟩
    fun _ _ _ hu hs => ⟨hu.1.step (step_cases hs), ((step_cases hs).settled hu.1.rows).2 r x hu.2⟩).2

/-- The same participants everywhere, and nothing published. -/
def SameRooms (s s' : Store) : Prop :=
  (∀ tx, s'.log tx = s.log tx) ∧
    ∀ id, (s'.room id).map Room.participants = (s.room id).map Room.participants

/-- The `detach` of a connection that never joined. -/
theorem Inv.detach_outsider (h : Inv s) (hs : Store.step s (.detach c) = some s')
    (hc : ∀ t r, s.conns c ≠ .joined t r) : SameRooms s s' := by
  cases step_cases hs with
  | idle hop => cases hop
  | detachedGone hlock hpresent hroom => exact ⟨fun _ => rfl, fun _ => rfl⟩
  | @detached c t room hlock hpresent hroom hout =>
    refine ⟨fun _ => rfl, ?_⟩
    intro id
    simp only [Store.room, HashMap.get_insert]
    split
    · rename_i he
      rw [he, show HashMap.get s.app.rooms t.room = some room from hroom]
      simp only [Option.map_some, Room.without, HashMap.remove_of_none hout]
    · rfl
  | left hlock hpresent hroom hin => rw [h.members.get_none hroom hc] at hin; cases hin

end Store

/-! ## In the server -/

namespace Server

variable {env : Env} {v v' v'' : Server} {k : Nat} {s : Session} {c : String}

theorem Reachable.run (hv : Reachable env v) (h : Machine.Reachable (step env) v v') :
    Reachable env v' := by
  obtain ⟨db, hrun⟩ := hv
  exact ⟨db, hrun.trans h⟩

/-- Socket `k` runs `detach` for connection `c`. -/
def Detaches (env : Env) (v : Server) (k : Nat) (c : String) (v' : Server) : Prop :=
  ∃ s ch isProtected attached, v.sockets k = some s ∧
    s.pc = .live isProtected c attached .detach ∧ v.socket env k ch = some v'

/-- Socket `k` calls `join` for connection `c` and gets `Full` or `RoomGone`. -/
def Refuses (env : Env) (v : Server) (k : Nat) (c : String) (v' : Server) : Prop :=
  ∃ s s' ch isProtected attached participant, v.sockets k = some s ∧
    s.pc = .live isProtected c attached (.join participant) ∧ v.socket env k ch = some v' ∧
    v'.sockets k = some s' ∧ (s'.pc = .live isProtected c attached .sendRoomFull ∨
      s'.pc = .live isProtected c attached .detach)

/-- A step that is not a move of socket `k` leaves its session as it is. -/
theorem socket_or_stays {l : Label} (hs : v.step env l = some v') (hk : v.sockets k = some s) :
    v'.sockets k = some s ∨ ∃ ch, v.socket env k ch = some v' := by
  cases step_does hs with
  | @connect k' roomId hk' =>
    have hne : k ≠ k' := by rintro rfl; rw [hk] at hk'; cases hk'
    exact .inl ((setSocket_of_ne hne ..).trans hk)
  | @socket k' ch _ hmove =>
    by_cases he : k = k'
    · subst he
      exact .inr ⟨ch, hmove⟩
    · obtain ⟨s', m, -, -, rfl⟩ := socket_cases hmove
      exact .inl ((setSocket_of_ne he ..).trans hk)
  | _ => exact .inl hk

/-- A session that has attached stays on its connection until it runs `detach`. -/
theorem live_until_detaches {isProtected : Bool} {attached : Attached} {p : LivePc} {l : Label}
    (hk : v.sockets k = some s) (hpc : s.pc = .live isProtected c attached p)
    (hs : v.step env l = some v') :
    ∃ s', v'.sockets k = some s' ∧ ((∃ p', s'.pc = .live isProtected c attached p') ∨
      Detaches env v k c v' ∧ s'.pc = .finished (some c)) := by
  rcases socket_or_stays hs hk with hstays | ⟨ch, hmove⟩
  · exact ⟨s, hstays, .inl ⟨p, hpc⟩⟩
  · obtain ⟨s₀, m, hk₀, hm, rfl⟩ := socket_cases hmove
    cases hk.symm.trans hk₀
    refine ⟨_, setSocket_self .., ?_⟩
    rw [hpc] at hm
    cases hm with
    | live hlive => exact .inl ⟨_, rfl⟩
    | detached hstep => exact .inr ⟨⟨s, ch, isProtected, attached, hk, hpc, hmove⟩, rfl⟩

/-- `detach` waits for nothing but the lock. -/
theorem Reachable.detaches (hv : Reachable env v) {isProtected : Bool} {attached : Attached}
    (hk : v.sockets k = some s) (hpc : s.pc = .live isProtected c attached .detach)
    (hfree : v.shared.store.lock = .free) : ∃ v', Detaches env v k c v' := by
  have htied := (hv.sockets.bound k s hk).tied
  rw [hpc] at htied
  have hpresent : (v.shared.store.conns c).present = some { attached with room := s.roomId } := htied
  obtain ⟨v', hstep⟩ : ∃ v', v.socket env k .proceed = some v' := by
    simp only [Server.socket, hk, Session.next, hpc, Pc.next, Shared.apply, Store.step, Store.detach,
      hfree, hpresent, Option.map_some, Option.some.injEq, exists_eq']
  exact ⟨v', s, .proceed, isProtected, attached, hk, hpc, hstep⟩

theorem Detaches.step (h : Detaches env v k c v') :
    v.shared.store.step (.detach c) = some v'.shared.store := by
  obtain ⟨s, ch, isProtected, attached, hk, hpc, hs⟩ := h
  obtain ⟨s', m, hk', hm, rfl⟩ := socket_cases hs
  cases hk.symm.trans hk'
  rw [hpc] at hm
  cases hm with
  | live hlive => cases hlive
  | detached hstep => exact hstep

theorem Detaches.socket (h : Detaches env v k c v') :
    ∃ s, v.sockets k = some s ∧ s.pc.conn = some c := by
  obtain ⟨s, ch, isProtected, attached, hk, hpc, -⟩ := h
  exact ⟨s, hk, by rw [hpc]; rfl⟩

theorem Refuses.step (h : Refuses env v k c v') (hv : Reachable env v) :
    v'.shared.store.app = v.shared.store.app ∧
      ∃ t why, v'.shared.store.conns c = .refused t why := by
  obtain ⟨s, s', ch, isProtected, attached, participant, hk, hpc, hs, hk', hpc'⟩ := h
  obtain ⟨s₀, m, hk₀, hm, rfl⟩ := socket_cases hs
  cases hk.symm.trans hk₀
  rw [setSocket_self] at hk'
  cases hk'
  have htied := (hv.sockets.bound k s hk).tied
  rw [hpc] at hm htied
  cases hm with
  | live hlive =>
    cases hlive with
    | asked hstep =>
      cases Store.step_cases hstep with
      | idle hop => cases hop
      | refused hlock hc hroom => exact ⟨rfl, _, _, Function.update_self ..⟩
      | subscribed hlock hc hroom hlen hpeers =>
        dsimp only at hpc'
        rw [show v.shared.store.conns c = _ from htied] at hpc'
        rcases hpc' with hpc' | hpc' <;> cases hpc'

/-- A session is seated as long as the store has its connection joined. -/
theorem Reachable.seated_iff (hv : Reachable env v) (hk : v.sockets k = some s)
    (hconn : s.pc.conn = some c) :
    s.Seated c ↔ ∃ t r, v.shared.store.conns c = .joined t r := by
  have hbound := hv.sockets.bound k s hk
  have hjoins := hbound.joins
  rw [hconn] at hjoins
  constructor
  · rintro ⟨hne, isProtected, attached, p, hpc⟩
    have htied := hbound.tied
    rw [hpc] at htied
    have hpresent := LivePc.Tied.present htied
    cases hc : v.shared.store.conns c with
    | joined t r => exact ⟨t, r, rfl⟩
    | detached t r x => rw [hc] at hpresent; cases hpresent
    | _ => exact absurd (hjoins.trans (Store.answers_some (r := none) (by rw [hc]; rfl))) hne
  · rintro ⟨t, r, hc⟩
    refine ⟨by rw [hjoins, Store.answers_some (r := some r) (by rw [hc]; rfl)]; simp, ?_⟩
    have htied := hbound.tied
    cases hpc : s.pc with
    | attachInsert isProtected d =>
      rw [hpc] at htied hconn
      cases hconn
      rw [(hv.inv.rows.attaching _ _ htied).2] at hc; cases hc
    | sendUnavailable d =>
      rw [hpc] at htied hconn
      cases hconn
      rw [show v.shared.store.conns c = .turnedAway _ from htied] at hc; cases hc
    | live isProtected d attached p =>
      rw [hpc] at hconn
      cases hconn
      exact ⟨isProtected, attached, p, rfl⟩
    | finished connId =>
      rw [hpc] at htied hconn
      cases hconn
      rcases htied with hd | ⟨t', r', x, hd, -⟩
      · rw [hc] at hd; cases hd
      · rw [hc] at hd; cases hd
    | _ => rw [hpc] at hconn; cases hconn

/-- The participants of a room are the seated sessions on it. -/
theorem Reachable.participants_iff (hv : Reachable env v) {id : String} {room : Room}
    (hroom : v.shared.store.room id = some room) (c : String) :
    (HashMap.get room.participants c).isSome ↔
      ∃ k s, v.sockets k = some s ∧ s.roomId = id ∧ s.Seated c := by
  constructor
  · intro hsome
    obtain ⟨p, hp⟩ := Option.isSome_iff_exists.mp hsome
    obtain ⟨t, r, hc, hid, -⟩ := (hv.inv.members.seated id room hroom c p).mp hp
    obtain ⟨k, s, hk, hconn⟩ := hv.sockets.owned c (by rw [hc]; simp)
    have hroomId := (hv.sockets.bound k s hk).tied.room hv.inv hconn (by rw [hc]; rfl)
    exact ⟨k, s, hk, hroomId.symm.trans hid, (hv.seated_iff hk hconn).mpr ⟨t, r, hc⟩⟩
  · rintro ⟨k, s, hk, rfl, hseated⟩
    obtain ⟨-, isProtected, attached, p, hpc⟩ := id hseated
    have hconn : s.pc.conn = some c := by rw [hpc]; rfl
    obtain ⟨t, r, hc⟩ := (hv.seated_iff hk hconn).mp hseated
    have hroomId := (hv.sockets.bound k s hk).tied.room hv.inv hconn (by rw [hc]; rfl)
    rw [(hv.inv.members.seated s.roomId room hroom c r.participant).mpr ⟨t, r, hc, hroomId, rfl⟩]
    rfl

/-- A session that is over is in no room. -/
theorem Reachable.finished (hv : Reachable env v) (hk : v.sockets k = some s)
    (hpc : s.pc = .finished (some c)) {id : String} {room : Room}
    (hroom : v.shared.store.room id = some room) : HashMap.get room.participants c = none := by
  refine hv.inv.members.get_none hroom ?_
  intro t r hc
  have hconn : s.pc.conn = some c := by rw [hpc]; rfl
  obtain ⟨-, isProtected, attached, p, hpc'⟩ := (hv.seated_iff hk hconn).mpr ⟨t, r, hc⟩
  rw [hpc] at hpc'; cases hpc'

/-- `detach` announces a member of a room that has not expired, for good. -/
theorem Reachable.leaves_of_detaches (hv : Reachable env v) (hd : Detaches env v k c v')
    (hrun : Machine.Reachable (Server.step env) v' v'') {r : Receipt}
    (hr : (v.shared.store.conns c).receipt = some r)
    (hlive : .roomExpired ∉ v.shared.store.log r.receiver.tx) :
    (v''.shared.store.log r.receiver.tx).countP (RoomEvent.isLeaveOf c) = 1 := by
  obtain ⟨t, hpresent, hdetached⟩ := detach_tied hd.step
  have hadm := hv.inv.logs.admitted c t r (Store.present_ticket hpresent) hr
  have hinv' := hv.inv.step (Store.step_cases hd.step)
  have hinv'' := hinv'.reachable (store_run hrun)
  rw [hr, ← hadm.tx, decide_eq_false hlive] at hdetached
  have hc'' := hinv'.detached_keep (store_run hrun) hdetached
  rw [Store.countP_isLeaveOf, hadm.tx, hinv''.logs.detached c t r false hc'']
  rfl

/-- A refused connection changes nothing, and its `detach` removes nobody and publishes nothing. -/
theorem Reachable.refused (hv : Reachable env v) (h : Refuses env v k c v')
    {v₂ v₃ : Server} (hrun : Machine.Reachable (Server.step env) v' v₂)
    (hd : Detaches env v₂ k c v₃) : v₂.shared.store.SameRooms v₃.shared.store := by
  obtain ⟨-, t, why, hc⟩ := h.step hv
  obtain ⟨s, s', ch, isProtected, attached, participant, hk, hpc, hs, -⟩ := h
  have hv' : Reachable env v' := hv.run (Machine.Reachable.snoc .refl (a := .socket k ch) hs)
  have hinv' := hv'.inv
  refine (hinv'.reachable (store_run hrun)).detach_outsider hd.step ?_
  intro u w hj
  rcases hinv'.refused_keep (store_run hrun) hc with hc₂ | ⟨x, hc₂⟩
  · rw [hj] at hc₂; cases hc₂
  · rw [hj] at hc₂; cases hc₂

/-- What is said of the rooms and the sessions of a server about who is in a room. -/
structure Membership (env : Env) (v : Server) : Prop where
  bounded : ∀ id room, v.shared.store.room id = some room →
    HashMap.len room.participants ≤ maxParticipants
  exact_members : ∀ id room, v.shared.store.room id = some room →
    ∀ c, (HashMap.get room.participants c).isSome ↔
      ∃ k s, v.sockets k = some s ∧ s.roomId = id ∧ s.Seated c
  -- the only way out of a session that has attached is `detach`, which waits for the lock alone
  exits : ∀ k s isProtected c attached p, v.sockets k = some s →
    s.pc = .live isProtected c attached p →
      (∀ l v', v.step env l = some v' → ∃ s', v'.sockets k = some s' ∧
        ((∃ p', s'.pc = .live isProtected c attached p') ∨
          Detaches env v k c v' ∧ s'.pc = .finished (some c))) ∧
      (p = .detach → v.shared.store.lock = .free → ∃ v', Detaches env v k c v')
  ended : ∀ k s c, v.sockets k = some s → s.pc = .finished (some c) →
    ∀ id room, v.shared.store.room id = some room → HashMap.get room.participants c = none
  entered : ∀ k s c, v.sockets k = some s → s.pc.conn = some c → ∀ tx,
    (v.shared.store.log tx).countP (RoomEvent.isJoinOf c) =
      (joinsOf s.trace).countP fun answer => decide (answer.1.tx = tx)
  left_once : ∀ c, ∃ tx, (v.shared.store.log tx).countP (RoomEvent.isLeaveOf c) ≤ 1 ∧
    ∀ tx', tx' ≠ tx → (v.shared.store.log tx').countP (RoomEvent.isLeaveOf c) = 0
  left : ∀ k s c v' v'' rx peers, v.sockets k = some s → Detaches env v k c v' →
    Machine.Reachable (Server.step env) v' v'' → (rx, peers) ∈ joinsOf s.trace →
    .roomExpired ∉ v.shared.store.log rx.tx →
      (v''.shared.store.log rx.tx).countP (RoomEvent.isLeaveOf c) = 1
  refused : ∀ k c v', Refuses env v k c v' → v'.shared.store.app = v.shared.store.app ∧
    ∀ v₂ v₃, Machine.Reachable (Server.step env) v' v₂ → Detaches env v₂ k c v₃ →
      v₂.shared.store.SameRooms v₃.shared.store

/-- **Membership is exact and bounded.** -/
theorem membership_exact (env : Env) (v : Server) (hv : Reachable env v) : Membership env v where
  bounded id room hroom := hv.inv.members.seats id room hroom
  exact_members id room hroom := hv.participants_iff hroom
  exits k s isProtected c attached p hk hpc := by
    refine ⟨fun l v' hs => live_until_detaches hk hpc hs, ?_⟩
    rintro rfl hfree
    exact hv.detaches hk hpc hfree
  ended k s c hk hpc id room hroom := hv.finished hk hpc hroom
  entered k s c hk hconn tx := by
    rw [Store.countP_isJoinOf, hv.inv.enters_eq c tx, (hv.sockets.bound k s hk).joins, hconn]
  left_once c := by
    simp only [Store.countP_isLeaveOf]
    exact hv.inv.leaves_once c
  left k s c v' v'' rx peers hk hd hrun hmem hlive := by
    obtain ⟨s', hk', hconn⟩ := hd.socket
    cases hk.symm.trans hk'
    rw [(hv.sockets.bound k s hk).joins, hconn] at hmem
    obtain ⟨r, hr, hanswer⟩ := Store.mem_answers hmem
    cases hanswer
    exact hv.leaves_of_detaches hd hrun hr hlive
  refused k c v' hr := ⟨(hr.step hv).1, fun v₂ v₃ hrun hd => hv.refused hr hrun hd⟩

theorem membership_exact_talk : ∃ v, talk = some v ∧ Membership talkEnv v := by
  obtain ⟨v, s, r, hv, -⟩ := talk_run
  exact ⟨v, hv, membership_exact talkEnv v (talk_reachable hv)⟩

end Server

end Parrhesia
