import Parrhesia.Script

/-!
# Parrhesia.Sockets

The sockets against the store: where a socket is says how far its connection is in the store, no two
sockets have one connection, and every connection of the store is some socket's.

* `Pc.Tied` : the place against the connection.
* `Bound`   : also what `join` returned, and that the events received are the section of the
  channel's log from the subscription on.
* `Sockets` : all of it, for every socket of a server.

A move changes the store only at the connection of its own socket (`PcStep.actor`), so the other
sockets stay bound (`Bound.frame`).
-/

namespace Parrhesia

open Lib

/-- The places of a session that has joined. -/
def LivePc.isSeated : LivePc → Bool
  | .sendWelcome => false
  | .handshake => false
  | .join _ => false
  | .joinInsert => false
  | .sendRoomFull => false
  | _ => true

def LivePc.Tied (st : Store) (c : String) (t : Ticket) : LivePc → Prop
  | .sendWelcome => st.conns c = .attached t
  | .handshake => st.conns c = .attached t
  | .join _ => st.conns c = .attached t
  | .joinInsert => st.conns c = .attached t ∧ ∃ r, st.lock = .joining c r
  | .sendRoomFull => st.conns c = .refused t .full
  | .detach => (st.conns c).present = some t
  | _ => ∃ r, st.conns c = .joined t r

def Pc.Tied (st : Store) (roomId : String) : Pc → Prop
  | .attachInsert _ c => st.lock = .attaching roomId c
  | .sendUnavailable c => st.conns c = .turnedAway roomId
  | .live _ c a p => p.Tied st c { a with room := roomId }
  | .finished (some c) =>
    st.conns c = .turnedAway roomId ∨ ∃ t r x, st.conns c = .detached t r x ∧ t.room = roomId
  | _ => True

section Tied

variable {env : Env} {sh : Shared} {st st' : Store} {roomId c : String} {t : Ticket} {r : Receipt}

theorem LivePc.Tied.present {p : LivePc} (h : p.Tied st c t) : (st.conns c).present = some t := by
  cases p with
  | sendWelcome => rw [show st.conns c = .attached t from h]; rfl
  | handshake => rw [show st.conns c = .attached t from h]; rfl
  | join participant => rw [show st.conns c = .attached t from h]; rfl
  | joinInsert => rw [h.1]; rfl
  | sendRoomFull => rw [show st.conns c = .refused t .full from h]; rfl
  | detach => exact h
  | _ => obtain ⟨r, hr⟩ := h; rw [hr]; rfl

theorem LivePc.Tied.of_joined {p : LivePc} (h : st.conns c = .joined t r)
    (hp : p.isSeated = true) : p.Tied st c t := by
  cases p with
  | detach => show (st.conns c).present = some t; rw [h]; rfl
  | sendJoined rx peers => exact ⟨r, h⟩
  | sendPeer rx peer rest => exact ⟨r, h⟩
  | startRelay rx => exact ⟨r, h⟩
  | relay r' p => exact ⟨r, h⟩
  | sendClose => exact ⟨r, h⟩
  | _ => cases hp

/-! ## The moves of a socket -/

theorem RelayStep.conns {rl : Relay} {p : RelayPc} {m : Move LivePc}
    (hm : RelayStep env sh roomId c rl p m) :
    m.shared.store.conns = sh.store.conns ∧ m.shared.store.lock = sh.store.lock := by
  cases hm with
  | updated hstep =>
    cases Store.step_cases hstep with
    | idle => exact ⟨rfl, rfl⟩
    | touched => exact ⟨rfl, rfl⟩
  | published hstep =>
    cases Store.step_cases hstep with
    | idle hop => cases hop
    | published => exact ⟨rfl, rfl⟩
  | _ => exact ⟨rfl, rfl⟩

theorem RelayStep.seated {rl : Relay} {p : RelayPc} {m : Move LivePc}
    (hm : RelayStep env sh roomId c rl p m) : m.pc.isSeated = true := by
  cases hm with
  | tick hdue => simp only [relayTick]; split <;> rfl
  | received hrecv => simp only [relayEvent]; split <;> rfl
  | @frame received now => cases received <;> rfl
  | pinged => dsimp only; split <;> rfl
  | sent => dsimp only; split <;> [split; skip] <;> rfl
  | ponged => dsimp only; split <;> rfl
  | _ => rfl

theorem afterPeer_seated (rx : Receiver) (peers : PeerSnapshot) :
    (afterPeer rx peers).isSeated = true := by
  cases peers <;> rfl

theorem handshakeFrame_tied (h : st.conns c = .attached t) (received : Received) :
    (handshakeFrame env received).Tied st c t := by
  have hpresent : (st.conns c).present = some t := by rw [h]; rfl
  cases received with
  | text s =>
    simp only [handshakeFrame]
    split
    · exact h
    · exact hpresent
  | ping data => exact h
  | pong => exact h
  | _ => exact hpresent

/-- `join` refuses, or takes the lock. -/
theorem joinSubscribe_tied {participant : Participant} {peers : PeerSnapshot}
    (h : st.conns c = .attached t) (hs : st.step (.joinSubscribe c participant peers) = some st') :
    (joinOutcome (st'.conns c)).Tied st' c t ∧ (st'.conns c).receipt = none := by
  cases Store.step_cases hs with
  | idle hop => cases hop
  | @refused _ _ _ t' why hlock hc hroom =>
    cases h.symm.trans hc
    have hconn : (st.setConn c (.refused t why)).conns c = .refused t why := Function.update_self ..
    rw [hconn]
    cases why with
    | full => exact ⟨hconn, rfl⟩
    | roomGone =>
      refine ⟨?_, rfl⟩
      show (Store.conns _ c).present = some t
      rw [hconn]; rfl
  | subscribed hlock hc hroom hlen hpeers =>
    dsimp only
    rw [h]
    exact ⟨⟨h, _, rfl⟩, rfl⟩

theorem joinInsert_tied (h : st.conns c = .attached t) (hlock : st.lock = .joining c r)
    (hs : st.step .joinInsert = some st') : st'.conns c = .joined t r := by
  cases Store.step_cases hs with
  | idle hop => cases hop
  | admitted hlock₀ hc hroom =>
    cases hlock.symm.trans hlock₀
    cases h.symm.trans hc
    exact Function.update_self ..

theorem LiveStep.tied {isProtected : Bool} {attached : Attached} {p : LivePc} {m : Move LivePc}
    (hm : LiveStep env sh roomId isProtected c attached p m) (h : p.Tied sh.store c t) :
    m.pc.Tied m.shared.store c t := by
  have hpresent := h.present
  cases hm with
  | welcomed =>
    dsimp only
    split
    · exact h
    · exact hpresent
  | handshook => exact handshakeFrame_tied h _
  | late => exact hpresent
  | asked hstep => exact (joinSubscribe_tied h hstep).1
  | @joined c' r store hlock hstep =>
    obtain ⟨hconn, r', hlock'⟩ := h
    cases hlock.symm.trans hlock'
    refine .of_joined (joinInsert_tied hconn hlock hstep) ?_
    dsimp only
    split
    · rfl
    · exact afterPeer_seated _ _
  | full => exact hpresent
  | told =>
    obtain ⟨r, hr⟩ := h
    refine .of_joined hr ?_
    dsimp only
    split
    · exact afterPeer_seated _ _
    · rfl
  | introduced =>
    obtain ⟨r, hr⟩ := h
    refine .of_joined hr ?_
    dsimp only
    split
    · exact afterPeer_seated _ _
    · rfl
  | began => exact h
  | relayed hrelay =>
    obtain ⟨r, hr⟩ := h
    exact .of_joined (by rw [hrelay.conns.1]; exact hr) hrelay.seated
  | closed => exact hpresent

theorem attachSelect_tied {fault : Bool} (isProtected : Bool)
    (hs : st.step (.attachSelect c roomId fault) = some st') :
    Pc.Tied st' roomId (if st'.lock = .attaching roomId c then .attachInsert isProtected c
      else .sendUnavailable c) ∧ st.lock = .free ∧ st.conns c = .fresh ∧
        (st'.conns c).receipt = none := by
  cases Store.step_cases hs with
  | idle hop => cases hop
  | turnedAway hlock hc hrow =>
    have hconn : (st.setConn c (.turnedAway roomId)).conns c = .turnedAway roomId :=
      Function.update_self ..
    have hfree : (st.setConn c (.turnedAway roomId)).lock = .free := hlock
    rw [hfree, if_neg (by simp)]
    exact ⟨hconn, hlock, hc, by rw [hconn]; rfl⟩
  | attaching hlock hc hrow =>
    rw [if_pos rfl]
    refine ⟨rfl, hlock, hc, ?_⟩
    dsimp only
    rw [hc]; rfl

theorem attachInsert_tied (h : st.lock = .attaching roomId c) (hs : st.step .attachInsert = some st') :
    st'.conns c = .attached { (st.app.enter roomId c).1 with room := roomId } := by
  simp only [Store.step, Store.attachInsert, h, Option.some.injEq] at hs
  subst hs
  exact Function.update_self ..

theorem detach_tied (hs : st.step (.detach c) = some st') :
    ∃ t, (st.conns c).present = some t ∧ st'.conns c =
      .detached t (st.conns c).receipt (decide (RoomEvent.roomExpired ∈ st.log t.tx)) := by
  cases Store.step_cases hs with
  | idle hop => cases hop
  | detachedGone hlock hc hroom => exact ⟨_, hc, Function.update_self ..⟩
  | detached hlock hc hroom hout => exact ⟨_, hc, Function.update_self ..⟩
  | left hlock hc hroom hin => exact ⟨_, hc, Function.update_self ..⟩

theorem Pc.tied_of_conn {pc : Pc} (hconn : pc.conn = none) : pc.Tied st roomId := by
  cases pc with
  | attachInsert isProtected c => cases hconn
  | sendUnavailable c => cases hconn
  | live isProtected c attached p => cases hconn
  | finished connId =>
    cases connId with
    | none => trivial
    | some c => cases hconn
  | _ => trivial

/-- A socket either keeps its connection id, or gets an unused one. -/
theorem PcStep.conn {pc : Pc} {m : Move Pc} (hm : PcStep env sh roomId pc m) :
    m.pc.conn = pc.conn ∨ pc.conn = none ∧ ∃ c, m.pc.conn = some c ∧
      sh.store.lock = .free ∧ sh.store.conns c = .fresh := by
  cases hm with
  | auth hauth => exact .inl hauth.conn
  | upgraded => exact .inl (afterUpgrade_conn _ _ _)
  | dropped hdrop => exact .inl (dropped_conn _ _)
  | attaching hstep =>
    obtain ⟨-, hlock, hfresh, -⟩ := attachSelect_tied false hstep
    refine .inr ⟨rfl, _, ?_, hlock, hfresh⟩
    dsimp only
    split <;> rfl
  | _ => exact .inl rfl

theorem PcStep.tied {pc : Pc} {m : Move Pc} (hm : PcStep env sh roomId pc m)
    (h : pc.Tied sh.store roomId) : m.pc.Tied m.shared.store roomId := by
  cases hm with
  | auth hauth => exact Pc.tied_of_conn hauth.conn
  | upgraded => exact Pc.tied_of_conn (afterUpgrade_conn _ _ _)
  | dropped hdrop => exact Pc.tied_of_conn (dropped_conn _ _)
  | attaching hstep => exact (attachSelect_tied _ hstep).1
  | attached hstep => exact attachInsert_tied h hstep
  | unavailable => exact .inl h
  | live hlive => exact hlive.tied h
  | detached hstep =>
    obtain ⟨t, hpresent, hd⟩ := detach_tied hstep
    cases hpresent.symm.trans h
    exact .inr ⟨_, _, _, hd, rfl⟩
  | _ => trivial

/-- A move works on the store only for its own connection. -/
theorem PcStep.actor {pc : Pc} {m : Move Pc} (hm : PcStep env sh roomId pc m)
    (h : pc.Tied sh.store roomId) : m.shared.store = sh.store ∨
      ∃ op, sh.store.step op = some m.shared.store ∧
        ∀ d, op.actor sh.store = some d → m.pc.conn = some d := by
  cases hm with
  | auth hauth => exact .inl hauth.store
  | dropped hdrop => exact .inl (Shared.dropGuard_store hdrop)
  | attaching hstep =>
    refine .inr ⟨_, hstep, ?_⟩
    intro d hd
    cases hd
    dsimp only
    split <;> rfl
  | attached hstep =>
    refine .inr ⟨_, hstep, ?_⟩
    intro d hd
    rw [Store.Op.actor, Store.owner, show sh.store.lock = _ from h] at hd
    exact hd
  | live hlive =>
    cases hlive with
    | asked hstep => exact .inr ⟨_, hstep, fun d hd => hd⟩
    | joined hlock hstep =>
      refine .inr ⟨_, hstep, ?_⟩
      intro d hd
      obtain ⟨-, r', hlock'⟩ := h
      rw [Store.Op.actor, Store.owner, hlock'] at hd
      exact hd
    | relayed hrelay =>
      cases hrelay with
      | updated hstep => exact .inr ⟨_, hstep, fun d hd => (by cases hd)⟩
      | published hstep => exact .inr ⟨_, hstep, fun d hd => (by cases hd)⟩
      | _ => exact .inl rfl
    | _ => exact .inl rfl
  | detached hstep => exact .inr ⟨_, hstep, fun d hd => hd⟩
  | _ => exact .inl rfl

/-- An operation for somebody else. -/
theorem Pc.Tied.frame {pc : Pc} {op : Store.Op} (h : pc.Tied st roomId)
    (hs : st.step op = some st') (hother : ∀ d, op.actor st = some d → pc.conn ≠ some d) :
    pc.Tied st' roomId := by
  have hstep := Store.step_cases hs
  have hconn : ∀ {d : String}, pc.conn = some d → st'.conns d = st.conns d :=
    fun hd => hstep.conns_frame fun hactor => hother _ hactor hd
  have hlock : ∀ {d : String}, pc.conn = some d → st.owner = some d → st'.lock = st.lock :=
    fun hd howner => hstep.lock_frame howner fun hactor => hother _ hactor hd
  cases pc with
  | attachInsert isProtected d =>
    have hd : st.lock = .attaching roomId d := h
    exact (hlock rfl (by rw [Store.owner, hd])).trans hd
  | sendUnavailable d => exact (hconn rfl).trans h
  | finished connId =>
    cases connId with
    | none => trivial
    | some d =>
      show _ ∨ _
      rw [hconn rfl]
      exact h
  | live isProtected d attached p =>
    cases p with
    | joinInsert =>
      obtain ⟨ha, r, hr⟩ := h
      exact ⟨(hconn rfl).trans ha, r, (hlock rfl (by rw [Store.owner, hr])).trans hr⟩
    | _ => simpa only [Pc.Tied, LivePc.Tied, hconn rfl] using h
  | _ => trivial

end Tied

/-! ## What `join` returned, and what was received -/

def Receipt.answer (r : Receipt) : Receiver × PeerSnapshot := (r.receiver, r.peers)

/-- What `join` returned to a connection, as the store has it. -/
def Store.answers (st : Store) (conn : Option String) : List (Receiver × PeerSnapshot) :=
  ((conn.bind fun c => (st.conns c).receipt).map Receipt.answer).toList

/-- The events received are the section of the log from the subscription on. -/
def Streamed (st : Store) (trace : List Obs) : Prop :=
  ∀ rx peers, (rx, peers) ∈ joinsOf trace →
    rx.next + (receivedOf trace).length ≤ (st.log rx.tx).length ∧
      receivedOf trace =
        Broadcast.span (st.log rx.tx) rx.next (rx.next + (receivedOf trace).length)

structure Bound (st : Store) (s : Session) : Prop where
  tied : s.pc.Tied st s.roomId
  joins : joinsOf s.trace = st.answers s.pc.conn
  streamed : Streamed st s.trace

section Bound

variable {env : Env} {sh : Shared} {st st' : Store} {s : Session} {roomId c : String}
  {trace obs : List Obs}

theorem Store.answers_some {r : Option Receipt} (h : (st.conns c).receipt = r) :
    st.answers (some c) = (r.map Receipt.answer).toList := by
  rw [← h]; rfl

/-- Events sent later change nothing for the events received. -/
theorem Streamed.grow (h : Streamed st trace) (hgrow : ∀ tx, st.log tx <+: st'.log tx) :
    Streamed st' trace := by
  intro rx peers hmem
  obtain ⟨hle, hspan⟩ := h rx peers hmem
  obtain ⟨more, hmore⟩ := hgrow rx.tx
  refine ⟨hle.trans (hgrow rx.tx).length_le, ?_⟩
  rw [← hmore, Broadcast.span_append hle]
  exact hspan

theorem Streamed.note (h : Streamed st trace) (hj : joinsOf obs = []) (hr : receivedOf obs = []) :
    Streamed st (trace ++ obs) := by
  intro rx peers hmem
  rw [joinsOf_append, hj, List.append_nil] at hmem
  rw [receivedOf_append, hr, List.append_nil]
  exact h rx peers hmem

/-- The event at the receiver's position. -/
theorem Streamed.receive {rx : Receiver} {peers : PeerSnapshot} {e : RoomEvent}
    (h : Streamed st trace) (hjoins : joinsOf trace = [(rx, peers)])
    (he : (st.log rx.tx)[rx.next + (receivedOf trace).length]? = some e) :
    Streamed st (trace ++ [.received e]) := by
  intro rx' peers' hmem
  have hjoins' : joinsOf (trace ++ [.received e]) = [(rx, peers)] := by
    rw [joinsOf_append, hjoins]; rfl
  rw [hjoins', List.mem_singleton] at hmem
  cases hmem
  obtain ⟨-, hspan⟩ := h rx peers (by rw [hjoins]; exact List.mem_singleton.mpr rfl)
  have hlt := (List.getElem?_eq_some_iff.mp he).1
  rw [receivedOf_append, receivedOf_received, List.length_append, List.length_singleton,
    ← Nat.add_assoc, Broadcast.span_succ (Nat.le_add_right _ _) he, ← hspan]
  exact ⟨hlt, rfl⟩

/-- A subscription starts with nothing received. -/
theorem Streamed.joined {rx : Receiver} {peers : PeerSnapshot} (h : Untold trace)
    (hle : rx.next ≤ (st.log rx.tx).length) : Streamed st (trace ++ [.joined rx peers]) := by
  intro rx' peers' hmem
  have hjoins : joinsOf (trace ++ [.joined rx peers]) = [(rx, peers)] := by
    rw [joinsOf_append, h.joins]; rfl
  have hr : receivedOf (trace ++ [.joined rx peers]) = [] := by
    rw [receivedOf_append, h.received]; rfl
  rw [hjoins, List.mem_singleton] at hmem
  cases hmem
  rw [hr]
  exact ⟨hle, (Broadcast.span_self _ _).symm⟩

theorem streamed_of_untold (h : joinsOf trace = []) : Streamed st trace := by
  intro rx peers hmem
  rw [h] at hmem; cases hmem

theorem Stepped.grows (h : st.Stepped st') (tx : Nat) : st.log tx <+: st'.log tx := by
  rcases h with rfl | ⟨op, hop⟩
  · exact List.prefix_refl _
  · exact (Store.step_cases hop).log_grows tx

/-- The relay loop receives the event at its position, or none. -/
theorem RelayStep.reads {rl : Relay} {p : RelayPc} {m : Move LivePc}
    (hm : RelayStep env sh roomId c rl p m) : joinsOf m.obs = [] ∧
      (receivedOf m.obs = [] ∨ p = .select ∧ ∃ e, m.obs = [.received e] ∧
        (sh.store.log rl.rx.tx)[rl.rx.next]? = some e) := by
  cases hm with
  | @received e hrecv => exact ⟨rfl, .inr ⟨rfl, e, rfl, Broadcast.recv_item hrecv⟩⟩
  | @frame received now => cases received <;> exact ⟨rfl, .inl rfl⟩
  | _ => exact ⟨rfl, .inl rfl⟩

theorem LiveStep.bound {isProtected : Bool} {attached : Attached} {p : LivePc} {m : Move LivePc}
    {t : Ticket} (hinv : m.shared.store.Inv)
    (hm : LiveStep env sh roomId isProtected c attached p m) (hscript : p.Script c trace)
    (htied : p.Tied sh.store c t) (hjoins : joinsOf trace = sh.store.answers (some c))
    (hstream : Streamed m.shared.store trace) :
    joinsOf (trace ++ m.obs) = m.shared.store.answers (some c) ∧
      Streamed m.shared.store (trace ++ m.obs) := by
  have hnote : ∀ {obs : List Obs}, joinsOf obs = [] → receivedOf obs = [] →
      m.shared.store.answers (some c) = sh.store.answers (some c) →
      joinsOf (trace ++ obs) = m.shared.store.answers (some c) ∧
        Streamed m.shared.store (trace ++ obs) := by
    intro obs hj hr hsame
    refine ⟨?_, hstream.note hj hr⟩
    rw [joinsOf_append, hj, List.append_nil, hjoins, hsame]
  cases hm with
  | asked hstep =>
    obtain ⟨-, hnone⟩ := joinSubscribe_tied htied hstep
    have hbefore : (sh.store.conns c).receipt = none := by
      rw [show sh.store.conns c = .attached t from htied]; rfl
    exact hnote rfl rfl ((Store.answers_some hnone).trans (Store.answers_some hbefore).symm)
  | @joined c' r store hlock hstep =>
    obtain ⟨hconn, r', hlock'⟩ := htied
    cases hlock.symm.trans hlock'
    have hjoined := joinInsert_tied hconn hlock hstep
    have hreceipt : (store.conns c).receipt = some r := by rw [hjoined]; rfl
    refine ⟨?_, .joined hscript ?_⟩
    · rw [joinsOf_append, Untold.joins hscript, Store.answers_some hreceipt]; rfl
    · have hadm := hinv.logs.admitted c t r (by rw [hjoined]; rfl) hreceipt
      rw [hadm.tx]
      exact hadm.next
  | relayed hrelay =>
    obtain ⟨hj, hr⟩ := hrelay.reads
    have hsame : m.shared.store.answers (some c) = sh.store.answers (some c) := by
      rw [Store.answers, Store.answers, hrelay.conns.1]
    rcases hr with hr | ⟨rfl, e, hobs, he⟩
    · exact hnote hj hr hsame
    · obtain ⟨rx, peers, settled, hrun⟩ := hscript
      rw [hobs]
      refine ⟨?_, hstream.receive hrun.told.joins ?_⟩
      · rw [joinsOf_append, hjoins, hsame]; exact List.append_nil _
      · rw [hrun.cursor] at he
        obtain ⟨more, hmore⟩ := Stepped.grows hrelay.store rx.tx
        rw [← hmore, List.getElem?_append_left (List.getElem?_eq_some_iff.mp he).1]
        exact he
  | _ => exact hnote rfl rfl rfl

theorem Pc.Script.untold {pc : Pc} (h : pc.Script trace) (hconn : pc.conn = none) :
    Untold trace := by
  cases pc with
  | live isProtected c attached p => cases hconn
  | finished connId =>
    cases connId with
    | none => exact h
    | some c => cases hconn
  | _ => exact h

theorem PcStep.bound {pc : Pc} {m : Move Pc} (hinv : m.shared.store.Inv)
    (hm : PcStep env sh roomId pc m) (hscript : pc.Script trace)
    (hscript' : m.pc.Script (trace ++ m.obs)) (htied : pc.Tied sh.store roomId)
    (hjoins : joinsOf trace = sh.store.answers pc.conn)
    (hstream : Streamed m.shared.store trace) :
    joinsOf (trace ++ m.obs) = m.shared.store.answers m.pc.conn ∧
      Streamed m.shared.store (trace ++ m.obs) := by
  -- a socket that has been told nothing, and has no receipt in the store
  have huntold : ∀ {tr : List Obs} {c : String}, Untold tr →
      (m.shared.store.conns c).receipt = none →
        joinsOf tr = m.shared.store.answers (some c) ∧ Streamed m.shared.store tr := by
    intro tr c htr hnone
    rw [Store.answers_some hnone]
    exact ⟨htr.joins, streamed_of_untold htr.joins⟩
  have hearly : m.pc.conn = none → joinsOf (trace ++ m.obs) = m.shared.store.answers m.pc.conn ∧
      Streamed m.shared.store (trace ++ m.obs) := by
    intro hconn
    have htr := hscript'.untold hconn
    rw [hconn, htr.joins]
    exact ⟨rfl, streamed_of_untold htr.joins⟩
  cases hm with
  | auth hauth => exact hearly hauth.conn
  | upgraded => exact hearly (afterUpgrade_conn _ _ _)
  | dropped hdrop => exact hearly (dropped_conn _ _)
  | @attaching isProtected c fault store hstep =>
    have hnone := (attachSelect_tied false hstep).2.2.2
    have huntold' : Untold (trace ++ [.attaching c]) := Untold.note hscript rfl rfl rfl
    have htr := huntold huntold' hnone
    dsimp only
    split <;> exact htr
  | @attached isProtected c store hstep =>
    refine huntold hscript' ?_
    dsimp only
    rw [attachInsert_tied htied hstep]; rfl
  | @unavailable c =>
    refine huntold (Untold.note hscript rfl rfl rfl) ?_
    rw [show sh.store.conns c = .turnedAway _ from htied]; rfl
  | live hlive => exact hlive.bound hinv hscript htied hjoins hstream
  | detached hstep =>
    obtain ⟨t, -, hd⟩ := detach_tied hstep
    rw [List.append_nil]
    refine ⟨hjoins.trans ?_, hstream⟩
    refine (Store.answers_some rfl).trans (Store.answers_some ?_).symm
    rw [hd]; rfl
  | _ => exact hearly rfl

theorem Bound.frame {op : Store.Op} (h : Bound st s) (hs : st.step op = some st')
    (hother : ∀ d, op.actor st = some d → s.pc.conn ≠ some d) : Bound st' s where
  tied := h.tied.frame hs hother
  joins := by
    rw [h.joins]
    cases hconn : s.pc.conn with
    | none => rfl
    | some d =>
      have hsame := (Store.step_cases hs).conns_frame fun hactor => hother d hactor hconn
      exact (Store.answers_some rfl).trans (Store.answers_some (by rw [hsame])).symm
  streamed := h.streamed.grow (Store.step_cases hs).log_grows

/-- The connection of a socket is in use. -/
theorem Bound.used (h : Bound st s) (hconn : s.pc.conn = some c) :
    st.conns c ≠ .fresh ∨ ∃ id, st.lock = .attaching id c := by
  have htied := h.tied
  cases hpc : s.pc with
  | attachInsert isProtected d =>
    rw [hpc] at htied hconn
    cases hconn
    exact .inr ⟨_, htied⟩
  | sendUnavailable d =>
    rw [hpc] at htied hconn
    cases hconn
    exact .inl (by rw [show st.conns c = .turnedAway _ from htied]; simp)
  | live isProtected d attached p =>
    rw [hpc] at htied hconn
    cases hconn
    have hpresent := LivePc.Tied.present htied
    exact .inl fun hfresh => by rw [hfresh] at hpresent; cases hpresent
  | finished connId =>
    rw [hpc] at htied hconn
    cases hconn
    rcases htied with hc | ⟨t, r, x, hc, -⟩
    · exact .inl (by rw [hc]; simp)
    · exact .inl (by rw [hc]; simp)
  | _ => rw [hpc] at hconn; cases hconn

/-- The connection of a socket attached to the room the socket was opened on. -/
theorem Pc.Tied.room {pc : Pc} {t : Ticket} (h : pc.Tied st roomId) (hinv : st.Inv)
    (hconn : pc.conn = some c) (ht : (st.conns c).ticket = some t) : t.room = roomId := by
  cases pc with
  | attachInsert isProtected d =>
    cases hconn
    rw [(hinv.rows.attaching _ _ h).2] at ht; cases ht
  | sendUnavailable d =>
    cases hconn
    rw [show st.conns c = .turnedAway _ from h] at ht; cases ht
  | live isProtected d attached p =>
    cases hconn
    have hticket := Store.present_ticket (LivePc.Tied.present h)
    rw [ht] at hticket
    cases hticket; rfl
  | finished connId =>
    cases hconn
    rcases h with hc | ⟨t', r, x, hc, hroom⟩
    · rw [hc] at ht; cases ht
    · rw [hc] at ht; cases ht; exact hroom
  | _ => cases hconn

end Bound

/-! ## All sockets -/

namespace Server

structure Sockets (v : Server) : Prop where
  bound : ∀ k s, v.sockets k = some s → Bound v.shared.store s
  apart : ∀ k k' s s' c, v.sockets k = some s → v.sockets k' = some s' →
    s.pc.conn = some c → s'.pc.conn = some c → k = k'
  owned : ∀ c, v.shared.store.conns c ≠ .fresh → ∃ k s, v.sockets k = some s ∧ s.pc.conn = some c

variable {env : Env} {v v' : Server}

theorem sockets_start (db : Db.Rooms) : Sockets (start db) where
  bound k s h := by cases h
  apart k k' s s' c h := by cases h
  owned c h := absurd rfl h

/-- A socket that arrives has no connection. -/
theorem Sockets.opened (h : Sockets v) {k : Nat} {roomId : String} (hk : v.sockets k = none) :
    Sockets (v.setSocket k (.connect roomId) v.shared) where
  bound k' s hk' := by
    rcases setSocket_cases hk' with ⟨-, rfl⟩ | ⟨-, hold⟩
    · exact ⟨trivial, rfl, streamed_of_untold rfl⟩
    · exact h.bound k' s hold
  apart k₁ k₂ s₁ s₂ c h₁ h₂ hc₁ hc₂ := by
    rcases setSocket_cases h₁ with ⟨-, rfl⟩ | ⟨-, hold₁⟩
    · cases hc₁
    · rcases setSocket_cases h₂ with ⟨-, rfl⟩ | ⟨-, hold₂⟩
      · cases hc₂
      · exact h.apart k₁ k₂ s₁ s₂ c hold₁ hold₂ hc₁ hc₂
  owned c hc := by
    obtain ⟨k', s, hk', hconn⟩ := h.owned c hc
    refine ⟨k', s, ?_, hconn⟩
    rw [setSocket_of_ne ?_, hk']
    rintro rfl
    rw [hk] at hk'; cases hk'

/-- A move of socket `k`, on a server whose sockets are bound. -/
theorem Sockets.moved (hv : Reachable env v) (h : Sockets v) {k : Nat} {s : Session} {m : Move Pc}
    (hinv : m.shared.store.Inv) (hk : v.sockets k = some s)
    (hm : PcStep env v.shared s.roomId s.pc m) :
    Sockets (v.setSocket k { s with pc := m.pc, trace := s.trace ++ m.obs } m.shared) := by
  have hbound := h.bound k s hk
  have hgate := (hv.gate hk).phase
  have hconn := hm.conn
  -- nobody else has the connection of the mover
  have hother : ∀ k' s' d, k' ≠ k → v.sockets k' = some s' → m.pc.conn = some d →
      s'.pc.conn ≠ some d := by
    intro k' s' d hne hk' hd hd'
    rcases hconn with hsame | ⟨-, c, hc, hfree, hfresh⟩
    · exact hne (h.apart k' k s' s d hk' hk hd' (hsame.symm.trans hd))
    · cases hc.symm.trans hd
      rcases (h.bound k' s' hk').used hd' with hused | ⟨id, hlock⟩
      · exact hused hfresh
      · rw [hfree] at hlock; cases hlock
  refine ⟨?_, ?_, ?_⟩
  · intro k' s' hk'
    rcases setSocket_cases hk' with ⟨-, rfl⟩ | ⟨hne, hold⟩
    · have hscript := hv.script hk
      obtain ⟨hjoins, hstream⟩ := hm.bound hinv hscript (hm.script hgate hscript) hbound.tied
        hbound.joins (hbound.streamed.grow (Stepped.grows hm.store))
      exact ⟨hm.tied hbound.tied, hjoins, hstream⟩
    · have hb := h.bound k' s' hold
      rcases hm.actor hbound.tied with hsame | ⟨op, hop, hactor⟩
      · show Bound m.shared.store s'
        rw [hsame]; exact hb
      · exact hb.frame hop fun d hd => hother k' s' d hne hold (hactor d hd)
  · intro k₁ k₂ s₁ s₂ d h₁ h₂ hd₁ hd₂
    rcases setSocket_cases h₁ with ⟨he₁, rfl⟩ | ⟨hne₁, hold₁⟩
    · rcases setSocket_cases h₂ with ⟨he₂, rfl⟩ | ⟨hne₂, hold₂⟩
      · rw [he₁, he₂]
      · exact absurd hd₂ (hother k₂ s₂ d hne₂ hold₂ hd₁)
    · rcases setSocket_cases h₂ with ⟨he₂, rfl⟩ | ⟨hne₂, hold₂⟩
      · exact absurd hd₁ (hother k₁ s₁ d hne₁ hold₁ hd₂)
      · exact h.apart k₁ k₂ s₁ s₂ d hold₁ hold₂ hd₁ hd₂
  · intro d hd
    by_cases hmover : m.pc.conn = some d
    · exact ⟨k, _, setSocket_self k _ _, hmover⟩
    · have hold : v.shared.store.conns d ≠ .fresh := by
        rcases hm.actor hbound.tied with hsame | ⟨op, hop, hactor⟩
        · rw [← hsame]; exact hd
        · rw [← (Store.step_cases hop).conns_frame fun ha => hmover (hactor d ha)]; exact hd
      obtain ⟨k', s', hk', hd'⟩ := h.owned d hold
      refine ⟨k', s', ?_, hd'⟩
      rw [setSocket_of_ne ?_, hk']
      rintro rfl
      cases hk.symm.trans hk'
      rcases hconn with hsame | ⟨hnone, -⟩
      · exact hmover (hsame.trans hd')
      · rw [hnone] at hd'; cases hd'

/-- An operation that is no socket's. -/
theorem Sockets.background (h : Sockets v) {op : Store.Op} {store : Store}
    (hop : op.isBackground = true) (hs : v.shared.store.step op = some store) :
    Sockets { v with shared := { v.shared with store } } := by
  have hactor : ∀ d, op.actor v.shared.store ≠ some d := by
    intro d hd
    cases op <;> simp [Store.Op.isBackground, Store.Op.actor] at hop hd
  refine ⟨?_, h.apart, fun c hc => h.owned c ?_⟩
  · intro k s hk
    exact (h.bound k s hk).frame hs fun d hd => absurd hd (hactor d)
  · rw [← (Store.step_cases hs).conns_frame (hactor c)]; exact hc

theorem Reachable.sockets (h : Reachable env v) : Sockets v := by
  refine h.invariant sockets_start ?_
  intro v v' hv ih hs
  have hstore := hs.store
  cases hs with
  | opened hk => exact ih.opened hk
  | moved hk hm =>
    refine ih.moved hv ?_ hk hm
    rcases hstore with hsame | ⟨op, hop⟩
    · exact hsame.symm ▸ hv.inv
    · exact hv.inv.step (Store.step_cases hop)
  | background hop hstep => exact ih.background hop hstep
  | _ => exact ⟨ih.bound, ih.apart, ih.owned⟩

end Server

end Parrhesia
