import Parrhesia.Hearing
import Parrhesia.Lib.Origins

/-!
# Parrhesia.Relay

Where the relayed frames a client is written come from, over any run.

* `Origin`  : an event of a channel is what a session published at a position of its trace.
* `origins` : the relayed events of every channel have such origins, in the order of each sender.
* `relay_integrity` : so do the relayed frames of a client, which are a part of these; and the frame
  that stands before a published event is the one it repeats.
-/

namespace Parrhesia

open Lib Lib.Origins

def OutgoingMessage.isRelayed : OutgoingMessage → Bool
  | .message .. => true
  | .treeCommit .. => true
  | .treeWelcome _ => true
  | .typing _ => true
  | _ => false

/-- The frames that repeat what another client sent. -/
def Frame.relayed : Frame → Option OutgoingMessage
  | .json m => if m.isRelayed then some m else none
  | _ => none

/-- What client `c` is to be written for a message of connection `author`. -/
inductive Repeats (author c : String) : IncomingMessage → OutgoingMessage → Prop
  | message (payload epoch counter) :
      Repeats author c (.message (some payload) epoch counter) (.message author payload epoch counter)
  | treeCommit (data) : Repeats author c (.treeCommit (some data)) (.treeCommit author data)
  | treeWelcome (data) : Repeats author c (.treeWelcome (some data) (some c)) (.treeWelcome data)
  | typing : Repeats author c .typing (.typing author)

/-- The messages that are relayed: of a known type other than `key_announce`, with their required
fields. -/
def IncomingMessage.isComplete : IncomingMessage → Bool
  | .message (some _) _ _ => true
  | .treeCommit (some _) => true
  | .treeWelcome (some _) (some _) => true
  | .typing => true
  | _ => false

/-- The message `m`, written to the session `s` on socket `k`, repeats the frame at position `o.2` of
the trace of socket `o.1`. -/
structure Carries (env : Env) (v : Server) (k : Nat) (s : Session) (o : Nat × Nat)
    (m : OutgoingMessage) : Prop where
  other : o.1 ≠ k
  frame : ∃ s' author c text now incoming, v.sockets o.1 = some s' ∧ s'.roomId = s.roomId ∧
    s'.pc.conn = some author ∧ s.pc.conn = some c ∧ s'.trace[o.2]? = some (.heard text now) ∧
      env.codec.parseIncoming text = some incoming ∧ Repeats author c incoming m

theorem repeats_event {author c : String} {m : IncomingMessage} {e : RoomEvent}
    (h : m.event author = some e) (hfor : e.isFor c = true) :
    Repeats author c m (.ofRoomEvent e) := by
  unfold IncomingMessage.event at h
  split at h
  · cases h; exact .message ..
  · cases h; exact .treeCommit _
  · rename_i data target
    cases h
    have htarget : target = c := by simpa [RoomEvent.isFor, RoomEvent.sender, RoomEvent.target] using
      (Bool.and_eq_true_iff.mp hfor).2
    subst htarget
    exact .treeWelcome _
  · cases h; exact .typing
  · cases h

theorem isComplete_iff {author : String} {m : IncomingMessage} :
    m.isComplete = true ↔ ∃ e, m.event author = some e := by
  constructor
  · intro h
    unfold IncomingMessage.isComplete at h
    split at h
    · exact ⟨_, rfl⟩
    · exact ⟨_, rfl⟩
    · exact ⟨_, rfl⟩
    · exact ⟨_, rfl⟩
    · cases h
  · rintro ⟨e, h⟩
    unfold IncomingMessage.event at h
    split at h <;> first | rfl | cases h

@[simp] theorem isRelayed_ofRoomEvent (e : RoomEvent) :
    (OutgoingMessage.ofRoomEvent e).isRelayed = e.isRelayed := by
  cases e <;> rfl

theorem relayed_eq (frames : List Frame) :
    frames.filterMap Frame.relayed =
      (frames.filterMap Frame.event).filter OutgoingMessage.isRelayed := by
  rw [List.filter_filterMap]
  refine List.filterMap_congr ?_
  intro f _
  cases f with
  | json m => cases m <;> rfl
  | _ => rfl

/-! ## The relayed events of a channel -/

def Store.relayedLog (st : Store) (tx : Nat) : List RoomEvent := (st.log tx).filter RoomEvent.isRelayed

theorem relayedLog_send {app : AppState} {tx : Nat} {e : RoomEvent} (he : e.isRelayed = false)
    (tx' : Nat) : ((app.send tx e).channels tx').filter RoomEvent.isRelayed =
      (app.channels tx').filter RoomEvent.isRelayed := by
  by_cases htx : tx' = tx
  · subst htx
    rw [AppState.send_channels_self, List.filter_append, List.filter_singleton, he]
    simp
  · rw [AppState.send_channels_of_ne _ htx]

/-- Only a publication adds a relayed event. -/
theorem Store.Step.relayedLog {st st' : Store} {op : Store.Op} (hs : Store.Step st op st')
    (hop : ∀ c e, op ≠ .publish c e) (tx : Nat) : st'.relayedLog tx = st.relayedLog tx := by
  cases hs with
  | admitted hlock hc hroom => exact relayedLog_send rfl tx
  | left hlock hc hroom hin => exact relayedLog_send rfl tx
  | removed hlock hroom => exact relayedLog_send rfl tx
  | published hc hsender hrelayed => exact absurd rfl (hop _ _)
  | _ => rfl

theorem Store.Step.published_log {st st' : Store} {c : String} {e : RoomEvent}
    (hs : Store.Step st (.publish c e) st') (tx : Nat) :
    e.sender = some c ∧ (st'.relayedLog tx = st.relayedLog tx ∨
      st'.relayedLog tx = st.relayedLog tx ++ [e]) := by
  cases hs with
  | idle hop => cases hop
  | @published c t r e hc hsender hrelayed =>
    refine ⟨hsender, ?_⟩
    change ((st.app.send t.tx e).channels tx).filter _ = st.relayedLog tx ∨
      ((st.app.send t.tx e).channels tx).filter _ = st.relayedLog tx ++ [e]
    by_cases htx : tx = t.tx
    · subst htx
      right
      rw [AppState.send_channels_self, List.filter_append, List.filter_singleton, hrelayed]
      rfl
    · left
      rw [AppState.send_channels_of_ne _ htx]; rfl

section Moves

variable {env : Env} {sh : Shared} {roomId c : String}

theorem RelayStep.publishes {r : Relay} {p : RelayPc} {m : Move LivePc}
    (hm : RelayStep env sh roomId c r p m) :
    (∀ tx, m.shared.store.relayedLog tx = sh.store.relayedLog tx) ∨
      ∃ event, p = .publish event ∧ m.obs = [.published event] ∧
        sh.store.step (.publish c event) = some m.shared.store := by
  cases hm with
  | updated hstep => exact .inl ((Store.step_cases hstep).relayedLog (by simp))
  | published hstep => exact .inr ⟨_, rfl, rfl, hstep⟩
  | _ => exact .inl fun _ => rfl

theorem LiveStep.publishes {isProtected : Bool} {attached : Attached} {p : LivePc} {m : Move LivePc}
    (hm : LiveStep env sh roomId isProtected c attached p m) :
    (∀ tx, m.shared.store.relayedLog tx = sh.store.relayedLog tx) ∨
      ∃ r event, p = .relay r (.publish event) ∧ m.obs = [.published event] ∧
        sh.store.step (.publish c event) = some m.shared.store := by
  cases hm with
  | asked hstep => exact .inl ((Store.step_cases hstep).relayedLog (by simp))
  | joined hlock hstep => exact .inl ((Store.step_cases hstep).relayedLog (by simp))
  | relayed hrelay =>
    rcases hrelay.publishes with hsame | ⟨event, rfl, hobs, hstep⟩
    · exact .inl hsame
    · exact .inr ⟨_, event, rfl, hobs, hstep⟩
  | _ => exact .inl fun _ => rfl

/-- A move leaves the relayed events as they are, or publishes one. -/
theorem PcStep.publishes {pc : Pc} {m : Move Pc} (hm : PcStep env sh roomId pc m) :
    (∀ tx, m.shared.store.relayedLog tx = sh.store.relayedLog tx) ∨
      ∃ isProtected c attached r event,
        pc = .live isProtected c attached (.relay r (.publish event)) ∧
          m.obs = [.published event] ∧ sh.store.step (.publish c event) = some m.shared.store := by
  cases hm with
  | auth hauth => exact .inl fun tx => by rw [hauth.store]
  | dropped hdrop => exact .inl fun tx => by rw [Shared.dropGuard_store hdrop]
  | attaching hstep => exact .inl ((Store.step_cases hstep).relayedLog (by simp))
  | attached hstep => exact .inl ((Store.step_cases hstep).relayedLog (by simp))
  | live hlive =>
    rcases hlive.publishes with hsame | ⟨r, event, rfl, hobs, hstep⟩
    · exact .inl hsame
    · exact .inr ⟨_, _, _, r, event, rfl, hobs, hstep⟩
  | detached hstep => exact .inl ((Store.step_cases hstep).relayedLog (by simp))
  | _ => exact .inl fun _ => rfl

end Moves

namespace Server

variable {env : Env} {v v' : Server} {k : Nat} {s : Session} {c : String}

/-- Connection `e.sender`, on socket `o.1`, published `e` right after position `o.2` of its trace. -/
def Origin (v : Server) (o : Nat × Nat) (e : RoomEvent) : Prop :=
  ∃ s c, v.sockets o.1 = some s ∧ s.pc.conn = some c ∧ e.sender = some c ∧
    s.trace[o.2 + 1]? = some (.published e)

/-- A step keeps the origins: traces only grow, and connection ids stay. -/
theorem Origin.step (hs : Step env v v') {o : Nat × Nat} {e : RoomEvent} (h : Origin v o e) :
    Origin v' o e := by
  obtain ⟨s, c, hk, hconn, hsender, hat⟩ := h
  cases hs with
  | @opened k roomId hk' =>
    have hne : o.1 ≠ k := by
      rintro rfl
      rw [hk] at hk'; cases hk'
    exact ⟨s, c, by rw [setSocket_of_ne hne]; exact hk, hconn, hsender, hat⟩
  | @moved k s' m hk' hm =>
    by_cases he : o.1 = k
    · subst he
      cases hk.symm.trans hk'
      refine ⟨_, c, setSocket_self _ _ _, ?_, hsender, ?_⟩
      · rcases hm.conn with hsame | ⟨hnone, -⟩
        · exact hsame.trans hconn
        · rw [hconn] at hnone; cases hnone
      · rw [List.getElem?_append_left (List.getElem?_eq_some_iff.mp hat).1]
        exact hat
    · exact ⟨s, c, by rw [setSocket_of_ne he]; exact hk, hconn, hsender, hat⟩
  | _ => exact ⟨s, c, hk, hconn, hsender, hat⟩

/-- A step leaves the relayed events as they are, or a session publishes the frame it heard last. -/
theorem Step.publishes (hv : Reachable env v) (hs : Step env v v') :
    (∀ tx, v'.shared.store.relayedLog tx = v.shared.store.relayedLog tx) ∨
      ∃ k s s' c n event, v.sockets k = some s ∧ v'.sockets k = some s' ∧
        s'.pc.conn = some c ∧ s.trace.length = n + 1 ∧ s'.trace = s.trace ++ [.published event] ∧
          v.shared.store.step (.publish c event) = some v'.shared.store := by
  cases hs with
  | @moved k s m hk hm =>
    rcases hm.publishes with hsame | ⟨isProtected, c, attached, r, event, hpc, hobs, hstep⟩
    · exact .inl hsame
    · have hhears := hv.hears hk
      rw [hpc] at hhears
      obtain ⟨began, hhearing⟩ := hhears
      obtain ⟨pre, text, now, htrace, -⟩ := hhearing.place
      refine .inr ⟨k, s, _, c, pre.length, event, hk, setSocket_self _ _ _, ?_, ?_, ?_, hstep⟩
      · rcases hm.conn with hsame | ⟨hnone, -⟩
        · rw [hsame, hpc]; rfl
        · rw [hpc] at hnone; cases hnone
      · rw [htrace]; simp
      · rw [hobs]
  | background hop hstep =>
    refine .inl ((Store.step_cases hstep).relayedLog ?_)
    rintro c e rfl
    cases hop
  | _ => exact .inl fun _ => rfl

/-- The relayed events of every channel have origins. -/
theorem Reachable.origins (hv : Reachable env v) (tx : Nat) :
    ∃ src, Traces (Origin v) src (v.shared.store.relayedLog tx) := by
  refine hv.invariant (I := fun v => ∀ tx, ∃ src, Traces (Origin v) src
    (v.shared.store.relayedLog tx)) ?_ ?_ tx
  · intro db tx
    exact ⟨[], traces_nil⟩
  · intro v v' hv ih hs tx
    obtain ⟨src, hsrc⟩ := ih tx
    have hkeep : ∀ o e, Origin v o e → Origin v' o e := fun o e ho => ho.step hs
    rcases Step.publishes hv hs with hsame | ⟨k, s, s', c, n, event, hk, hk', hconn, hlen, htrace, hstep⟩
    · exact ⟨src, by rw [hsame tx]; exact hsrc.mono hkeep⟩
    · obtain ⟨hsender, hlog | hlog⟩ := (Store.step_cases hstep).published_log tx
      · exact ⟨src, by rw [hlog]; exact hsrc.mono hkeep⟩
      · -- what this socket published before stands earlier in its trace
        have hlast : ∀ n' e, Origin v (k, n') e → n' < n := by
          rintro n' e ⟨s₀, c₀, hk₀, -, -, hat⟩
          cases hk₀.symm.trans hk
          have := (List.getElem?_eq_some_iff.mp hat).1
          omega
        have hnew : Origin v' (k, n) event := by
          refine ⟨s', c, hk', hconn, hsender, ?_⟩
          rw [htrace, ← hlen, List.getElem?_append_right (Nat.le_refl _), Nat.sub_self]
          rfl
        exact ⟨src ++ [(k, n)], by rw [hlog]; exact hsrc.snoc hkeep hlast hnew⟩

/-! ## The frames of a client -/

/-- Two connections on one channel are in one room. -/
theorem Reachable.same_room (hv : Reachable env v) {k' : Nat} {s' : Session} {c' : String}
    (hk : v.sockets k = some s) (hconn : s.pc.conn = some c) (hk' : v.sockets k' = some s')
    (hconn' : s'.pc.conn = some c') {t t' : Ticket}
    (ht : (v.shared.store.conns c).ticket = some t)
    (ht' : (v.shared.store.conns c').ticket = some t') (htx : t'.tx = t.tx) :
    s'.roomId = s.roomId := by
  have hroom := (hv.sockets.bound k s hk).tied.room hv.inv hconn ht
  have hroom' := (hv.sockets.bound k' s' hk').tied.room hv.inv hconn' ht'
  have hknown : v.shared.store.Known s.roomId t.tx := .inr ⟨c, t, ht, hroom, rfl⟩
  have hknown' : v.shared.store.Known s'.roomId t.tx := .inr ⟨c', t', ht', hroom', htx⟩
  exact (hv.inv.channels.owns _ _ hknown).only _ hknown'

/-- The relayed frames of a client that joined are events of its channel, each for this client. -/
theorem Reachable.relayed (hv : Reachable env v) (hk : v.sockets k = some s)
    (hconn : s.pc.conn = some c) {r : Receipt} (hr : (v.shared.store.conns c).receipt = some r) :
    ∃ events : List RoomEvent, events.Sublist (v.shared.store.relayedLog r.receiver.tx) ∧
      (∀ e ∈ events, e.isFor c = true) ∧
        s.frames.filterMap Frame.relayed = events.map OutgoingMessage.ofRoomEvent := by
  obtain ⟨written, settled, htold, hreceived⟩ := hv.told hk hconn hr
  refine ⟨((Broadcast.upTo RoomEvent.isExpiry settled).filter (RoomEvent.isFor c)).filter
    RoomEvent.isRelayed, ?_, ?_, ?_⟩
  · have hpart : Broadcast.upTo RoomEvent.isExpiry settled <+:
        (v.shared.store.log r.receiver.tx).drop r.receiver.next :=
      (Broadcast.upTo_initial _ _).trans (htold.seen.trans hreceived)
    exact ((List.filter_sublist.trans hpart.sublist).trans (List.drop_sublist _ _)).filter _
  · intro e he
    exact (List.mem_filter.mp (List.mem_filter.mp he).1).2
  · have hevents : s.frames.filterMap Frame.event = owed c settled := htold.events
    rw [relayed_eq, hevents, owed, List.filter_map]
    congr 1
    refine List.filter_congr ?_
    intro e _
    exact isRelayed_ofRoomEvent e

/-- A client without a connection, or that has not joined, is written no relayed frame. -/
theorem Reachable.not_relayed (hv : Reachable env v) (hk : v.sockets k = some s)
    (hr : ∀ c r, s.pc.conn = some c → (v.shared.store.conns c).receipt ≠ some r) :
    s.frames.filterMap Frame.relayed = [] := by
  have hjoins : joinsOf s.trace = [] := by
    rw [(hv.sockets.bound k s hk).joins]
    cases hconn : s.pc.conn with
    | none => rfl
    | some c =>
      exact Store.answers_some (Option.eq_none_iff_forall_ne_some.mpr fun r => hr c r hconn)
  have huntold : Untold s.trace := by
    cases hconn : s.pc.conn with
    | none => exact (hv.script hk).untold hconn
    | some c =>
      rcases (hv.script hk).over hconn with huntold | ⟨rx, peers, written, settled, htold⟩
      · exact huntold
      · rw [htold.joins] at hjoins; cases hjoins
  have hevents : s.frames.filterMap Frame.event = [] := by
    have := events_eq s.trace
    rw [huntold.news] at this
    exact this
  rw [relayed_eq, hevents]; rfl

/-- The published event at a position repeats the frame before it, to a client it is for. -/
theorem Reachable.carries (hv : Reachable env v) (hk : v.sockets k = some s)
    (hconn : s.pc.conn = some c) {r : Receipt} (hr : (v.shared.store.conns c).receipt = some r)
    {o : Nat × Nat} {e : RoomEvent} (he : e ∈ v.shared.store.relayedLog r.receiver.tx)
    (hfor : e.isFor c = true) (ho : Origin v o e) : Carries env v k s o (.ofRoomEvent e) := by
  obtain ⟨s', author, hk', hconn', hsender, hat⟩ := ho
  obtain ⟨began, hheeds⟩ := (hv.hears hk').heeds hconn'
  obtain ⟨j, text, now, hj, hheard, hpass⟩ := hheeds _ _ hat
  obtain rfl : j = o.2 := by omega
  obtain ⟨m, hparse, hevent⟩ := hpass.parsed
  -- the author's channel is the one the client reads, so their room is the same
  obtain ⟨t, ht, -, hadm⟩ := hv.admitted hk hconn hr
  obtain ⟨t', r', ht', hr', htx⟩ := hv.inv.logs.named r.receiver.tx author
    ⟨e.change, List.mem_map_of_mem (List.mem_filter.mp he).1, by rw [RoomEvent.change_who, hsender]⟩
  have hroom : s'.roomId = s.roomId :=
    hv.same_room hk hconn hk' hconn' ht ht' (htx.trans hadm.tx)
  constructor
  · intro hsame
    rw [hsame, hk] at hk'
    cases hk'
    rw [hconn] at hconn'
    cases hconn'
    simp [RoomEvent.isFor, hsender] at hfor
  · exact ⟨s', author, c, text, now, m, hk', hroom, hconn', hconn, hheard, hparse,
      repeats_event hevent hfor⟩

/-- The first two frames of the first client, `welcome` and `peer_joined`. -/
theorem talk_opening (h : talk = some v) (hk : v.sockets 0 = some s) :
    (s.frames.take 2).filterMap Frame.relayed = [] := by
  have hrun : (talk.bind fun v => (v.sockets 0).map fun s =>
      (s.frames.take 2).filterMap Frame.relayed) = some [] := by decide +kernel
  rw [h, Option.bind_some, hk, Option.map_some] at hrun
  exact Option.some.inj hrun

/-- A text frame, after frames at `ts`, that nothing is published for: it is rate limited, does not
parse, or is no complete message of a relayed type. -/
def Ignored (env : Env) (began : Instant) (ts : List Instant) (text : String) (now : Instant) : Prop :=
  (((socketLimiter began).after ts).check now).1 = false ∨ env.codec.parseIncoming text = none ∨
    ∃ m, env.codec.parseIncoming text = some m ∧ m.isComplete = false

/-- What a session publishes for each of its frames: one event at most, right after the frame, and
none for a frame that is ignored. -/
theorem Reachable.publishes (hv : Reachable env v) (hk : v.sockets k = some s) :
    (∀ i event, s.trace[i]? = some (.published event) →
      ∃ j text now, i = j + 1 ∧ s.trace[j]? = some (.heard text now)) ∧
    ∃ began, ∀ j text now, s.trace[j]? = some (.heard text now) →
      Ignored env began (heardAt (s.trace.take j)) text now →
        ∀ event, s.trace[j + 1]? ≠ some (.published event) := by
  cases hconn : s.pc.conn with
  | none =>
    have hquiet := (hv.hears hk).quiet hconn
    have hnone : ∀ (i : Nat) (event : RoomEvent), s.trace[i]? ≠ some (Obs.published event) :=
      fun i event hi => hquiet.unpublished event (List.mem_of_getElem? hi)
    exact ⟨fun i event hi => absurd hi (hnone i event), 0, fun j _ _ _ _ => hnone (j + 1)⟩
  | some c =>
    obtain ⟨began, hheeds⟩ := (hv.hears hk).heeds hconn
    constructor
    · intro i event hi
      obtain ⟨j, text, now, hij, hj, -⟩ := hheeds i event hi
      exact ⟨j, text, now, hij, hj⟩
    · refine ⟨began, ?_⟩
      intro j text now hj hignored event hi
      obtain ⟨j', text', now', hij, hj', hpass⟩ := hheeds _ event hi
      obtain rfl : j = j' := by omega
      cases hj.symm.trans hj'
      obtain ⟨m, hparse, hevent⟩ := hpass.parsed
      rcases hignored with hlimited | hgarbled | ⟨m', hparse', hincomplete⟩
      · rw [hpass.allowed] at hlimited; cases hlimited
      · rw [hparse] at hgarbled; cases hgarbled
      · cases hparse.symm.trans hparse'
        rw [isComplete_iff.mpr ⟨event, hevent⟩] at hincomplete
        cases hincomplete

/-- **Relay integrity.** The relayed frames written to a client repeat, each another one and those of
one sender in their order, frames that other sessions of the room received. A frame received in the
relay loop publishes one event at most, and none when it is ignored. -/
theorem relay_integrity (env : Env) (v : Server) (hv : Reachable env v) (k : Nat) (s : Session)
    (hk : v.sockets k = some s) :
    (∃ src : List (Nat × Nat), src.Nodup ∧ (src.Pairwise fun a b => a.1 = b.1 → a.2 < b.2) ∧
      List.Forall₂ (Carries env v k s) src (s.frames.filterMap Frame.relayed)) ∧
    (∀ i event, s.trace[i]? = some (.published event) →
      ∃ j text now, i = j + 1 ∧ s.trace[j]? = some (.heard text now)) ∧
    ∃ began, ∀ j text now, s.trace[j]? = some (.heard text now) →
      Ignored env began (heardAt (s.trace.take j)) text now →
        ∀ event, s.trace[j + 1]? ≠ some (.published event) := by
  refine ⟨?_, hv.publishes hk⟩
  by_cases hjoined : ∃ c r, s.pc.conn = some c ∧ (v.shared.store.conns c).receipt = some r
  · obtain ⟨c, r, hconn, hr⟩ := hjoined
    obtain ⟨events, hsub, hfor, hframes⟩ := hv.relayed hk hconn hr
    obtain ⟨src, hsrc⟩ := hv.origins r.receiver.tx
    -- the origins of the events that were written, each the frame it repeats
    obtain ⟨src', -, htraces⟩ := hsrc.sublist hsub
    have hcarries := htraces.map_of_mem (f := OutgoingMessage.ofRoomEvent)
      (S := Carries env v k s) fun o e he ho =>
        hv.carries hk hconn hr (hsub.subset he) (hfor e he) ho
    rw [hframes]
    exact ⟨src', hcarries.nodup, hcarries.ordered, hcarries.each⟩
  · have hnone := hv.not_relayed hk fun c r hconn hr => hjoined ⟨c, r, hconn, hr⟩
    rw [hnone]
    exact ⟨[], List.nodup_nil, .nil, .nil⟩

theorem relay_integrity_talk : ∃ v s src, talk = some v ∧ v.sockets 0 = some s ∧
    src.Nodup ∧ List.Forall₂ (Carries talkEnv v 0 s) src [.message "b" "aGk=" none none] := by
  obtain ⟨v, s, r, hv, hk, -, -, hframes⟩ := talk_run
  have hframes0 : (s.frames.take 2).filterMap Frame.relayed = [] := talk_opening hv hk
  have hall : s.frames.filterMap Frame.relayed = [.message "b" "aGk=" none none] := by
    rw [← List.take_append_drop 2 s.frames, List.filterMap_append, hframes0, hframes]
    rfl
  obtain ⟨⟨src, hnodup, -, heach⟩, -⟩ := relay_integrity talkEnv v (talk_reachable hv) 0 s hk
  rw [hall] at heach
  exact ⟨v, s, src, hv, hk, hnodup, heach⟩

end Server
end Parrhesia
