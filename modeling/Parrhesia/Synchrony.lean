import Parrhesia.Membership

/-!
# Parrhesia.Synchrony

What the members of one room have in common. Every event frame is one event of the log of the room,
so two members are told of events in one order; and when both are told of the same one, they know the
same peers.

* `Relays`  : a frame and the position of its event.
* `Unleft`  : a session is told of nothing after its own departure.

`view_synchrony` puts them together. The two may differ about themselves: an event sent while a
member is between its subscription and its announcement comes to it before the others know of it.
-/

namespace Parrhesia

open Lib

/-- The frame of `m`, written to `c` after `pre`, is the event at position `n`. -/
structure Relays (log : List RoomEvent) (rx : Receiver) (c : String) (pre : List Frame)
    (m : OutgoingMessage) (n : Nat) : Prop where
  after : rx.next ≤ n
  event : ∃ e, log[n]? = some e ∧ e.isFor c = true ∧ m = .ofRoomEvent e
  live : ∀ e ∈ Broadcast.span log rx.next n, RoomEvent.isExpiry e = false
  before : pre.filterMap Frame.event =
    ((Broadcast.span log rx.next n).filter (RoomEvent.isFor c)).map .ofRoomEvent

section Relays

variable {log : List RoomEvent} {rx : Receiver} {c : String} {pre pre' : List Frame}
  {m m' : OutgoingMessage} {n n' : Nat}

theorem Relays.isEvent (h : Relays log rx c pre m n) : m.isEvent = true := by
  obtain ⟨e, -, -, rfl⟩ := h.event
  exact isEvent_ofRoomEvent e

theorem Relays.frame (h : Relays log rx c pre m n) : (Frame.json m).event = some m :=
  if_pos h.isEvent

/-- The events before a later position have the event at `n` among them. -/
theorem Relays.next (h : Relays log rx c pre m n) (hn : n < n') :
    pre.filterMap Frame.event ++ [m] <+:
      ((Broadcast.span log rx.next n').filter (RoomEvent.isFor c)).map .ofRoomEvent := by
  obtain ⟨e, he, hfor, rfl⟩ := h.event
  have hspan := Broadcast.span_succ h.after he
  have hlonger : Broadcast.span log rx.next (n + 1) <+: Broadcast.span log rx.next n' := by
    rw [Broadcast.span, Broadcast.span, List.drop_take, List.drop_take]
    exact List.take_prefix_take_left (Nat.sub_le_sub_right hn _)
  rw [h.before]
  refine List.IsPrefix.trans ?_ ((hlonger.filter _).map _)
  rw [hspan, List.filter_append, List.map_append]
  simp [hfor]

/-- A frame is one event. -/
theorem Relays.unique (h : Relays log rx c pre m n) (h' : Relays log rx c pre m' n') : n = n' := by
  have hlt : ∀ {m m' : OutgoingMessage} {n n' : Nat}, Relays log rx c pre m n →
      Relays log rx c pre m' n' → ¬ n < n' := by
    intro m m' n n' h h' hn
    have hlen := (h.next hn).length_le
    rw [← h'.before, List.length_append, List.length_singleton] at hlen
    omega
  have := hlt h h'
  have := hlt h' h
  omega

theorem Relays.lt (h : Relays log rx c pre m n) (h' : Relays log rx c pre' m' n')
    (hpre : pre ++ [.json m] <+: pre') : n < n' := by
  by_contra hle
  have hevents := (hpre.filterMap Frame.event).length_le
  rw [List.filterMap_append, List.filterMap_cons, h.frame, List.filterMap_nil, List.length_append,
    List.length_singleton] at hevents
  rcases Nat.lt_or_eq_of_le (Nat.not_lt.mp hle) with hlt | rfl
  · have hlen := (h'.next hlt).length_le
    rw [← h.before, List.length_append] at hlen
    omega
  · rw [h.before, h'.before] at hevents
    omega

/-- Frames come in the order of their events. -/
theorem Relays.lt_iff {frames post post' : List Frame} (h : Relays log rx c pre m n)
    (h' : Relays log rx c pre' m' n') (hframes : frames = pre ++ .json m :: post)
    (hframes' : frames = pre' ++ .json m' :: post') : pre.length < pre'.length ↔ n < n' := by
  have hinit : ∀ {pre pre' post post' : List Frame} {m m' : OutgoingMessage},
      frames = pre ++ .json m :: post → frames = pre' ++ .json m' :: post' →
        pre.length < pre'.length → pre ++ [.json m] <+: pre' := by
    intro pre pre' post post' m m' hf hf' hlen
    have hpre : pre ++ [.json m] <+: frames := ⟨post, by rw [hf]; simp⟩
    have hpre' : pre' <+: frames := ⟨_, hf'.symm⟩
    exact List.prefix_of_prefix_length_le hpre hpre' (by rw [List.length_append]; exact hlen)
  constructor
  · exact fun hlen => h.lt h' (hinit hframes hframes' hlen)
  · intro hn
    by_contra hlen
    rcases Nat.lt_or_eq_of_le (Nat.not_lt.mp hlen) with hlt | heq
    · have := h'.lt h (hinit hframes' hframes hlt)
      omega
    · have hpre : pre = pre' :=
        (List.append_inj (hframes.symm.trans hframes') heq.symm).1
      subst hpre
      have := h.unique h'
      omega

end Relays

/-! ## The frames of one session -/

section Told

variable {c : String} {trace : List Obs} {rx : Receiver} {peers written : PeerSnapshot}
  {settled log : List RoomEvent} {pre post : List Frame} {m : OutgoingMessage}

/-- An event frame among the frames of a session: the events before it, and its own. -/
theorem Told.split (h : Told c trace rx peers written settled)
    (hframes : framesOf trace = pre ++ .json m :: post) (hm : m.isEvent = true) :
    ∃ before e after, settled = before ++ e :: after ∧ e.isFor c = true ∧ m = .ofRoomEvent e ∧
      (∀ a ∈ before, RoomEvent.isExpiry a = false) ∧
      pre.filterMap Frame.event = (before.filter (RoomEvent.isFor c)).map .ofRoomEvent := by
  have hevents := h.events
  rw [hframes, List.filterMap_append, List.filterMap_cons,
    show (Frame.json m).event = some m from if_pos hm] at hevents
  obtain ⟨xs, ys, hfilter, hxs, hys⟩ := List.map_eq_append_iff.mp hevents.symm
  obtain ⟨e, zs, rfl, hme, -⟩ := List.map_eq_cons_iff.mp hys
  obtain ⟨before₁, rest, htold, hbefore₁, hrest⟩ := List.filter_eq_append_iff.mp hfilter
  obtain ⟨before₂, after, rfl, hnone, hfor, -⟩ := List.filter_eq_cons_iff.mp hrest
  rw [← List.append_assoc] at htold
  obtain ⟨more, hmore⟩ := Broadcast.upTo_initial RoomEvent.isExpiry settled
  refine ⟨before₁ ++ before₂, e, after ++ more, ?_, hfor, hme.symm, Broadcast.upTo_split htold, ?_⟩
  · rw [← hmore, htold]
    simp
  · rw [List.filter_append, hbefore₁, List.filter_eq_nil_iff.mpr hnone, List.append_nil, hxs]

theorem filterMap_event (frames : List Frame) :
    frames.filterMap Frame.event =
      (frames.filterMap Frame.news).filter OutgoingMessage.isEvent := by
  rw [List.filter_filterMap]
  refine List.filterMap_congr ?_
  intro f _
  cases f with
  | json m => cases m <;> rfl
  | _ => rfl

/-- The keys of the snapshot come before the first event. -/
theorem Told.news_split (h : Told c trace rx peers written settled)
    (hframes : framesOf trace = pre ++ .json m :: post) (hm : m.isEvent = true) :
    pre.filterMap Frame.news = peers.map .ofPeer ++ pre.filterMap Frame.event := by
  obtain ⟨before, e, after, rfl, -, -, -, -⟩ := h.split hframes hm
  have hfull : written = peers := h.full fun hnil => by
    have := h.seen.length_le
    rw [hnil] at this
    simp at this
  have hnews := h.news
  have hmnews : (Frame.json m).news = some m := by simp only [Frame.news, hm, Bool.true_or, if_true]
  rw [← news_framesOf, hframes, List.filterMap_append, List.filterMap_cons, hmnews, hfull,
    delivered_eq_owed] at hnews
  rw [filterMap_event]
  rcases List.append_eq_append_iff.mp hnews with ⟨as, hkeys, hrest⟩ | ⟨bs, hpre, hevents⟩
  · cases as with
    | nil => rw [List.append_nil] at hkeys; rw [← hkeys, filter_isEvent_ofPeer, List.append_nil]
    | cons a as =>
      -- an event is not among the keys
      obtain ⟨rfl, -⟩ := List.cons.inj hrest
      have hmem : m ∈ peers.map OutgoingMessage.ofPeer := by rw [hkeys]; simp
      obtain ⟨p, -, rfl⟩ := List.mem_map.mp hmem
      cases hm
  · have hbs : bs.filter OutgoingMessage.isEvent = bs :=
      List.filter_eq_self.mpr fun a ha => owed_isEvent (by rw [hevents]; simp [ha])
    rw [hpre, List.filter_append, filter_isEvent_ofPeer, List.nil_append, hbs]

end Told

/-! ## The sessions of a server -/

namespace Server

variable {env : Env} {v : Server} {k : Nat} {s : Session} {c : String} {r : Receipt}

/-- Nobody receives its own departure. -/
def Unleft (st : Store) (s : Session) : Prop :=
  ∀ c, s.pc.conn = some c → ∀ rx peers, (rx, peers) ∈ joinsOf s.trace →
    Roster.leaves c ((st.changes rx.tx).take (rx.next + (receivedOf s.trace).length)) = 0

theorem leaves_take {st : Store} {tx n : Nat} (h : Roster.leaves c (st.changes tx) = 0) :
    Roster.leaves c ((st.changes tx).take n) = 0 := by
  have hsplit := Roster.leaves_append c ((st.changes tx).take n) ((st.changes tx).drop n)
  rw [List.take_append_drop, h] at hsplit
  omega

theorem Reachable.relays (hv : Reachable env v) (hk : v.sockets k = some s)
    (hconn : s.pc.conn = some c) (hr : (v.shared.store.conns c).receipt = some r)
    {pre post : List Frame} {m : OutgoingMessage} (hframes : s.frames = pre ++ .json m :: post)
    (hm : m.isEvent = true) :
    ∃ n, Relays (v.shared.store.log r.receiver.tx) r.receiver c pre m n ∧
      n < r.receiver.next + (receivedOf s.trace).length ∧
      clientView pre =
        Roster.hide c (Roster.roster ((v.shared.store.changes r.receiver.tx).take n)) := by
  obtain ⟨written, settled, htold, hreceived⟩ := hv.told hk hconn hr
  obtain ⟨t, ht, -, hadm⟩ := hv.admitted hk hconn hr
  obtain ⟨before, e, after, hsettled, hfor, hme, hlive, hevents⟩ := htold.split hframes hm
  have hseen := htold.seen.trans hreceived
  rw [hsettled] at hseen
  obtain ⟨hat, hspan⟩ := Broadcast.span_split hseen
  refine ⟨r.receiver.next + before.length, ⟨Nat.le_add_right _ _, ⟨e, hat, hfor, hme⟩, ?_, ?_⟩,
    ?_, ?_⟩
  · rw [hspan]; exact hlive
  · rw [hspan]; exact hevents
  · have hlen := htold.seen.length_le
    rw [hsettled, List.length_append, List.length_cons] at hlen
    omega
  · have hsnapshot : Roster.roster (Roster.snapshot (r.peers.map Peer.entry)) =
        Roster.hide c (Roster.roster ((v.shared.store.changes t.tx).take r.receiver.next)) := by
      rw [← hadm.view, Roster.hide_of_none hadm.view_self]; rfl
    have hshown : Roster.roster (Roster.snapshot (r.peers.map Peer.entry) ++ before.filterMap _) =
        Roster.hide c (Roster.roster ((v.shared.store.changes t.tx).take r.receiver.next ++
          before.map RoomEvent.change)) :=
      Roster.roster_shown RoomEvent.change _ (deliver_shown c) hsnapshot
    have hbefore : before.map RoomEvent.change =
        ((v.shared.store.changes t.tx).take (r.receiver.next + before.length)).drop
          r.receiver.next := by
      rw [← hadm.tx, ← Store.map_span, hspan]
    rw [hadm.tx, Store.take_split (Nat.le_add_right r.receiver.next before.length), ← hbefore,
      ← hshown, clientView_eq, htold.news_split hframes hm, hevents, List.map_append,
      map_change_ofPeer, ← filterMap_deliver, List.map_filterMap]

/-- What others send changes nothing for what was received. -/
theorem Unleft.grow {st st' : Store} (h : Unleft st s) (hbound : Bound st s)
    (hgrow : ∀ tx, st.log tx <+: st'.log tx) : Unleft st' s := by
  intro c hconn rx peers hmem
  obtain ⟨hle, -⟩ := hbound.streamed rx peers hmem
  obtain ⟨more, hmore⟩ := hgrow rx.tx
  have hchanges : st'.changes rx.tx = st.changes rx.tx ++ more.map RoomEvent.change := by
    rw [Store.changes, ← hmore, List.map_append]; rfl
  rw [hchanges, List.take_append_of_le_length (by rw [Store.length_changes]; exact hle)]
  exact h c hconn rx peers hmem

theorem unleft_of_joins {st : Store} (h : joinsOf s.trace = []) : Unleft st s := by
  intro c hconn rx peers hmem
  rw [h] at hmem; cases hmem

theorem unleft_of_conn {st : Store} (h : s.pc.conn = none) : Unleft st s := by
  intro c hconn
  rw [h] at hconn; cases hconn

/-- While the session goes on, its member has not left. -/
theorem Bound.unleft {st : Store} (h : Bound st s) (hinv : st.Inv) {isProtected : Bool}
    {attached : Attached} {p : LivePc} (hpc : s.pc = .live isProtected c attached p) :
    Unleft st s := by
  intro d hconn rx peers hmem
  obtain ⟨roomId, pc, trace⟩ := s
  subst hpc
  cases hconn
  have htied : p.Tied st c { attached with room := roomId } := h.tied
  have hpresent := htied.present
  rw [h.joins] at hmem
  obtain ⟨r, hr, hanswer⟩ := Store.mem_answers hmem
  cases hanswer
  cases hc : st.conns c with
  | joined t r' =>
    rw [hc] at hr
    cases hr
    have hadm := hinv.logs.admitted c t r (by rw [hc]; rfl) (by rw [hc]; rfl)
    refine leaves_take ?_
    rw [hadm.tx]
    exact (hinv.logs.joined c t r hc).1
  | detached t r' x => rw [hc] at hpresent; cases hpresent
  | _ => rw [hc] at hr; cases hr

theorem Reachable.unleft (hv : Reachable env v) (hk : v.sockets k = some s) :
    Unleft v.shared.store s := by
  refine hv.invariant (I := fun v => ∀ k s, v.sockets k = some s → Unleft v.shared.store s)
    (fun db k s hk => (by cases hk)) ?_ k s hk
  intro v v' hv ih hs
  have hgrow : ∀ tx, v.shared.store.log tx <+: v'.shared.store.log tx := Stepped.grows hs.store
  have hold : ∀ k s, v.sockets k = some s → Unleft v'.shared.store s := fun k s hk =>
    (ih k s hk).grow (hv.sockets.bound k s hk) hgrow
  intro k s hk
  cases hs with
  | opened hk₀ =>
    rcases setSocket_cases hk with ⟨-, rfl⟩ | ⟨-, hk⟩
    · exact unleft_of_joins rfl
    · exact hold k s hk
  | @moved k₀ s₀ m hk₀ hm =>
    rcases setSocket_cases hk with ⟨-, rfl⟩ | ⟨-, hk⟩
    · have hinv' : m.shared.store.Inv := by
        rcases hm.store with hsame | ⟨op, hop⟩
        · rw [hsame]; exact hv.inv
        · exact hv.inv.step (Store.step_cases hop)
      have hbound' := (hv.sockets.moved hv hinv' hk₀ hm).bound k₀ _ (setSocket_self ..)
      have hscript' := hm.script (hv.gate hk₀).phase (hv.script hk₀)
      have hkept := hold k₀ s₀ hk₀
      obtain ⟨roomId, pc, trace⟩ := s₀
      cases hm with
      | live hlive => exact Bound.unleft hbound' hinv' rfl
      | detached hstep => rw [List.append_nil]; exact hkept
      | attached hstep => exact unleft_of_joins (Untold.joins hscript')
      | unavailable => exact unleft_of_joins (Untold.note (hv.script hk₀) rfl rfl rfl).joins
      | attaching hstep => exact unleft_of_joins (Untold.note (hv.script hk₀) rfl rfl rfl).joins
      | auth hauth => exact unleft_of_conn hauth.conn
      | upgraded => exact unleft_of_conn (afterUpgrade_conn _ _ _)
      | dropped hdrop => exact unleft_of_conn (dropped_conn _ _)
      | _ => exact unleft_of_conn rfl
    · exact hold k s hk
  | _ => exact hold k s hk

theorem hide_comm (c d : String) (view : String → Option Participant) :
    Roster.hide d (Roster.hide c view) = Roster.hide c (Roster.hide d view) := by
  by_cases h : c = d
  · rw [h]
  · exact Function.update_comm h none none view

theorem enters_take (st : Store) (tx n : Nat) (d : String) :
    0 < Roster.enters d ((st.changes tx).take n) ↔
      ∃ e ∈ (st.log tx).take n, e.isJoinOf d = true := by
  have hcount : Roster.enters d ((st.changes tx).take n) =
      ((st.log tx).take n).countP (RoomEvent.isJoinOf d) := by
    rw [Store.changes, ← List.map_take, Roster.enters, List.countP_map]
    refine List.countP_congr ?_
    intro e _
    cases e <;> rfl
  rw [hcount, List.countP_pos_iff]

/-- Members of one room read one channel. -/
theorem Reachable.one_channel (hv : Reachable env v) {k' : Nat} {s' : Session} {d : String}
    {w : Receipt} (hk : v.sockets k = some s) (hk' : v.sockets k' = some s')
    (hroom : s'.roomId = s.roomId) (hconn : s.pc.conn = some c) (hconn' : s'.pc.conn = some d)
    (hr : (v.shared.store.conns c).receipt = some r)
    (hw : (v.shared.store.conns d).receipt = some w) : w.receiver.tx = r.receiver.tx := by
  obtain ⟨t, ht, hroomId, hadm⟩ := hv.admitted hk hconn hr
  obtain ⟨u, hu, hroomId', hadm'⟩ := hv.admitted hk' hconn' hw
  have howns := hv.inv.channels.owns t.room t.tx (.inr ⟨c, t, ht, rfl, rfl⟩)
  have hsame : u.room = t.room := by rw [hroomId', hroom, hroomId]
  rw [hadm.tx, hadm'.tx]
  exact howns.sole u.tx (.inr ⟨d, u, hu, hsame, rfl⟩)

/-- **View synchrony.** Let `c` and `d` have joined one room. The event frames of each are events of
the room's log, at increasing positions. When both are written the event at one position, they are
written the same, and know the same peers but for themselves; and `c` knows `d` then, unless the
event came before `d` was announced. -/
theorem view_synchrony (env : Env) (v : Server) (hv : Reachable env v) (k k' : Nat) (s s' : Session)
    (hk : v.sockets k = some s) (hk' : v.sockets k' = some s') (hroom : s'.roomId = s.roomId)
    (c d : String) (hconn : s.pc.conn = some c) (hconn' : s'.pc.conn = some d) (r w : Receipt)
    (hr : (v.shared.store.conns c).receipt = some r)
    (hw : (v.shared.store.conns d).receipt = some w) :
    (∀ pre m post, s.frames = pre ++ .json m :: post → m.isEvent = true →
      ∃! n, Relays (v.shared.store.log r.receiver.tx) r.receiver c pre m n) ∧
    (∀ pre m post pre' m' post' n n', s.frames = pre ++ .json m :: post →
      s.frames = pre' ++ .json m' :: post' →
      Relays (v.shared.store.log r.receiver.tx) r.receiver c pre m n →
      Relays (v.shared.store.log r.receiver.tx) r.receiver c pre' m' n' →
        (pre.length < pre'.length ↔ n < n')) ∧
    (∀ pre m post pre' m' post' n, s.frames = pre ++ .json m :: post →
      s'.frames = pre' ++ .json m' :: post' →
      Relays (v.shared.store.log r.receiver.tx) r.receiver c pre m n →
      Relays (v.shared.store.log r.receiver.tx) w.receiver d pre' m' n →
        m = m' ∧ Roster.hide d (clientView pre) = Roster.hide c (clientView pre') ∧
          (c ≠ d → ((clientView pre d).isSome ↔
            ∃ e ∈ (v.shared.store.log r.receiver.tx).take n, e.isJoinOf d = true))) := by
  refine ⟨?_, ?_, ?_⟩
  · intro pre m post hframes hm
    obtain ⟨n, hn, -⟩ := hv.relays hk hconn hr hframes hm
    exact ⟨n, hn, fun n' hn' => hn'.unique hn⟩
  · intro pre m post pre' m' post' n n' hframes hframes' h h'
    exact h.lt_iff h' hframes hframes'
  · intro pre m post pre' m' post' n hframes hframes' h h'
    have htx := hv.one_channel hk hk' hroom hconn hconn' hr hw
    obtain ⟨n₁, hn₁, -, hview⟩ := hv.relays hk hconn hr hframes h.isEvent
    obtain ⟨n₂, hn₂, hread, hview'⟩ := hv.relays hk' hconn' hw hframes' h'.isEvent
    rw [htx] at hn₂ hview'
    cases hn₁.unique h
    cases hn₂.unique h'
    refine ⟨?_, ?_, fun hne => ?_⟩
    · obtain ⟨e, he, -, rfl⟩ := h.event
      obtain ⟨e', he', -, rfl⟩ := h'.event
      cases he.symm.trans he'
      rfl
    · rw [hview, hview', hide_comm]
    · have hjoins : (w.receiver, w.peers) ∈ joinsOf s'.trace := by
        rw [(hv.sockets.bound k' s' hk').joins, hconn', Store.answers_some hw]
        exact List.mem_singleton.mpr rfl
      have hunleft := hv.unleft hk' d hconn' _ _ hjoins
      have hzero : Roster.leaves d ((v.shared.store.changes r.receiver.tx).take n) = 0 := by
        have htake := List.take_prefix_take_left (l := v.shared.store.changes r.receiver.tx)
          (Nat.le_of_lt hread)
        obtain ⟨more, hmore⟩ := htake
        rw [htx, ← hmore, Roster.leaves_append] at hunleft
        omega
      rw [hview, Roster.hide_of_ne (Ne.symm hne), Roster.roster_isSome_iff hzero, enters_take]

/-- After the two have talked the room expires, and both are told so. -/
def talkOver : Option Server := do
  let v ← talk
  Machine.run (step talkEnv) v
    [.background (.expireDelete 10 5 ["room"] false), .background .expireRemove,
      .background .expireDone, .socket 0 .proceed, .socket 0 (.sent .ok), .socket 1 .proceed,
      .socket 1 .proceed, .socket 1 .proceed, .socket 1 (.sent .ok)]

theorem talkOver_reachable {v : Server} (h : talkOver = some v) : Reachable talkEnv v := by
  obtain ⟨v₁, h₁, hrun⟩ := Option.bind_eq_some_iff.mp h
  exact (talk_reachable h₁).run ⟨_, hrun⟩

theorem talkOver_run : ∃ v s s' r w, talkOver = some v ∧ v.sockets 0 = some s ∧
    v.sockets 1 = some s' ∧ s'.roomId = s.roomId ∧ s.pc.conn = some "a" ∧ s'.pc.conn = some "b" ∧
    (v.shared.store.conns "a").receipt = some r ∧ (v.shared.store.conns "b").receipt = some w ∧
    s.frames.drop 3 = [.json .roomExpired] ∧ s'.frames.drop 2 = [.json .roomExpired] ∧
    (v.shared.store.log r.receiver.tx).map RoomEvent.isExpiry = [false, false, false, true] := by
  have hrun : (talkOver.bind fun v => (v.sockets 0).bind fun s => (v.sockets 1).bind fun s' =>
      (v.shared.store.conns "a").receipt.bind fun r => (v.shared.store.conns "b").receipt.map fun _ =>
        ((s.roomId, s.pc.conn, s.frames.drop 3), (s'.roomId, s'.pc.conn, s'.frames.drop 2),
          (v.shared.store.log r.receiver.tx).map RoomEvent.isExpiry)) =
      some (("room", some "a", [.json .roomExpired]), ("room", some "b", [.json .roomExpired]),
        [false, false, false, true]) := by decide +kernel
  obtain ⟨v, hv, hrun⟩ := Option.bind_eq_some_iff.mp hrun
  obtain ⟨s, hk, hrun⟩ := Option.bind_eq_some_iff.mp hrun
  obtain ⟨s', hk', hrun⟩ := Option.bind_eq_some_iff.mp hrun
  obtain ⟨r, hr, hrun⟩ := Option.bind_eq_some_iff.mp hrun
  obtain ⟨w, hw, hrun⟩ := Option.map_eq_some_iff.mp hrun
  simp only [Prod.mk.injEq] at hrun
  obtain ⟨⟨hroom, hconn, hframes⟩, ⟨hroom', hconn', hframes'⟩, hlog⟩ := hrun
  exact ⟨v, s, s', r, w, hv, hk, hk', hroom'.trans hroom.symm, hconn, hconn', hr, hw, hframes,
    hframes', hlog⟩

theorem relays_expired {log : List RoomEvent} {rx : Receiver} {pre : List Frame} {n : Nat}
    (hlog : log.map RoomEvent.isExpiry = [false, false, false, true])
    (h : Relays log rx c pre .roomExpired n) : n = 3 := by
  obtain ⟨e, he, -, hm⟩ := h.event
  have hexpired : e = .roomExpired := by cases e <;> first | rfl | cases hm
  have hat : (log.map RoomEvent.isExpiry)[n]? = some true := by
    rw [List.getElem?_map, he, hexpired]; rfl
  rw [hlog] at hat
  match n, hat with
  | 3, _ => rfl

theorem view_synchrony_talkOver : ∃ v s s' pre pre', talkOver = some v ∧ v.sockets 0 = some s ∧
    v.sockets 1 = some s' ∧ s.frames = pre ++ [.json .roomExpired] ∧
    s'.frames = pre' ++ [.json .roomExpired] ∧
    Roster.hide "b" (clientView pre) = Roster.hide "a" (clientView pre') := by
  obtain ⟨v, s, s', r, w, hv, hk, hk', hroom, hconn, hconn', hr, hw, hlast, hlast', hlog⟩ :=
    talkOver_run
  have hreach := talkOver_reachable hv
  have hframes : s.frames = s.frames.take 3 ++ [.json .roomExpired] := by
    rw [← hlast, List.take_append_drop]
  have hframes' : s'.frames = s'.frames.take 2 ++ [.json .roomExpired] := by
    rw [← hlast', List.take_append_drop]
  obtain ⟨n, h, -⟩ := hreach.relays hk hconn hr hframes rfl
  obtain ⟨n', h', -⟩ := hreach.relays hk' hconn' hw hframes' rfl
  rw [hreach.one_channel hk hk' hroom hconn hconn' hr hw] at h'
  cases relays_expired hlog h
  cases relays_expired hlog h'
  exact ⟨v, s, s', _, _, hv, hk, hk', hframes, hframes',
    ((view_synchrony talkEnv v hreach 0 1 s s' hk hk' hroom "a" "b" hconn hconn' r w hr hw).2.2
      _ _ _ _ _ _ _ hframes hframes' h h').2.1⟩

end Server
end Parrhesia
