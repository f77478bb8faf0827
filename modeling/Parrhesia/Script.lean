import Parrhesia.Gate

/-!
# Parrhesia.Script

What a session has told its client, from its own moves alone: the peers of its snapshot, then the
events it received, each passed through `deliver`, until it stops.

* `Told`   : the frames that carry news against the snapshot and the events received.
* `Script` : the same, place by place; in the relay loop every received event has been dealt with,
  but for the one that is being sent.
-/

namespace Parrhesia

open Lib

/-- The frames an event is relayed as. -/
def OutgoingMessage.isEvent : OutgoingMessage → Bool
  | .peerJoined .. => true
  | .peerLeft _ => true
  | .message .. => true
  | .treeCommit .. => true
  | .typing _ => true
  | .roomExpired => true
  | .treeWelcome _ => true
  | _ => false

def OutgoingMessage.isPeerKey : OutgoingMessage → Bool
  | .peerKey .. => true
  | _ => false

/-- What tells the client about others. -/
def Frame.news : Frame → Option OutgoingMessage
  | .json m => if m.isEvent || m.isPeerKey then some m else none
  | _ => none

def Obs.news : Obs → Option OutgoingMessage
  | .wrote f => f.news
  | _ => none

def Obs.event : Obs → Option RoomEvent
  | .received e => some e
  | _ => none

def Obs.join : Obs → Option (Receiver × PeerSnapshot)
  | .joined rx peers => some (rx, peers)
  | _ => none

def newsOf (trace : List Obs) : List OutgoingMessage := trace.filterMap Obs.news

/-- The events the receiver gave. -/
def receivedOf (trace : List Obs) : List RoomEvent := trace.filterMap Obs.event

/-- What `join` returned. -/
def joinsOf (trace : List Obs) : List (Receiver × PeerSnapshot) := trace.filterMap Obs.join

@[simp] theorem newsOf_append (l l' : List Obs) : newsOf (l ++ l') = newsOf l ++ newsOf l' :=
  List.filterMap_append

@[simp] theorem receivedOf_append (l l' : List Obs) :
    receivedOf (l ++ l') = receivedOf l ++ receivedOf l' := List.filterMap_append

@[simp] theorem joinsOf_append (l l' : List Obs) : joinsOf (l ++ l') = joinsOf l ++ joinsOf l' :=
  List.filterMap_append

@[simp] theorem receivedOf_received (e : RoomEvent) : receivedOf [.received e] = [e] := rfl

theorem isEvent_ofRoomEvent (e : RoomEvent) : (OutgoingMessage.ofRoomEvent e).isEvent = true := by
  cases e <;> rfl

@[simp] theorem newsOf_event (e : RoomEvent) :
    newsOf [.wrote (.json (.ofRoomEvent e))] = [.ofRoomEvent e] := by
  simp [newsOf, Obs.news, Frame.news, isEvent_ofRoomEvent]

/-- The event after which a session stops. -/
def RoomEvent.isExpiry (e : RoomEvent) : Bool := decide (e = .roomExpired)

theorem deliver_eq_some {c : String} {e : RoomEvent} {m : OutgoingMessage}
    (h : deliver c e = some m) : m = .ofRoomEvent e ∧ e.sender ≠ some c := by
  unfold deliver at h
  split at h
  · cases h
  · rename_i hsender
    split at h
    · split at h
      · cases h
      · cases h; exact ⟨rfl, hsender⟩
    · cases h; exact ⟨rfl, hsender⟩

/-! ## What was told -/

/-- What client `c` was told since it joined with `rx` and `peers`: the keys of `written`, then
what follows from the events `settled`. -/
structure Told (c : String) (trace : List Obs) (rx : Receiver) (peers written : PeerSnapshot)
    (settled : List RoomEvent) : Prop where
  joins : joinsOf trace = [(rx, peers)]
  news : newsOf trace = written.map .ofPeer ++
    Broadcast.delivered (deliver c) RoomEvent.isExpiry settled
  keys : written <+: peers
  seen : settled <+: receivedOf trace
  full : receivedOf trace ≠ [] → written = peers

structure Untold (trace : List Obs) : Prop where
  joins : joinsOf trace = []
  received : receivedOf trace = []
  news : newsOf trace = []

/-- What holds of every session, wherever it is. -/
def Over (c : String) (trace : List Obs) : Prop :=
  Untold trace ∨ ∃ rx peers written settled, Told c trace rx peers written settled

section Told

variable {c : String} {trace obs : List Obs} {rx : Receiver} {peers written rest : PeerSnapshot}
  {settled : List RoomEvent}

theorem untold_nil : Untold [] := ⟨rfl, rfl, rfl⟩

theorem Untold.note (h : Untold trace) (hj : joinsOf obs = []) (hr : receivedOf obs = [])
    (hn : newsOf obs = []) : Untold (trace ++ obs) := by
  refine ⟨?_, ?_, ?_⟩
  · rw [joinsOf_append, h.joins, hj]; rfl
  · rw [receivedOf_append, h.received, hr]; rfl
  · rw [newsOf_append, h.news, hn]; rfl

/-- Something that is no news. -/
theorem Told.note (h : Told c trace rx peers written settled) (hj : joinsOf obs = [])
    (hr : receivedOf obs = []) (hn : newsOf obs = []) :
    Told c (trace ++ obs) rx peers written settled := by
  refine ⟨?_, ?_, h.keys, ?_, ?_⟩
  · rw [joinsOf_append, h.joins, hj]; rfl
  · rw [newsOf_append, h.news, hn, List.append_nil]
  · rw [receivedOf_append, hr, List.append_nil]; exact h.seen
  · rw [receivedOf_append, hr, List.append_nil]; exact h.full

theorem Untold.joined (h : Untold trace) (rx : Receiver) (peers : PeerSnapshot) :
    Told c (trace ++ [.joined rx peers]) rx peers [] [] := by
  refine ⟨?_, ?_, List.nil_prefix, List.nil_prefix, ?_⟩
  · rw [joinsOf_append, h.joins]; rfl
  · rw [newsOf_append, h.news]; rfl
  · rw [receivedOf_append, h.received]; exact fun hne => absurd rfl hne

/-- The keys of the next peer. -/
theorem Told.peer {peer : Peer} (h : Told c trace rx (written ++ peer :: rest) written [])
    (hr : receivedOf trace = []) :
    Told c (trace ++ [.wrote (.json (.ofPeer peer))]) rx (written ++ peer :: rest)
      (written ++ [peer]) [] := by
  refine ⟨?_, ?_, ?_, List.nil_prefix, ?_⟩
  · rw [joinsOf_append, h.joins]; rfl
  · rw [newsOf_append, h.news, List.map_append]
    simp [Broadcast.delivered, newsOf, Obs.news, Frame.news, OutgoingMessage.ofPeer,
      OutgoingMessage.isPeerKey]
  · exact ⟨rest, by simp⟩
  · rw [receivedOf_append, hr]; exact fun hne => absurd rfl hne

/-- The next event, which is not dealt with yet. -/
theorem Told.receive (h : Told c trace rx peers peers settled) (e : RoomEvent) :
    Told c (trace ++ [.received e]) rx peers peers settled := by
  refine ⟨?_, ?_, List.prefix_refl _, ?_, fun _ => rfl⟩
  · rw [joinsOf_append, h.joins]; rfl
  · rw [newsOf_append, h.news]
    exact List.append_nil _
  · rw [receivedOf_append]; exact h.seen.trans (List.prefix_append _ _)

/-- The last event is dealt with: `obs` is what it came to. -/
theorem Told.settle (h : Told c trace rx peers peers settled) {e : RoomEvent}
    (hreceived : receivedOf trace = settled ++ [e])
    (hlive : ∀ a ∈ settled, RoomEvent.isExpiry a = false)
    (hj : joinsOf obs = []) (hr : receivedOf obs = []) (hn : newsOf obs = (deliver c e).toList) :
    Told c (trace ++ obs) rx peers peers (settled ++ [e]) := by
  refine ⟨?_, ?_, List.prefix_refl _, ?_, fun _ => rfl⟩
  · rw [joinsOf_append, h.joins, hj]; rfl
  · have hlast : Broadcast.delivered (deliver c) RoomEvent.isExpiry [e] = (deliver c e).toList := by
      rw [Broadcast.delivered]
      split <;> simp [Broadcast.delivered]
    rw [newsOf_append, h.news, hn, Broadcast.delivered_append hlive, hlast,
      Broadcast.delivered_of_forall hlive, List.append_assoc]
  · rw [receivedOf_append, hr, hreceived, List.append_nil]

end Told

/-! ## Place by place -/

/-- The event that is being sent. -/
def RelayPc.outstanding : RelayPc → List RoomEvent
  | .sendEvent event => [event]
  | _ => []

/-- A relay loop that has not met the end of the room. -/
structure Running (c : String) (trace : List Obs) (r : Relay) (outstanding : List RoomEvent)
    (rx : Receiver) (peers : PeerSnapshot) (settled : List RoomEvent) : Prop where
  told : Told c trace rx peers peers settled
  received : receivedOf trace = settled ++ outstanding
  cursor : r.rx = ⟨rx.tx, rx.next + (receivedOf trace).length⟩
  live : ∀ e ∈ settled, RoomEvent.isExpiry e = false
  due : ∀ e ∈ outstanding, deliver c e = some (.ofRoomEvent e)

def LivePc.Script (c : String) (trace : List Obs) : LivePc → Prop
  | .sendWelcome => Untold trace
  | .handshake => Untold trace
  | .join _ => Untold trace
  | .joinInsert => Untold trace
  | .sendRoomFull => Untold trace
  | .sendJoined rx peers => Told c trace rx peers [] [] ∧ receivedOf trace = []
  | .sendPeer rx peer rest =>
    ∃ written, Told c trace rx (written ++ peer :: rest) written [] ∧ receivedOf trace = []
  | .startRelay rx => ∃ peers, Told c trace rx peers peers [] ∧ receivedOf trace = []
  | .relay r p => ∃ rx peers settled, Running c trace r p.outstanding rx peers settled
  | .sendClose => Over c trace
  | .detach => Over c trace

/-- Before `attach` nothing is told; afterwards nothing new is. -/
def Pc.Script (trace : List Obs) : Pc → Prop
  | .live _ c _ p => p.Script c trace
  | .finished (some c) => Over c trace
  | _ => Untold trace

section Step

variable {env : Env} {sh : Shared} {roomId c : String} {trace obs : List Obs} {r r' : Relay}
  {rx : Receiver} {peers written rest : PeerSnapshot} {settled outstanding : List RoomEvent}

theorem Outside.untold {n : Nat} (h : Outside trace n) : Untold trace where
  joins := by
    refine List.filterMap_eq_nil_iff.mpr ?_
    intro o ho
    have := h.inside o ho
    cases o <;> first | rfl | cases this
  received := by
    refine List.filterMap_eq_nil_iff.mpr ?_
    intro o ho
    have := h.inside o ho
    cases o <;> first | rfl | cases this
  news := by
    refine List.filterMap_eq_nil_iff.mpr ?_
    intro o ho
    cases o with
    | wrote f =>
      have hauth := h.frames f (List.mem_filterMap.mpr ⟨_, ho, rfl⟩)
      cases f with
      | json m => cases m <;> first | rfl | cases hauth
      | _ => rfl
    | _ => rfl

theorem Pc.script_of_untold {pc : Pc} (h : Untold trace) (hconn : pc.conn = none) :
    pc.Script trace := by
  cases pc with
  | live isProtected connId attached p => cases hconn
  | finished connId =>
    cases connId with
    | none => exact h
    | some connId => cases hconn
  | _ => exact h

theorem Told.over (h : Told c trace rx peers written settled) : Over c trace :=
  .inr ⟨rx, peers, written, settled, h⟩

/-- A move that neither receives nor deals with an event. -/
theorem Running.note (h : Running c trace r outstanding rx peers settled) (hrx : r'.rx = r.rx)
    (hj : joinsOf obs = []) (hr : receivedOf obs = []) (hn : newsOf obs = []) :
    Running c (trace ++ obs) r' outstanding rx peers settled where
  told := h.told.note hj hr hn
  received := by rw [receivedOf_append, hr, List.append_nil]; exact h.received
  cursor := by rw [hrx, receivedOf_append, hr, List.append_nil]; exact h.cursor
  live := h.live
  due := h.due

theorem relayTick_script (h : Running c trace r [] rx peers settled) (now : Instant) :
    (relayTick r now).Script c trace := by
  unfold relayTick
  split
  · exact h.told.over
  · exact ⟨rx, peers, settled, h.told, h.received, h.cursor, h.live, h.due⟩

theorem relayText_outstanding (env : Env) (c text : String) :
    (relayText env c text).outstanding = [] := by
  unfold relayText
  split
  · rfl
  · split
    · rfl
    · split <;> rfl

theorem relayFrame_script (h : Running c trace r [] rx peers settled) (now : Instant)
    (received : Received) :
    (relayFrame env c r now received).Script c (trace ++ received.heard now) := by
  cases received with
  | text t =>
    have hframe : relayFrame env c r now (.text t) =
        .relay { r with rateLimiter := (r.rateLimiter.check now).2 }
          (if (r.rateLimiter.check now).1 then relayText env c t else .select) := rfl
    have hout : (if (r.rateLimiter.check now).1 then relayText env c t
        else RelayPc.select).outstanding = [] := by
      split
      · exact relayText_outstanding env c t
      · rfl
    have hrun : Running c (trace ++ Received.heard now (.text t))
        { r with rateLimiter := (r.rateLimiter.check now).2 } [] rx peers settled :=
      h.note rfl rfl rfl rfl
    rw [← hout] at hrun
    rw [hframe]
    exact ⟨rx, peers, settled, hrun⟩
  | binary => exact ⟨rx, peers, settled, h.note rfl rfl rfl rfl⟩
  | ping data => exact ⟨rx, peers, settled, h.note rfl rfl rfl rfl⟩
  | pong => exact ⟨rx, peers, settled, h.note rfl rfl rfl rfl⟩
  | _ => exact (h.told.note rfl rfl rfl).over

theorem relayEvent_script (h : Running c trace r [] rx peers settled) (e : RoomEvent) :
    (relayEvent c { r with rx := { r.rx with next := r.rx.next + 1 } } e).Script c
      (trace ++ [.received e]) := by
  have hreceived : receivedOf (trace ++ [.received e]) = settled ++ [e] := by
    rw [receivedOf_append, h.received, List.append_nil]; rfl
  have hcursor : ({ r.rx with next := r.rx.next + 1 } : Receiver) =
      ⟨rx.tx, rx.next + (receivedOf (trace ++ [.received e])).length⟩ := by
    rw [h.cursor, receivedOf_append, List.length_append]; rfl
  unfold relayEvent
  split
  · rename_i hdeliver
    have hlive : RoomEvent.isExpiry e = false := by
      cases e <;> first | rfl | cases hdeliver
    refine ⟨rx, peers, settled ++ [e], ?_, ?_, hcursor, ?_, fun a ha => (by cases ha)⟩
    · have hsettled : Told c (trace ++ [.received e] ++ []) rx peers peers (settled ++ [e]) :=
        (h.told.receive e).settle hreceived h.live rfl rfl (by rw [hdeliver]; rfl)
      rwa [List.append_nil] at hsettled
    · rw [hreceived]; exact (List.append_nil _).symm
    · intro a ha
      rcases List.mem_append.mp ha with ha | ha
      · exact h.live a ha
      · cases List.mem_singleton.mp ha; exact hlive
  · rename_i m hdeliver
    refine ⟨rx, peers, settled, h.told.receive e, hreceived, hcursor, h.live, ?_⟩
    intro a ha
    obtain rfl := List.mem_singleton.mp ha
    rw [hdeliver, (deliver_eq_some hdeliver).1]

theorem RelayStep.script {p : RelayPc} {m : Move LivePc} (hm : RelayStep env sh roomId c r p m)
    (h : Running c trace r p.outstanding rx peers settled) : m.pc.Script c (trace ++ m.obs) := by
  cases hm with
  | tick hdue => exact relayTick_script (h.note rfl rfl rfl rfl) _
  | @received event hrecv => exact relayEvent_script h event
  | lagged hrecv => exact (h.told.note rfl rfl rfl).over
  | @frame received now => exact relayFrame_script h now received
  | pinged =>
    dsimp only
    split
    · exact ⟨rx, peers, settled, h.note rfl rfl rfl rfl⟩
    · exact (h.told.note rfl rfl rfl).over
  | @sent event result =>
    have hnews : newsOf [.wrote (.json (.ofRoomEvent event))] = (deliver c event).toList := by
      rw [newsOf_event, h.due event (List.mem_singleton.mpr rfl)]; rfl
    have htold : Told c (trace ++ [.wrote (.json (.ofRoomEvent event))]) rx peers peers
        (settled ++ [event]) := h.told.settle h.received h.live rfl rfl hnews
    dsimp only
    split
    · split
      · exact htold.over
      · rename_i hne
        have hsame : receivedOf (trace ++ [.wrote (.json (.ofRoomEvent event))]) =
            receivedOf trace := by rw [receivedOf_append]; exact List.append_nil _
        refine ⟨rx, peers, settled ++ [event], htold, ?_, ?_, ?_, fun a ha => (by cases ha)⟩
        · rw [hsame, h.received]; exact (List.append_nil _).symm
        · rw [hsame]; exact h.cursor
        · intro a ha
          rcases List.mem_append.mp ha with ha | ha
          · exact h.live a ha
          · cases List.mem_singleton.mp ha
            exact decide_eq_false hne
    · exact htold.over
  | ponged =>
    dsimp only
    split
    · exact ⟨rx, peers, settled, h.note rfl rfl rfl rfl⟩
    · exact (h.told.note rfl rfl rfl).over
  | updated hstep => exact ⟨rx, peers, settled, h.note rfl rfl rfl rfl⟩
  | published hstep => exact ⟨rx, peers, settled, h.note rfl rfl rfl rfl⟩

theorem afterPeer_script (written : PeerSnapshot) (h : Told c trace rx (written ++ rest) written [])
    (hr : receivedOf trace = []) : (afterPeer rx rest).Script c trace := by
  cases rest with
  | nil => exact ⟨written, by rwa [List.append_nil] at h, hr⟩
  | cons peer rest => exact ⟨written, h, hr⟩

theorem handshakeFrame_script (h : Untold trace) (received : Received) :
    (handshakeFrame env received).Script c trace := by
  cases received with
  | text t =>
    simp only [handshakeFrame]
    split
    · exact h
    · exact .inl h
  | ping data => exact h
  | pong => exact h
  | _ => exact .inl h

theorem joinOutcome_script (h : Untold trace) (conn : Conn) :
    (joinOutcome conn).Script c trace := by
  unfold joinOutcome
  split
  · exact h
  · exact .inl h
  · exact h

theorem LiveStep.script {isProtected : Bool} {attached : Attached} {p : LivePc} {m : Move LivePc}
    (hm : LiveStep env sh roomId isProtected c attached p m) (h : p.Script c trace) :
    m.pc.Script c (trace ++ m.obs) := by
  cases hm with
  | welcomed =>
    dsimp only
    split
    · exact Untold.note h rfl rfl rfl
    · exact .inl (Untold.note h rfl rfl rfl)
  | handshook => exact handshakeFrame_script (Untold.note h rfl rfl rfl) _
  | late => exact .inl (Untold.note h rfl rfl rfl)
  | asked hstep => exact joinOutcome_script (Untold.note h rfl rfl rfl) _
  | @joined c' r store hlock hstep =>
    have htold := Untold.joined (c := c) h r.receiver r.peers
    have hr : receivedOf (trace ++ [.joined r.receiver r.peers]) = [] := by
      rw [receivedOf_append, Untold.received h]; rfl
    dsimp only
    split
    · exact ⟨htold, hr⟩
    · exact afterPeer_script [] htold hr
  | full => exact .inl (Untold.note h rfl rfl rfl)
  | @told rx peers result =>
    obtain ⟨htold, hr⟩ := h
    have htold' : Told c (trace ++ [.wrote (.json .joined)]) rx peers [] [] :=
      htold.note rfl rfl rfl
    dsimp only
    split
    · refine afterPeer_script [] htold' ?_
      rw [receivedOf_append, hr]; rfl
    · exact htold'.over
  | @introduced rx peer rest result =>
    obtain ⟨written, htold, hr⟩ := h
    have htold' := htold.peer hr
    dsimp only
    split
    · refine afterPeer_script (written ++ [peer]) (by simpa using htold') ?_
      rw [receivedOf_append, hr]; rfl
    · exact htold'.over
  | @began rx ticker lastPong limiter =>
    obtain ⟨peers, htold, hr⟩ := h
    refine ⟨rx, peers, [], ?_, ?_, ?_, by simp, fun a ha => (by cases ha)⟩
    · exact htold.note rfl rfl rfl
    · rw [receivedOf_append, hr]; rfl
    · rw [receivedOf_append, hr]; rfl
  | relayed hrelay =>
    obtain ⟨rx, peers, settled, hrun⟩ := h
    exact hrelay.script hrun
  | closed =>
    rcases h with huntold | ⟨rx, peers, written, settled, htold⟩
    · exact .inl (huntold.note rfl rfl rfl)
    · exact (htold.note rfl rfl rfl).over

theorem LivePc.Script.over {p : LivePc} (h : p.Script c trace) : Over c trace := by
  cases p with
  | sendJoined rx peers => exact h.1.over
  | sendPeer rx peer rest => obtain ⟨written, htold, -⟩ := h; exact htold.over
  | startRelay rx => obtain ⟨peers, htold, -⟩ := h; exact htold.over
  | relay r p => obtain ⟨rx, peers, settled, hrun⟩ := h; exact hrun.told.over
  | sendClose => exact h
  | detach => exact h
  | _ => exact .inl h

theorem AuthStep.conn {guard : Option IpAddr} {hash : String} {p : AuthPc} {m : Move Pc}
    (hm : AuthStep env sh roomId guard hash p m) : m.pc.conn = none := by
  cases hm <;> rfl

theorem afterUpgrade_conn (guard : Option IpAddr) (room : Option (Option String)) (ok : Bool) :
    (afterUpgrade guard room ok).conn = none := by
  unfold afterUpgrade
  split <;> rfl

theorem dropped_conn (accepted isProtected : Bool) :
    (if accepted then Pc.attach isProtected else .finished none).conn = none := by
  split <;> rfl

theorem PcStep.script {pc : Pc} {m : Move Pc} (hm : PcStep env sh roomId pc m)
    (hg : pc.Gate trace) (h : pc.Script trace) : m.pc.Script (trace ++ m.obs) := by
  -- up to `attach` the gate says that nothing was told
  have hearly : m.pc.conn = none → m.pc.Script (trace ++ m.obs) := fun hconn =>
    Pc.script_of_untold ((hm.gate hg).1.outside hconn).untold hconn
  cases hm with
  | auth hauth => exact hearly hauth.conn
  | upgraded => exact hearly (afterUpgrade_conn _ _ _)
  | dropped hdrop => exact hearly (dropped_conn _ _)
  | attaching hstep =>
    dsimp only
    split <;> exact Untold.note h rfl rfl rfl
  | attached hstep => exact Untold.note h rfl rfl rfl
  | unavailable => exact .inl (Untold.note h rfl rfl rfl)
  | live hlive => exact hlive.script h
  | detached hstep => rw [List.append_nil]; exact h
  | _ => exact hearly rfl

end Step

theorem Pc.Script.over {pc : Pc} {trace : List Obs} {c : String} (h : pc.Script trace)
    (hconn : pc.conn = some c) : Over c trace := by
  cases pc with
  | attachInsert isProtected d => exact .inl h
  | sendUnavailable d => exact .inl h
  | live isProtected d attached p => cases hconn; exact LivePc.Script.over h
  | finished connId => cases hconn; exact h
  | _ => cases hconn

/-- What a session has told, whatever it is in the middle of. -/
theorem Server.Reachable.script {env : Env} {v : Server} (h : Reachable env v) {k : Nat}
    {s : Session} (hk : v.sockets k = some s) : s.pc.Script s.trace := by
  refine (h.socket (I := fun _ s => Gate s ∧ s.pc.Script s.trace) ?_ ?_ ?_ hk).2
  · intro sh roomId
    exact ⟨gate_connect roomId, untold_nil⟩
  · intro v v' s _ _ ih
    exact ih
  · intro v s m hv ih hm
    exact ⟨ih.1.step hm, hm.script ih.1.phase ih.2⟩

end Parrhesia
