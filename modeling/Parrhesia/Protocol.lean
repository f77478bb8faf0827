import Parrhesia.Delivery
import Parrhesia.Creator

/-!
# Parrhesia.Protocol

The protocol as a client may rely on it, and that every session speaks it.

* `Phase.next`     : what may be written next, from the first frame to the last.
* `Client.receive` : a client that keeps the phase and a view of its peers, and gives up on a frame
  that does not fit either.
* `Pc.Spoken`      : the phase at each place of a session.

`strict_client` says that such a client never gives up.
-/

namespace Parrhesia

open Lib

inductive Phase where
  | opening
  | challenged
  | refused
  | welcomed (self : String)
  | introduced (self : String)
  | relaying (self : String)
  | expired
  | over
  deriving DecidableEq, Repr

/-- The peer a frame is about. -/
def OutgoingMessage.peerId : OutgoingMessage → Option String
  | .peerKey peerId _ _ _ => some peerId
  | .peerJoined peerId _ _ _ => some peerId
  | .peerLeft peerId => some peerId
  | .message peerId _ _ _ => some peerId
  | .treeCommit peerId _ => some peerId
  | .typing peerId => some peerId
  | _ => none

namespace Phase

/-- The id given by a welcome, which has the version of the room and names a creator: the client
exactly when it says so. -/
def welcome (isProtected : Bool) : OutgoingMessage → Option Phase
  | .welcome version self isCreator (some creator) =>
    if version = (if isProtected then 2 else 1) ∧ (isCreator = true ↔ creator = self) then
      some (.welcomed self)
    else none
  | _ => none

/-- From the first frame of the relay loop on, everything is about others. -/
def relay (self : String) : Frame → Option Phase
  | .ping => some (.relaying self)
  | .pong _ => some (.relaying self)
  | .json m =>
    if m.isEvent ∧ m.peerId ≠ some self then
      some (if m = .roomExpired then .expired else .relaying self)
    else none
  | .close => none

def introduce (self : String) : Frame → Option Phase
  | .json (.peerKey peerId _ _ _) => if peerId ≠ self then some (.introduced self) else none
  | f => relay self f

def next (isProtected : Bool) : Phase → Frame → Option Phase
  | .opening, .json m =>
    if isProtected then (if m = .authRequired 2 then some .challenged else none)
    else if m = .authUnavailable then some .refused
    else welcome isProtected m
  | .challenged, .pong _ => some .challenged
  | .challenged, .json m => if m.isFailure then some .refused else welcome isProtected m
  | .refused, .close => some .over
  | .welcomed self, .json m =>
    if m = .roomFull then some .over
    else if isProtected then (if m = .joined then some (.introduced self) else none)
    else introduce self (.json m)
  | .welcomed self, f => if isProtected then none else introduce self f
  | .introduced self, f => introduce self f
  | .relaying self, f => relay self f
  | .expired, .close => some .over
  | _, _ => none

/-- The phase in which the welcome comes. -/
def entrance (isProtected : Bool) : Phase := if isProtected then .challenged else .opening

end Phase

/-- Peers enter once, and only those who are in act or leave. -/
def Frame.fits (view : String → Option Participant) : Frame → Bool
  | .json (.peerKey peerId _ _ _) => (view peerId).isNone
  | .json (.peerJoined peerId _ _ _) => (view peerId).isNone
  | .json (.peerLeft peerId) => (view peerId).isSome
  | .json (.message peerId _ _ _) => (view peerId).isSome
  | .json (.treeCommit peerId _) => (view peerId).isSome
  | .json (.typing peerId) => (view peerId).isSome
  | _ => true

structure Client where
  phase : Phase
  view : String → Option Participant

namespace Client

def start : Client := ⟨.opening, fun _ => none⟩

def receive (isProtected : Bool) (cl : Client) (f : Frame) : Option Client :=
  if f.fits cl.view then (cl.phase.next isProtected f).map fun phase => ⟨phase, f.follow cl.view⟩
  else none

end Client

/-- The frames lead a client that does not look at its peers to `phase`. -/
def Leads (isProtected : Bool) (frames : List Frame) (phase : Phase) : Prop :=
  Machine.run (Phase.next isProtected) .opening frames = some phase

section Client

variable {isProtected : Bool} {frames : List Frame} {phase phase' : Phase} {f : Frame}

theorem Leads.snoc (h : Leads isProtected frames phase) (hf : phase.next isProtected f = some phase') :
    Leads isProtected (frames ++ [f]) phase' := Machine.run_snoc.mpr ⟨phase, h, hf⟩

theorem fits_of_allowed {view : String → Option Participant}
    (h : ∀ m, f.news = some m → Roster.Allowed view m.change) : f.fits view = true := by
  cases f with
  | json m =>
    cases m with
    | peerKey => exact Option.isNone_iff_eq_none.mpr (h _ rfl)
    | peerJoined => exact Option.isNone_iff_eq_none.mpr (h _ rfl)
    | peerLeft => exact h _ rfl
    | message => exact h _ rfl
    | treeCommit => exact h _ rfl
    | typing => exact h _ rfl
    | _ => rfl
  | _ => rfl

/-- Frames in the right order whose news are well formed suit a strict client. -/
theorem Leads.client (h : Leads isProtected frames phase)
    (hnews : Roster.WellFormed ((frames.filterMap Frame.news).map OutgoingMessage.change)) :
    Machine.run (Client.receive isProtected) .start frames = some ⟨phase, clientView frames⟩ := by
  induction frames using List.reverseRecOn generalizing phase with
  | nil => cases h; rfl
  | append_singleton frames f ih =>
    obtain ⟨before, hbefore, hf⟩ := Machine.run_snoc.mp h
    rw [List.filterMap_append, List.map_append] at hnews
    have hinit := hnews.initial (List.prefix_append _ _)
    refine Machine.run_snoc.mpr ⟨_, ih hbefore hinit, ?_⟩
    have hfits : f.fits (clientView frames) = true := by
      refine fits_of_allowed fun m hm => ?_
      rw [clientView_eq]
      refine hnews _ m.change [] ?_
      simp [hm]
    have hview : clientView (frames ++ [f]) = f.follow (clientView frames) := by simp [clientView]
    simp only [Client.receive, hfits, if_true, hf, Option.map_some, hview]

end Client

/-! ## Place by place -/

/-- What a socket read from the table asks for a password. -/
def Obs.asksPassword : Obs → Bool
  | .looked (some (some _)) => true
  | _ => false

/-- The room has a password, as the socket read it. -/
def asksPassword (trace : List Obs) : Bool := trace.any Obs.asksPassword

section Spoken

variable (isProtected : Bool) (trace : List Obs)

/-- Every frame had its place. -/
def Followed : Prop := ∃ phase, Leads isProtected (framesOf trace) phase

/-- After `join` has returned, before the relay loop. -/
def Introducing (c : String) : Prop :=
  Leads isProtected (framesOf trace) (.introduced c) ∨
    isProtected = false ∧ Leads isProtected (framesOf trace) (.welcomed c)

def AuthPc.Spoken : AuthPc → Prop
  | .sendRequired => framesOf trace = []
  | .sendFailure failure =>
    Leads isProtected (framesOf trace) .challenged ∧ failure.isFailure = true
  | .sendClose => Leads isProtected (framesOf trace) .refused
  | _ => Leads isProtected (framesOf trace) .challenged

def RelayPc.Spoken (c : String) : RelayPc → Prop
  | .sendEvent event => deliver c event = some (.ofRoomEvent event)
  | _ => True

def LivePc.Spoken (c : String) : LivePc → Prop
  | .sendWelcome => Leads isProtected (framesOf trace) (.entrance isProtected)
  | .sendJoined _ peers =>
    isProtected = true ∧ Leads isProtected (framesOf trace) (.welcomed c) ∧ ∀ p ∈ peers, p.id ≠ c
  | .sendPeer _ peer rest =>
    Introducing isProtected trace c ∧ ∀ p ∈ peer :: rest, p.id ≠ c
  | .startRelay _ => Introducing isProtected trace c
  | .relay _ p =>
    (Introducing isProtected trace c ∨ Leads isProtected (framesOf trace) (.relaying c)) ∧
      p.Spoken c
  | .sendClose => Leads isProtected (framesOf trace) .expired
  | .detach => Followed isProtected trace
  | _ => Leads isProtected (framesOf trace) (.welcomed c)

def Pc.Spoken : Pc → Prop
  | .request => framesOf trace = [] ∧ isProtected = false
  | .connectionBudget _ => framesOf trace = [] ∧ isProtected = false
  | .roomPassword _ => framesOf trace = [] ∧ isProtected = false
  | .pending _ _ => framesOf trace = [] ∧ isProtected = true
  | .upgrade _ room => framesOf trace = [] ∧ isProtected = room.join.isSome
  | .auth _ _ p => p.Spoken isProtected trace ∧ isProtected = true
  | .dropGuard _ isProtected' true =>
    Leads isProtected (framesOf trace) (.entrance isProtected) ∧ isProtected' = isProtected
  | .attach isProtected' =>
    Leads isProtected (framesOf trace) (.entrance isProtected) ∧ isProtected' = isProtected
  | .attachInsert isProtected' _ =>
    Leads isProtected (framesOf trace) (.entrance isProtected) ∧ isProtected' = isProtected
  | .sendUnavailable _ => Leads isProtected (framesOf trace) (.entrance isProtected)
  | .live isProtected' c _ p => p.Spoken isProtected trace c ∧ isProtected' = isProtected
  | _ => Followed isProtected trace

end Spoken

section Step

variable {env : Env} {sh : Shared} {roomId c : String} {isProtected : Bool} {trace obs : List Obs}
  {phase phase' : Phase} {f : Frame}

theorem Leads.wrote (h : Leads isProtected (framesOf trace) phase)
    (hf : phase.next isProtected f = some phase') :
    Leads isProtected (framesOf (trace ++ [.wrote f])) phase' := by
  rw [framesOf_append]
  exact h.snoc hf

theorem framesOf_quiet (h : framesOf obs = []) : framesOf (trace ++ obs) = framesOf trace := by
  rw [framesOf_append, h, List.append_nil]

theorem leads_of_nil (h : framesOf trace = []) : Leads isProtected (framesOf trace) .opening := by
  rw [h]; rfl

theorem Leads.followed (h : Leads isProtected (framesOf trace) phase) :
    Followed isProtected trace := ⟨phase, h⟩

theorem Introducing.followed (h : Introducing isProtected trace c) : Followed isProtected trace :=
  h.elim Leads.followed fun h => h.2.followed

theorem Phase.introduce_of_relay (hf : Phase.relay c f = some phase') :
    Phase.introduce c f = some phase' ∧ ∀ m, f = .json m → m ≠ .roomFull := by
  cases f with
  | json m =>
    refine ⟨?_, ?_⟩
    · cases m <;> first | exact hf | simp [Phase.relay, OutgoingMessage.isEvent] at hf
    · intro m' hm hfull
      cases hm
      subst hfull
      simp [Phase.relay, OutgoingMessage.isEvent] at hf
  | _ => exact ⟨hf, fun m hm => by cases hm⟩

/-- A frame of the relay loop, wherever in it. -/
theorem spoken_relay (h : Introducing isProtected trace c ∨
      Leads isProtected (framesOf trace) (.relaying c)) (hf : Phase.relay c f = some phase') :
    Leads isProtected (framesOf (trace ++ [.wrote f])) phase' := by
  obtain ⟨hintroduce, hfull⟩ := Phase.introduce_of_relay hf
  rcases h with (hintro | ⟨rfl, hwelcomed⟩) | hrelaying
  · exact hintro.wrote hintroduce
  · refine hwelcomed.wrote ?_
    cases f with
    | json m => simp only [Phase.next, if_neg (hfull m rfl)]; exact hintroduce
    | _ => exact hintroduce
  · exact hrelaying.wrote hf

theorem peerId_ofRoomEvent {e : RoomEvent} (h : e.sender ≠ some c) :
    (OutgoingMessage.ofRoomEvent e).peerId ≠ some c := by
  cases e <;> first | exact h | simp [OutgoingMessage.ofRoomEvent, OutgoingMessage.peerId]

theorem authSent_spoken (h : Leads isProtected (framesOf trace) .challenged) (result : SendResult) :
    (authSent result).Spoken isProtected trace := by
  unfold authSent
  split
  · exact h
  · exact ⟨h, rfl⟩

theorem authFrame_spoken (h : Leads isProtected (framesOf trace) .challenged) (env : Env)
    (received : Received) : (authFrame env received).Spoken isProtected trace := by
  unfold authFrame authText
  split
  · split
    · split
      · exact h
      · exact ⟨h, rfl⟩
    · exact ⟨h, rfl⟩
  · exact h
  · exact h
  · exact ⟨h, rfl⟩

theorem AuthStep.spoken {guard : Option IpAddr} {hash : String} {p : AuthPc} {m : Move Pc}
    (hm : AuthStep env sh roomId guard hash p m) (h : p.Spoken true trace) :
    m.pc.Spoken true (trace ++ m.obs) := by
  have hsilent : ∀ {obs : List Obs}, framesOf obs = [] →
      Leads true (framesOf trace) .challenged → Leads true (framesOf (trace ++ obs)) .challenged :=
    fun hobs h => by rw [framesOf_quiet hobs]; exact h
  cases hm with
  | required => exact ⟨authSent_spoken ((leads_of_nil h).wrote rfl) _, rfl⟩
  | ponged => exact ⟨authSent_spoken (Leads.wrote h rfl) _, rfl⟩
  | read => exact ⟨authFrame_spoken (hsilent rfl h) env _, rfl⟩
  | @cancelled p hwaits =>
    have hchallenged : Leads true (framesOf trace) .challenged := by
      cases p <;> first | exact h | cases hwaits
    exact ⟨⟨hsilent rfl hchallenged, rfl⟩, rfl⟩
  | paid hcheck => exact ⟨hsilent rfl h, rfl⟩
  | refused hcheck => exact ⟨⟨hsilent rfl h, budgetFailure_isFailure _⟩, rfl⟩
  | started hverify => exact ⟨hsilent rfl h, rfl⟩
  | notStarted hverify => exact ⟨⟨hsilent rfl h, verificationFailure_isFailure _⟩, rfl⟩
  | accepted hjob => exact ⟨hsilent rfl h, rfl⟩
  | rejected hjob hne => exact ⟨⟨hsilent rfl h, verificationFailure_isFailure _⟩, rfl⟩
  | failed =>
    refine ⟨Leads.wrote h.1 ?_, rfl⟩
    simp only [Phase.next, h.2, if_true]
  | failedLate =>
    have hrefused : Phase.next true .challenged (.json _) = some .refused := if_pos h.2
    exact (h.1.wrote hrefused).followed
  | closed => exact (Leads.wrote h rfl).followed

theorem relayText_spoken (env : Env) (c text : String) : (relayText env c text).Spoken c := by
  unfold relayText
  split
  · trivial
  · split
    · trivial
    · split <;> trivial

theorem deliver_relay {e : RoomEvent} (h : deliver c e = some (.ofRoomEvent e)) :
    Phase.relay c (.json (.ofRoomEvent e)) =
      some (if e = .roomExpired then .expired else .relaying c) := by
  have hother := peerId_ofRoomEvent (deliver_eq_some h).2
  simp only [Phase.relay, isEvent_ofRoomEvent, hother, ne_eq, not_false_eq_true, and_self, if_true]
  cases e <;> rfl

theorem RelayStep.spoken {r : Relay} {p : RelayPc} {m : Move LivePc}
    (hm : RelayStep env sh roomId c r p m)
    (h : (LivePc.relay r p).Spoken isProtected trace c) :
    m.pc.Spoken isProtected (trace ++ m.obs) c := by
  obtain ⟨hphase, hp⟩ := h
  have hfollowed : Followed isProtected trace := hphase.elim Introducing.followed Leads.followed
  have hsilent : ∀ {obs : List Obs}, framesOf obs = [] →
      Introducing isProtected (trace ++ obs) c ∨
        Leads isProtected (framesOf (trace ++ obs)) (.relaying c) := by
    intro obs hobs
    rw [Introducing, framesOf_quiet hobs]
    exact hphase
  have hleave : ∀ {obs : List Obs}, framesOf obs = [] → Followed isProtected (trace ++ obs) := by
    intro obs hobs
    rw [Followed, framesOf_quiet hobs]
    exact hfollowed
  cases hm with
  | tick hdue =>
    dsimp only
    unfold relayTick
    split
    · exact hleave rfl
    · exact ⟨hsilent rfl, trivial⟩
  | received hrecv =>
    dsimp only
    unfold relayEvent
    split
    · exact ⟨hsilent rfl, trivial⟩
    · rename_i m hdeliver
      exact ⟨hsilent rfl, by rw [RelayPc.Spoken, hdeliver, (deliver_eq_some hdeliver).1]⟩
  | lagged hrecv => exact hleave rfl
  | @frame received now =>
    cases received with
    | text t =>
      refine ⟨hsilent rfl, ?_⟩
      split
      · exact relayText_spoken env c t
      · trivial
    | pong => exact ⟨hsilent rfl, trivial⟩
    | ping data => exact ⟨hsilent rfl, trivial⟩
    | binary => exact ⟨hsilent rfl, trivial⟩
    | _ => exact hleave rfl
  | @pinged result =>
    have hwrote := spoken_relay hphase (f := .ping) rfl
    dsimp only
    split
    · exact ⟨.inr hwrote, trivial⟩
    · exact hwrote.followed
  | @sent event result =>
    have hwrote := spoken_relay hphase (deliver_relay hp)
    dsimp only
    split
    · split
      · rename_i hexpired
        rw [if_pos hexpired] at hwrote
        exact hwrote
      · rename_i hexpired
        rw [if_neg hexpired] at hwrote
        exact ⟨.inr hwrote, trivial⟩
    · exact hwrote.followed
  | @ponged data result =>
    have hwrote := spoken_relay hphase (f := .pong data) rfl
    dsimp only
    split
    · exact ⟨.inr hwrote, trivial⟩
    · exact hwrote.followed
  | updated hstep => exact ⟨hsilent rfl, trivial⟩
  | published hstep => exact ⟨hsilent rfl, trivial⟩

/-! ## The session body -/

theorem welcome_spoken {attached : Attached} {creator : String}
    (hcreator : attached.creatorId = some creator)
    (hfirst : attached.isCreator = true ↔ creator = c) :
    (Phase.entrance isProtected).next isProtected (.json (welcome isProtected c attached)) =
      some (.welcomed c) := by
  have hwelcome : Phase.welcome isProtected (welcome isProtected c attached) =
      some (.welcomed c) := by
    simp only [Phase.welcome, welcome, hcreator, protocolVersion, hfirst, and_self, if_true]
  cases isProtected <;> exact hwelcome

theorem afterPeer_spoken {rx : Receiver} {peers : PeerSnapshot}
    (h : Introducing isProtected trace c) (hpeers : ∀ p ∈ peers, p.id ≠ c) :
    (afterPeer rx peers).Spoken isProtected trace c := by
  cases peers with
  | nil => exact h
  | cons peer rest => exact ⟨h, hpeers⟩

theorem handshakeFrame_spoken (h : Leads isProtected (framesOf trace) (.welcomed c))
    (received : Received) : (handshakeFrame env received).Spoken isProtected trace c := by
  cases received with
  | text t =>
    simp only [handshakeFrame]
    split
    · exact h
    · exact h.followed
  | ping data => exact h
  | pong => exact h
  | _ => exact h.followed

theorem joinOutcome_spoken (h : Leads isProtected (framesOf trace) (.welcomed c)) (conn : Conn) :
    (joinOutcome conn).Spoken isProtected trace c := by
  unfold joinOutcome
  split
  · exact h
  · exact h.followed
  · exact h

theorem Introducing.peer {peer : Peer} (h : Introducing isProtected trace c) (hne : peer.id ≠ c) :
    Leads isProtected (framesOf (trace ++ [.wrote (.json (.ofPeer peer))])) (.introduced c) := by
  have hpeer : Phase.introduce c (.json (.ofPeer peer)) = some (.introduced c) := if_pos hne
  rcases h with hintro | ⟨rfl, hwelcomed⟩
  · exact hintro.wrote hpeer
  · exact hwelcomed.wrote hpeer

/-- What the store and the session have to say for a move of the session body to be spoken. -/
structure Mannered (sh : Shared) (c : String) (attached : Attached) : Prop where
  creator : ∃ creator, attached.creatorId = some creator ∧
    (attached.isCreator = true ↔ creator = c)
  others : ∀ r, sh.store.lock = .joining c r → ∀ p ∈ r.peers, p.id ≠ c

theorem LiveStep.spoken {attached : Attached} {t : Ticket} {p : LivePc} {m : Move LivePc}
    (hm : LiveStep env sh roomId isProtected c attached p m) (hmannered : Mannered sh c attached)
    (htied : p.Tied sh.store c t) (h : p.Spoken isProtected trace c) :
    m.pc.Spoken isProtected (trace ++ m.obs) c := by
  have hsilent : ∀ {obs : List Obs}, framesOf obs = [] →
      Leads isProtected (framesOf trace) (.welcomed c) →
        Leads isProtected (framesOf (trace ++ obs)) (.welcomed c) :=
    fun hobs h => by rw [framesOf_quiet hobs]; exact h
  cases hm with
  | welcomed =>
    obtain ⟨creator, hcreator, hfirst⟩ := hmannered.creator
    have hwelcomed := Leads.wrote h (welcome_spoken hcreator hfirst)
    dsimp only
    split
    · exact hwelcomed
    · exact hwelcomed.followed
  | handshook => exact handshakeFrame_spoken (hsilent rfl h) _
  | late => exact (hsilent rfl h).followed
  | asked hstep => exact joinOutcome_spoken (hsilent rfl h) _
  | @joined c' r store hlock hstep =>
    obtain ⟨-, r', hlock'⟩ := htied
    cases hlock.symm.trans hlock'
    have hothers := hmannered.others r hlock
    dsimp only
    split
    · rename_i hprotected
      exact ⟨hprotected, hsilent rfl h, hothers⟩
    · rename_i hopen
      exact afterPeer_spoken (.inr ⟨Bool.not_eq_true _ ▸ hopen, hsilent rfl h⟩) hothers
  | full =>
    have hover : Phase.next isProtected (.welcomed c) (.json .roomFull) = some .over := by
      simp only [Phase.next, if_true]
    exact (Leads.wrote h hover).followed
  | @told rx peers result =>
    obtain ⟨rfl, hwelcomed, hothers⟩ := h
    have hintro := hwelcomed.wrote (f := .json .joined) rfl
    dsimp only
    split
    · exact afterPeer_spoken (.inl hintro) hothers
    · exact hintro.followed
  | @introduced rx peer rest result =>
    obtain ⟨hintro, hothers⟩ := h
    have hpeer := hintro.peer (hothers peer List.mem_cons_self)
    dsimp only
    split
    · exact afterPeer_spoken (.inl hpeer) fun q hq => hothers q (List.mem_cons_of_mem _ hq)
    · exact hpeer.followed
  | began =>
    rw [List.append_nil]
    exact ⟨.inl h, trivial⟩
  | relayed hrelay => exact hrelay.spoken h
  | closed => exact (Leads.wrote h (f := .close) rfl).followed

/-! ## The whole socket -/

theorem asksPassword_append (trace obs : List Obs) :
    asksPassword (trace ++ obs) = (asksPassword trace || asksPassword obs) := List.any_append

theorem asksPassword_of_live (h : ∀ o ∈ obs, o.isLive = true) : asksPassword obs = false := by
  refine List.any_eq_false.mpr ?_
  intro o ho
  have := h o ho
  cases o <;> first | exact Bool.false_ne_true | cases this

theorem AuthStep.asksPassword {guard : Option IpAddr} {hash : String} {p : AuthPc} {m : Move Pc}
    (hm : AuthStep env sh roomId guard hash p m) : Parrhesia.asksPassword m.obs = false := by
  cases hm <;> rfl

theorem afterUpgrade_spoken {room : Option (Option String)} (h : framesOf trace = [])
    (hroom : isProtected = room.join.isSome) (guard : Option IpAddr) (ok : Bool) :
    (afterUpgrade guard room ok).Spoken isProtected trace := by
  subst hroom
  unfold afterUpgrade
  split
  · exact ⟨h, rfl⟩
  · exact ⟨leads_of_nil h, rfl⟩
  · exact (leads_of_nil h).followed

/-- A ticket was told the creator, and a snapshot is of the others. -/
theorem Store.Inv.mannered (hinv : sh.store.Inv) (htold : sh.store.ToldInv) {attached : Attached}
    {p : LivePc} (htied : p.Tied sh.store c { attached with room := roomId }) :
    Mannered sh c attached where
  creator := htold.told c _ (Store.present_ticket htied.present)
  others := by
    rintro r hlock peer hpeer rfl
    obtain ⟨t, room, hsub⟩ := hinv.members.joining _ r hlock
    have hout : r.peers.view peer.id = none := by
      rw [hsub.view]
      refine hinv.members.get_none hsub.found ?_
      intro t' r' hjoined
      rw [hsub.conn] at hjoined; cases hjoined
    have hnodup : ((r.peers.map Peer.entry).map Prod.fst).Nodup := by
      rw [List.map_map]; exact hsub.nodup
    have hin := (Roster.roster_snapshot hnodup).mpr (List.mem_map_of_mem hpeer)
    rw [← PeerSnapshot.view, hout] at hin
    cases hin

theorem PcStep.spoken {pc : Pc} {m : Move Pc} (hm : PcStep env sh roomId pc m)
    (hinv : sh.store.Inv) (htold : sh.store.ToldInv) (htied : pc.Tied sh.store roomId)
    (h : pc.Spoken (asksPassword trace) trace) :
    m.pc.Spoken (asksPassword (trace ++ m.obs)) (trace ++ m.obs) := by
  -- only what was looked up says whether a password is asked for
  have hsame : asksPassword m.obs = false → asksPassword (trace ++ m.obs) = asksPassword trace := by
    intro hobs
    rw [asksPassword_append, hobs, Bool.or_false]
  cases hm with
  | turnedDown => exact (leads_of_nil (by simpa using h.1)).followed
  | requested => rw [List.append_nil]; exact h
  | limited hcheck => exact (leads_of_nil (by simpa using h.1)).followed
  | passed hcheck => rw [List.append_nil]; exact h
  | unknown => exact (leads_of_nil (by simpa using h.1)).followed
  | guarded hrow =>
    refine ⟨(framesOf_quiet rfl).trans h.1, ?_⟩
    rw [asksPassword_append]
    exact Bool.or_true _
  | @unguarded ip room hrow hroom =>
    refine ⟨(framesOf_quiet rfl).trans h.1, ?_⟩
    rw [asksPassword_append, h.2, hroom]
    match room, hroom with
    | none, _ => rfl
    | some none, _ => rfl
  | crowded hslot => exact (leads_of_nil (by simpa using h.1)).followed
  | counted hslot => rw [List.append_nil]; exact h
  | upgraded =>
    rw [List.append_nil]
    exact afterUpgrade_spoken h.1 h.2 _ _
  | auth hauth =>
    rw [hsame hauth.asksPassword]
    obtain ⟨hspoken, hprotected⟩ := h
    rw [hprotected] at hspoken ⊢
    exact hauth.spoken hspoken
  | @dropped guard isProtected accepted sh' hdrop =>
    rw [List.append_nil]
    cases accepted with
    | true => exact h
    | false => exact h
  | @attaching isProtected connId fault store hstep =>
    rw [hsame rfl]
    obtain ⟨hentrance, hprotected⟩ := h
    have hquiet : Leads (asksPassword trace) (framesOf (trace ++ [.attaching connId]))
        (.entrance (asksPassword trace)) := by
      rw [framesOf_quiet rfl]; exact hentrance
    dsimp only
    split
    · exact ⟨hquiet, hprotected⟩
    · exact hquiet
  | attached hstep => rw [List.append_nil]; exact h
  | unavailable =>
    rw [hsame rfl]
    have hrefused : (Phase.entrance (asksPassword trace)).next (asksPassword trace)
        (.json .authUnavailable) = some .refused := by
      cases asksPassword trace <;> rfl
    exact (Leads.wrote h hrefused).followed
  | live hlive =>
    rw [hsame (asksPassword_of_live hlive.isLive)]
    obtain ⟨hspoken, rfl⟩ := h
    exact ⟨hlive.spoken (hinv.mannered htold htied) htied hspoken, rfl⟩
  | detached hstep =>
    rw [List.append_nil]
    exact h.1

theorem LivePc.Spoken.followed {p : LivePc} (h : p.Spoken isProtected trace c) :
    Followed isProtected trace := by
  cases p with
  | sendJoined rx peers => exact h.2.1.followed
  | sendPeer rx peer rest => exact h.1.followed
  | startRelay rx => exact Introducing.followed h
  | relay r p => exact h.1.elim Introducing.followed Leads.followed
  | detach => exact h
  | _ => exact Leads.followed h

theorem Pc.Spoken.followed {pc : Pc} (h : pc.Spoken isProtected trace) :
    Followed isProtected trace := by
  cases pc with
  | request => exact (leads_of_nil h.1).followed
  | connectionBudget ip => exact (leads_of_nil h.1).followed
  | roomPassword ip => exact (leads_of_nil h.1).followed
  | pending ip hash => exact (leads_of_nil h.1).followed
  | upgrade guard room => exact (leads_of_nil h.1).followed
  | auth guard hash p =>
    cases p with
    | sendRequired => exact (leads_of_nil h.1).followed
    | sendFailure failure => exact h.1.1.followed
    | _ => exact Leads.followed h.1
  | dropGuard guard isProtected accepted =>
    cases accepted with
    | true => exact h.1.followed
    | false => exact h
  | attach isProtected => exact h.1.followed
  | attachInsert isProtected c => exact h.1.followed
  | sendUnavailable c => exact Leads.followed h
  | live isProtected c attached p => exact h.1.followed
  | finished connId => exact h

end Step

namespace Server

variable {env : Env} {v : Server} {k : Nat} {s : Session}

theorem Reachable.toldInv (hv : Reachable env v) : v.shared.store.ToldInv := by
  refine hv.invariant (I := fun v => v.shared.store.ToldInv) (fun db => Store.toldInv_start db) ?_
  intro v v' hv htold hs
  rcases hs.store with hsame | ⟨op, hop⟩
  · rw [hsame]; exact htold
  · exact htold.step hv.inv.rows (Store.step_cases hop)

theorem Reachable.spoken (hv : Reachable env v) (hk : v.sockets k = some s) :
    s.pc.Spoken (asksPassword s.trace) s.trace := by
  refine hv.invariant
    (I := fun v => ∀ k s, v.sockets k = some s → s.pc.Spoken (asksPassword s.trace) s.trace)
    (fun db k s hk => (by cases hk)) ?_ k s hk
  intro v v' hv ih hs k s hk
  cases hs with
  | opened hk₀ =>
    rcases setSocket_cases hk with ⟨-, rfl⟩ | ⟨-, hold⟩
    · exact ⟨rfl, rfl⟩
    · exact ih k s hold
  | @moved k₀ s₀ m hk₀ hm =>
    rcases setSocket_cases hk with ⟨-, rfl⟩ | ⟨-, hold⟩
    · exact hm.spoken hv.inv hv.toldInv (hv.sockets.bound k₀ s₀ hk₀).tied (ih k₀ s₀ hk₀)
    · exact ih k s hold
  | _ => exact ih k s hk

/-- The news of any session are well formed. -/
theorem Reachable.news (hv : Reachable env v) (hk : v.sockets k = some s) :
    Roster.WellFormed ((newsOf s.trace).map OutgoingMessage.change) := by
  have hquiet : newsOf s.trace = [] →
      Roster.WellFormed ((newsOf s.trace).map OutgoingMessage.change) := by
    intro hnews
    rw [hnews]
    exact Roster.wellFormed_nil
  cases hconn : s.pc.conn with
  | none => exact hquiet ((hv.script hk).untold hconn).news
  | some c =>
    cases hr : (v.shared.store.conns c).receipt with
    | some r => exact (hv.wellFormed hk hconn hr).1
    | none =>
      have hjoins := (hv.sockets.bound k s hk).joins
      rw [hconn, Store.answers_some hr] at hjoins
      rcases (hv.script hk).over hconn with huntold | ⟨rx, peers, written, settled, htold⟩
      · exact hquiet huntold.news
      · rw [htold.joins] at hjoins; cases hjoins

/-- **A strict client is served.** A client that checks every frame, against the protocol and against
the peers it knows, takes all the frames of its socket, whatever the other sockets, the clients and
the tasks in the background do, and knows the peers the frames tell of. -/
theorem strict_client (env : Env) (v : Server) (hv : Reachable env v) (k : Nat) (s : Session)
    (hk : v.sockets k = some s) :
    ∃ phase, Machine.run (Client.receive (asksPassword s.trace)) .start s.frames =
      some ⟨phase, clientView s.frames⟩ := by
  obtain ⟨phase, hphase⟩ := (hv.spoken hk).followed
  refine ⟨phase, hphase.client ?_⟩
  rw [news_framesOf]
  exact hv.news hk

theorem strict_client_talk : ∃ v s phase, talk = some v ∧ v.sockets 0 = some s ∧
    Machine.run (Client.receive (asksPassword s.trace)) .start s.frames =
      some ⟨phase, clientView s.frames⟩ := by
  obtain ⟨v, s, r, hv, hk, -⟩ := talk_run
  obtain ⟨phase, hphase⟩ := strict_client talkEnv v (talk_reachable hv) 0 s hk
  exact ⟨v, s, phase, hv, hk, hphase⟩

end Server
end Parrhesia
