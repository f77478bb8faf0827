import Parrhesia.Lib.Roster
import Parrhesia.Rows

/-!
# Parrhesia.Members

Who is in a room: the participants of the map, the connections that joined and have not detached,
and the roster that the log of the room's channel spells out.

* `MembersInv` : the three agree for every room of the map, and there are at most
  `maxParticipants` of them.

`Step.log` lists the events a step can send, `Step.conn` the ways a connection can move on.
-/

namespace Parrhesia

open Lib

/-- An event as a change of the membership. -/
def RoomEvent.change : RoomEvent → Roster.Change String Participant
  | .peerJoined sender publicKey pqPublicKey sig => .enter sender ⟨publicKey, pqPublicKey, sig⟩
  | .peerLeft sender => .leave sender
  | .chat sender _ _ _ => .act sender
  | .treeCommit sender _ => .act sender
  | .treeWelcome sender _ _ => .act sender
  | .typing sender => .act sender
  | .roomExpired => .idle

@[simp] theorem RoomEvent.change_who (e : RoomEvent) : e.change.who = e.sender := by
  cases e <;> rfl

theorem RoomEvent.change_of_isRelayed {e : RoomEvent} {c : String} (hr : e.isRelayed = true)
    (hs : e.sender = some c) : e.change = .act c := by
  cases e <;> simp [RoomEvent.isRelayed, RoomEvent.sender] at hr hs <;> rw [hs] <;> rfl

def Peer.entry (p : Peer) : String × Participant := (p.id, ⟨p.publicKey, p.pqPublicKey, p.sig⟩)

/-- The map given by a snapshot. -/
def PeerSnapshot.view (peers : PeerSnapshot) : String → Option Participant :=
  Roster.roster (Roster.snapshot (peers.map Peer.entry))

theorem Peer.entry_of (e : String × Participant) : (Peer.of e).entry = e := rfl

theorem Room.nodup_of_perm {room : Room} {peers : PeerSnapshot} (h : peers.Perm room.peers) :
    (peers.map Peer.id).Nodup := by
  have hkeys : (room.peers.map Peer.id) = room.participants.keys := by
    rw [← HashMap.map_fst_toList, Room.peers, List.map_map]; rfl
  rw [(h.map Peer.id).nodup_iff, hkeys]
  exact room.participants.keys_nodup

/-- A snapshot shows the participants, in whatever order it was taken. -/
theorem Room.view_of_perm {room : Room} {peers : PeerSnapshot} (h : peers.Perm room.peers) :
    peers.view = HashMap.get room.participants := by
  have hnodup : ((peers.map Peer.entry).map Prod.fst).Nodup := by
    rw [List.map_map]; exact Room.nodup_of_perm h
  funext c
  refine Option.ext ?_
  intro p
  have hmem : ∀ e, e ∈ peers.map Peer.entry ↔ e ∈ HashMap.toList room.participants := by
    intro e
    rw [(h.map Peer.entry).mem_iff, Room.peers, List.map_map]
    simp [Function.comp_def, Peer.entry_of]
  rw [PeerSnapshot.view, Roster.roster_snapshot hnodup, hmem, HashMap.mem_toList]

namespace Store

variable {s s' : Store} {op : Op}

/-- The log of a channel, as changes of the membership. -/
def changes (s : Store) (tx : Nat) : List (Roster.Change String Participant) :=
  (s.log tx).map RoomEvent.change

theorem length_changes (s : Store) (tx : Nat) : (s.changes tx).length = (s.log tx).length :=
  List.length_map _

/-! ## What a step sends, and how a connection moves -/

/-- The events a step can send on channel `tx`. -/
inductive Sent (s s' : Store) (tx : Nat) : RoomEvent → Prop
  | joined {c r t room} (hlock : s.lock = .joining c r) (hc : s.conns c = .attached t)
      (hroom : s.room t.room = some room) (htx : room.tx = tx) (hc' : s'.conns c = .joined t r) :
      Sent s s' tx
        (.peerJoined c r.participant.publicKey r.participant.pqPublicKey r.participant.sig)
  | left {c t room p x} (hc : (s.conns c).present = some t) (hroom : s.room t.room = some room)
      (htx : room.tx = tx) (hin : HashMap.get room.participants c = some p)
      (hc' : s'.conns c = .detached t (s.conns c).receipt x) :
      Sent s s' tx (.peerLeft c)
  | expired : Sent s s' tx .roomExpired
  | relayed {c t r e} (hc : s.conns c = .joined t r) (htx : t.tx = tx) (hsender : e.sender = some c)
      (hrelayed : e.isRelayed = true) (hconns : s'.conns = s.conns) : Sent s s' tx e

theorem Step.log (hs : Step s op s') (tx : Nat) :
    s'.log tx = s.log tx ∨ ∃ e, s'.log tx = s.log tx ++ [e] ∧ Sent s s' tx e := by
  have hsend : ∀ {app : AppState} {tx₀ : Nat} {e : RoomEvent}, s'.app = app.send tx₀ e →
      app.channels = s.app.channels → (tx₀ = tx → Sent s s' tx e) →
        s'.log tx = s.log tx ∨ ∃ e, s'.log tx = s.log tx ++ [e] ∧ Sent s s' tx e := by
    intro app tx₀ e happ hch hsent
    by_cases htx : tx = tx₀
    · subst htx
      exact .inr ⟨e, by rw [Store.log, happ, AppState.send_channels_self, hch]; rfl, hsent rfl⟩
    · exact .inl (by rw [Store.log, happ, AppState.send_channels_of_ne _ htx, hch]; rfl)
  cases hs with
  | admitted hlock hc hroom =>
    exact hsend rfl rfl fun htx => .joined hlock hc hroom htx (Function.update_self ..)
  | left hlock hc hroom hin =>
    exact hsend rfl rfl fun htx => .left hc hroom htx hin (Function.update_self ..)
  | removed hlock hroom => exact hsend rfl rfl fun _ => .expired
  | published hc hsender hrelayed =>
    exact hsend rfl rfl fun htx => .relayed hc htx hsender hrelayed rfl
  | _ => exact .inl rfl

/-- The ways connection `c` can move on with a step. -/
inductive Moved (s s' : Store) (c : String) : Prop
  | turnedAway {id} (hc : s.conns c = .fresh) (hc' : s'.conns c = .turnedAway id)
  | attached {t} (hlock : s.lock = .attaching t.room c) (hc' : s'.conns c = .attached t)
  | refused {t why} (hc : s.conns c = .attached t) (hc' : s'.conns c = .refused t why)
  | joined {t r room} (hlock : s.lock = .joining c r) (hc : s.conns c = .attached t)
      (hroom : s.room t.room = some room) (hc' : s'.conns c = .joined t r)
      (hlog : s'.log room.tx = s.log room.tx ++
        [.peerJoined c r.participant.publicKey r.participant.pqPublicKey r.participant.sig])
  | detached {t} (hc : (s.conns c).present = some t)
      (hc' : s'.conns c =
        .detached t (s.conns c).receipt (decide (RoomEvent.roomExpired ∈ s.log t.tx)))
      (hroom : s.room t.room = none ∧ s'.log t.tx = s.log t.tx ∨
        ∃ room, s.room t.room = some room ∧
          (HashMap.get room.participants c = none ∧ s'.log t.tx = s.log t.tx ∨
            (HashMap.get room.participants c).isSome ∧
              s'.log room.tx = s.log room.tx ++ [.peerLeft c]))

theorem Step.conn (hs : Step s op s') (c : String) : s'.conns c = s.conns c ∨ Moved s s' c := by
  have hupd : ∀ {c₀ : String} {conn : Conn}, s'.conns = Function.update s.conns c₀ conn →
      (c₀ = c → s'.conns c = conn → Moved s s' c) → s'.conns c = s.conns c ∨ Moved s s' c := by
    intro c₀ conn hconns hmoved
    by_cases he : c = c₀
    · exact .inr (hmoved he.symm (by rw [hconns, he, Function.update_self]))
    · exact .inl (by rw [hconns, Function.update_of_ne he])
  cases hs with
  | turnedAway hlock hc => exact hupd rfl fun he hc' => .turnedAway (he ▸ hc) hc'
  | enteredNew hlock hroom => exact hupd rfl fun he hc' => .attached (he ▸ hlock) hc'
  | entered hlock hroom hputs => exact hupd rfl fun he hc' => .attached (he ▸ hlock) hc'
  | refused hlock hc hroom => exact hupd rfl fun he hc' => .refused (he ▸ hc) hc'
  | admitted hlock hc hroom =>
    refine hupd rfl ?_
    intro he hc'
    subst he
    exact .joined hlock hc hroom hc' (AppState.send_channels_self ..)
  | detachedGone hlock hc hroom =>
    refine hupd rfl ?_
    intro he hc'
    subst he
    exact .detached hc hc' (.inl ⟨hroom, rfl⟩)
  | detached hlock hc hroom hout =>
    refine hupd rfl ?_
    intro he hc'
    subst he
    exact .detached hc hc' (.inr ⟨_, hroom, .inl ⟨hout, rfl⟩⟩)
  | left hlock hc hroom hin =>
    refine hupd rfl ?_
    intro he hc'
    subst he
    exact .detached hc hc' (.inr ⟨_, hroom, .inr ⟨by rw [hin]; rfl, AppState.send_channels_self ..⟩⟩)
  | _ => exact .inl rfl

theorem present_ticket {conn : Conn} {t : Ticket} (h : conn.present = some t) :
    conn.ticket = some t := by
  cases conn <;> simp [Conn.present, Conn.ticket] at h ⊢ <;> exact h

theorem ticket_of_receipt {conn : Conn} {r : Receipt} (h : conn.receipt = some r) :
    ∃ t, conn.ticket = some t := by
  cases conn with
  | joined t r' => exact ⟨t, rfl⟩
  | detached t r' expired => exact ⟨t, rfl⟩
  | _ => cases h

/-- What a connection was given stays with it. -/
theorem Step.ticket_keep (hrows : RowsInv s) (hs : Step s op s') {c : String} {t : Ticket}
    (ht : (s.conns c).ticket = some t) : (s'.conns c).ticket = some t := by
  rcases hs.conn c with he | hm
  · rw [he, ht]
  · cases hm with
    | turnedAway hc => rw [hc] at ht; cases ht
    | attached hlock hc' => rw [(hrows.attaching _ _ hlock).2] at ht; cases ht
    | refused hc hc' => rw [hc] at ht; rw [hc']; exact ht
    | joined hlock hc hroom hc' => rw [hc] at ht; rw [hc']; exact ht
    | detached hc hc' => rw [present_ticket hc] at ht; rw [hc']; exact ht

theorem Step.receipt_keep (hrows : RowsInv s) (hs : Step s op s') {c : String} {r : Receipt}
    (hr : (s.conns c).receipt = some r) : (s'.conns c).receipt = some r := by
  rcases hs.conn c with he | hm
  · rw [he, hr]
  · cases hm with
    | turnedAway hc => rw [hc] at hr; cases hr
    | attached hlock hc' => rw [(hrows.attaching _ _ hlock).2] at hr; cases hr
    | refused hc hc' => rw [hc] at hr; cases hr
    | joined hlock hc hroom hc' => rw [hc] at hr; cases hr
    | detached hc hc' => rw [hc', Conn.receipt, hr]

/-! ## The participants of a room -/

/-- Connection `c` holds the lock in `join`: it has its snapshot and is about to be inserted. -/
structure Subscribed (s : Store) (c : String) (r : Receipt) (t : Ticket) (room : Room) : Prop where
  conn : s.conns c = .attached t
  found : s.room t.room = some room
  seats : HashMap.len room.participants < maxParticipants
  tx : r.receiver.tx = room.tx
  next : r.receiver.next ≤ (s.log room.tx).length
  nodup : (r.peers.map Peer.id).Nodup
  view : r.peers.view = HashMap.get room.participants
  roster : Roster.roster ((s.changes room.tx).take r.receiver.next) = HashMap.get room.participants

/-- `c` joined room `id` as `p` and has not detached. -/
def JoinedAs (s : Store) (id c : String) (p : Participant) : Prop :=
  ∃ t r, s.conns c = .joined t r ∧ t.room = id ∧ r.participant = p

structure MembersInv (s : Store) : Prop where
  seated : ∀ id room, s.room id = some room → ∀ c p,
    HashMap.get room.participants c = some p ↔ s.JoinedAs id c p
  roster : ∀ id room, s.room id = some room →
    HashMap.get room.participants = Roster.roster (s.changes room.tx)
  seats : ∀ id room, s.room id = some room → HashMap.len room.participants ≤ maxParticipants
  joining : ∀ c r, s.lock = .joining c r → ∃ t room, s.Subscribed c r t room

theorem membersInv_start (db : Db.Rooms) : MembersInv (start db) where
  seated id room h := by simp [Store.room, start, AppState.new] at h
  roster id room h := by simp [Store.room, start, AppState.new] at h
  seats id room h := by simp [Store.room, start, AppState.new] at h
  joining c r h := by simp [start] at h

/-- A connection that has not joined a room of the map is no participant of it. -/
theorem MembersInv.get_none (h : MembersInv s) {id c : String} {room : Room}
    (hroom : s.room id = some room) (hc : ∀ t r, s.conns c ≠ .joined t r) :
    HashMap.get room.participants c = none := by
  refine Option.eq_none_iff_forall_ne_some.mpr ?_
  intro p hp
  obtain ⟨t, r, hj, -⟩ := (h.seated id room hroom c p).mp hp
  exact hc t r hj

/-- A step that leaves the map, the channels and the members of its rooms alone. -/
theorem MembersInv.quiet (h : MembersInv s) (hrooms : s'.app.rooms = s.app.rooms)
    (hlog : s'.app.channels = s.app.channels)
    (hjoined : ∀ id c p, (s.room id).isSome → (s'.JoinedAs id c p ↔ s.JoinedAs id c p))
    (hjoin : ∀ c r, s'.lock = .joining c r → ∃ t room, s'.Subscribed c r t room) :
    MembersInv s' := by
  have hroom : ∀ id, s'.room id = s.room id := fun id => by rw [Store.room, hrooms]; rfl
  have hchanges : ∀ tx, s'.changes tx = s.changes tx := fun tx => by
    rw [changes, Store.log, hlog]; rfl
  refine ⟨?_, ?_, ?_, hjoin⟩
  · intro id room hr c p
    rw [hroom] at hr
    rw [h.seated id room hr c p, hjoined id c p (by rw [hr]; rfl)]
  · intro id room hr
    rw [hroom] at hr
    rw [hchanges, h.roster id room hr]
  · intro id room hr
    rw [hroom] at hr
    exact h.seats id room hr

/-- A step that changes the map at one room only. -/
theorem MembersInv.put (h : MembersInv s) {id₀ : String} {room₁ : Room}
    (hputs : Puts s.app.rooms s'.app.rooms id₀ room₁)
    (hlog : ∀ id room, id ≠ id₀ → s.room id = some room → s'.log room.tx = s.log room.tx)
    (hjoined : ∀ id c p, id ≠ id₀ → (s'.JoinedAs id c p ↔ s.JoinedAs id c p))
    (hseated : ∀ c p, HashMap.get room₁.participants c = some p ↔ s'.JoinedAs id₀ c p)
    (hroster : HashMap.get room₁.participants = Roster.roster (s'.changes room₁.tx))
    (hseats : HashMap.len room₁.participants ≤ maxParticipants)
    (hlock : ∀ c r, s'.lock ≠ .joining c r) : MembersInv s' := by
  have hroom : ∀ id, s'.room id = if id = id₀ then some room₁ else s.room id := hputs
  refine ⟨fun id room hr c p => ?_, fun id room hr => ?_, fun id room hr => ?_,
    fun c r hl => absurd hl (hlock c r)⟩
  all_goals
    rw [hroom] at hr
    split at hr
  · rename_i he; cases hr; subst he; exact hseated c p
  · rename_i hne; rw [h.seated id room hr c p, hjoined id c p hne]
  · cases hr; exact hroster
  · rename_i hne
    rw [changes, hlog id room hne hr]
    exact h.roster id room hr
  · cases hr; exact hseats
  · exact h.seats id room hr

theorem joinedAs_update {id c₀ : String} {conn : Conn}
    (hconns : s'.conns = Function.update s.conns c₀ conn)
    (hc : ∀ t r, s.conns c₀ = .joined t r → t.room ≠ id)
    (hc' : ∀ t r, conn = .joined t r → t.room ≠ id) (c : String) (p : Participant) :
    s'.JoinedAs id c p ↔ s.JoinedAs id c p := by
  unfold JoinedAs
  by_cases he : c = c₀
  · subst he
    simp only [hconns, Function.update_self]
    constructor
    · rintro ⟨t, r, hj, hid, -⟩; exact absurd hid (hc' t r hj)
    · rintro ⟨t, r, hj, hid, -⟩; exact absurd hid (hc t r hj)
  · simp only [hconns, Function.update_of_ne he]

/-- A room with a row that is not in the map has given out no ticket. -/
theorem ChannelsInv.room_ne (h : ChannelsInv s) {id : String} (hroom : s.room id = none)
    (hrow : (s.row id).isSome) {c : String} {t : Ticket} (ht : (s.conns c).ticket = some t) :
    t.room ≠ id := by
  rintro rfl
  rcases (h.owns _ _ (.inr ⟨c, t, ht, rfl, rfl⟩)).fate with ⟨room, hr, -⟩ | hgone
  · rw [hroom] at hr; cases hr
  · rw [hgone.row] at hrow; cases hrow

/-- The channel of a ticket is the channel its room has in the map. -/
theorem ChannelsInv.tx_eq (h : ChannelsInv s) {c : String} {t : Ticket} {room : Room}
    (ht : (s.conns c).ticket = some t) (hroom : s.room t.room = some room) : room.tx = t.tx := by
  rcases (h.owns _ _ (.inr ⟨c, t, ht, rfl, rfl⟩)).fate with ⟨room', hr, htx, -⟩ | hgone
  · rw [hroom] at hr; cases hr; exact htx
  · rw [hgone.room] at hroom; cases hroom

theorem ChannelsInv.tx_ne (h : ChannelsInv s) {id id' : String} {room room' : Room}
    (hr : s.room id = some room) (hr' : s.room id' = some room') (hne : id ≠ id') :
    room.tx ≠ room'.tx := by
  intro he
  exact hne ((h.owns id' room'.tx (.inl ⟨room', hr', rfl⟩)).only id (.inl ⟨room, hr, he⟩))

theorem changes_of_log {tx : Nat} {e : RoomEvent} (h : s'.log tx = s.log tx ++ [e]) :
    s'.changes tx = s.changes tx ++ [e.change] := by
  rw [changes, h, List.map_append]; rfl

theorem roster_of_log {tx : Nat} {e : RoomEvent} (h : s'.log tx = s.log tx ++ [e]) :
    Roster.roster (s'.changes tx) = Roster.apply (Roster.roster (s.changes tx)) e.change := by
  rw [changes_of_log h, Roster.roster_snoc]

theorem Subscribed.of_quiet {c : String} {r : Receipt} {t : Ticket} {room : Room}
    (h : s.Subscribed c r t room) (hconns : s'.conns = s.conns) (hrooms : s'.app.rooms = s.app.rooms)
    (hlog : s.log room.tx <+: s'.log room.tx) : s'.Subscribed c r t room where
  conn := by rw [hconns]; exact h.conn
  found := by rw [Store.room, hrooms]; exact h.found
  seats := h.seats
  tx := h.tx
  next := Nat.le_trans h.next hlog.length_le
  nodup := h.nodup
  view := h.view
  roster := by
    obtain ⟨more, hmore⟩ := hlog
    rw [changes, ← hmore, List.map_append, List.take_append_of_le_length]
    · exact h.roster
    · rw [List.length_map]; exact h.next

/-- A step that does not touch what the invariant is about. -/
theorem MembersInv.keep (h : MembersInv s) (hlock : s'.lock = s.lock) (hconns : s'.conns = s.conns)
    (hrooms : s'.app.rooms = s.app.rooms) (hchannels : s'.app.channels = s.app.channels) :
    MembersInv s' := by
  refine h.quiet hrooms hchannels (fun id c p _ => by rw [JoinedAs, hconns]; rfl) fun c r hl => ?_
  obtain ⟨t, room, hsub⟩ := h.joining c r (hlock ▸ hl)
  have hlog : s'.log room.tx = s.log room.tx := by rw [Store.log, hchannels]; rfl
  exact ⟨t, room, hsub.of_quiet hconns hrooms (by rw [hlog])⟩

theorem roster_of_send (tx : Nat) {rooms : HashMap String Room} {e : RoomEvent}
    (happ : s'.app = AppState.send { s.app with rooms } tx e) :
    Roster.roster (s'.changes tx) = Roster.apply (Roster.roster (s.changes tx)) e.change := by
  refine roster_of_log ?_
  rw [Store.log, happ, AppState.send_channels_self]; rfl

/-! ## Each operation keeps the invariant -/

theorem MembersInv.attachSelect (h : MembersInv s) {c id : String} {fault : Bool}
    (hs : Step s (.attachSelect c id fault) s') : MembersInv s' := by
  cases hs with
  | idle => exact h
  | turnedAway hlock hc =>
    refine h.quiet rfl rfl ?_ fun c r hl => absurd (hlock.symm.trans hl) (by simp)
    intro id c p _
    exact joinedAs_update rfl (by rw [hc]; simp) (by simp) c p
  | attaching => exact h.quiet rfl rfl (fun _ _ _ _ => Iff.rfl) (by simp)

theorem MembersInv.attachInsert (hrows : RowsInv s) (hch : ChannelsInv s) (h : MembersInv s)
    (hs : Step s .attachInsert s') : MembersInv s' := by
  cases hs with
  | idle => exact h
  | @enteredNew c₀ id₀ hlock hroom =>
    have hfresh := (hrows.attaching id₀ c₀ hlock).2
    refine h.put (puts_insert _ _ _) (fun _ _ _ _ => rfl) ?_ ?_ ?_
      (Nat.zero_le _) (by simp)
    · intro id c p hne
      exact joinedAs_update rfl (by rw [hfresh]; simp) (by simp) c p
    · intro c p
      refine ⟨fun hget => (by cases hget), ?_⟩
      intro hj
      rw [joinedAs_update rfl (by rw [hfresh]; simp) (by simp)] at hj
      obtain ⟨t, r, hc, hid, -⟩ := hj
      exact absurd hid (hch.room_ne hroom (hrows.attaching id₀ c₀ hlock).1 (by rw [hc]; rfl))
    · show _ = Roster.roster ((s.log s.app.nextChannel).map RoomEvent.change)
      rw [hch.unused _ (Nat.le_refl _)]
      rfl
  | @entered c₀ id₀ room₀ rooms' hlock hroom hputs =>
    have hfresh := (hrows.attaching id₀ c₀ hlock).2
    refine h.put hputs (fun _ _ _ _ => rfl) ?_ ?_
      (h.roster id₀ room₀ hroom) (h.seats id₀ room₀ hroom) (by simp)
    · intro id c p _
      exact joinedAs_update rfl (by rw [hfresh]; simp) (by simp) c p
    · intro c p
      rw [joinedAs_update rfl (by rw [hfresh]; simp) (by simp)]
      exact h.seated id₀ room₀ hroom c p

theorem MembersInv.joinSubscribe (h : MembersInv s) {c : String} {participant : Participant}
    {peers : PeerSnapshot} (hs : Step s (.joinSubscribe c participant peers) s') :
    MembersInv s' := by
  cases hs with
  | idle => exact h
  | refused hlock hc hroom =>
    refine h.quiet rfl rfl ?_ fun c r hl => absurd (hlock.symm.trans hl) (by simp)
    intro id c p _
    exact joinedAs_update rfl (by rw [hc]; simp) (by simp) c p
  | @subscribed c₀ p₀ peers t room₀ hlock hc hroom hlen hpeers =>
    refine h.quiet rfl rfl (fun _ _ _ _ => Iff.rfl) ?_
    intro c r hl
    cases hl
    refine ⟨t, room₀, hc, hroom, hlen, rfl, Nat.le_refl _, Room.nodup_of_perm hpeers,
      Room.view_of_perm hpeers, ?_⟩
    rw [show (s.app.subscribe room₀).next = (s.changes room₀.tx).length from
      (length_changes s room₀.tx).symm]
    exact (congrArg Roster.roster List.take_length).trans (h.roster t.room room₀ hroom).symm

theorem MembersInv.joinInsert (hch : ChannelsInv s) (h : MembersInv s) (hs : Step s .joinInsert s') :
    MembersInv s' := by
  cases hs with
  | idle => exact h
  | @admitted c₀ r₀ t₀ room₀ hlock hc hroom =>
    obtain ⟨t, room, hsub⟩ := h.joining c₀ r₀ hlock
    cases hc.symm.trans hsub.conn
    cases hroom.symm.trans hsub.found
    have hnone := h.get_none hroom (c := c₀) (by rw [hc]; simp)
    refine h.put (puts_insert _ _ _) ?_ ?_ ?_ ?_ ?_ (by simp)
    · intro id room hne hr
      exact AppState.send_channels_of_ne _ (hch.tx_ne hr hroom hne) _
    · intro id c p hne
      refine joinedAs_update rfl (by rw [hc]; simp) (fun t r he => ?_) c p
      cases he; exact hne.symm
    · intro c p
      simp only [Room.with, HashMap.get_insert]
      by_cases he : c = c₀
      · subst he
        simp [JoinedAs]
      · simp only [he, if_false, h.seated t₀.room room₀ hroom c p, JoinedAs,
          Function.update_of_ne he]
    · refine Eq.trans ?_ (roster_of_send room₀.tx rfl).symm
      rw [← h.roster t₀.room room₀ hroom]
      funext c
      simp only [Room.with, HashMap.get_insert, RoomEvent.change, Roster.apply,
        Function.update_apply]
    · rw [Room.with, HashMap.len_insert_of_none _ hnone]
      exact hsub.seats

/-- Removing who is not there. -/
theorem Room.get_without_of_none {room : Room} {c : String}
    (hout : HashMap.get room.participants c = none) :
    HashMap.get (room.without c).participants = HashMap.get room.participants := by
  rw [Room.without, HashMap.remove_of_none hout]

theorem MembersInv.detach (hch : ChannelsInv s) (h : MembersInv s) {c₀ : String}
    (hs : Step s (.detach c₀) s') : MembersInv s' := by
  cases hs with
  | idle => exact h
  | @detachedGone _ t₀ hlock hc hroom =>
    refine h.quiet rfl rfl ?_ fun c r hl => absurd (hlock.symm.trans hl) (by simp)
    intro id c p hid
    refine joinedAs_update rfl ?_ (by simp) c p
    intro t r hj
    rintro rfl
    rw [hj] at hc; cases hc
    rw [hroom] at hid; cases hid
  | @detached _ t₀ room₀ hlock hc hroom hout =>
    have hnot : ∀ t r, s.conns c₀ ≠ .joined t r := by
      intro t r hj
      rw [hj] at hc; cases hc
      have := (h.seated t₀.room room₀ hroom c₀ r.participant).mpr ⟨t₀, r, hj, rfl, rfl⟩
      rw [hout] at this; cases this
    have hget := Room.get_without_of_none hout
    refine h.put (puts_insert _ _ _) (fun _ _ _ _ => rfl) ?_ ?_ ?_ ?_
      fun c r hl => absurd (hlock.symm.trans hl) (by simp)
    · intro id c p _
      exact joinedAs_update rfl (fun t r hj => absurd hj (hnot t r)) (by simp) c p
    · intro c p
      rw [hget, joinedAs_update rfl (fun t r hj => absurd hj (hnot t r)) (by simp)]
      exact h.seated t₀.room room₀ hroom c p
    · rw [hget]
      exact h.roster t₀.room room₀ hroom
    · exact Nat.le_trans (HashMap.len_remove_le _ _) (h.seats t₀.room room₀ hroom)
  | @left _ t₀ room₀ p₀ hlock hc hroom hin =>
    refine h.put (puts_insert _ _ _) ?_ ?_ ?_ ?_ ?_ fun c r hl => absurd (hlock.symm.trans hl) (by simp)
    · intro id room hne hr
      exact AppState.send_channels_of_ne _ (hch.tx_ne hr hroom hne) _
    · intro id c p hne
      refine joinedAs_update rfl ?_ (by simp) c p
      intro t r hj
      rw [hj] at hc; cases hc
      exact hne.symm
    · intro c p
      simp only [Room.without, HashMap.get_remove]
      by_cases he : c = c₀
      · subst he
        simp [JoinedAs]
      · simp only [he, if_false, h.seated t₀.room room₀ hroom c p, JoinedAs,
          Function.update_of_ne he]
    · refine Eq.trans ?_ (roster_of_send room₀.tx rfl).symm
      rw [← h.roster t₀.room room₀ hroom]
      funext c
      simp only [Room.without, HashMap.get_remove, RoomEvent.change, Roster.apply,
        Function.update_apply]
    · exact Nat.le_trans (HashMap.len_remove_le _ _) (h.seats t₀.room room₀ hroom)

theorem MembersInv.expireRemove (hch : ChannelsInv s) (h : MembersInv s)
    (hs : Step s .expireRemove s') : MembersInv s' := by
  cases hs with
  | idle => exact h
  | skipped => exact h.quiet rfl rfl (fun _ _ _ _ => Iff.rfl) (by simp)
  | @removed id₀ ids room₀ hlock hroom =>
    have hr' : ∀ {id : String} {room : Room},
        HashMap.get (HashMap.remove s.app.rooms id₀) id = some room →
          id ≠ id₀ ∧ s.room id = some room := by
      intro id room hr
      rw [HashMap.get_remove] at hr
      split at hr
      · cases hr
      · rename_i hne; exact ⟨hne, hr⟩
    refine ⟨?_, ?_, ?_, by simp⟩
    · intro id room hr c p
      exact h.seated id room (hr' hr).2 c p
    · intro id room hr
      obtain ⟨hne, hr₀⟩ := hr' hr
      rw [h.roster id room hr₀, changes, changes, Store.log, Store.log,
        AppState.send_channels_of_ne _ (hch.tx_ne hr₀ hroom hne)]
    · intro id room hr
      exact h.seats id room (hr' hr).2

theorem MembersInv.publish (h : MembersInv s) {c : String} {e : RoomEvent}
    (hs : Step s (.publish c e) s') : MembersInv s' := by
  cases hs with
  | idle => exact h
  | @published _ t₀ r₀ _ hc hsender hrelayed =>
    refine ⟨h.seated, ?_, h.seats, ?_⟩
    · intro id room hr
      rw [h.roster id room hr]
      by_cases htx : room.tx = t₀.tx
      · rw [htx]
        refine Eq.trans ?_ (roster_of_send t₀.tx rfl).symm
        rw [RoomEvent.change_of_isRelayed hrelayed hsender]; rfl
      · rw [changes, changes, Store.log, Store.log, AppState.send_channels_of_ne _ htx]
    · intro c r hl
      obtain ⟨t, room, hsub⟩ := h.joining c r hl
      refine ⟨t, room, hsub.of_quiet rfl rfl ?_⟩
      rcases (Step.published hc hsender hrelayed).log room.tx with he | ⟨e, he, -⟩
      · rw [he]
      · rw [he]; exact List.prefix_append _ _

theorem MembersInv.step (hrows : RowsInv s) (hch : ChannelsInv s) (h : MembersInv s)
    (hs : Step s op s') : MembersInv s' := by
  cases op with
  | attachSelect c id fault => exact h.attachSelect hs
  | attachInsert => exact h.attachInsert hrows hch hs
  | joinSubscribe c participant peers => exact h.joinSubscribe hs
  | joinInsert => exact h.joinInsert hch hs
  | detach c => exact h.detach hch hs
  | expireRemove => exact h.expireRemove hch hs
  | publish c e => exact h.publish hs
  | createRoom id passwordHash now fault =>
    cases hs with
    | idle => exact h
    | created => exact h.keep rfl rfl rfl rfl
  | roomPassword id fault => cases hs; exact h
  | updateActivity id now fault =>
    cases hs with
    | idle => exact h
    | touched => exact h.keep rfl rfl rfl rfl
  | expireDelete now threshold ids fault =>
    cases hs with
    | idle => exact h
    | deleted => exact h.quiet rfl rfl (fun _ _ _ _ => Iff.rfl) (by simp)
  | expireDone =>
    cases hs with
    | idle => exact h
    | done => exact h.quiet rfl rfl (fun _ _ _ _ => Iff.rfl) (by simp)

end Store
end Parrhesia
