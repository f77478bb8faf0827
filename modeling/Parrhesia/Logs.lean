import Parrhesia.Members

/-!
# Parrhesia.Logs

What the log of a channel says about each connection, and all invariants of the store together.

`LogInv` rests on the events a step can send: joins are announced by the holder of the lock, leaves
by a member, and everything else by a connection that has joined and not detached.
-/

namespace Parrhesia

open Lib

namespace Store

variable {s s' : Store} {op : Op}

/-- What joining gave connection `c`, against the log of its channel. -/
structure Admitted (s : Store) (c : String) (t : Ticket) (r : Receipt) : Prop where
  tx : r.receiver.tx = t.tx
  next : r.receiver.next ≤ (s.log t.tx).length
  nodup : (r.peers.map Peer.id).Nodup
  view : r.peers.view = Roster.roster ((s.changes t.tx).take r.receiver.next)
  silent : ∀ ch ∈ (s.changes t.tx).take r.receiver.next, ch.who ≠ some c
  enters : Roster.enters c (s.changes t.tx) = 1

structure LogInv (s : Store) : Prop where
  wellFormed : ∀ tx, Roster.WellFormed (s.changes tx)
  named : ∀ tx c, (∃ ch ∈ s.changes tx, ch.who = some c) →
    ∃ t r, (s.conns c).ticket = some t ∧ (s.conns c).receipt = some r ∧ t.tx = tx
  admitted : ∀ c t r, (s.conns c).ticket = some t → (s.conns c).receipt = some r →
    s.Admitted c t r
  joined : ∀ c t r, s.conns c = .joined t r → Roster.leaves c (s.changes t.tx) = 0 ∧
    Roster.roster (s.changes t.tx) c = some r.participant
  detached : ∀ c t r expired, s.conns c = .detached t (some r) expired →
    Roster.leaves c (s.changes t.tx) = if expired then 0 else 1

/-- All invariants of the store. -/
structure Inv (s : Store) : Prop where
  rows : RowsInv s
  channels : ChannelsInv s
  members : MembersInv s
  logs : LogInv s

theorem logInv_start (db : Db.Rooms) : LogInv (start db) where
  wellFormed _ := Roster.wellFormed_nil
  named tx c h := by
    obtain ⟨ch, hch, -⟩ := h
    exact absurd hch List.not_mem_nil
  admitted c t r h := by simp [start, Conn.ticket] at h
  joined c t r h := by simp [start] at h
  detached c t r x h := by simp [start] at h

/-! ## The log grows by one event at most -/

theorem Step.log_grows (hs : Step s op s') (tx : Nat) : s.log tx <+: s'.log tx := by
  rcases hs.log tx with he | ⟨e, he, -⟩
  · rw [he]
  · rw [he]; exact List.prefix_append _ _

/-- The member a log is about to name has joined, or is joining. -/
theorem Sent.named (hch : ChannelsInv s) (hm : MembersInv s) {tx : Nat} {e : RoomEvent}
    (h : Sent s s' tx e) {c : String} (hc : e.sender = some c) :
    ∃ t r, (s'.conns c).ticket = some t ∧ (s'.conns c).receipt = some r ∧ t.tx = tx := by
  cases h with
  | @joined c₀ r t room hlock hc₀ hroom htx hc' =>
    cases hc
    refine ⟨t, r, by rw [hc']; rfl, by rw [hc']; rfl, ?_⟩
    rw [← htx, hch.tx_eq (by rw [hc₀]; rfl) hroom]
  | @left c₀ t room p x hc₀ hroom htx hin hc' =>
    cases hc
    obtain ⟨t', r, hj, -, -⟩ := (hm.seated t.room room hroom _ p).mp hin
    rw [hj] at hc₀ hc'
    cases hc₀
    refine ⟨t, r, by rw [hc']; rfl, by rw [hc']; rfl, ?_⟩
    rw [← htx, hch.tx_eq (by rw [hj]; rfl) hroom]
  | expired => cases hc
  | @relayed c₀ t r e hc₀ htx hsender hrelayed hconns =>
    rw [hc] at hsender
    cases hsender
    exact ⟨t, r, by rw [hconns, hc₀]; rfl, by rw [hconns, hc₀]; rfl, htx⟩

/-- An event is allowed by the roster at the end of the log. -/
theorem Sent.allowed (hm : MembersInv s) (h : LogInv s) {tx : Nat}
    {e : RoomEvent} (hsent : Sent s s' tx e) :
    Roster.Allowed (Roster.roster (s.changes tx)) e.change := by
  cases hsent with
  | joined hlock hc hroom htx hc' =>
    subst htx
    show Roster.roster _ _ = none
    rw [← hm.roster _ _ hroom]
    exact hm.get_none hroom (by rw [hc]; simp)
  | left hc hroom htx hin hc' =>
    subst htx
    show (Roster.roster _ _).isSome
    rw [← hm.roster _ _ hroom, hin]; rfl
  | expired => trivial
  | relayed hc htx hsender hrelayed hconns =>
    subst htx
    rw [RoomEvent.change_of_isRelayed hrelayed hsender]
    show (Roster.roster _ _).isSome
    rw [(h.joined _ _ _ hc).2]; rfl

/-- Nobody but a connection about to join enters. -/
theorem Sent.isEnter {tx : Nat} {e : RoomEvent} (h : Sent s s' tx e) {c : String}
    (he : e.change.isEnter c = true) : ∃ t, s.conns c = .attached t := by
  cases h with
  | joined hlock hc hroom htx hc' =>
    simp only [RoomEvent.change, Roster.Change.isEnter, decide_eq_true_eq] at he
    exact ⟨_, he ▸ hc⟩
  | left => cases he
  | expired => cases he
  | relayed hc htx hsender hrelayed hconns =>
    rw [RoomEvent.change_of_isRelayed hrelayed hsender] at he
    cases he

/-- Nobody but a connection that detaches leaves. -/
theorem Sent.isLeave {tx : Nat} {e : RoomEvent} (h : Sent s s' tx e) {c : String}
    (he : e.change.isLeave c = true) :
    ∃ t x, (s.conns c).present = some t ∧ s'.conns c = .detached t (s.conns c).receipt x := by
  cases h with
  | joined => cases he
  | left hc hroom htx hin hc' =>
    simp only [RoomEvent.change, Roster.Change.isLeave, decide_eq_true_eq] at he
    subst he
    exact ⟨_, _, hc, hc'⟩
  | expired => cases he
  | relayed hc htx hsender hrelayed hconns =>
    rw [RoomEvent.change_of_isRelayed hrelayed hsender] at he
    cases he

theorem enters_of_log {tx : Nat} {e : RoomEvent} (h : s'.log tx = s.log tx ++ [e]) (c : String) :
    Roster.enters c (s'.changes tx) =
      Roster.enters c (s.changes tx) + if e.change.isEnter c then 1 else 0 := by
  rw [changes_of_log h, Roster.enters_append, Roster.enters_cons]; simp [Roster.enters]

theorem leaves_of_log {tx : Nat} {e : RoomEvent} (h : s'.log tx = s.log tx ++ [e]) (c : String) :
    Roster.leaves c (s'.changes tx) =
      Roster.leaves c (s.changes tx) + if e.change.isLeave c then 1 else 0 := by
  rw [changes_of_log h, Roster.leaves_append, Roster.leaves_cons]; simp [Roster.leaves]

theorem changes_of_eq {tx : Nat} (h : s'.log tx = s.log tx) : s'.changes tx = s.changes tx := by
  rw [changes, h]; rfl

/-- The log names a connection that is not about to join only if it has joined. -/
theorem Step.enters_eq (hs : Step s op s') {c : String} (hc : ∀ t, s.conns c ≠ .attached t)
    (tx : Nat) : Roster.enters c (s'.changes tx) = Roster.enters c (s.changes tx) := by
  rcases hs.log tx with he | ⟨e, he, hsent⟩
  · rw [changes_of_eq he]
  · rw [enters_of_log he]
    cases hen : e.change.isEnter c with
    | false => rfl
    | true =>
      obtain ⟨t, ht⟩ := hsent.isEnter hen
      exact absurd ht (hc t)

theorem Step.leaves_eq (hs : Step s op s') {c : String}
    (hc : ∀ t, (s.conns c).present = some t → s'.conns c = s.conns c) (tx : Nat) :
    Roster.leaves c (s'.changes tx) = Roster.leaves c (s.changes tx) := by
  rcases hs.log tx with he | ⟨e, he, hsent⟩
  · rw [changes_of_eq he]
  · rw [leaves_of_log he]
    cases hl : e.change.isLeave c with
    | false => rfl
    | true =>
      obtain ⟨t, x, hp, hc'⟩ := hsent.isLeave hl
      rw [hc t hp] at hc'
      rw [hc'] at hp
      cases hp

/-- The part of the log that was there is still there. -/
theorem Step.take_changes (hs : Step s op s') {tx n : Nat} (h : n ≤ (s.log tx).length) :
    (s'.changes tx).take n = (s.changes tx).take n := by
  obtain ⟨more, hmore⟩ := hs.log_grows tx
  rw [changes, ← hmore, List.map_append, List.take_append_of_le_length]
  · rfl
  · rw [List.length_map]; exact h

theorem Admitted.step (hs : Step s op s') {c : String} {t : Ticket} {r : Receipt}
    (h : s.Admitted c t r) (hc : ∀ t, s.conns c ≠ .attached t) : s'.Admitted c t r where
  tx := h.tx
  next := Nat.le_trans h.next (hs.log_grows t.tx).length_le
  nodup := h.nodup
  view := by rw [hs.take_changes h.next]; exact h.view
  silent := by rw [hs.take_changes h.next]; exact h.silent
  enters := by rw [hs.enters_eq hc]; exact h.enters

theorem Admitted.nodup_entries {c : String} {t : Ticket} {r : Receipt} (h : s.Admitted c t r) :
    ((r.peers.map Peer.entry).map Prod.fst).Nodup := by
  rw [List.map_map]; exact h.nodup

/-- Nobody is in its own snapshot. -/
theorem Admitted.view_self {c : String} {t : Ticket} {r : Receipt} (h : s.Admitted c t r) :
    r.peers.view c = none := by
  rw [h.view]; exact Roster.roster_of_silent h.silent

/-! ## The invariant -/

/-- An event in a log was allowed by the roster before it. -/
theorem LogInv.allowed (h : LogInv s) {tx n : Nat} {e : RoomEvent} (he : (s.log tx)[n]? = some e) :
    Roster.Allowed (Roster.roster ((s.changes tx).take n)) e.change :=
  (h.wellFormed tx).allowed (by rw [changes, List.getElem?_map, he]; rfl)

/-- A connection without a receipt is named by no log. -/
theorem LogInv.silent (h : LogInv s) {c : String} (hc : (s.conns c).receipt = none) (tx : Nat) :
    ∀ ch ∈ s.changes tx, ch.who ≠ some c := by
  intro ch hch hwho
  obtain ⟨t, r, -, hr, -⟩ := h.named tx c ⟨ch, hch, hwho⟩
  rw [hc] at hr; cases hr

/-- The connection that leaves `join` with `Joined`. -/
theorem admitted_of_joined (hch : ChannelsInv s) (hm : MembersInv s) (h : LogInv s)
    (hs : Step s op s') {c : String} {t : Ticket} {r : Receipt} {room : Room}
    (hlock : s.lock = .joining c r) (hc : s.conns c = .attached t)
    (hroom : s.room t.room = some room)
    (hlog : s'.log room.tx = s.log room.tx ++
      [.peerJoined c r.participant.publicKey r.participant.pqPublicKey r.participant.sig]) :
    s'.Admitted c t r ∧ Roster.leaves c (s'.changes t.tx) = 0 ∧
      Roster.roster (s'.changes t.tx) c = some r.participant := by
  obtain ⟨t', room', hsub⟩ := hm.joining c r hlock
  cases hc.symm.trans hsub.conn
  cases hroom.symm.trans hsub.found
  have htx : room.tx = t.tx := hch.tx_eq (by rw [hc]; rfl) hroom
  have hsilent := h.silent (c := c) (by rw [hc]; rfl) t.tx
  rw [htx] at hlog
  have hnext : r.receiver.next ≤ (s.log t.tx).length := htx ▸ hsub.next
  refine ⟨⟨hsub.tx.trans htx, ?_, hsub.nodup, ?_, ?_, ?_⟩, ?_, ?_⟩
  · exact Nat.le_trans hnext (hs.log_grows t.tx).length_le
  · rw [hs.take_changes hnext, ← htx, hsub.roster, hsub.view]
  · rw [hs.take_changes hnext]
    exact fun ch hmem => hsilent ch (List.mem_of_mem_take hmem)
  · rw [enters_of_log hlog, Roster.enters_eq_zero hsilent]
    simp [RoomEvent.change, Roster.Change.isEnter]
  · rw [leaves_of_log hlog, Roster.leaves_eq_zero hsilent]
    simp [RoomEvent.change, Roster.Change.isLeave]
  · rw [roster_of_log hlog]
    simp [RoomEvent.change, Roster.apply]

/-- A member that stays is still a member at the end of the log. -/
theorem LogInv.joined_keep (h : LogInv s) (hs : Step s op s') {c : String} {t : Ticket} {r : Receipt}
    (hc : s.conns c = .joined t r) (he : s'.conns c = s.conns c) :
    Roster.leaves c (s'.changes t.tx) = 0 ∧
      Roster.roster (s'.changes t.tx) c = some r.participant := by
  obtain ⟨hl, hr⟩ := h.joined c t r hc
  refine ⟨by rw [hs.leaves_eq (fun _ _ => he)]; exact hl, ?_⟩
  rcases hs.log t.tx with he' | ⟨e, he', hsent⟩
  · rw [changes_of_eq he', hr]
  · rw [roster_of_log he', Roster.apply_of_isEnter_false, hr]
    · by_contra hen
      obtain ⟨t', ht'⟩ := hsent.isEnter (by simpa using hen)
      rw [hc] at ht'; cases ht'
    · by_contra hlv
      obtain ⟨t', x, hp, hd⟩ := hsent.isLeave (by simpa using hlv)
      rw [he, hc] at hd; cases hd

/-- The `detach` of a member is announced, unless its room has expired. -/
theorem leaves_of_detached (hch : ChannelsInv s) (hm : MembersInv s) (h : LogInv s) {c : String}
    {t : Ticket} {r : Receipt} (hc : s.conns c = .joined t r)
    (hroom : s.room t.room = none ∧ s'.log t.tx = s.log t.tx ∨
      ∃ room, s.room t.room = some room ∧
        (HashMap.get room.participants c = none ∧ s'.log t.tx = s.log t.tx ∨
          (HashMap.get room.participants c).isSome ∧
            s'.log room.tx = s.log room.tx ++ [.peerLeft c])) :
    Roster.leaves c (s'.changes t.tx) =
      if decide (RoomEvent.roomExpired ∈ s.log t.tx) then 0 else 1 := by
  have hticket : (s.conns c).ticket = some t := by rw [hc]; rfl
  have hstayed : Roster.leaves c (s.changes t.tx) = 0 := (h.joined c t r hc).1
  have hexpired := (hch.owns _ _ (.inr ⟨c, t, hticket, rfl, rfl⟩)).expired_iff
  rcases hroom with ⟨hnone, hlog⟩ | ⟨room, hroom, ⟨hout, hlog⟩ | ⟨hin, hlog⟩⟩
  · rw [changes_of_eq hlog, hstayed]
    simp [hexpired.mpr hnone]
  · have hmember := (hm.seated _ room hroom c r.participant).mpr ⟨t, r, hc, rfl, rfl⟩
    rw [hout] at hmember; cases hmember
  · have hlive : RoomEvent.roomExpired ∉ s.log t.tx := by
      rw [hexpired, hroom]; exact Option.some_ne_none _
    rw [hch.tx_eq hticket hroom] at hlog
    rw [leaves_of_log hlog, hstayed]
    simp [hlive, RoomEvent.change, Roster.Change.isLeave]

theorem LogInv.step (hrows : RowsInv s) (hch : ChannelsInv s) (hm : MembersInv s) (h : LogInv s)
    (hs : Step s op s') : LogInv s' where
  wellFormed tx := by
    rcases hs.log tx with he | ⟨e, he, hsent⟩
    · rw [changes_of_eq he]; exact h.wellFormed tx
    · rw [changes_of_log he, Roster.wellFormed_snoc]
      exact ⟨h.wellFormed tx, hsent.allowed hm h⟩
  named tx c hex := by
    obtain ⟨ch, hmem, hwho⟩ := hex
    have hold : ch ∈ s.changes tx → ∃ t r, (s'.conns c).ticket = some t ∧
        (s'.conns c).receipt = some r ∧ t.tx = tx := by
      intro hmem
      obtain ⟨t, r, ht, hr, htx⟩ := h.named tx c ⟨ch, hmem, hwho⟩
      exact ⟨t, r, hs.ticket_keep hrows ht, hs.receipt_keep hrows hr, htx⟩
    rcases hs.log tx with he | ⟨e, he, hsent⟩
    · rw [changes_of_eq he] at hmem; exact hold hmem
    · rw [changes_of_log he, List.mem_append, List.mem_singleton] at hmem
      rcases hmem with hmem | rfl
      · exact hold hmem
      · rw [RoomEvent.change_who] at hwho
        exact hsent.named hch hm hwho
  admitted c t r ht hr := by
    rcases hs.conn c with he | hmoved
    · rw [he] at ht hr
      refine (h.admitted c t r ht hr).step hs ?_
      intro t' hc
      rw [hc] at hr; cases hr
    · cases hmoved with
      | turnedAway hc hc' => rw [hc'] at hr; cases hr
      | attached hlock hc' => rw [hc'] at hr; cases hr
      | refused hc hc' => rw [hc'] at hr; cases hr
      | joined hlock hc hroom hc' hlog =>
        rw [hc'] at ht hr
        cases ht; cases hr
        exact (admitted_of_joined hch hm h hs hlock hc hroom hlog).1
      | detached hc hc' hroom =>
        rw [hc'] at ht hr
        cases ht
        refine (h.admitted c t r (present_ticket hc) hr).step hs ?_
        intro t' hc₀
        rw [hc₀] at hr; cases hr
  joined c t r hc' := by
    rcases hs.conn c with he | hmoved
    · exact h.joined_keep hs (he ▸ hc') he
    · cases hmoved with
      | turnedAway hc hc'' => rw [hc''] at hc'; cases hc'
      | attached hlock hc'' => rw [hc''] at hc'; cases hc'
      | refused hc hc'' => rw [hc''] at hc'; cases hc'
      | joined hlock hc hroom hc'' hlog =>
        rw [hc''] at hc'
        cases hc'
        exact (admitted_of_joined hch hm h hs hlock hc hroom hlog).2
      | detached hc hc'' hroom => rw [hc''] at hc'; cases hc'
  detached c t r x hd := by
    rcases hs.conn c with he | hmoved
    · rw [he] at hd
      rw [hs.leaves_eq fun _ _ => he]
      exact h.detached c t r x hd
    · cases hmoved with
      | turnedAway hc hc' => rw [hc'] at hd; cases hd
      | attached hlock hc' => rw [hc'] at hd; cases hd
      | refused hc hc' => rw [hc'] at hd; cases hd
      | joined hlock hc hroom hc' hlog => rw [hc'] at hd; cases hd
      | @detached t₀ hc hc' hroom =>
        rw [hc'] at hd
        simp only [Conn.detached.injEq] at hd
        obtain ⟨rfl, hr, rfl⟩ := hd
        -- with a receipt, the connection was a member
        have hj : s.conns c = .joined t₀ r := by
          cases hconn : s.conns c <;> simp [hconn, Conn.present, Conn.receipt] at hc hr
          rw [hc, hr]
        exact leaves_of_detached hch hm h hj hroom

theorem inv_start (db : Db.Rooms) : Inv (start db) :=
  ⟨rowsInv_start db, channelsInv_start db, membersInv_start db, logInv_start db⟩

theorem Inv.step (h : Inv s) (hs : Step s op s') : Inv s' where
  rows := h.rows.step hs
  channels := h.channels.step h.rows hs
  members := h.members.step h.rows h.channels hs
  logs := h.logs.step h.rows h.channels h.members hs

theorem Inv.reachable (h : Inv s) (hr : Machine.Reachable Store.step s s') : Inv s' :=
  hr.invariant h fun _ _ _ hi hs => hi.step (step_cases hs)

theorem Reachable.inv (h : Reachable s) : Inv s :=
  h.elim fun db hr => (inv_start db).reachable hr

/-- `join` is never stuck between the snapshot and the insertion. -/
theorem Inv.joinInsert_enabled (h : Inv s) {c : String} {r : Receipt}
    (hlock : s.lock = .joining c r) : ∃ s', Store.step s .joinInsert = some s' ∧ s'.lock = .free := by
  obtain ⟨t, room, hsub⟩ := h.members.joining c r hlock
  have hroom := hsub.found
  simp [Store.step, joinInsert, hlock, hsub.conn, hroom]

end Store
end Parrhesia
