import Parrhesia.Lib.Broadcast
import Parrhesia.Creator

/-!
# Parrhesia.Replay

What a member can tell about the room from what it was given: the snapshot of `join`, and the events
its receiver yields from then on.

`follow` is the client's bookkeeping. The snapshot, the subscription, the insertion and the
announcement of a `join` fall at one point of the log, and `detach` announces exactly the members it
removes; so at every later position the client's view is the room's participants without itself
(`follow_eq`), and every peer is learned once (`learned_eq`).
-/

namespace Parrhesia

open Lib

/-- What client `c` makes of an event. -/
def RoomEvent.follow (c : String) (view : String → Option Participant) :
    RoomEvent → String → Option Participant
  | .peerJoined sender publicKey pqPublicKey sig =>
    if sender = c then view else Function.update view sender (some ⟨publicKey, pqPublicKey, sig⟩)
  | .peerLeft sender => Function.update view sender none
  | _ => view

/-- The view of client `c` after some events. -/
def follow (c : String) (view : String → Option Participant) (events : List RoomEvent) :
    String → Option Participant :=
  events.foldl (RoomEvent.follow c) view

/-- The keys of peer `d` in a snapshot. -/
def Peer.keysOf (d : String) (p : Peer) : Option Participant :=
  if p.id = d then some ⟨p.publicKey, p.pqPublicKey, p.sig⟩ else none

/-- The keys of peer `d` in an event. -/
def RoomEvent.keysOf (d : String) : RoomEvent → Option Participant
  | .peerJoined sender publicKey pqPublicKey sig =>
    if sender = d then some ⟨publicKey, pqPublicKey, sig⟩ else none
  | _ => none

/-- The keys a client is told for peer `d`, by the snapshot and by events. -/
def learned (peers : PeerSnapshot) (events : List RoomEvent) (d : String) : List Participant :=
  peers.filterMap (Peer.keysOf d) ++ events.filterMap (RoomEvent.keysOf d)

theorem follow_eq_replay {c : String} {view : String → Option Participant} (hc : view c = none)
    (events : List RoomEvent) :
    follow c view events = Roster.replay view (Roster.others c (events.map RoomEvent.change)) := by
  induction events generalizing view with
  | nil => rfl
  | cons e events ih =>
    by_cases hwho : e.change.who = some c
    · have hview : RoomEvent.follow c view e = view := by
        cases e with
        | peerJoined sender => cases hwho; simp [RoomEvent.follow]
        | peerLeft sender => cases hwho; exact Roster.hide_of_none hc
        | _ => rfl
      rw [List.map_cons, Roster.others_cons_self hwho, ← ih hc, follow, List.foldl_cons, hview]; rfl
    · have hview : RoomEvent.follow c view e = Roster.apply view e.change := by
        cases e with
        | peerJoined sender =>
          have hne : sender ≠ c := fun he => hwho (by rw [he]; rfl)
          simp [RoomEvent.follow, RoomEvent.change, Roster.apply, hne]
        | _ => rfl
      have hc' : Roster.apply view e.change c = none := by
        have := congrFun (Roster.apply_hide hwho view) c
        rwa [Roster.hide_of_none hc, Roster.hide_self] at this
      rw [List.map_cons, Roster.others_cons_of_ne hwho, Roster.replay_cons, ← ih hc', follow,
        List.foldl_cons, hview]; rfl

theorem learned_eq_entered (peers : PeerSnapshot) (events : List RoomEvent) (d : String) :
    learned peers events d =
      Roster.entered d (Roster.snapshot (peers.map Peer.entry)) ++
        Roster.entered d (events.map RoomEvent.change) := by
  rw [learned, Roster.entered, Roster.entered, Roster.snapshot, List.map_map, List.filterMap_map,
    List.filterMap_map]
  congr 1
  refine List.filterMap_congr ?_
  intro e _
  cases e <;> rfl

namespace Store

variable {s s' : Store} {op : Op}

theorem Inv.log_grows (hr : Machine.Reachable Store.step s s') (tx : Nat) :
    s.log tx <+: s'.log tx :=
  hr.invariant (I := fun u => s.log tx <+: u.log tx) (List.prefix_refl _)
    fun _ _ _ ih hs => ih.trans ((step_cases hs).log_grows tx)

/-- The events received by a member of channel `tx` up to position `n`, as changes. -/
theorem map_span (s : Store) (tx start n : Nat) :
    (Broadcast.span (s.log tx) start n).map RoomEvent.change =
      ((s.changes tx).take n).drop start := by
  rw [Broadcast.span, List.map_drop, List.map_take]; rfl

theorem take_split {α : Type*} {l : List α} {m n : Nat} (h : m ≤ n) :
    l.take n = l.take m ++ (l.take n).drop m := by
  conv_lhs => rw [← List.take_append_drop m (l.take n)]
  rw [List.take_take, Nat.min_eq_left h]

/-- The view of a member at position `n` is the roster at `n` without itself. -/
theorem Admitted.follow_eq {c : String} {t : Ticket} {r : Receipt} (h : s.Admitted c t r) {n : Nat}
    (hn : r.receiver.next ≤ n) :
    follow c r.peers.view (Broadcast.span (s.log t.tx) r.receiver.next n) =
      Roster.hide c (Roster.roster ((s.changes t.tx).take n)) := by
  rw [follow_eq_replay h.view_self, map_span, ← Roster.hide_of_none h.view_self, Roster.replay_others,
    h.view, ← Roster.roster_append, ← take_split hn]

/-- A member that is still in the room has learned the keys of every other one once. -/
theorem Inv.learned_eq (hinv : Inv s) {c d : String} {t u : Ticket} {r w : Receipt}
    (hc : s.conns c = .joined t r) (hd : s.conns d = .joined u w) (htx : u.tx = t.tx) :
    learned r.peers ((s.log t.tx).drop r.receiver.next) d = [w.participant] := by
  have hadm := hinv.logs.admitted c t r (by rw [hc]; rfl) (by rw [hc]; rfl)
  have hother := hinv.logs.admitted d u w (by rw [hd]; rfl) (by rw [hd]; rfl)
  obtain ⟨hleaves, hroster⟩ := hinv.logs.joined d u w hd
  have henters := hother.enters
  rw [htx] at hleaves hroster henters
  rw [learned_eq_entered, Roster.entered_snapshot hadm.nodup_entries, List.map_drop,
    show Roster.roster (Roster.snapshot (r.peers.map Peer.entry)) = r.peers.view from rfl, hadm.view,
    show (s.log t.tx).map RoomEvent.change = s.changes t.tx from rfl,
    Roster.learned_once henters hleaves, hroster]
  rfl

theorem Inv.owns_keep (hinv : Inv s) (hr : Machine.Reachable Store.step s s') {id : String}
    {tx : Nat} (h : s.Owns id tx) : s'.Owns id tx :=
  (hr.invariant (I := fun u => Inv u ∧ u.Owns id tx) ⟨hinv, h⟩
    fun _ _ _ ih hs => ⟨ih.1.step (step_cases hs), ih.2.step ih.1.rows (step_cases hs)⟩).2

/-- **Roster replay.** `c` has joined in `s'`. For every earlier state `s` with the room in the map,
what its receiver yields from its subscription up to the end of the log of `s`, replayed from its
snapshot, gives the participants of `s` without `c`. On the way every join is of a peer not in the
view and every departure of one in it, and the keys of each peer that is in the room together with
`c` are learned once. -/
theorem roster_replay (s s' : Store) (hs : Reachable s) (hs' : Machine.Reachable step s s')
    (c : String) (t : Ticket) (r : Receipt) (ht : (s'.conns c).ticket = some t)
    (hr : (s'.conns c).receipt = some r) :
    (∀ room, s.room t.room = some room → r.receiver.next ≤ (s.log r.receiver.tx).length →
      follow c r.peers.view
          (Broadcast.span (s'.log r.receiver.tx) r.receiver.next (s.log r.receiver.tx).length) =
        Roster.hide c (HashMap.get room.participants)) ∧
    (∀ n e, r.receiver.next ≤ n → (s'.log r.receiver.tx)[n]? = some e →
      let view := follow c r.peers.view (Broadcast.span (s'.log r.receiver.tx) r.receiver.next n)
      (∀ x publicKey pqPublicKey sig, e = .peerJoined x publicKey pqPublicKey sig → x ≠ c →
        view x = none) ∧
      (∀ x, e = .peerLeft x → x ≠ c → (view x).isSome) ∧
      (e = .peerLeft c → (s'.conns c).seat = none)) ∧
    (s'.conns c = .joined t r → ∀ d u w, d ≠ c → s'.conns d = .joined u w → u.room = t.room →
      learned r.peers ((s'.log r.receiver.tx).drop r.receiver.next) d = [w.participant]) := by
  have hinv := hs.inv
  have hinv' := hinv.reachable hs'
  have hadm := hinv'.logs.admitted c t r ht hr
  have howns := hinv'.channels.owns t.room t.tx (.inr ⟨c, t, ht, rfl, rfl⟩)
  rw [hadm.tx]
  refine ⟨?_, fun n e hn he => ⟨?_, ?_, ?_⟩, ?_⟩
  · intro room hroom hn
    have htx : room.tx = t.tx := by
      have hown := hinv.channels.owns t.room room.tx (.inl ⟨room, hroom, rfl⟩)
      exact ((hinv.owns_keep hs' hown).sole t.tx (.inr ⟨c, t, ht, rfl, rfl⟩)).symm
    have hgrow : s.changes t.tx <+: s'.changes t.tx := (Inv.log_grows hs' t.tx).map _
    rw [hadm.follow_eq hn, ← length_changes, ← List.prefix_iff_eq_take.mp hgrow,
      hinv.members.roster t.room room hroom, htx]
  · rintro x publicKey pqPublicKey sig rfl hne
    rw [hadm.follow_eq hn, Roster.hide_of_ne hne]
    exact hinv'.logs.allowed he
  · rintro x rfl hne
    rw [hadm.follow_eq hn, Roster.hide_of_ne hne]
    exact hinv'.logs.allowed he
  · rintro rfl
    cases hconn : s'.conns c with
    | joined t' r' =>
      rw [hconn] at ht
      cases ht
      have hzero := (hinv'.logs.joined c t r' hconn).1
      have hmem : Roster.Change.leave c ∈ s'.changes t.tx :=
        List.mem_map.mpr ⟨_, List.mem_of_getElem? he, rfl⟩
      have := List.countP_eq_zero.mp hzero _ hmem
      simp [Roster.Change.isLeave] at this
    | _ => rfl
  · intro hc d u w _ hd hroom
    exact hinv'.learned_eq hc hd (howns.sole u.tx (.inr ⟨d, u, by rw [hd]; rfl, hroom, rfl⟩))

/-- `b` follows the departure of `a` from its snapshot. -/
theorem roster_replay_twoJoin : ∃ s room, Machine.run step (start openRoom)
    (twoJoin ++ [.detach "a"]) = some s ∧ s.room "room" = some room ∧
      follow "b" (PeerSnapshot.view [seenAs "a"]) (Broadcast.span (s.log 0) 1 3) =
        Roster.hide "b" (HashMap.get room.participants) := by
  have hrun : ∃ s room t r, Machine.run step (start openRoom) (twoJoin ++ [.detach "a"]) = some s ∧
      s.room "room" = some room ∧ (s.conns "b").ticket = some t ∧ (s.conns "b").receipt = some r ∧
      t.room = "room" ∧ r.receiver = ⟨0, 1⟩ ∧ r.peers = [seenAs "a"] ∧ (s.log 0).length = 3 := by
    refine ⟨_, _, _, _, rfl, rfl, rfl, rfl, rfl, ?_, ?_, ?_⟩ <;> decide +kernel
  obtain ⟨s, room, t, r, hrun, hroom, ht, hr, hid, hrx, hpeers, hlen⟩ := hrun
  have h := (roster_replay s s ⟨openRoom, _, hrun⟩ .refl "b" t r ht hr).1 room (by rw [hid, hroom])
    (by rw [hrx]; simp [hlen])
  rw [hrx, hpeers, hlen] at h
  exact ⟨s, room, hrun, hroom, h⟩

end Store
end Parrhesia
