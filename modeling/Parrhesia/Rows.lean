import Mathlib.Data.List.Count
import Parrhesia.Steps

/-!
# Parrhesia.Rows

The table against the map, and which room a channel belongs to.

* `RowsInv` : every key of the map has a row, but for the ids that an expiry holding the lock has
  deleted and not yet removed. An id in deletion was once inserted, so it never has a row again.
* `Owns`    : channel `tx` is the channel of room `id` and of no other. The room is in the map with
  it (`Live`), or has left the map and the table for good (`Gone`), and `RoomExpired` was sent
  once in the second case and not in the first.

`Known` pairs are those somebody can name: the map's, and those of the tickets handed out.
-/

namespace Parrhesia

open Lib

namespace Store

variable {s s' : Store} {op : Op}

structure RowsInv (s : Store) : Prop where
  created : ∀ id row, s.row id = some row → s.created id = some row.passwordHash
  keyed : ∀ id room, s.room id = some room →
    (s.row id).isSome ∨ ∃ ids, s.lock = .expiring ids ∧ id ∈ ids
  deleted : ∀ ids, s.lock = .expiring ids → ∀ id ∈ ids, s.row id = none ∧ (s.created id).isSome
  attaching : ∀ id c, s.lock = .attaching id c → (s.row id).isSome ∧ s.conns c = .fresh

theorem rowsInv_start (db : Db.Rooms) : RowsInv (start db) where
  created id row h := by
    have hget : HashMap.get db id = some row := h
    simp [start, hget]
  keyed id room h := by simp [Store.room, start, AppState.new] at h
  deleted ids h := by simp [start] at h
  attaching id c h := by simp [start] at h

/-! ## Rows and keys under a step -/

/-- A row that is missing for an id once inserted stays missing. -/
theorem Step.row_none (hs : Step s op s') {id : String} (hcr : (s.created id).isSome)
    (hrow : s.row id = none) : s'.row id = none := by
  cases hs with
  | @created id₀ hash now hnew =>
    have hne : id ≠ id₀ := by rintro rfl; rw [hnew] at hcr; cases hcr
    simp only [Store.row, HashMap.get_insert_of_ne hne]
    exact hrow
  | @touched id₀ now row₀ hrow₀ =>
    have hne : id ≠ id₀ := by rintro rfl; rw [hrow] at hrow₀; cases hrow₀
    simp only [Store.row, HashMap.get_insert_of_ne hne]
    exact hrow
  | deleted =>
    refine Option.eq_none_iff_forall_ne_some.mpr ?_
    intro row hr
    have := (Db.get_active.mp hr).1
    rw [show HashMap.get s.app.db id = s.row id from rfl, hrow] at this
    cases this
  | _ => exact hrow

/-- What was once inserted is never forgotten or changed. -/
theorem Step.created_keep (hs : Step s op s') {id : String} {hash : Option String}
    (h : s.created id = some hash) : s'.created id = some hash := by
  cases hs with
  | @created id₀ hash₀ now hnew =>
    have hne : id ≠ id₀ := by rintro rfl; rw [hnew] at h; cases h
    simp only [Function.update_of_ne hne]
    exact h
  | _ => exact h

theorem Step.created_isSome (hs : Step s op s') {id : String} (h : (s.created id).isSome) :
    (s'.created id).isSome := by
  obtain ⟨hash, hh⟩ := Option.isSome_iff_exists.mp h
  rw [hs.created_keep hh]; rfl

/-- A row goes by deletion only. -/
theorem Step.row_isSome (hs : Step s op s') {id : String} (h : (s.row id).isSome) :
    (s'.row id).isSome ∨ ∃ ids, s'.lock = .expiring ids ∧ id ∈ ids := by
  cases hs with
  | @created id₀ hash now hnew hrow =>
    refine .inl ?_
    simp only [Store.row, HashMap.get_insert]
    split
    · rfl
    · exact h
  | @touched id₀ now row₀ hrow =>
    refine .inl ?_
    simp only [Store.row, HashMap.get_insert]
    split
    · rfl
    · exact h
  | @deleted now threshold ids hlock hids =>
    obtain ⟨row, hrow⟩ := Option.isSome_iff_exists.mp h
    by_cases hmem : id ∈ ids
    · exact .inr ⟨ids, rfl, hmem⟩
    · refine .inl (Option.isSome_iff_exists.mpr ⟨row, ?_⟩)
      exact Db.get_active.mpr ⟨hrow, fun hin => hmem (hids.mem_iff.mpr hin)⟩
  | _ => exact .inl h

/-- The row of an id after a step: the one before it, up to the time, or one just inserted. -/
theorem Step.row_hash (hs : Step s op s') {id : String} {row' : Db.Row}
    (hr : s'.row id = some row') :
    (∃ row, s.row id = some row ∧ row.passwordHash = row'.passwordHash) ∨
      s'.created id = some row'.passwordHash := by
  cases hs with
  | @created id₀ hash now hnew hrow =>
    simp only [Store.row, HashMap.get_insert] at hr
    split at hr
    · rename_i he; cases hr; subst he; exact .inr (Function.update_self ..)
    · exact .inl ⟨row', hr, rfl⟩
  | @touched id₀ now row₀ hrow =>
    simp only [Store.row, HashMap.get_insert] at hr
    split at hr
    · rename_i he; cases hr; subst he; exact .inl ⟨row₀, hrow, rfl⟩
    · exact .inl ⟨row', hr, rfl⟩
  | deleted => exact .inl ⟨row', (Db.get_active.mp hr).1, rfl⟩
  | _ => exact .inl ⟨row', hr, rfl⟩

/-- The ids in deletion after a step: those before it, and those deleted with it. -/
theorem Step.expiring (hs : Step s op s') {ids : List String} {id : String}
    (hl : s'.lock = .expiring ids) (hmem : id ∈ ids) :
    (∃ ids₀, s.lock = .expiring ids₀ ∧ id ∈ ids₀) ∨ (s.row id).isSome ∧ s'.row id = none := by
  cases hs with
  | @deleted now threshold ids₀ hlock hids =>
    cases hl
    have hin := hids.mem_iff.mp hmem
    obtain ⟨row, hrow, -⟩ := Db.mem_inactive.mp hin
    refine .inr ⟨Option.isSome_iff_exists.mpr ⟨row, hrow⟩, ?_⟩
    exact Option.eq_none_iff_forall_ne_some.mpr fun row' hrow' => (Db.get_active.mp hrow').2 hin
  | removed hlock => cases hl; exact .inl ⟨_, hlock, List.mem_cons_of_mem _ hmem⟩
  | skipped hlock => cases hl; exact .inl ⟨_, hlock, List.mem_cons_of_mem _ hmem⟩
  | attaching => cases hl
  | enteredNew => cases hl
  | entered => cases hl
  | subscribed => cases hl
  | admitted => cases hl
  | done => cases hl
  | _ => exact .inl ⟨ids, hl, hmem⟩

/-- An id in deletion stays so until its room is removed. -/
theorem Step.expiring_keep (hs : Step s op s') {ids : List String} {id : String}
    (hl : s.lock = .expiring ids) (hmem : id ∈ ids) :
    (∃ ids', s'.lock = .expiring ids' ∧ id ∈ ids') ∨ s'.room id = none := by
  have hother : ∀ {l : Lock}, s.lock = l → (∀ ids, l ≠ .expiring ids) →
      (∃ ids', s'.lock = .expiring ids' ∧ id ∈ ids') ∨ s'.room id = none :=
    fun hlock hne => absurd (hlock.symm.trans hl) (hne ids)
  cases hs with
  | @removed id₀ ids' room hlock hroom =>
    cases hl.symm.trans hlock
    by_cases he : id = id₀
    · subst he
      exact .inr (HashMap.get_remove_self _ _)
    · exact .inl ⟨ids', rfl, (List.mem_cons.mp hmem).resolve_left he⟩
  | @skipped id₀ ids' hlock hroom =>
    cases hl.symm.trans hlock
    by_cases he : id = id₀
    · subst he
      exact .inr hroom
    · exact .inl ⟨ids', rfl, (List.mem_cons.mp hmem).resolve_left he⟩
  | done hlock => cases hl.symm.trans hlock; cases hmem
  | attaching hlock => exact hother hlock (by simp)
  | enteredNew hlock => exact hother hlock (by simp)
  | entered hlock => exact hother hlock (by simp)
  | subscribed hlock => exact hother hlock (by simp)
  | admitted hlock => exact hother hlock (by simp)
  | deleted hlock => exact hother hlock (by simp)
  | _ => exact .inl ⟨ids, hl, hmem⟩

/-- The lock of an `attach` after a step: held before it, or just taken. -/
theorem Step.attaching_lock (hs : Step s op s') {id c : String} (hl : s'.lock = .attaching id c) :
    s.lock = .attaching id c ∧ s'.conns = s.conns ∨
      (s.row id).isSome ∧ s'.conns c = .fresh := by
  cases hs with
  | attaching hlock hc hrow =>
    cases hl
    exact .inr ⟨Option.isSome_iff_exists.mpr ⟨_, hrow⟩, hc⟩
  | turnedAway hlock => cases hlock.symm.trans hl
  | refused hlock => cases hlock.symm.trans hl
  | detachedGone hlock => cases hlock.symm.trans hl
  | detached hlock => cases hlock.symm.trans hl
  | left hlock => cases hlock.symm.trans hl
  | enteredNew => cases hl
  | entered => cases hl
  | subscribed => cases hl
  | admitted => cases hl
  | deleted => cases hl
  | removed => cases hl
  | skipped => cases hl
  | done => cases hl
  | _ => exact .inl ⟨hl, rfl⟩

/-- A room that `attach` put in the map with this step. -/
structure Fresh (s s' : Store) (id : String) (tx : Nat) : Prop where
  new : tx = s.app.nextChannel
  next : s'.app.nextChannel = s.app.nextChannel + 1
  absent : s.room id = none
  lock : ∃ c, s.lock = .attaching id c
  room : ∃ room', s'.room id = some room' ∧ room'.tx = tx

/-- The rooms of the map after a step: the old ones on their channels, and a fresh one. -/
theorem Step.room (hs : Step s op s') {id : String} {room' : Room} (hr : s'.room id = some room') :
    (∃ room, s.room id = some room ∧ room.tx = room'.tx) ∨ Fresh s s' id room'.tx := by
  have hputs : ∀ {rooms' : HashMap String Room} {id₀ : String} {room₀ : Room} (room₁ : Room),
      Puts s.app.rooms rooms' id₀ room₁ → s.room id₀ = some room₀ → room₁.tx = room₀.tx →
      HashMap.get rooms' id = some room' → ∃ room, s.room id = some room ∧ room.tx = room'.tx := by
    intro rooms' id₀ room₀ room₁ hp hroom htx hget
    rw [hp id] at hget
    split at hget
    · rename_i he; cases hget; exact ⟨room₀, by rw [he, hroom], htx.symm⟩
    · exact ⟨room', hget, rfl⟩
  cases hs with
  | @enteredNew c id₀ hlock hroom =>
    have hget : HashMap.get (HashMap.insert s.app.rooms id₀ ⟨s.app.nextChannel, some c, ∅⟩) id =
        some room' := hr
    rw [HashMap.get_insert] at hget
    split at hget
    · rename_i he; cases hget; subst he; exact .inr ⟨rfl, rfl, hroom, ⟨c, hlock⟩, _, hr, rfl⟩
    · exact .inl ⟨room', hget, rfl⟩
  | entered hlock hroom hp => exact .inl (hputs _ hp hroom rfl hr)
  | admitted hlock hc hroom =>
    exact .inl (hputs (Room.with _ _ _) (puts_insert _ _ _) hroom rfl hr)
  | detached hlock hc hroom =>
    exact .inl (hputs (Room.without _ _) (puts_insert _ _ _) hroom rfl hr)
  | left hlock hc hroom => exact .inl (hputs (Room.without _ _) (puts_insert _ _ _) hroom rfl hr)
  | @removed id₀ ids room₀ hlock hroom =>
    simp only [Store.room, AppState.send_rooms, HashMap.get_remove] at hr
    split at hr
    · cases hr
    · exact .inl ⟨room', hr, rfl⟩
  | _ => exact .inl ⟨room', hr, rfl⟩

theorem RowsInv.step (h : RowsInv s) (hs : Step s op s') : RowsInv s' where
  created id row' hr := by
    rcases hs.row_hash hr with ⟨row, hrow, hhash⟩ | hnew
    · rw [← hhash]
      exact hs.created_keep (h.created id row hrow)
    · exact hnew
  keyed id room' hr := by
    rcases hs.room hr with ⟨room, hr₀, -⟩ | hfresh
    · rcases h.keyed id room hr₀ with hrow | ⟨ids, hl, hmem⟩
      · exact hs.row_isSome hrow
      · rcases hs.expiring_keep hl hmem with hex | hnone
        · exact .inr hex
        · rw [hr] at hnone; cases hnone
    · obtain ⟨c, hlock⟩ := hfresh.lock
      exact hs.row_isSome (h.attaching id c hlock).1
  deleted ids hl id hmem := by
    rcases hs.expiring hl hmem with ⟨ids₀, hl₀, hmem₀⟩ | ⟨hrow, hnone⟩
    · obtain ⟨hnone, hcr⟩ := h.deleted ids₀ hl₀ id hmem₀
      exact ⟨hs.row_none hcr hnone, hs.created_isSome hcr⟩
    · obtain ⟨row, hrow⟩ := Option.isSome_iff_exists.mp hrow
      exact ⟨hnone, by rw [hs.created_keep (h.created id row hrow)]; rfl⟩
  attaching id c hl := by
    have hkeep : (s.row id).isSome → (s'.row id).isSome := by
      intro hrow
      rcases hs.row_isSome hrow with hrow' | ⟨ids, hl', -⟩
      · exact hrow'
      · rw [hl] at hl'; cases hl'
    rcases hs.attaching_lock hl with ⟨hl₀, hconns⟩ | ⟨hrow, hc⟩
    · obtain ⟨hrow, hc⟩ := h.attaching id c hl₀
      exact ⟨hkeep hrow, by rw [hconns]; exact hc⟩
    · exact ⟨hkeep hrow, hc⟩

/-! ## Channels and their rooms -/

/-- How often `RoomExpired` was sent on a channel. -/
def expiries (s : Store) (tx : Nat) : Nat := (s.log tx).count .roomExpired

/-- The map or a ticket names `tx` as the channel of `id`. -/
def Known (s : Store) (id : String) (tx : Nat) : Prop :=
  (∃ room, s.room id = some room ∧ room.tx = tx) ∨
    ∃ c t, (s.conns c).ticket = some t ∧ t.room = id ∧ t.tx = tx

def Live (s : Store) (id : String) (tx : Nat) : Prop :=
  ∃ room, s.room id = some room ∧ room.tx = tx ∧ s.expiries tx = 0

structure Gone (s : Store) (id : String) (tx : Nat) : Prop where
  room : s.room id = none
  row : s.row id = none
  created : (s.created id).isSome
  expiries : s.expiries tx = 1

structure Owns (s : Store) (id : String) (tx : Nat) : Prop where
  lt : tx < s.app.nextChannel
  only : ∀ id', s.Known id' tx → id' = id
  sole : ∀ tx', s.Known id tx' → tx' = tx
  fate : s.Live id tx ∨ s.Gone id tx

structure ChannelsInv (s : Store) : Prop where
  unused : ∀ tx, s.app.nextChannel ≤ tx → s.log tx = []
  owns : ∀ id tx, s.Known id tx → s.Owns id tx

theorem count_roomExpired_send (app : AppState) (tx tx' : Nat) (e : RoomEvent) :
    ((app.send tx e).channels tx').count .roomExpired =
      (app.channels tx').count .roomExpired +
        if tx' = tx ∧ e = .roomExpired then 1 else 0 := by
  by_cases htx : tx' = tx
  · subst htx
    rw [AppState.send_channels_self, List.count_append, List.count_singleton]
    simp
  · rw [AppState.send_channels_of_ne _ htx]
    simp [htx]

theorem isRelayed_ne_roomExpired {e : RoomEvent} (h : e.isRelayed = true) : e ≠ .roomExpired := by
  rintro rfl; cases h

/-- Channel numbers are only handed out. -/
theorem Step.nextChannel_le (hs : Step s op s') : s.app.nextChannel ≤ s'.app.nextChannel := by
  cases hs with
  | enteredNew => exact Nat.le_succ _
  | _ => exact Nat.le_refl _

/-- The tickets after a step: the old ones, and the one `attach` hands out for a room of the map. -/
theorem Step.ticket (hs : Step s op s') {c : String} {t : Ticket}
    (ht : (s'.conns c).ticket = some t) :
    (s.conns c).ticket = some t ∨
      s.lock = .attaching t.room c ∧ ∃ room', s'.room t.room = some room' ∧ room'.tx = t.tx := by
  have hupd : ∀ {c₀ : String} {conn : Conn}, conn.ticket = (s.conns c₀).ticket →
      (Function.update s.conns c₀ conn c).ticket = some t → (s.conns c).ticket = some t := by
    intro c₀ conn hconn hu
    rw [Function.update_apply] at hu
    split at hu
    · rename_i he; rw [he, ← hconn]; exact hu
    · exact hu
  have hpresent : ∀ {c₀ : String} {t₀ : Ticket} {r : Option Receipt} {x : Bool},
      (s.conns c₀).present = some t₀ → (Conn.detached t₀ r x).ticket = (s.conns c₀).ticket := by
    intro c₀ t₀ r x hp
    cases hc : s.conns c₀ <;> simp [hc, Conn.present, Conn.ticket] at hp ⊢
    all_goals exact hp.symm
  cases hs with
  | turnedAway hlock hc => exact .inl (hupd (by rw [hc]; rfl) ht)
  | @enteredNew c₀ id hlock hroom =>
    simp only [Function.update_apply] at ht
    split at ht
    · rename_i he
      cases ht
      exact .inr ⟨by rw [hlock, he], _, HashMap.get_insert_self _ _ _, rfl⟩
    · exact .inl ht
  | @entered c₀ id room rooms' hlock hroom hputs =>
    simp only [Function.update_apply] at ht
    split at ht
    · rename_i he
      cases ht
      exact .inr ⟨by rw [hlock, he], _, (hputs id).trans (if_pos rfl), rfl⟩
    · exact .inl ht
  | refused hlock hc hroom => exact .inl (hupd (by rw [hc]; rfl) ht)
  | admitted hlock hc hroom => exact .inl (hupd (by rw [hc]; rfl) ht)
  | detachedGone hlock hc hroom => exact .inl (hupd (hpresent hc) ht)
  | detached hlock hc hroom hout => exact .inl (hupd (hpresent hc) ht)
  | left hlock hc hroom hin => exact .inl (hupd (hpresent hc) ht)
  | _ => exact .inl ht

theorem Known.of_step (hs : Step s op s') {id : String} {tx : Nat} (hk : s'.Known id tx) :
    s.Known id tx ∨ Fresh s s' id tx := by
  have hroom : ∀ {room' : Room}, s'.room id = some room' → room'.tx = tx →
      s.Known id tx ∨ Fresh s s' id tx := by
    rintro room' hr rfl
    exact (hs.room hr).imp_left .inl
  rcases hk with ⟨room', hr, htx⟩ | ⟨c, t, ht, rfl, rfl⟩
  · exact hroom hr htx
  · rcases hs.ticket ht with ht' | ⟨-, room', hr, htx⟩
    · exact .inl (.inr ⟨c, t, ht', rfl, rfl⟩)
    · exact hroom hr htx

/-- Only the removal of a room of the channel sends `RoomExpired` on it. -/
theorem Step.expiries (hs : Step s op s') (tx : Nat) :
    s'.expiries tx = s.expiries tx ∨
      ∃ id ids room, s.lock = .expiring (id :: ids) ∧ s.room id = some room ∧ room.tx = tx ∧
        s'.room id = none ∧ s'.lock = .expiring ids ∧ s'.expiries tx = s.expiries tx + 1 := by
  cases hs with
  | admitted => exact .inl ((count_roomExpired_send _ _ tx _).trans (by simp; rfl))
  | left => exact .inl ((count_roomExpired_send _ _ tx _).trans (by simp; rfl))
  | published hc hsender hrelayed =>
    refine .inl ((count_roomExpired_send _ _ tx _).trans ?_)
    simp [isRelayed_ne_roomExpired hrelayed]; rfl
  | @removed id ids room hlock hroom =>
    by_cases htx : tx = room.tx
    · refine .inr ⟨id, ids, room, hlock, hroom, htx.symm, ?_, rfl, ?_⟩
      · simp [Store.room]
      · exact (count_roomExpired_send _ _ tx _).trans (by simp [htx]; rfl)
    · exact .inl ((count_roomExpired_send _ _ tx _).trans (by simp [htx]; rfl))
  | _ => exact .inl rfl

/-- A room leaves the map only when it is removed. -/
theorem Step.room_isSome (hs : Step s op s') {id : String} {room : Room}
    (hr : s.room id = some room) :
    (∃ room', s'.room id = some room' ∧ room'.tx = room.tx) ∨
      ∃ ids, s.lock = .expiring (id :: ids) ∧ s'.room id = none ∧
        s'.expiries room.tx = s.expiries room.tx + 1 := by
  have hputs : ∀ {rooms' : HashMap String Room} {id₀ : String} {room₀ : Room} (room₁ : Room),
      Puts s.app.rooms rooms' id₀ room₁ → s.room id₀ = some room₀ → room₁.tx = room₀.tx →
      ∃ room', HashMap.get rooms' id = some room' ∧ room'.tx = room.tx := by
    intro rooms' id₀ room₀ room₁ hp hroom htx
    rw [hp id]
    split
    · rename_i he; subst he; rw [hr] at hroom; cases hroom; exact ⟨room₁, rfl, htx⟩
    · exact ⟨room, hr, rfl⟩
  cases hs with
  | @enteredNew c id₀ hlock hroom =>
    have hne : id ≠ id₀ := by rintro rfl; rw [hr] at hroom; cases hroom
    refine .inl ⟨room, ?_, rfl⟩
    simp only [Store.room, HashMap.get_insert_of_ne hne]
    exact hr
  | entered hlock hroom hp => exact .inl (hputs _ hp hroom rfl)
  | admitted hlock hc hroom => exact .inl (hputs (Room.with _ _ _) (puts_insert _ _ _) hroom rfl)
  | detached hlock hc hroom => exact .inl (hputs (Room.without _ _) (puts_insert _ _ _) hroom rfl)
  | left hlock hc hroom => exact .inl (hputs (Room.without _ _) (puts_insert _ _ _) hroom rfl)
  | @removed id₀ ids room₀ hlock hroom =>
    by_cases he : id = id₀
    · subst he
      rw [hr] at hroom; cases hroom
      refine .inr ⟨ids, hlock, by simp [Store.room], ?_⟩
      exact (count_roomExpired_send _ _ _ _).trans (by simp; rfl)
    · refine .inl ⟨room, ?_, rfl⟩
      simp only [Store.room, AppState.send_rooms, HashMap.get_remove_of_ne he]
      exact hr
  | _ => exact .inl ⟨room, hr, rfl⟩

/-- A room that is put in the map on a new channel had no channel before. -/
theorem Owns.not_fresh (hrows : RowsInv s) {id : String} {tx tx' : Nat} (h : s.Owns id tx) :
    ¬ Fresh s s' id tx' := by
  intro hfresh
  rcases h.fate with ⟨room, hr, -⟩ | hgone
  · rw [hfresh.absent] at hr; cases hr
  · obtain ⟨c, hlock⟩ := hfresh.lock
    have := (hrows.attaching id c hlock).1
    rw [hgone.row] at this; cases this

theorem Owns.step (hrows : RowsInv s) {id : String} {tx : Nat} (h : s.Owns id tx)
    (hs : Step s op s') : s'.Owns id tx where
  lt := Nat.lt_of_lt_of_le h.lt hs.nextChannel_le
  only id' hk := by
    rcases hk.of_step hs with hk | hfresh
    · exact h.only id' hk
    · exact absurd hfresh.new (Nat.ne_of_lt h.lt)
  sole tx' hk := by
    rcases hk.of_step hs with hk | hfresh
    · exact h.sole tx' hk
    · exact absurd hfresh (h.not_fresh hrows)
  fate := by
    have hcount : ∀ {n}, s.expiries tx = n → (∀ room, s.room id = some room → s'.room id ≠ none) →
        s'.expiries tx = n := by
      intro n hn hkeep
      rcases hs.expiries tx with he | ⟨id₀, ids, room₀, -, hroom₀, htx₀, hnone, -, -⟩
      · rw [he, hn]
      · have : id₀ = id := h.only id₀ (.inl ⟨room₀, hroom₀, htx₀⟩)
        subst this
        exact absurd hnone (hkeep room₀ hroom₀)
    rcases h.fate with ⟨room, hr, htx, hn⟩ | hgone
    · rcases hs.room_isSome hr with ⟨room', hr', htx'⟩ | ⟨ids, hlock, hnone, hexp⟩
      · refine .inl ⟨room', hr', htx'.trans htx, hcount hn ?_⟩
        intro _ _
        rw [hr']; exact Option.some_ne_none _
      · obtain ⟨hrow, hcr⟩ := hrows.deleted _ hlock id (List.mem_cons_self)
        refine .inr ⟨hnone, hs.row_none hcr hrow, hs.created_isSome hcr, ?_⟩
        rw [← htx, hexp, htx, hn]
    · refine .inr ⟨?_, hs.row_none hgone.created hgone.row, hs.created_isSome hgone.created, ?_⟩
      · refine Option.eq_none_iff_forall_ne_some.mpr ?_
        intro room' hr'
        rcases hs.room hr' with ⟨room, hr, -⟩ | hfresh
        · rw [hgone.room] at hr; cases hr
        · exact h.not_fresh hrows hfresh
      · refine hcount hgone.expiries ?_
        intro room hr
        rw [hgone.room] at hr; cases hr

theorem Owns.expiries_eq {id : String} {tx : Nat} (h : s.Owns id tx) :
    s.expiries tx = if (s.room id).isSome then 0 else 1 := by
  rcases h.fate with ⟨room, hr, -, hzero⟩ | hgone
  · rw [hr, hzero]; rfl
  · rw [hgone.room, hgone.expiries]; rfl

/-- A channel has been told of the end when its room has left the map. -/
theorem Owns.expired_iff {id : String} {tx : Nat} (h : s.Owns id tx) :
    RoomEvent.roomExpired ∈ s.log tx ↔ s.room id = none := by
  have hcount : (s.log tx).count .roomExpired = if (s.room id).isSome then 0 else 1 := h.expiries_eq
  rw [← List.count_pos_iff, hcount]
  cases s.room id <;> simp

theorem channelsInv_start (db : Db.Rooms) : ChannelsInv (start db) where
  unused _ _ := rfl
  owns id tx hk := by
    rcases hk with ⟨room, hr, -⟩ | ⟨c, t, ht, -⟩
    · simp [Store.room, start, AppState.new] at hr
    · simp [start, Conn.ticket] at ht

/-- Events are sent on channels that were handed out. -/
theorem ChannelsInv.log_eq (h : ChannelsInv s) (hs : Step s op s') {tx : Nat}
    (htx : s.app.nextChannel ≤ tx) : s'.log tx = s.log tx := by
  have hroom : ∀ {id : String} {room : Room}, s.room id = some room → tx ≠ room.tx := by
    rintro id room hr rfl
    exact absurd htx (Nat.not_le.mpr (h.owns id _ (.inl ⟨room, hr, rfl⟩)).lt)
  cases hs with
  | admitted hlock hc hr => exact AppState.send_channels_of_ne _ (hroom hr) _
  | left hlock hc hr => exact AppState.send_channels_of_ne _ (hroom hr) _
  | removed hlock hr => exact AppState.send_channels_of_ne _ (hroom hr) _
  | @published c t r event hc =>
    refine AppState.send_channels_of_ne _ ?_ _
    rintro rfl
    exact absurd htx (Nat.not_le.mpr (h.owns t.room _ (.inr ⟨c, t, by rw [hc]; rfl, rfl, rfl⟩)).lt)
  | _ => rfl

theorem ChannelsInv.step (hrows : RowsInv s) (h : ChannelsInv s) (hs : Step s op s') :
    ChannelsInv s' where
  unused tx htx := by
    have hle := Nat.le_trans hs.nextChannel_le htx
    rw [h.log_eq hs hle, h.unused tx hle]
  owns id tx hk := by
    rcases hk.of_step hs with hk' | hfresh
    · exact (h.owns id tx hk').step hrows hs
    · have hge : s.app.nextChannel ≤ tx := Nat.le_of_eq hfresh.new.symm
      obtain ⟨room', hr', htx'⟩ := hfresh.room
      obtain ⟨c, hlock⟩ := hfresh.lock
      refine ⟨by rw [hfresh.next, hfresh.new]; exact Nat.lt_succ_self _, fun id' hk' => ?_,
        fun tx' hk' => ?_, .inl ⟨room', hr', htx', ?_⟩⟩
      · rcases hk'.of_step hs with hk' | hfresh'
        · exact absurd hge (Nat.not_le.mpr (h.owns id' tx hk').lt)
        · obtain ⟨c', hlock'⟩ := hfresh'.lock
          rw [hlock] at hlock'
          cases hlock'
          rfl
      · rcases hk'.of_step hs with hk' | hfresh'
        · exact absurd hfresh ((h.owns id tx' hk').not_fresh hrows)
        · rw [hfresh'.new, hfresh.new]
      · rw [expiries, h.log_eq hs hge, h.unused tx hge]
        rfl

end Store
end Parrhesia
