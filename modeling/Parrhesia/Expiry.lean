import Parrhesia.Replay

/-!
# Parrhesia.Expiry

Expired rooms stay expired. Once a statement has deleted the row of an id it never has a row again,
so it is out of the map from the removal on, `attach` turns everybody away and `join` finds no room;
its channel has been told once.
-/

namespace Parrhesia

open Lib

namespace Store

variable {s s' : Store} {op : Op}

/-- An id once inserted whose row is missing has no row in any later state. -/
theorem Inv.row_none (hr : Machine.Reachable Store.step s s') {id : String}
    (hcr : (s.created id).isSome) (hrow : s.row id = none) : s'.row id = none :=
  (hr.invariant (I := fun u => (u.created id).isSome ∧ u.row id = none) ⟨hcr, hrow⟩
    fun _ _ _ ih hs =>
      ⟨(step_cases hs).created_isSome ih.1, (step_cases hs).row_none ih.1 ih.2⟩).2

/-- A room without a row is in the map only while the expiry that deleted it holds the lock. -/
theorem Inv.room_none (hinv : Inv s) {id : String} (hrow : s.row id = none) :
    s.room id = none ∨ ∃ ids, s.lock = .expiring ids ∧ id ∈ ids := by
  cases hroom : s.room id with
  | none => exact .inl rfl
  | some room =>
    refine .inr ((hinv.rows.keyed id room hroom).resolve_left ?_)
    rw [hrow]; exact Bool.false_ne_true

theorem attachSelect_of_row_none {c id : String} {fault : Bool} (hrow : s.row id = none)
    (h : step s (.attachSelect c id fault) = some s') :
    s'.conns c = .turnedAway id ∧ s'.app = s.app ∧ s'.lock = s.lock := by
  cases step_cases h with
  | idle hop => cases hop
  | turnedAway hlock hc => exact ⟨Function.update_self .., rfl, rfl⟩
  | attaching hlock hc hrow' => rw [hrow] at hrow'; cases hrow'

theorem joinSubscribe_of_room_none {c : String} {t : Ticket} {p : Participant}
    {peers : PeerSnapshot} (hc : s.conns c = .attached t) (hroom : s.room t.room = none)
    (h : step s (.joinSubscribe c p peers) = some s') :
    s'.conns c = .refused t .roomGone ∧ s'.app = s.app ∧ s'.lock = s.lock := by
  cases step_cases h with
  | idle hop => cases hop
  | refused hlock hc' hwhy =>
    cases hc.symm.trans hc'
    rcases hwhy with ⟨rfl, -⟩ | ⟨-, room, hroom', -⟩
    · exact ⟨Function.update_self .., rfl, rfl⟩
    · rw [hroom] at hroom'; cases hroom'
  | subscribed hlock hc' hroom' =>
    cases hc.symm.trans hc'
    rw [hroom] at hroom'; cases hroom'

/-- What holds of a deleted id in every later state. -/
structure Expired (s' : Store) (id : String) : Prop where
  row : s'.row id = none
  room : s'.room id = none ∨ ∃ ids, s'.lock = .expiring ids ∧ id ∈ ids
  attach : ∀ c fault s'', step s' (.attachSelect c id fault) = some s'' →
    s''.conns c = .turnedAway id ∧ s''.app = s'.app ∧ s''.lock = s'.lock
  join : ∀ c t p peers s'', s'.conns c = .attached t → t.room = id →
    step s' (.joinSubscribe c p peers) = some s'' →
      s''.conns c = .refused t .roomGone ∧ s''.app = s'.app ∧ s''.lock = s'.lock

theorem Inv.expired (hinv : Inv s) {id : String} (hrow : s.row id = none) : s.Expired id where
  row := hrow
  room := hinv.room_none hrow
  attach _ _ _ h := attachSelect_of_row_none hrow h
  join c t p peers s'' hc hid h := by
    subst hid
    refine joinSubscribe_of_room_none hc ?_ h
    refine (hinv.room_none hrow).resolve_right ?_
    rintro ⟨ids, hlock, -⟩
    cases step_cases h with
    | idle hop => cases hop
    | refused hl => rw [hlock] at hl; cases hl
    | subscribed hl => rw [hlock] at hl; cases hl

/-- **No resurrection.** Every key of the map has a row, but for the ids an expiry has deleted and is
removing while it holds the lock. What it deletes stays gone in every later state: no row, no room
once it is removed, no `attach` and no `join`; and `RoomExpired` is sent once, with the removal. A
database error in `attach` or `expire_inactive_rooms` changes neither map nor table. The sender
and the receiver of a connection belong to one channel. -/
theorem no_resurrection (s : Store) (hs : Reachable s) :
    (∀ id room, s.room id = some room →
      (s.row id).isSome ∨ ∃ ids, s.lock = .expiring ids ∧ id ∈ ids) ∧
    (∀ now threshold ids s₁, step s (.expireDelete now threshold ids false) = some s₁ →
      ∀ id ∈ ids, ∀ s', Machine.Reachable step s₁ s' → s'.Expired id ∧
        ∀ room, s.room id = some room →
          s'.expiries room.tx = if (s'.room id).isSome then 0 else 1) ∧
    (∀ c id s', step s (.attachSelect c id true) = some s' → s'.app = s.app) ∧
    (∀ now threshold ids s', step s (.expireDelete now threshold ids true) = some s' → s' = s) ∧
    (∀ c t r, (s.conns c).ticket = some t → (s.conns c).receipt = some r →
      r.receiver.tx = t.tx) := by
  have hinv := hs.inv
  refine ⟨hinv.rows.keyed, ?_, ?_, ?_, fun c t r ht hr => (hinv.logs.admitted c t r ht hr).tx⟩
  · intro now threshold ids s₁ h₁ id hid s' hs'
    have hinv₁ := hinv.step (step_cases h₁)
    obtain ⟨hrow, hcr⟩ : s₁.row id = none ∧ (s₁.created id).isSome := by
      cases step_cases h₁ with
      | idle hop => cases hop
      | deleted hlock hids => exact hinv₁.rows.deleted ids rfl id hid
    refine ⟨(hinv₁.reachable hs').expired (Inv.row_none hs' hcr hrow), ?_⟩
    intro room hroom
    have hown : s.Owns id room.tx := hinv.channels.owns id room.tx (.inl ⟨room, hroom, rfl⟩)
    exact (hinv₁.owns_keep hs' (hown.step hinv.rows (step_cases h₁))).expiries_eq
  · intro c id s' h
    cases step_cases h with
    | idle hop => cases hop
    | turnedAway => rfl
  · intro now threshold ids s' h
    cases step_cases h with
    | idle => rfl

/-- A room with one connection is expired; what is left of it afterwards. -/
theorem no_resurrection_openRoom : ∃ s s₁ s', Machine.run step (start openRoom) (attaches "a") = some s ∧
    step s (.expireDelete 100 10 ["room"] false) = some s₁ ∧
    Machine.run step s₁ [.expireRemove, .expireDone] = some s' ∧
    s'.Expired "room" ∧ s'.expiries 0 = 1 := by
  have hrun : ∃ s s₁ s' room, Machine.run step (start openRoom) (attaches "a") = some s ∧
      step s (.expireDelete 100 10 ["room"] false) = some s₁ ∧
      Machine.run step s₁ [.expireRemove, .expireDone] = some s' ∧
      s.room "room" = some room ∧ room.tx = 0 ∧ (s'.room "room").isSome = false := by
    refine ⟨_, _, _, _, rfl, rfl, rfl, rfl, ?_, ?_⟩ <;> decide +kernel
  obtain ⟨s, s₁, s', room, hrun, h₁, hrun', hroom, htx, hout⟩ := hrun
  obtain ⟨hexpired, hsent⟩ := (no_resurrection s ⟨openRoom, _, hrun⟩).2.1 100 10 ["room"] s₁ h₁
    "room" (List.mem_singleton_self _) s' ⟨_, hrun'⟩
  have := hsent room hroom
  rw [htx, hout] at this
  exact ⟨s, s₁, s', hrun, h₁, hrun', hexpired, this⟩

end Store
end Parrhesia
