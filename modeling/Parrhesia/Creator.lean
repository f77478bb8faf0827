import Parrhesia.Logs

/-!
# Parrhesia.Creator

Who is called the creator of a room. `attach` makes the first connection the creator of a room that
has none, `detach` forgets the creator when it leaves the participants empty.

A connection that has attached and not yet joined is no participant, so a `detach` can forget the
creator it was told about; the next one to attach is then a second creator (`two_creators`). In a run
where no detach does that (`ForgetsNobody`), everybody in a room was told the same creator
(`creator_agreement`), and an occupied room has one (`occupied_room_creator`). It is kept when the
creator itself leaves (`creator_may_be_gone`).
-/

namespace Parrhesia

open Lib

/-- The ticket of a connection that is in a room or may still join it. -/
def Conn.staying : Conn → Option Ticket
  | .attached t => some t
  | .joined t _ => some t
  | _ => none

namespace Store

variable {s s' : Store} {op : Op}

/-- A detach that empties the participants happens while nobody else is between `attach` and `join`
in that room. -/
def ForgetsNobody (s : Store) : Op → Prop
  | .detach c => ∀ t room, (s.conns c).present = some t → s.room t.room = some room →
      HashMap.isEmpty (room.without c).participants = true →
        ∀ d u, d ≠ c → s.conns d = .attached u → u.room ≠ t.room
  | _ => True

/-- What happens to the creator of room `id` in a step that leaves it as `room'`. -/
inductive Creation (s : Store) (op : Op) (s' : Store) (id : String) (room' : Room) : Prop
  | kept {room} (hroom : s.room id = some room) (htx : room.tx = room'.tx)
      (heq : room'.creatorId = room.creatorId)
  | taken {c} (hlock : s.lock = .attaching id c)
      (hfree : ∀ room, s.room id = some room → room.creatorId = none)
      (hcreator : room'.creatorId = some c)
      (hc' : s'.conns c = .attached ⟨⟨room'.tx, true, some c⟩, id⟩)
  | forgotten {c t room} (hop : op = .detach c) (hc : (s.conns c).present = some t)
      (hid : t.room = id) (hroom : s.room id = some room)
      (hempty : HashMap.isEmpty (room.without c).participants = true)
      (hnone : room'.creatorId = none) (hc' : (s'.conns c).staying = none)

theorem without_creatorId (room : Room) (c : String) :
    (room.without c).creatorId = room.creatorId ∨
      HashMap.isEmpty (room.without c).participants = true ∧ (room.without c).creatorId = none := by
  simp only [Room.without]
  split
  · rename_i he; exact .inr ⟨he, rfl⟩
  · exact .inl rfl

theorem Step.creation (hs : Step s op s') {id : String} {room' : Room}
    (hr : s'.room id = some room') : Creation s op s' id room' := by
  have hputs : ∀ {rooms' : HashMap String Room} {id₀ : String} (room₁ : Room),
      Puts s.app.rooms rooms' id₀ room₁ → HashMap.get rooms' id = some room' →
      (id = id₀ → room' = room₁ → Creation s op s' id room') → Creation s op s' id room' := by
    intro rooms' id₀ room₁ hp hget hat
    rw [hp id] at hget
    split at hget
    · rename_i he; cases hget; exact hat he rfl
    · exact .kept hget rfl rfl
  cases hs with
  | @enteredNew c id₀ hlock hroom =>
    refine hputs _ (puts_insert _ _ _) hr ?_
    intro hid he
    subst hid he
    refine .taken hlock ?_ rfl (Function.update_self ..)
    intro room hr
    rw [hroom] at hr; cases hr
  | @entered c id₀ room₀ rooms' hlock hroom hp =>
    refine hputs _ hp hr ?_
    intro hid he
    subst hid he
    cases hcreator : room₀.creatorId with
    | some creator => exact .kept hroom rfl (by simp [hcreator])
    | none =>
      refine .taken hlock ?_ rfl ?_
      · intro room hr
        rw [hroom] at hr; cases hr; exact hcreator
      · simp
  | @admitted c r t room₀ hlock hc hroom =>
    refine hputs (room₀.with c r.participant) (puts_insert _ _ _) hr ?_
    intro hid he
    subst hid he
    exact .kept hroom rfl rfl
  | @detached c t room₀ hlock hc hroom hout =>
    refine hputs (room₀.without c) (puts_insert _ _ _) hr ?_
    intro hid he
    subst hid he
    rcases without_creatorId room₀ c with hkept | ⟨hempty, hnone⟩
    · exact .kept hroom rfl hkept
    · exact .forgotten rfl hc rfl hroom hempty hnone (by simp [Conn.staying])
  | @left c t room₀ p hlock hc hroom hin =>
    refine hputs (room₀.without c) (puts_insert _ _ _) hr ?_
    intro hid he
    subst hid he
    rcases without_creatorId room₀ c with hkept | ⟨hempty, hnone⟩
    · exact .kept hroom rfl hkept
    · exact .forgotten rfl hc rfl hroom hempty hnone (by simp [Conn.staying])
  | @removed id₀ ids room₀ hlock hroom =>
    simp only [Store.room, AppState.send_rooms, HashMap.get_remove] at hr
    split at hr
    · cases hr
    · exact .kept hr rfl rfl
  | _ => exact .kept hr rfl rfl

/-- What a connection that attaches is told. -/
inductive Told (s s' : Store) (c : String) (t : Ticket) : Prop
  | first {room'} (hfree : ∀ room, s.room t.room = some room → room.creatorId = none)
      (hroom' : s'.room t.room = some room') (htx : room'.tx = t.tx)
      (hcreator' : room'.creatorId = some c) (hcreator : t.creatorId = some c)
      (hfirst : t.isCreator = true)
  | second {room room' creator} (hroom : s.room t.room = some room)
      (hroom' : s'.room t.room = some room') (htx : room'.tx = t.tx)
      (hold : room.creatorId = some creator) (hcreator' : room'.creatorId = some creator)
      (hcreator : t.creatorId = some creator) (hfirst : t.isCreator = false)

theorem Step.told (hrows : RowsInv s) (hs : Step s op s') {c : String} {t : Ticket}
    (hlock : s.lock = .attaching t.room c) (hc' : s'.conns c = .attached t) : Told s s' c t := by
  have hfresh := (hrows.attaching _ _ hlock).2
  have hsame : s'.conns c = s.conns c → Told s s' c t := by
    intro he
    rw [he, hfresh] at hc'; cases hc'
  have hfree : s.lock = .free → Told s s' c t := by
    intro hl
    rw [hlock] at hl; cases hl
  cases hs with
  | enteredNew hlock' hroom =>
    rw [hlock] at hlock'
    cases hlock'
    simp only [Function.update_self, Conn.attached.injEq] at hc'
    have hfree : ∀ room, s.room t.room = some room → room.creatorId = none := by
      intro room hr
      rw [hroom] at hr; cases hr
    rw [← hc'] at hfree ⊢
    exact .first hfree (HashMap.get_insert_self ..) rfl rfl rfl rfl
  | @entered c₀ id₀ room rooms' hlock' hroom hputs =>
    rw [hlock] at hlock'
    cases hlock'
    simp only [Function.update_self, Conn.attached.injEq] at hc'
    have hroom' : HashMap.get rooms' t.room = some _ := (hputs t.room).trans (if_pos rfl)
    cases hcreator : room.creatorId with
    | none =>
      have hfree : ∀ room, s.room t.room = some room → room.creatorId = none := by
        intro room' hr
        rw [hroom] at hr; cases hr; exact hcreator
      rw [hcreator] at hc' hroom'
      rw [← hc'] at hroom' hfree ⊢
      exact .first hfree hroom' rfl rfl rfl rfl
    | some creator =>
      rw [hcreator] at hc' hroom'
      rw [← hc'] at hroom hroom' ⊢
      exact .second hroom hroom' rfl hcreator rfl rfl rfl
  | turnedAway hl => exact hfree hl
  | refused hl => exact hfree hl
  | detachedGone hl => exact hfree hl
  | detached hl => exact hfree hl
  | left hl => exact hfree hl
  | admitted hl => rw [hlock] at hl; cases hl
  | _ => exact hsame rfl

/-- Every ticket names a creator, its own holder when it says so, and every creator of the map was
told that it is the creator. -/
structure ToldInv (s : Store) : Prop where
  told : ∀ c t, (s.conns c).ticket = some t →
    ∃ creator, t.creatorId = some creator ∧ (t.isCreator = true ↔ creator = c)
  made : ∀ id room creator, s.room id = some room → room.creatorId = some creator →
    ∃ t, (s.conns creator).ticket = some t ∧ t.room = id ∧ t.isCreator = true

theorem toldInv_start (db : Db.Rooms) : ToldInv (start db) where
  told c t h := by simp [start, Conn.ticket] at h
  made id room creator h := by simp [Store.room, start, AppState.new] at h

theorem ToldInv.step (hrows : RowsInv s) (h : ToldInv s) (hs : Step s op s') : ToldInv s' where
  told c t ht := by
    rcases hs.conn c with he | hmoved
    · rw [he] at ht; exact h.told c t ht
    · cases hmoved with
      | turnedAway hc hc' => rw [hc'] at ht; cases ht
      | attached hlock hc' =>
        rw [hc'] at ht
        cases ht
        cases hs.told hrows hlock hc' with
        | first hfree hroom' htx hcreator' hcreator hfirst =>
          exact ⟨c, hcreator, by simp [hfirst]⟩
        | second hroom hroom' htx hold hcreator' hcreator hfirst =>
          refine ⟨_, hcreator, ?_⟩
          rw [hfirst]
          refine ⟨fun hf => (by cases hf), ?_⟩
          rintro rfl
          obtain ⟨u, hu, -⟩ := h.made _ _ _ hroom hold
          rw [(hrows.attaching _ _ hlock).2] at hu; cases hu
      | refused hc hc' => rw [hc'] at ht; exact h.told c t (by rw [hc]; exact ht)
      | joined hlock hc hroom hc' => rw [hc'] at ht; exact h.told c t (by rw [hc]; exact ht)
      | detached hc hc' => rw [hc'] at ht; exact h.told c t ((present_ticket hc).trans ht)
  made id room' creator hr hcreator := by
    cases hs.creation hr with
    | kept hroom htx heq =>
      obtain ⟨t, ht, hid, hfirst⟩ := h.made id _ creator hroom (heq.symm.trans hcreator)
      exact ⟨t, hs.ticket_keep hrows ht, hid, hfirst⟩
    | taken hlock hfree hcreator' hc' =>
      rw [hcreator'] at hcreator
      cases hcreator
      exact ⟨_, by rw [hc']; rfl, rfl, rfl⟩
    | forgotten hop hc hid hroom hempty hnone =>
      rw [hnone] at hcreator; cases hcreator

/-- Whoever is in a room, or may still join it, was told the creator the room has. -/
def Agrees (s : Store) : Prop :=
  ∀ c t room, (s.conns c).staying = some t → s.room t.room = some room →
    room.creatorId = t.creatorId

theorem staying_ticket {conn : Conn} {t : Ticket} (h : conn.staying = some t) :
    conn.ticket = some t := by
  cases conn <;> simp [Conn.staying, Conn.ticket] at h ⊢ <;> exact h

/-- The creator of a room somebody stays in is forgotten by no step that meets `ForgetsNobody`. -/
theorem Agrees.kept (hinv : Inv s) (htold : ToldInv s) (h : Agrees s) (hcond : ForgetsNobody s op)
    (hs : Step s op s') {c : String} {t : Ticket} {room' : Room}
    (hc : (s.conns c).staying = some t) (hc' : (s'.conns c).staying ≠ none)
    (hr : s'.room t.room = some room') : room'.creatorId = t.creatorId := by
  cases hs.creation hr with
  | kept hroom htx heq => rw [heq]; exact h c t _ hc hroom
  | taken hlock hfree hcreator' hc₁ =>
    cases hroom : s.room t.room with
    | none =>
      exact absurd rfl (hinv.channels.room_ne hroom (hinv.rows.attaching _ _ hlock).1
        (staying_ticket hc))
    | some room =>
      obtain ⟨creator, hsome, -⟩ := htold.told c t (staying_ticket hc)
      rw [← h c t room hc hroom, hfree room hroom] at hsome
      cases hsome
  | @forgotten c₁ t₁ room hop hc₁ hid hroom hempty hnone hc₁' =>
    subst hop
    have hne : c ≠ c₁ := by rintro rfl; exact hc' hc₁'
    cases hconn : s.conns c with
    | attached u =>
      rw [hconn] at hc
      cases hc
      exact absurd hid.symm (hcond t₁ room hc₁ (hid ▸ hroom) hempty c t hne hconn)
    | joined u r =>
      rw [hconn] at hc
      cases hc
      have hin := (hinv.members.seated _ room hroom c r.participant).mpr ⟨t, r, hconn, rfl, rfl⟩
      have hout := HashMap.isEmpty_iff.mp hempty c
      rw [show HashMap.get (room.without c₁).participants c = HashMap.get room.participants c from
        HashMap.get_remove_of_ne hne, hin] at hout
      cases hout
    | _ => rw [hconn] at hc; cases hc

theorem Agrees.step (hinv : Inv s) (htold : ToldInv s) (h : Agrees s) (hcond : ForgetsNobody s op)
    (hs : Step s op s') : Agrees s' := by
  intro c t room' hc' hr
  have hstay : (s'.conns c).staying ≠ none := by rw [hc']; exact Option.some_ne_none _
  rcases hs.conn c with he | hmoved
  · rw [he] at hc'
    exact h.kept hinv htold hcond hs hc' hstay hr
  · cases hmoved with
    | turnedAway hc hc₁ => rw [hc₁] at hc'; cases hc'
    | attached hlock hc₁ =>
      rw [hc₁] at hc'
      cases hc'
      cases hs.told hinv.rows hlock hc₁ with
      | first hfree hroom' htx hcreator' hcreator =>
        rw [hr] at hroom'; cases hroom'; rw [hcreator', hcreator]
      | second hroom hroom' htx hold hcreator' hcreator =>
        rw [hr] at hroom'; cases hroom'; rw [hcreator', hcreator]
    | refused hc hc₁ => rw [hc₁] at hc'; cases hc'
    | joined hlock hc hroom hc₁ =>
      rw [hc₁] at hc'
      cases hc'
      exact h.kept hinv htold hcond hs (by rw [hc]; rfl) hstay hr
    | detached hc hc₁ => rw [hc₁] at hc'; cases hc'

/-- The invariants after a run in which no detach forgets a creator somebody was told about. -/
theorem agrees_along {db : Db.Rooms} {ops : List Op}
    (hrun : Machine.run step (start db) ops = some s)
    (halong : Machine.Along step ForgetsNobody (start db) ops) :
    Inv s ∧ ToldInv s ∧ Agrees s := by
  refine Machine.run_invariant_along (I := fun s => Inv s ∧ ToldInv s ∧ Agrees s)
    ⟨inv_start db, toldInv_start db, ?_⟩ ?_ halong hrun
  · intro c t room hc; simp [start, Conn.staying] at hc
  · rintro s op s' ⟨hinv, htold, hagrees⟩ hcond hs
    have hs' := step_cases hs
    exact ⟨hinv.step hs', htold.step hinv.rows hs', hagrees.step hinv htold hcond hs'⟩

/-- A participant has joined and was told the creator of the room. -/
theorem Agrees.participant (hinv : Inv s) (h : Agrees s) {id c : String} {room : Room}
    {p : Participant} (hroom : s.room id = some room)
    (hin : HashMap.get room.participants c = some p) :
    ∃ t, (s.conns c).ticket = some t ∧ t.room = id ∧ room.creatorId = t.creatorId := by
  obtain ⟨t, r, hc, rfl, -⟩ := (hinv.members.seated id room hroom c p).mp hin
  exact ⟨t, by rw [hc]; rfl, rfl, h c t room (by rw [hc]; rfl) hroom⟩

/-! ## Runs -/

def announced : Participant := ⟨"pk", "pq", none⟩

def seenAs (id : String) : Peer := Peer.of (id, announced)

def attaches (c : String) : List Op := [.attachSelect c "room" false, .attachInsert]

def joins (c : String) (peers : PeerSnapshot) : List Op :=
  [.joinSubscribe c announced peers, .joinInsert]

/-- Two connections attach, then both join. -/
def twoJoin : List Op := attaches "a" ++ attaches "b" ++ joins "a" [] ++ joins "b" [seenAs "a"]

theorem twoJoin_run : ∃ s room, Machine.run step (start openRoom) twoJoin = some s ∧
    s.room "room" = some room ∧ HashMap.get room.participants "a" = some announced ∧
    HashMap.get room.participants "b" = some announced := by
  refine ⟨_, _, rfl, rfl, ?_, ?_⟩ <;> decide +kernel

def Op.isDetach : Op → Bool
  | .detach _ => true
  | _ => false

theorem along_of_no_detach {ops : List Op} (h : ∀ op ∈ ops, op.isDetach = false) (s : Store) :
    Machine.Along step ForgetsNobody s ops := by
  rintro pre op post t rfl -
  have hop := h op (by simp)
  cases op with
  | detach c => cases hop
  | _ => trivial

/-- **Creator agreement**, in every run where no detach forgets a creator that somebody between
`attach` and `join` was told about. -/
theorem creator_agreement (db : Db.Rooms) (ops : List Op) (s : Store)
    (hrun : Machine.run step (start db) ops = some s)
    (halong : Machine.Along step ForgetsNobody (start db) ops) (id : String) (room : Room)
    (hroom : s.room id = some room) (c d : String) (p q : Participant)
    (hc : HashMap.get room.participants c = some p)
    (hd : HashMap.get room.participants d = some q) :
    ∃ t u, (s.conns c).ticket = some t ∧ (s.conns d).ticket = some u ∧
      t.creatorId = u.creatorId ∧ (t.isCreator = true → u.isCreator = true → c = d) := by
  obtain ⟨hinv, htold, hagrees⟩ := agrees_along hrun halong
  obtain ⟨t, ht, -, htc⟩ := hagrees.participant hinv hroom hc
  obtain ⟨u, hu, -, huc⟩ := hagrees.participant hinv hroom hd
  refine ⟨t, u, ht, hu, htc.symm.trans huc, ?_⟩
  intro hfirst hfirst'
  obtain ⟨creator, hcreator, hiff⟩ := htold.told c t ht
  obtain ⟨creator', hcreator', hiff'⟩ := htold.told d u hu
  rw [← htc] at hcreator
  rw [← huc, hcreator] at hcreator'
  cases hcreator'
  rw [← hiff.mp hfirst, ← hiff'.mp hfirst']

theorem creator_agreement_twoJoin : ∃ s t u, Machine.run step (start openRoom) twoJoin = some s ∧
    (s.conns "a").ticket = some t ∧ (s.conns "b").ticket = some u ∧ t.creatorId = u.creatorId := by
  obtain ⟨s, room, hrun, hroom, ha, hb⟩ := twoJoin_run
  obtain ⟨t, u, ht, hu, he, -⟩ := creator_agreement openRoom twoJoin s hrun
    (along_of_no_detach (by decide) _) "room" room hroom "a" "b" announced announced ha hb
  exact ⟨s, t, u, hrun, ht, hu, he⟩

/-- `b` detaches while `a`, the creator, has not joined; `c` attaches, and `a` and `c` join. -/
def forgotten : List Op :=
  attaches "a" ++ attaches "b" ++ [.detach "b"] ++ attaches "c" ++ joins "a" [] ++
    joins "c" [seenAs "a"]

/-- The two participants were both told that they are the creator. -/
theorem two_creators : ¬ ∀ s, Reachable s → ∀ id room, s.room id = some room → ∀ c d p q t u,
    HashMap.get room.participants c = some p → HashMap.get room.participants d = some q →
    (s.conns c).ticket = some t → (s.conns d).ticket = some u →
    t.creatorId = u.creatorId ∧ (t.isCreator = true → u.isCreator = true → c = d) := by
  intro h
  have hrun : ∃ s room, Machine.run step (start openRoom) forgotten = some s ∧
      s.room "room" = some room ∧ HashMap.get room.participants "a" = some announced ∧
      HashMap.get room.participants "c" = some announced ∧
      (s.conns "a").ticket = some ⟨⟨0, true, some "a"⟩, "room"⟩ ∧
      (s.conns "c").ticket = some ⟨⟨0, true, some "c"⟩, "room"⟩ := by
    refine ⟨_, _, rfl, rfl, ?_, ?_, ?_, ?_⟩ <;> decide +kernel
  obtain ⟨s, room, hrun, hroom, ha, hc, ht, hu⟩ := hrun
  have := h s ⟨openRoom, forgotten, hrun⟩ "room" room hroom "a" "c" _ _ _ _ ha hc ht hu
  exact absurd this.1 (by decide)

/-- **An occupied room has a creator**, in the same runs: somebody who attached to it, was told so,
and may have detached since. The participants were told of it, and so is whoever attaches next. -/
theorem occupied_room_creator (db : Db.Rooms) (ops : List Op) (s : Store)
    (hrun : Machine.run step (start db) ops = some s)
    (halong : Machine.Along step ForgetsNobody (start db) ops) (id : String) (room : Room)
    (hroom : s.room id = some room) (hoccupied : HashMap.isEmpty room.participants = false) :
    ∃ creator t, room.creatorId = some creator ∧ (s.conns creator).ticket = some t ∧
      t.room = id ∧ t.isCreator = true ∧
      (∀ c p, HashMap.get room.participants c = some p →
        ∃ u, (s.conns c).ticket = some u ∧ u.creatorId = some creator) ∧
      ∀ c s', s.lock = .attaching id c → step s .attachInsert = some s' →
        ∃ u room', s'.conns c = .attached u ∧ u.isCreator = false ∧ u.creatorId = some creator ∧
          s'.room id = some room' ∧ room'.creatorId = some creator := by
  obtain ⟨hinv, htold, hagrees⟩ := agrees_along hrun halong
  obtain ⟨c₀, p₀, hin⟩ := HashMap.isEmpty_eq_false_iff.mp hoccupied
  obtain ⟨t₀, ht₀, -, hc₀⟩ := hagrees.participant hinv hroom hin
  obtain ⟨creator, hcreator, -⟩ := htold.told c₀ t₀ ht₀
  rw [← hc₀] at hcreator
  obtain ⟨t, ht, hid, hfirst⟩ := htold.made id room creator hroom hcreator
  refine ⟨creator, t, hcreator, ht, hid, hfirst, ?_, ?_⟩
  · intro c p hc
    obtain ⟨u, hu, -, huc⟩ := hagrees.participant hinv hroom hc
    exact ⟨u, hu, by rw [← huc, hcreator]⟩
  · intro c s' hlock hs
    have hs' := step_cases hs
    obtain ⟨u, hu, rfl⟩ : ∃ u, s'.conns c = .attached u ∧ u.room = id := by
      simp only [step, attachInsert, hlock, Option.some.injEq] at hs
      rw [← hs]
      exact ⟨_, Function.update_self .., rfl⟩
    cases hs'.told hinv.rows hlock hu with
    | first hfree => rw [hfree room hroom] at hcreator; cases hcreator
    | second hroom₀ hroom' htx hold hcreator' hu' hnot =>
      rw [hroom] at hroom₀
      cases hroom₀
      rw [hcreator] at hold
      cases hold
      exact ⟨u, _, hu, hnot, hu', hroom', hcreator'⟩

theorem occupied_room_creator_twoJoin : ∃ s room creator,
    Machine.run step (start openRoom) twoJoin = some s ∧ s.room "room" = some room ∧
      room.creatorId = some creator := by
  obtain ⟨s, room, hrun, hroom, ha, -⟩ := twoJoin_run
  obtain ⟨creator, t, hcreator, -⟩ := occupied_room_creator openRoom twoJoin s hrun
    (along_of_no_detach (by decide) _) "room" room hroom
    (HashMap.isEmpty_eq_false_iff.mpr ⟨"a", announced, ha⟩)
  exact ⟨s, room, creator, hrun, hroom, hcreator⟩

/-- The creator of an occupied room may have detached: the others stay and it is kept. -/
theorem creator_may_be_gone : ¬ ∀ s, Reachable s → ∀ id room, s.room id = some room →
    HashMap.isEmpty room.participants = false →
      ∃ creator t, room.creatorId = some creator ∧ (s.conns creator).present = some t ∧
        t.room = id := by
  intro h
  have hrun : ∃ s room, Machine.run step (start openRoom) (twoJoin ++ [.detach "a"]) = some s ∧
      s.room "room" = some room ∧ HashMap.isEmpty room.participants = false ∧
      room.creatorId = some "a" ∧ (s.conns "a").present = none := by
    refine ⟨_, _, rfl, rfl, ?_, ?_, ?_⟩ <;> decide +kernel
  obtain ⟨s, room, hrun, hroom, hoccupied, hcreator, hgone⟩ := hrun
  obtain ⟨creator, t, hcreator', hpresent, -⟩ := h s ⟨openRoom, _, hrun⟩ "room" room hroom hoccupied
  rw [hcreator] at hcreator'
  cases hcreator'
  rw [hgone] at hpresent
  cases hpresent

end Store
end Parrhesia
