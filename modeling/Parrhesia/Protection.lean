import Parrhesia.Rooms

/-!
# Parrhesia.Protection

Whether a room has a password: what `create_room` makes of a request, and what the endpoints say of
it afterwards.

* `Create.Account` : what a call has inserted at each place, and where the hash it carries comes from.
* `Session.Asked`  : the sockets that are asked to authenticate have read a hash from the table.
* `Agreed`         : everything that is said of a room, in a state after its creation.
-/

namespace Parrhesia

open Lib Rooms

/-! ## The request -/

/-- An object whose `password` is absent or null. -/
def Json.WithoutPassword (json : Json) : Prop :=
  ∃ fields, json = .object fields ∧ ∀ value, ("password", value) ∈ fields → value = .null

/-- The body asks for an open room: it is empty, an object without a password, or an array of one
null. -/
def CreateCall.AsksOpen (env : Http) (call : CreateCall) : Prop :=
  call.body = [] ∨ ∃ json, env.parseJson call.body = some json ∧
    (json.WithoutPassword ∨ json = .array [.null])

/-- What a room is created with: no hash if no password was read, else what `hash` returned for the
password. -/
def CreateCall.Gives (env : Http) (call : CreateCall) : Option String → Prop
  | none => call.read env = .ok ⟨none⟩
  | some passwordHash => ∃ password, call.read env = .ok ⟨some password⟩ ∧
      Passwords.hashesTo env.crates password passwordHash

variable {env : Http} {call : CreateCall}

theorem Json.optionString_none {json : Json} (h : json.optionString = some none) : json = .null := by
  cases json with
  | null => rfl
  | _ => cases h

theorem CreateRoomRequest.deserialize_none {json : Json} (h : deserialize json = some ⟨none⟩) :
    json.WithoutPassword ∨ json = .array [.null] := by
  unfold deserialize at h
  split at h
  · exact .inl ⟨[], rfl, by simp⟩
  · rename_i key value
    split at h
    · obtain ⟨password, hvalue, hpassword⟩ := Option.map_eq_some_iff.mp h
      cases hpassword
      rw [Json.optionString_none hvalue]
      exact .inl ⟨_, rfl, by simp⟩
    · cases h
  · obtain ⟨password, hvalue, hpassword⟩ := Option.map_eq_some_iff.mp h
    cases hpassword
    rw [Json.optionString_none hvalue]
    exact .inr rfl
  · cases h

theorem CreateCall.asksOpen (h : call.read env = .ok ⟨none⟩) : call.AsksOpen env := by
  unfold read at h
  split at h
  · rename_i hempty
    exact .inl (List.isEmpty_iff.mp hempty)
  · split at h
    · cases h
    · split at h
      · rename_i request hrequest
        cases h
        obtain ⟨json, hparse, hjson⟩ := Option.bind_eq_some_iff.mp hrequest
        exact .inr ⟨json, hparse, CreateRoomRequest.deserialize_none hjson⟩
      · cases h

theorem CreateCall.read_error {response : Response CreateRoomResponse}
    (h : call.read env = .error response) : response.isSuccess = false := by
  unfold read at h
  split at h
  · cases h
  · split at h
    · cases h; rfl
    · split at h <;> cases h
      rfl

theorem Rooms.admissionError_isSuccess (e : Admission.AdmissionError) :
    (admissionError e : Response CreateRoomResponse).isSuccess = false := by
  cases e <;> rfl

theorem Rooms.hashError_isSuccess (e : PasswordError) :
    (hashError e : Response CreateRoomResponse).isSuccess = false := by
  cases e <;> rfl

/-! ## What a call has inserted -/

/-- What holds of a call at each place. -/
def Create.Account (env : Http) (sh : Shared) (t : Create) : Prop :=
  match t.pc with
  | .hash password => t.inserted = [] ∧ t.call.read env = .ok ⟨some password⟩
  | .hashing password job => t.inserted = [] ∧ t.call.read env = .ok ⟨some password⟩ ∧
      ∃ normalized salt, Passwords.normalize env.crates password = .ok normalized ∧
        env.crates.blocklist.contains normalized = false ∧
        sh.passwords.Assigned env.crates job (.hash normalized salt)
  | .insert passwordHash => t.inserted = [] ∧ t.call.Gives env passwordHash
  | .responded (.json answer) => ∃ row, t.inserted = [(answer.roomId, row)] ∧
      row.passwordHash.isSome = answer.passwordRequired ∧
      sh.store.created answer.roomId = some row.passwordHash ∧ t.call.Gives env row.passwordHash
  | _ => t.inserted = []

section Account

variable {sh sh' : Shared} {t : Create}

theorem Create.account_failed {response : Response CreateRoomResponse}
    (hfail : response.isSuccess = false) {inserted : List (String × Db.Row)} (h : inserted = []) :
    Create.Account env sh ⟨call, .responded response, inserted⟩ := by
  cases response with
  | json answer => cases hfail
  | _ => exact h

theorem Create.account_ofRead {inserted : List (String × Db.Row)} (h : inserted = []) :
    Create.Account env sh ⟨call, .ofRead (call.read env), inserted⟩ := by
  cases hread : call.read env with
  | error response => exact account_failed (CreateCall.read_error hread) h
  | ok request =>
    obtain ⟨_ | password⟩ := request
    · exact ⟨h, hread⟩
    · exact ⟨h, hread⟩

/-- What others do leaves it. -/
theorem Create.Account.keep (h : t.Account env sh) (hstore : sh.store.Stepped sh'.store)
    (hturned : sh.passwords.Turned env.crates sh'.passwords) : t.Account env sh' := by
  obtain ⟨call, pc, inserted⟩ := t
  cases pc with
  | hashing password job =>
    obtain ⟨hnone, hread, normalized, salt, hnormalize, hcommon, hassigned⟩ := h
    exact ⟨hnone, hread, normalized, salt, hnormalize, hcommon, hassigned.turned hturned⟩
  | responded response =>
    cases response with
    | json answer =>
      obtain ⟨row, hinserted, hflag, hcreated, hgives⟩ := h
      exact ⟨row, hinserted, hflag, hstore.created_keep hcreated, hgives⟩
    | _ => exact h
  | _ => exact h

theorem Create.Account.inserted (h : t.Account env sh)
    (hfail : ∀ answer, t.pc.response ≠ some (.json answer)) : t.inserted = [] := by
  obtain ⟨call, pc, inserted⟩ := t
  cases pc with
  | request => exact h
  | budget ip => exact h
  | hash password => exact h.1
  | hashing password job => exact h.1
  | insert passwordHash => exact h.1
  | responded response =>
    cases response with
    | json answer => exact absurd rfl (hfail answer)
    | _ => exact h

theorem Create.Account.answered (h : t.Account env sh) {answer : CreateRoomResponse}
    (hanswer : t.pc.response = some (.json answer)) : ∃ row, t.inserted = [(answer.roomId, row)] ∧
      row.passwordHash.isSome = answer.passwordRequired ∧
      sh.store.created answer.roomId = some row.passwordHash ∧
      t.call.Gives env row.passwordHash := by
  obtain ⟨call, pc, inserted⟩ := t
  cases pc with
  | responded response => cases hanswer; exact h
  | _ => cases hanswer

theorem Create.Account.step (h : t.Account env sh) (hnumbered : sh.passwords.Numbered)
    {m : CreateMove} (hm : CreateStep env sh t.call t.pc m) :
    Create.Account env m.shared
      { t with pc := m.pc, inserted := t.inserted ++ m.inserted } := by
  obtain ⟨call, pc, inserted⟩ := t
  unfold Create.Account at h
  cases hm with
  | rejected hfail => exact account_failed hfail (by simpa using h)
  | addressed => simpa [Create.Account] using h
  | limited => exact account_failed (admissionError_isSuccess _) (by simpa using h)
  | paid => exact account_ofRead (by simpa using h)
  | started hhash =>
    obtain ⟨hnone, hread⟩ := h
    obtain ⟨normalized, hnormalize, hcommon, hcompute⟩ := PasswordService.hash_ok hhash
    exact ⟨by simpa using hnone, hread, normalized, _, hnormalize, hcommon,
      hnumbered.assigned hcompute⟩
  | notStarted => exact account_failed (hashError_isSuccess _) (by simpa using h.1)
  | hashed hjob =>
    obtain ⟨hnone, hread, normalized, salt, hnormalize, hcommon, hassigned⟩ := h
    exact ⟨by simpa using hnone, _, hread, normalized, salt, hnormalize, hcommon,
      hassigned.hashed hjob⟩
  | failed => exact account_failed (hashError_isSuccess _) (by simpa using h.1)
  | notInserted => exact account_failed rfl (by simpa using h.1)
  | inserted hstep hfree hdb hcreated =>
    obtain ⟨hnone, hgives⟩ := h
    subst hnone
    exact ⟨_, rfl, rfl, hcreated, hgives⟩

end Account

/-! ## The sockets -/

/-- A socket that was asked for a password, or is about to be. -/
def Session.Asked (s : Session) : Prop :=
  (∃ guard hash, s.pc = .auth guard hash .sendRequired) ∨
    .wrote (.json (.authRequired 2)) ∈ s.trace

/-- The places before the table is read. -/
def Pc.isEarly : Pc → Bool
  | .request => true
  | .connectionBudget _ => true
  | .roomPassword _ => true
  | _ => false

section Step

variable {env : Env} {sh : Shared} {roomId : String} {pc : Pc} {m : Move Pc}

theorem RelayStep.required {connId : String} {r : Relay} {p : RelayPc} {m : Move LivePc}
    (hm : RelayStep env sh roomId connId r p m) : .wrote (.json (.authRequired 2)) ∉ m.obs := by
  cases hm with
  | @frame received now => cases received <;> simp [Received.heard]
  | @sent event result => cases event <;> simp [OutgoingMessage.ofRoomEvent]
  | _ => simp

theorem LiveStep.required {isProtected : Bool} {connId : String} {attached : Attached} {p : LivePc}
    {m : Move LivePc} (hm : LiveStep env sh roomId isProtected connId attached p m) :
    .wrote (.json (.authRequired 2)) ∉ m.obs := by
  cases hm with
  | relayed hrelay => exact hrelay.required
  | _ => simp [welcome, OutgoingMessage.ofPeer]

/-- Passwords are asked for in `authenticate` only. -/
theorem PcStep.required (hm : PcStep env sh roomId pc m)
    (h : .wrote (.json (.authRequired 2)) ∈ m.obs) : ∃ guard hash p, pc = .auth guard hash p := by
  cases hm with
  | auth hauth => exact ⟨_, _, _, rfl⟩
  | live hlive => exact absurd h hlive.required
  | _ => simp at h

/-- The table is read before the upgrade. -/
theorem PcStep.missing (hm : PcStep env sh roomId pc m) {guard : Option IpAddr}
    (h : m.pc = .upgrade guard none) : sh.store.row roomId = none := by
  cases hm with
  | unguarded hrow hroom => cases h; exact Option.map_eq_none_iff.mp hrow
  | upgraded => simp only [afterUpgrade] at h; split at h <;> cases h
  | auth hauth => cases hauth <;> cases h
  | dropped => dsimp only at h; split at h <;> cases h
  | attaching => dsimp only at h; split at h <;> cases h
  | _ => cases h

theorem Pc.next_upgraded {ok : Bool} (h : pc.next env sh roomId (.upgraded ok) = some m) :
    ∃ guard room, pc = .upgrade guard room ∧ m = ⟨afterUpgrade guard room ok, [], sh⟩ := by
  cases pc with
  | upgrade guard room => cases h; exact ⟨guard, room, rfl, rfl⟩
  | auth guard hash p => cases p <;> cases h
  | live isProtected connId attached p =>
    cases p with
    | relay r q => cases q <;> cases h
    | _ => cases h
  | _ => cases h

end Step

namespace Server

variable {env : Env} {v v' : Server} {k : Nat} {s : Session}

/-- Who is asked has read a hash. -/
theorem Reachable.required (h : Reachable env v) (hk : v.sockets k = some s)
    (hasked : s.Asked) : ∃ hash, .looked (some (some hash)) ∈ s.trace := by
  have hwrote : .wrote (.json (.authRequired 2)) ∈ s.trace →
      ∃ hash, .looked (some (some hash)) ∈ s.trace := by
    refine (h.socket (I := fun _ s => Gate s ∧ (.wrote (.json (.authRequired 2)) ∈ s.trace →
      ∃ hash, .looked (some (some hash)) ∈ s.trace)) ?_ ?_ ?_ hk).2
    · intro sh roomId
      exact ⟨gate_connect roomId, fun hmem => by cases hmem⟩
    · intro _ _ _ _ _ ih
      exact ih
    · rintro v s m - ⟨hgate, ih⟩ hm
      refine ⟨hgate.step hm, ?_⟩
      intro hmem
      have hlooked : ∃ hash, .looked (some (some hash)) ∈ s.trace := by
        rcases List.mem_append.mp hmem with hmem | hmem
        · exact ih hmem
        · obtain ⟨guard, hash, p, hpc⟩ := hm.required hmem
          have hphase := hgate.phase
          rw [hpc] at hphase
          exact ⟨hash, hphase.2⟩
      obtain ⟨hash, hlooked⟩ := hlooked
      exact ⟨hash, List.mem_append_left _ hlooked⟩
  rcases hasked with ⟨guard, hash, hpc⟩ | hmem
  · have hphase := (h.gate hk).phase
    rw [hpc] at hphase
    exact ⟨hash, hphase.2⟩
  · exact hwrote hmem

theorem Reachable.asked (h : Reachable env v) (hk : v.sockets k = some s) (hasked : s.Asked) :
    ∃ hash, v.shared.store.created s.roomId = some (some hash) := by
  obtain ⟨hash, hlooked⟩ := h.required hk hasked
  exact ⟨hash, h.looked hk hlooked⟩

/-- A socket that reads the table after the creation of its room finds it there, until it expires. -/
theorem finds {id : String} (hcr : (v.shared.store.created id).isSome)
    (hearly : ∀ s, v.sockets k = some s → s.pc.isEarly = true)
    (hrun : Machine.Reachable (step env) v v') (hk : v'.sockets k = some s) (hid : s.roomId = id)
    {guard : Option IpAddr} (hpc : s.pc = .upgrade guard none) :
    v'.shared.store.row id = none := by
  have hinv := hrun.invariant (I := fun u => (u.shared.store.created id).isSome ∧
    ∀ s guard, u.sockets k = some s → s.roomId = id → s.pc = .upgrade guard none →
      u.shared.store.row id = none) ⟨hcr, ?_⟩ ?_
  · exact hinv.2 s guard hk hid hpc
  · intro s guard hk _ hpc
    have := hearly s hk
    rw [hpc] at this
    cases this
  · rintro u l u' ⟨hcr, ih⟩ hs
    have hstep := step_cases hs
    refine ⟨hstep.store.created_isSome hcr, ?_⟩
    intro s guard hk hid hpc
    refine hstep.store.row_none hcr ?_
    cases hstep with
    | @opened k₀ roomId hk₀ =>
      rcases setSocket_cases hk with ⟨-, rfl⟩ | ⟨-, hold⟩
      · cases hpc
      · exact ih s guard hold hid hpc
    | @moved k₀ s₀ m hk₀ hm =>
      rcases setSocket_cases hk with ⟨-, rfl⟩ | ⟨-, hold⟩
      · rw [← hid]
        exact hm.missing hpc
      · exact ih s guard hold hid hpc
    | _ => exact ih s guard hk hid hpc

end Server

namespace App

variable {env : Http} {w w' : App} {k : Nat}

/-- The rooms table. -/
def rooms (w : App) : Db.Rooms := w.server.shared.store.app.db

theorem Step.stepped (hs : Step env w w') :
    w.server.shared.store.Stepped w'.server.shared.store := by
  rcases hs.server with hsame | ⟨l, hl⟩
  · rw [hsame]; exact .inl rfl
  · exact (Server.step_cases hl).store

theorem Step.turned (hs : Step env w w') :
    w.server.shared.passwords.Turned env.crates w'.server.shared.passwords := by
  rcases hs.server with hsame | ⟨l, hl⟩
  · rw [hsame]; exact .inl rfl
  · exact (Server.step_cases hl).passwords

theorem created_run {id : String} {hash : Option String} (hrun : Machine.Reachable (step env) w w')
    (h : w.server.shared.store.created id = some hash) :
    w'.server.shared.store.created id = some hash :=
  hrun.invariant (I := fun u => u.server.shared.store.created id = some hash) h
    fun _ _ _ ih hs => (step_cases hs).stepped.created_keep ih

theorem Reachable.account (h : Reachable env w) {t : Create} (hk : w.creates k = some t) :
    t.Account env w.server.shared := by
  refine h.invariant (I := fun w => ∀ k t, w.creates k = some t → t.Account env w.server.shared)
    ?_ ?_ k t hk
  · intro db k t hk
    cases hk
  · intro w w' hreach ih hs k t hk
    have hkeep : ∀ t, w.creates k = some t → t.Account env w'.server.shared :=
      fun t ht => (ih k t ht).keep hs.stepped hs.turned
    cases hs with
    | @called k₀ call hk₀ =>
      rcases setCreate_cases hk with rfl | hold
      · rfl
      · exact hkeep t hold
    | @created k₀ t₀ m hk₀ hm =>
      rcases setCreate_cases hk with rfl | hold
      · exact (ih k₀ t₀ hk₀).step hreach.server.numbered hm
      · exact hkeep t hold
    | _ => exact hkeep t hk

/-- A successful answer of `get_room` is about a room that was created, and says how. -/
theorem Reachable.answered (h : Reachable env w) {g : Get} (hk : w.gets k = some g)
    {answer : RoomStatusResponse} (hanswer : g.response = some (.json answer)) :
    ∃ hash, w.server.shared.store.created g.roomId = some hash ∧
      answer = ⟨true, g.roomId, hash.isSome⟩ := by
  refine h.invariant (I := fun w => ∀ k g answer, w.gets k = some g →
    g.response = some (.json answer) → ∃ hash,
      w.server.shared.store.created g.roomId = some hash ∧ answer = ⟨true, g.roomId, hash.isSome⟩)
    ?_ ?_ k g answer hk hanswer
  · intro db k g answer hk
    cases hk
  · intro w w' hreach ih hs k g answer hk hanswer
    have hkeep : w.gets k = some g → ∃ hash,
        w'.server.shared.store.created g.roomId = some hash ∧
          answer = ⟨true, g.roomId, hash.isSome⟩ := by
      intro hg
      obtain ⟨hash, hcreated, he⟩ := ih k g answer hg hanswer
      exact ⟨hash, hs.stepped.created_keep hcreated, he⟩
    cases hs with
    | @asked k₀ roomId hk₀ =>
      rcases setGet_cases hk with rfl | hold
      · cases hanswer
      · exact hkeep hold
    | @answered k₀ roomId fault hk₀ =>
      rcases setGet_cases hk with rfl | hold
      · have hget : getRoom w.server.shared.store.app.db roomId fault = .json answer :=
          Option.some.inj hanswer
        unfold getRoom at hget
        split at hget
        · rename_i hash hroom
          cases hget
          obtain ⟨row, hrow, rfl⟩ := Option.map_eq_some_iff.mp (roomPassword_ok hroom)
          exact ⟨_, hreach.server.inv.rows.created roomId row hrow, rfl⟩
        · cases hget
        · cases hget
      · exact hkeep hold
    | _ => exact hkeep hk

/-- What a move of a call does to the table: nothing, or it adds the one row that it notes. -/
def Records (w w' : App) (t t' : Create) : Prop :=
  (t'.inserted = t.inserted ∧ w'.rooms = w.rooms) ∨
    ∃ id row, t'.inserted = t.inserted ++ [(id, row)] ∧ HashMap.get w.rooms id = none ∧
      w'.rooms = HashMap.insert w.rooms id row

theorem create_records {ch : CreateChoice} (hs : w.step env (.create k ch) = some w') :
    ∃ t t', w.creates k = some t ∧ w'.creates k = some t' ∧ t'.call = t.call ∧
      Records w w' t t' := by
  simp only [step] at hs
  split at hs
  · cases hs
  · rename_i t hk
    obtain ⟨m, hm, rfl⟩ := Option.map_eq_some_iff.mp hs
    refine ⟨t, _, hk, Function.update_self .., rfl, ?_⟩
    have hstep := CreatePc.next_cases hm
    generalize t.pc = pc at hstep
    cases hstep with
    | inserted hstep hfree hdb hcreated => exact .inr ⟨_, _, rfl, hfree, hdb⟩
    | _ => exact .inl ⟨List.append_nil _, rfl⟩

/-- What is said of room `id` in `w'`, later than `w`: of its row, by `get_room`, and by `ws_handler`
to the sockets that it upgrades. -/
structure Agreed (env : Http) (w w' : App) (id : String) (passwordRequired : Bool) : Prop where
  row : ∀ row, HashMap.get w'.rooms id = some row → row.passwordHash.isSome = passwordRequired
  gets : ∀ k g answer, w'.gets k = some g → g.roomId = id → g.response = some (.json answer) →
    answer = ⟨true, id, passwordRequired⟩
  asked : ∀ k s, w'.server.sockets k = some s → s.roomId = id → s.Asked → passwordRequired = true
  upgraded : ∀ k s v, w'.server.sockets k = some s → s.roomId = id →
    (∀ s₀, w.server.sockets k = some s₀ → s₀.pc.isEarly = true) →
    (HashMap.get w'.rooms id).isSome → w'.server.socket env.toEnv k (.upgraded true) = some v →
      ∃ s', v.sockets k = some s' ∧ (s'.Asked ↔ passwordRequired = true)

theorem Reachable.agreed (h : Reachable env w) {id : String} {hash : Option String}
    (hcreated : w.server.shared.store.created id = some hash)
    (hrun : Machine.Reachable (step env) w w') : Agreed env w w' id hash.isSome := by
  have hreach' : Reachable env w' := by
    obtain ⟨db, hdb⟩ := h
    exact ⟨db, hdb.trans hrun⟩
  have hcreated' := created_run hrun hcreated
  refine ⟨?_, ?_, ?_, ?_⟩
  · intro row hrow
    rw [hreach'.server.inv.rows.created id row hrow] at hcreated'
    cases hcreated'
    rfl
  · rintro k g answer hk rfl hanswer
    obtain ⟨hash', hcr, rfl⟩ := hreach'.answered hk hanswer
    cases hcreated'.symm.trans hcr
    rfl
  · rintro k s hk rfl hasked
    obtain ⟨hash', hcr⟩ := hreach'.server.asked hk hasked
    cases hcreated'.symm.trans hcr
    rfl
  · rintro k s v hk rfl hearly hrow hs
    simp only [Server.socket, hk] at hs
    obtain ⟨⟨s', sh'⟩, hnext, rfl⟩ := Option.map_eq_some_iff.mp hs
    obtain ⟨m, hm, hmove⟩ := Option.map_eq_some_iff.mp hnext
    obtain ⟨guard, room, hpc, rfl⟩ := Pc.next_upgraded hm
    cases hmove
    refine ⟨_, Function.update_self .., ?_⟩
    have hphase := (hreach'.server.gate hk).phase
    rw [hpc] at hphase
    cases room with
    | none =>
      have hnone := Server.finds (v := w.server) (by rw [hcreated]; rfl) hearly (server_run hrun)
        hk rfl hpc
      rw [rooms, show HashMap.get w'.server.shared.store.app.db s.roomId = none from hnone] at hrow
      cases hrow
    | some room =>
      cases (hreach'.server.looked hk hphase.2).symm.trans hcreated'
      cases hash with
      | some hash =>
        exact ⟨fun _ => rfl, fun _ => .inl ⟨guard, hash, rfl⟩⟩
      | none =>
        refine ⟨?_, fun hf => by cases hf⟩
        rintro (⟨_, _, hf⟩ | hmem)
        · cases hf
        · rw [List.append_nil] at hmem
          obtain ⟨hash', hcr⟩ := hreach'.server.asked hk (.inr hmem)
          cases hcreated'.symm.trans hcr

/-- **Room creation never falls back to an open room.** A move of `create_room` changes nothing in
the table or inserts one new row, and a call has inserted one if it was answered with success and
none otherwise. The row has no hash only if the body asks for an open room, and holds what `hash`
returned for the password if there was one. The answer says which; so does, in every later state
until the room expires, everyone who reads the row. -/
theorem protection_agrees (env : Http) (db : Db.Rooms) {ls : List Label} {w : App}
    (hrun : Machine.run (step env) (start db) ls = some w) :
    (∀ k ch w', w.step env (.create k ch) = some w' → ∃ t t', w.creates k = some t ∧
      w'.creates k = some t' ∧ t'.call = t.call ∧ Records w w' t t') ∧
    ∀ k t, w.creates k = some t →
      ((∀ answer, t.pc.response ≠ some (.json answer)) → t.inserted = []) ∧
      ∀ answer, t.pc.response = some (.json answer) → ∃ row,
        t.inserted = [(answer.roomId, row)] ∧
        row.passwordHash.isSome = answer.passwordRequired ∧
        (row.passwordHash = none → t.call.AsksOpen env) ∧
        (∀ password, t.call.read env = .ok ⟨some password⟩ → ∃ passwordHash,
          row.passwordHash = some passwordHash ∧
            Passwords.hashesTo env.crates password passwordHash) ∧
        ∀ later w', Machine.run (step env) w later = some w' →
          Agreed env w w' answer.roomId answer.passwordRequired := by
  have hreach : Reachable env w := ⟨db, ls, hrun⟩
  refine ⟨fun k ch w' hs => create_records hs, ?_⟩
  intro k t hk
  have haccount := hreach.account hk
  refine ⟨haccount.inserted, ?_⟩
  intro answer hanswer
  obtain ⟨row, hinserted, hflag, hcreated, hgives⟩ := haccount.answered hanswer
  refine ⟨row, hinserted, hflag, ?_, ?_, ?_⟩
  · intro hopen
    rw [hopen] at hgives
    exact CreateCall.asksOpen hgives
  · intro password hread
    cases hhash : row.passwordHash with
    | none =>
      rw [hhash] at hgives
      cases hread.symm.trans hgives
    | some passwordHash =>
      rw [hhash] at hgives
      obtain ⟨password', hread', hto⟩ := hgives
      cases hread.symm.trans hread'
      exact ⟨passwordHash, rfl, hto⟩
  · intro later w' hlater
    rw [← hflag]
    exact hreach.agreed hcreated ⟨later, hlater⟩

/-! ### A protected room, and an open one -/

def bytesOf (text : String) : Bytes := text.toList.map fun c => UInt8.ofNat c.toNat

def protectedBody : Bytes := bytesOf "\x7b\"password\":\"correct horse battery\"\x7d"

def arrayBody : Bytes := bytesOf "[null]"

/-- The third-party functions on the inputs of these runs. -/
def roomsEnv : Http where
  toEnv := { Server.passphraseEnv with
    crates := { Server.passphraseEnv.crates with
      hashPassword := fun password _ =>
        if password = Server.passphrase then some Server.phcOfPassphrase else none } }
  parseJson body :=
    if body = protectedBody then some (.object [("password", .string Server.passphrase)])
    else if body = arrayBody then some (.array [.null])
    else none

/-- From the request to the end of the hash. -/
def creating (body : Bytes) : List Label :=
  [.createRoom 0 ⟨.v4 0, [], [some "application/json; charset=utf-8"], body⟩, .create 0 .proceed,
    .create 0 (.clock 0)]

/-- From the start of the hash to the response. -/
def protecting : List Label :=
  [.create 0 (.salt (List.replicate 16 0)), .serve (.jobEnds 0 false), .create 0 .proceed,
    .create 0 (.statement "room" 0 false)]

theorem protection_agrees_passphrase : ∃ w w' t g row passwordHash,
    Machine.run (step roomsEnv) (start ∅) (creating protectedBody ++ protecting) = some w ∧
    w.creates 0 = some t ∧ t.inserted = [("room", row)] ∧ row.passwordHash = some passwordHash ∧
    Passwords.hashesTo roomsEnv.crates Server.passphrase passwordHash ∧
    Machine.run (step roomsEnv) w [.getRoom 0 "room", .get 0 false] = some w' ∧
    w'.gets 0 = some g ∧
      ∀ answer, g.response = some (.json answer) → answer = ⟨true, "room", true⟩ := by
  have hrun : ((Machine.run (step roomsEnv) (start ∅) (creating protectedBody ++ protecting)).bind
      fun w => (w.creates 0).bind fun t =>
        (Machine.run (step roomsEnv) w [.getRoom 0 "room", .get 0 false]).bind fun w' =>
          (w'.gets 0).map fun g =>
            (t.pc.response, t.call.contentTypes, t.call.body, g.roomId)) =
      some (some (.json ⟨"room", true⟩), [some "application/json; charset=utf-8"], protectedBody,
        "room") := by decide +kernel
  obtain ⟨w, hw, hrest⟩ := Option.bind_eq_some_iff.mp hrun
  obtain ⟨t, hk, hrest⟩ := Option.bind_eq_some_iff.mp hrest
  obtain ⟨w', hlater, hrest⟩ := Option.bind_eq_some_iff.mp hrest
  obtain ⟨g, hg, hrest⟩ := Option.map_eq_some_iff.mp hrest
  simp only [Prod.mk.injEq] at hrest
  obtain ⟨hresponse, htypes, hbody, hid⟩ := hrest
  have hread : t.call.read roomsEnv = .ok ⟨some Server.passphrase⟩ := by
    have hcall : (⟨.v4 0, [], [some "application/json; charset=utf-8"], protectedBody⟩ :
        CreateCall).read roomsEnv = .ok ⟨some Server.passphrase⟩ := by rfl
    rw [← hcall, CreateCall.read, CreateCall.read, htypes, hbody]
  obtain ⟨row, hinserted, -, -, hpassword, hagreed⟩ :=
    ((protection_agrees roomsEnv ∅ hw).2 0 t hk).2 _ hresponse
  obtain ⟨passwordHash, hhash, hto⟩ := hpassword _ hread
  exact ⟨w, w', t, g, row, passwordHash, hw, hk, hinserted, hhash, hto, hlater, hg,
    fun answer hanswer => (hagreed _ w' hlater).gets 0 g answer hg hid hanswer⟩

/-- A socket whose `ws_handler` reads the table. -/
def looking : List Label :=
  [.serve (.connect 0 "room"),
    .serve (.socket 0 (.request [some "https://parrhesia.example"] (.v4 0) [])),
    .serve (.socket 0 (.clock 0)), .serve (.socket 0 (.statement false))]

/-- `handle_socket` has found no room, and returns. -/
def isReturning (s : Session) : Bool :=
  match s.pc with
  | .dropGuard none false false => true
  | _ => false

/-- Why `Agreed.upgraded` leaves out a socket that read the table before the room was created: it is
upgraded afterwards and not asked for the password. `handle_socket` returns at once, as it found no
room. -/
theorem protection_agrees_early : ∃ w t v s,
    Machine.run (step roomsEnv) (start ∅) (looking ++ creating protectedBody ++ protecting) = some w ∧
    w.creates 0 = some t ∧ t.pc.response = some (.json ⟨"room", true⟩) ∧
    (HashMap.get w.rooms "room").isSome ∧
    w.server.socket roomsEnv.toEnv 0 (.upgraded true) = some v ∧ v.sockets 0 = some s ∧
    s.pc = .dropGuard none false false ∧ ¬ s.Asked := by
  have hrun : ((Machine.run (step roomsEnv) (start ∅)
      (looking ++ creating protectedBody ++ protecting)).bind fun w => (w.creates 0).bind fun t =>
        (w.server.socket roomsEnv.toEnv 0 (.upgraded true)).bind fun v => (v.sockets 0).map fun s =>
          (t.pc.response, (HashMap.get w.rooms "room").isSome, s.frames, isReturning s)) =
            some (some (.json ⟨"room", true⟩), true, [], true) := by decide +kernel
  obtain ⟨w, hw, hrest⟩ := Option.bind_eq_some_iff.mp hrun
  obtain ⟨t, hk, hrest⟩ := Option.bind_eq_some_iff.mp hrest
  obtain ⟨v, hv, hrest⟩ := Option.bind_eq_some_iff.mp hrest
  obtain ⟨s, hs, hrest⟩ := Option.map_eq_some_iff.mp hrest
  simp only [Prod.mk.injEq] at hrest
  obtain ⟨hresponse, hrow, hframes, hplace⟩ := hrest
  have hpc : s.pc = .dropGuard none false false := by
    unfold isReturning at hplace
    split at hplace
    · rename_i hpc; exact hpc
    · cases hplace
  refine ⟨w, t, v, s, hw, hk, hresponse, hrow, hv, hs, hpc, ?_⟩
  rintro (⟨guard, hash, hauth⟩ | hwrote)
  · rw [hpc] at hauth
    cases hauth
  · have hframe : Frame.json (.authRequired 2) ∈ s.frames :=
      List.mem_filterMap.mpr ⟨_, hwrote, rfl⟩
    rw [hframes] at hframe
    cases hframe

/-- A request whose body is neither empty nor an object creates an open room. -/
theorem protection_agrees_array : ∃ w t,
    Machine.run (step roomsEnv) (start ∅)
      (creating arrayBody ++ [.create 0 (.statement "room" 0 false)]) = some w ∧
    w.creates 0 = some t ∧ t.pc.response = some (.json ⟨"room", false⟩) ∧
    t.inserted = [("room", ⟨0, 0, none⟩)] ∧
    ¬ (t.call.body = [] ∨
      ∃ json, roomsEnv.parseJson t.call.body = some json ∧ json.WithoutPassword) := by
  have hrun : ((Machine.run (step roomsEnv) (start ∅)
      (creating arrayBody ++ [.create 0 (.statement "room" 0 false)])).bind fun w =>
        (w.creates 0).map fun t => (t.pc.response, t.inserted, t.call.body)) =
      some (some (.json ⟨"room", false⟩), [("room", ⟨0, 0, none⟩)], arrayBody) := by decide +kernel
  obtain ⟨w, hw, hrest⟩ := Option.bind_eq_some_iff.mp hrun
  obtain ⟨t, hk, hrest⟩ := Option.map_eq_some_iff.mp hrest
  simp only [Prod.mk.injEq] at hrest
  obtain ⟨hresponse, hinserted, hbody⟩ := hrest
  refine ⟨w, t, hw, hk, hresponse, hinserted, ?_⟩
  rw [hbody]
  rintro (hempty | ⟨json, hparse, fields, hobject, -⟩)
  · exact absurd hempty (by decide)
  · have harray : roomsEnv.parseJson arrayBody = some (.array [.null]) := by rfl
    rw [harray, hobject] at hparse
    cases hparse

end App
end Parrhesia
