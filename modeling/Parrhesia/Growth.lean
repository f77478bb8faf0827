import Parrhesia.Restart
import Parrhesia.Tolls

/-!
# Parrhesia.Growth

What one address can make the server do: how many rows `create_room` inserts for it, how many
passwords it hashes, and how many sockets look up a room.

* `Acts`          : what an agent does at most once, after it has paid: a call hashes, a socket looks up
  its room, whether or not the statement then succeeds.
* `Sown`          : every row is from the start of the process, or was inserted by a call.
* `address_bound` : all of these, and how many are paid for in any window of the clock.
-/

namespace Parrhesia

open Lib
open Admission (Budget Limits)

variable {env : Http}

/-- Before the hash, or without one. -/
def CreatePc.isWaiting : CreatePc → Bool
  | .request => true
  | .budget _ => true
  | .hash _ => true
  | _ => false

/-- Before the room is looked up. -/
def Pc.isWaiting : Pc → Bool
  | .request => true
  | .connectionBudget _ => true
  | .roomPassword _ => true
  | _ => false

section Moves

variable {sh : Shared} {roomId : String}

theorem CreateStep.isWaiting {call : CreateCall} {pc : CreatePc} {m : CreateMove}
    (h : CreateStep env sh call pc m) (hwaits : m.pc.isWaiting = true) : pc.isWaiting = true := by
  cases h with
  | inserted => cases hwaits
  | hashed => cases hwaits
  | failed => cases hwaits
  | notInserted => cases hwaits
  | _ => rfl

theorem PcStep.isWaiting {pc : Pc} {m : Move Pc} (h : PcStep env.toEnv sh roomId pc m)
    (hwaits : m.pc.isWaiting = true) : pc.isWaiting = true := by
  cases h with
  | turnedDown => rfl
  | requested => rfl
  | limited => rfl
  | passed => rfl
  | upgraded => simp only [afterUpgrade] at hwaits; split at hwaits <;> cases hwaits
  | auth hauth => cases hauth <;> cases hwaits
  | dropped => dsimp only at hwaits; split at hwaits <;> cases hwaits
  | attaching => dsimp only at hwaits; split at hwaits <;> cases hwaits
  | _ => cases hwaits

/-- A room is looked up by the statement of `room_password`, and the socket waits no more. -/
theorem Pc.next_roomPassword {ip : IpAddr} {ch : Choice} {m : Move Pc}
    (h : (Pc.roomPassword ip).next env.toEnv sh roomId ch = some m) :
    (∃ fault, ch = .statement fault) ∧ m.pc.isWaiting = false := by
  cases ch with
  | statement fault =>
    refine ⟨⟨fault, rfl⟩, ?_⟩
    simp only [next] at h
    split at h <;> cases h <;> rfl
  | _ => cases h

theorem PcStep.roomPassword_of_looked {pc : Pc} {m : Move Pc} (h : PcStep env.toEnv sh roomId pc m)
    {room : Option (Option String)} (hlooked : .looked room ∈ m.obs) :
    ∃ ip, pc = .roomPassword ip := by
  cases h with
  | guarded => exact ⟨_, rfl⟩
  | unguarded => exact ⟨_, rfl⟩
  | auth hauth => cases hauth <;> simp at hlooked
  | live hlive => cases hlive.isLive _ hlooked
  | attaching => simp at hlooked
  | unavailable => simp at hlooked
  | _ => cases hlooked

end Moves

/-! ## What is done once, by who has paid -/

/-- The agents of one kind that have acted: each once, after it had paid, and it is past the act. -/
structure Acts (paid : List Payment) (agent : Nat → Agent) (acted : List Nat) (past : Nat → Prop) :
    Prop where
  once : acted.Nodup
  settled : ∀ k ∈ acted, agent k ∈ paid.map Payment.agent
  past : ∀ k ∈ acted, past k

section Acts

variable {paid : List Payment} {agent : Nat → Agent} {acted : List Nat} {past past' : Nat → Prop}
  {k : Nat}

theorem acts_nil : Acts paid agent [] past := ⟨List.nodup_nil, nofun, nofun⟩

/-- Nobody acts. -/
theorem Acts.keep (h : Acts paid agent acted past) (hpast : ∀ k, past k → past' k)
    (more : List Payment) : Acts (paid ++ more) agent acted past' where
  once := h.once
  settled k hk := by
    rw [List.map_append]
    exact List.mem_append_left _ (h.settled k hk)
  past k hk := hpast k (h.past k hk)

/-- An agent acts that has paid and was not past it. -/
theorem Acts.act (h : Acts paid agent acted past) (hpast : ∀ k, past k → past' k)
    (more : List Payment) (hnew : ¬ past k) (hpaid : agent k ∈ paid.map Payment.agent)
    (hself : past' k) : Acts (paid ++ more) agent (acted ++ [k]) past' := by
  have hkept := h.keep hpast more
  refine ⟨?_, ?_, ?_⟩
  · rw [List.nodup_append]
    refine ⟨h.once, List.nodup_singleton _, ?_⟩
    intro k₁ hk₁ k₂ hk₂ he
    rw [List.mem_singleton.mp hk₂] at he
    exact hnew (h.past k (he ▸ hk₁))
  · intro k' hmem
    rcases List.mem_append.mp hmem with hold | hself
    · exact hkept.settled k' hold
    · rw [List.mem_singleton.mp hself, List.map_append]
      exact List.mem_append_left _ hpaid
  · intro k' hmem
    rcases List.mem_append.mp hmem with hold | hself'
    · exact hkept.past k' hold
    · rw [List.mem_singleton.mp hself']
      exact hself

end Acts

namespace App

/-- The call for which a step starts to hash. -/
def hashing (env : Http) (w : App) : Label → List Nat
  | .create k (.salt salt) =>
    match w.creates k with
    | some ⟨_, .hash password, _⟩ =>
      match w.server.shared.passwords.hash env.crates password salt with
      | .ok _ => [k]
      | .error _ => []
    | _ => []
  | _ => []

/-- The calls for which a run started to hash. -/
def hashes (env : Http) (w : App) (ls : List Label) : List Nat :=
  Machine.emitted (step env) (hashing env) w ls

/-- The socket for which a step runs the statement of `room_password`. -/
def lookup (w : App) : Label → List Nat
  | .serve (.socket k (.statement _)) =>
    match w.server.sockets k with
    | some ⟨_, .roomPassword _, _⟩ => [k]
    | _ => []
  | _ => []

/-- The sockets that looked up their room in a run, also those whose statement failed. -/
def lookups (env : Http) (w : App) (ls : List Label) : List Nat :=
  Machine.emitted (step env) lookup w ls

/-- Call `k` is past its hash, if it makes one. -/
def HashPast (w : App) (k : Nat) : Prop := ∃ t, w.creates k = some t ∧ t.pc.isWaiting = false

/-- Socket `k` is past its look at the room, if it takes one. -/
def LookPast (w : App) (k : Nat) : Prop :=
  ∃ s, w.server.sockets k = some s ∧ s.pc.isWaiting = false

variable {w w' : App} {l : Label} {k : Nat} {ls : List Label} {calls : List Admission.Op}
  {paid : List Payment}

theorem hashPast_keep (hs : w.step env l = some w') (h : w.HashPast k) : w'.HashPast k := by
  obtain ⟨t, ht, hwaits⟩ := h
  obtain ⟨t', ht'⟩ := Option.isSome_iff_exists.mp
    (creates_keep hs (Option.isSome_iff_exists.mpr ⟨t, ht⟩))
  refine ⟨t', ht', ?_⟩
  rcases create_after hs ht' with ⟨hold, -⟩ | ⟨hnone, -⟩ | ⟨ch, t₀, m, rfl, ht₀, hm, rfl⟩
  · cases ht.symm.trans hold
    exact hwaits
  · cases ht.symm.trans hnone
  · cases ht.symm.trans ht₀
    refine Bool.eq_false_iff.mpr fun hmoved => ?_
    rw [(CreatePc.next_cases hm).isWaiting hmoved] at hwaits
    cases hwaits

theorem lookPast_keep (hs : w.step env l = some w') (h : w.LookPast k) : w'.LookPast k := by
  obtain ⟨s, hk, hwaits⟩ := h
  obtain ⟨s', hk'⟩ := Option.isSome_iff_exists.mp
    (sockets_keep hs (Option.isSome_iff_exists.mpr ⟨s, hk⟩))
  refine ⟨s', hk', ?_⟩
  rcases socket_after hs hk' with ⟨hold, -⟩ | ⟨hnone, -⟩ | ⟨ch, s₀, m, rfl, hk₀, hm, rfl⟩
  · cases hk.symm.trans hold
    exact hwaits
  · cases hk.symm.trans hnone
  · cases hk.symm.trans hk₀
    refine Bool.eq_false_iff.mpr fun hmoved => ?_
    rw [(Pc.next_cases hm).isWaiting hmoved] at hwaits
    cases hwaits

/-- The hashes of a run are made by calls that have paid, and the lookups by sockets. -/
structure Acted (paid : List Payment) (hashed looked : List Nat) (w : App) : Prop where
  calls : Acts paid .create hashed w.HashPast
  sockets : Acts paid .socket looked w.LookPast
  seen : ∀ k s room, w.server.sockets k = some s → .looked room ∈ s.trace → k ∈ looked

theorem hashing_cases (env : Http) (w : App) (l : Label) : w.hashing env l = [] ∨
    ∃ k salt t password job passwords, l = .create k (.salt salt) ∧ w.creates k = some t ∧
      t.pc = .hash password ∧
      w.server.shared.passwords.hash env.crates password salt = .ok (job, passwords) ∧
      w.hashing env l = [k] := by
  unfold hashing
  split
  · rename_i k salt
    split
    · rename_i call password inserted hk
      split
      · rename_i started hhash
        exact .inr ⟨k, salt, _, password, started.1, started.2, rfl, hk, rfl, hhash, rfl⟩
      · exact .inl rfl
    · exact .inl rfl
  · exact .inl rfl

theorem lookup_cases (w : App) (l : Label) : w.lookup l = [] ∨
    ∃ k fault s ip, l = .serve (.socket k (.statement fault)) ∧ w.server.sockets k = some s ∧
      s.pc = .roomPassword ip ∧ w.lookup l = [k] := by
  unfold lookup
  split
  · rename_i k fault
    split
    · rename_i roomId ip trace hk
      exact .inr ⟨k, fault, _, ip, rfl, hk, rfl, rfl⟩
    · exact .inl rfl
  · exact .inl rfl

theorem lookup_self {fault : Bool} {s : Session} {ip : IpAddr} (hk : w.server.sockets k = some s)
    (hpc : s.pc = .roomPassword ip) : w.lookup (.serve (.socket k (.statement fault))) = [k] := by
  obtain ⟨roomId, pc, trace⟩ := s
  cases hpc
  simp only [lookup, hk]

theorem Acted.hash_step {hashed looked : List Nat} (h : Acted paid hashed looked w)
    (htolls : Tolls env ls calls paid w) (hs : w.step env l = some w') :
    Acts (paid ++ w.payment l) .create (hashed ++ w.hashing env l) w'.HashPast := by
  rcases hashing_cases env w l with hnone | ⟨k, salt, t, password, job, passwords, rfl, hk, hpc,
    hhash, hstarts⟩
  · rw [hnone, List.append_nil]
    exact h.calls.keep (fun _ => hashPast_keep hs) _
  · rw [hstarts]
    refine h.calls.act (fun _ => hashPast_keep hs) _ ?_ ?_ ?_
    · rintro ⟨t', hk', hwaits⟩
      cases hk.symm.trans hk'
      rw [hpc] at hwaits
      cases hwaits
    · exact (htolls.creates k t hk).settled (by rw [hpc]; rfl)
    · cases step_does hs with
      | @create _ _ t₀ m hk₀ hm =>
        cases hk.symm.trans hk₀
        rw [hpc] at hm
        simp only [CreatePc.next, hhash] at hm
        cases hm
        exact ⟨_, Function.update_self .., rfl⟩

theorem Acted.look_step {hashed looked : List Nat} (h : Acted paid hashed looked w)
    (htolls : Tolls env ls calls paid w) (hs : w.step env l = some w') :
    Acts (paid ++ w.payment l) .socket (looked ++ w.lookup l) w'.LookPast := by
  rcases lookup_cases w l with hnone | ⟨k, fault, s, ip, rfl, hk, hpc, hlooks⟩
  · rw [hnone, List.append_nil]
    exact h.sockets.keep (fun _ => lookPast_keep hs) _
  · rw [hlooks]
    refine h.sockets.act (fun _ => lookPast_keep hs) _ ?_ ?_ ?_
    · rintro ⟨s', hk', hwaits⟩
      cases hk.symm.trans hk'
      rw [hpc] at hwaits
      cases hwaits
    · exact (htolls.sockets k s hk).settled (.inl ⟨ip, hpc⟩)
    · cases step_does hs with
      | serve hl hserver =>
        cases hserver with
        | socket hmove =>
          obtain ⟨s₀, m, hk₀, hm, rfl⟩ := Server.socket_next hmove
          cases hk.symm.trans hk₀
          rw [hpc] at hm
          exact ⟨_, Function.update_self .., (Pc.next_roomPassword hm).2⟩

/-- What a socket has seen of a room it has looked up. -/
theorem Acted.seen_step {hashed looked : List Nat} (h : Acted paid hashed looked w)
    (hs : w.step env l = some w') {s' : Session} {room : Option (Option String)}
    (hk : w'.server.sockets k = some s') (hlooked : .looked room ∈ s'.trace) :
    k ∈ looked ++ w.lookup l := by
  rcases socket_after hs hk with ⟨hold, -⟩ | ⟨-, -, htrace, -⟩ | ⟨ch, s, m, rfl, hk₀, hm, rfl⟩
  · exact List.mem_append_left _ (h.seen k s' room hold hlooked)
  · rw [htrace] at hlooked
    cases hlooked
  · rcases List.mem_append.mp hlooked with hold | hnew
    · exact List.mem_append_left _ (h.seen k s room hk₀ hold)
    · obtain ⟨ip, hpc⟩ := (Pc.next_cases hm).roomPassword_of_looked hnew
      rw [hpc] at hm
      obtain ⟨⟨fault, rfl⟩, -⟩ := Pc.next_roomPassword hm
      rw [lookup_self hk₀ hpc]
      exact List.mem_append_right _ (List.mem_singleton_self _)

theorem acted_run (db : Db.Rooms) (h : Machine.run (App.step env) (start db) ls = some w) :
    Acted (payments env (start db) ls) (hashes env (start db) ls) (lookups env (start db) ls) w := by
  refine Machine.run_induction (motive := fun ls w => Acted (payments env (start db) ls)
    (hashes env (start db) ls) (lookups env (start db) ls) w) ?_ ?_ h
  · exact ⟨acts_nil, acts_nil, fun _ _ _ hk _ => by cases hk⟩
  · intro ls w l w' hrun hs ih
    rw [payments, hashes, lookups, Machine.emitted_snoc hrun, Machine.emitted_snoc hrun,
      Machine.emitted_snoc hrun]
    have htolls := tolls_run db hrun
    exact ⟨ih.hash_step htolls hs, ih.look_step htolls hs, fun k s' room hk hlooked =>
      ih.seen_step hs hk hlooked⟩

/-! ## The rows -/

/-- The rows that are there were there at the start, or were inserted by a call. -/
def Sown (db : Db.Rooms) (w : App) : Prop :=
  ∀ id, (HashMap.get w.rooms id).isSome →
    (HashMap.get db id).isSome ∨ ∃ k t row, w.creates k = some t ∧ (id, row) ∈ t.inserted

theorem inserted_keep (hs : w.step env l = some w') {t : Create} {id : String} {row : Db.Row}
    (hk : w.creates k = some t) (hmem : (id, row) ∈ t.inserted) :
    ∃ t', w'.creates k = some t' ∧ (id, row) ∈ t'.inserted := by
  obtain ⟨t', hk'⟩ := Option.isSome_iff_exists.mp
    (creates_keep hs (Option.isSome_iff_exists.mpr ⟨t, hk⟩))
  refine ⟨t', hk', ?_⟩
  rcases create_after hs hk' with ⟨hold, -⟩ | ⟨hnone, -⟩ | ⟨ch, t₀, m, rfl, hk₀, hm, rfl⟩
  · cases hk.symm.trans hold
    exact hmem
  · cases hk.symm.trans hnone
  · cases hk.symm.trans hk₀
    exact List.mem_append_left _ hmem

/-- Only `create_room` inserts a row. -/
theorem Sown.step {db : Db.Rooms} (hreach : Reachable env w) (h : Sown db w)
    (hs : w.step env l = some w') : Sown db w' := by
  intro id hid
  have hold : (HashMap.get w.rooms id).isSome →
      (HashMap.get db id).isSome ∨ ∃ k t row, w'.creates k = some t ∧ (id, row) ∈ t.inserted := by
    intro hrow
    rcases h id hrow with hdb | ⟨k, t, row, hk, hmem⟩
    · exact .inl hdb
    · obtain ⟨t', hk', hmem'⟩ := inserted_keep hs hk hmem
      exact .inr ⟨k, t', row, hk', hmem'⟩
  cases hrow : HashMap.get w.rooms id with
  | some row => exact hold (by rw [hrow]; rfl)
  | none =>
    cases l with
    | create k ch =>
      obtain ⟨t, t', hk, hk', -, ⟨-, hsame⟩ | ⟨id', row, hinserted, -, hrooms⟩⟩ := create_records hs
      · rw [hsame, hrow] at hid
        cases hid
      · rw [hrooms, HashMap.get_insert] at hid
        split at hid
        · rename_i he
          refine .inr ⟨k, t', row, hk', ?_⟩
          rw [hinserted, he]
          exact List.mem_append_right _ (List.mem_singleton_self _)
        · rw [hrow] at hid
          cases hid
    | serve l =>
      -- a row that is new was not created before, and only an insertion creates it
      simp only [App.step] at hs
      split at hs
      · cases hs
      · rename_i hend
        obtain ⟨server, hserver, rfl⟩ := Option.map_eq_some_iff.mp hs
        have hstore := (Server.step_cases hserver).store
        obtain ⟨row', hrow'⟩ := Option.isSome_iff_exists.mp hid
        have hreach' : Server.Reachable env.toEnv server := by
          obtain ⟨db', hrun⟩ := hreach.server
          exact ⟨db', hrun.snoc hserver⟩
        have hcreated' := hreach'.inv.rows.created id row' hrow'
        cases hcreated : w.server.shared.store.created id with
        | some hash =>
          have hgone := hstore.row_none (Option.isSome_iff_exists.mpr ⟨hash, hcreated⟩) hrow
          cases hgone.symm.trans hrow'
        | none =>
          have hins := Server.step_inserts hserver hcreated
            (Option.isSome_iff_exists.mpr ⟨_, hcreated'⟩)
          cases l with
          | background op =>
            cases op with
            | createRoom => exact absurd rfl hend
            | _ => cases hins
          | _ => cases hins
    | _ =>
      have hsame : w'.rooms = w.rooms := by
        cases step_does hs
        rfl
      rw [hsame, hrow] at hid
      cases hid

theorem sown_run (db : Db.Rooms) (h : Machine.run (App.step env) (start db) ls = some w) :
    Sown db w := by
  refine Machine.run_induction (motive := fun _ w => Sown db w) ?_ ?_ h
  · intro id hid
    exact .inl hid
  · intro ls w l w' hrun hs ih
    exact ih.step ⟨db, ls, hrun⟩ hs

/-! ## The bound -/

/-- The agent was granted a token of `key` inside the window. -/
def PaidWithin (paid : List Payment) (key : Budget) (a b : Instant) (agent : Agent) : Prop :=
  ∃ now, ⟨agent, key, now⟩ ∈ paid ∧ a ≤ now ∧ now ≤ b

/-- Room `id` was inserted by a call that `ip` was granted inside the window. -/
def CreatedWithin (w : App) (paid : List Payment) (ip : IpAddr) (a b : Instant) (id : String) :
    Prop :=
  ∃ k t row, w.creates k = some t ∧ (id, row) ∈ t.inserted ∧
    PaidWithin paid (.creation ip) a b (.create k)

/-- No two things that were paid for apart are more than the budget gives. -/
theorem Tolls.card_le (h : Tolls env ls calls paid w) (hsteady : Admission.Steady calls)
    (key : Budget) (hkey : key.address.isSome) (a b : Instant) {α : Type} (xs : Finset α)
    (agent : α → Agent) (hapart : Set.InjOn agent xs)
    (hpaid : ∀ x ∈ xs, PaidWithin paid key a b (agent x)) :
    (xs.card : ℚ) ≤ key.capacity + secsSince a b * key.refill := by
  have hwindow := Admission.okOf_window hsteady key a b
  rw [Admission.okOfWithin, h.granted key hkey] at hwindow
  refine le_trans (Nat.cast_le.mpr ?_) hwindow
  have hmaps : Set.MapsTo agent xs
      ((((paid.filter fun p => decide (p.key = key)).filter fun p => decide (a ≤ p.now ∧ p.now ≤ b)).map
        Payment.agent).toFinset : Finset Agent) := by
    intro x hx
    obtain ⟨now, hmem, hin⟩ := hpaid x hx
    rw [Finset.mem_coe, List.mem_toFinset, List.mem_map]
    exact ⟨_, List.mem_filter.mpr ⟨List.mem_filter.mpr ⟨hmem, by simp⟩, by simp [hin]⟩, rfl⟩
  calc xs.card
      ≤ _ := Finset.card_le_card_of_injOn agent hmaps hapart
    _ ≤ _ := List.toFinset_card_le _
    _ = _ := by rw [List.length_map, List.filter_map, List.length_map]; rfl

/-- Whatever a run has done for an address, it was paid for once. -/
structure Settled (env : Http) (db : Db.Rooms) (ls : List Label) (w : App) : Prop where
  once : ((payments env (start db) ls).map Payment.agent).Nodup
  entitled : ∀ p ∈ payments env (start db) ls,
    (∃ k t ip, p.agent = .create k ∧ w.creates k = some t ∧ p.key = .creation ip ∧
      env.clientIp t.call.peer t.call.forwarded = some ip) ∨
    ∃ k ip, p.agent = .socket k ∧ p.key = .connection ip ∧ Came env ls k ip
  rows : ∀ id, (HashMap.get w.rooms id).isSome → (HashMap.get db id).isSome ∨
    ∃ ip now, w.CreatedWithin (payments env (start db) ls) ip now now id
  inserted : ∀ k t, w.creates k = some t → t.inserted.length ≤ 1 ∧
    (t.inserted ≠ [] → .create k ∈ (payments env (start db) ls).map Payment.agent)
  hashed : (hashes env (start db) ls).Nodup ∧ ∀ k ∈ hashes env (start db) ls,
    .create k ∈ (payments env (start db) ls).map Payment.agent
  -- also where the statement failed
  lookups : (lookups env (start db) ls).Nodup ∧ ∀ k ∈ lookups env (start db) ls,
    .socket k ∈ (payments env (start db) ls).map Payment.agent
  looked : ∀ k s room, w.server.sockets k = some s → .looked room ∈ s.trace →
    k ∈ App.lookups env (start db) ls

theorem Tolls.entitled (h : Tolls env ls calls paid w) {p : Payment} (hp : p ∈ paid) :
    (∃ k t ip, p.agent = .create k ∧ w.creates k = some t ∧ p.key = .creation ip ∧
      env.clientIp t.call.peer t.call.forwarded = some ip) ∨
    ∃ k ip, p.agent = .socket k ∧ p.key = .connection ip ∧ Came env ls k ip := by
  rcases h.known p hp with ⟨k, hagent, hsome⟩ | ⟨k, hagent, hsome⟩
  · obtain ⟨t, hk⟩ := Option.isSome_iff_exists.mp hsome
    obtain ⟨ip, hkey, hip⟩ := (h.creates k t hk).own p hp hagent
    exact .inl ⟨k, t, ip, hagent, hk, hkey, hip⟩
  · obtain ⟨s, hk⟩ := Option.isSome_iff_exists.mp hsome
    obtain ⟨ip, hkey, hcame⟩ := (h.sockets k s hk).own p hp hagent
    exact .inr ⟨k, ip, hagent, hkey, hcame⟩

/-- A call that has inserted a row was answered with success, so it is inside. -/
theorem Tolls.inserter (h : Tolls env ls calls paid w) (hreach : Reachable env w) {t : Create}
    {id : String} {row : Db.Row} (hk : w.creates k = some t) (hmem : (id, row) ∈ t.inserted) :
    t.inserted = [(id, row)] ∧ ∃ ip now, PaidWithin paid (.creation ip) now now (.create k) := by
  have haccount := hreach.account hk
  obtain ⟨answer, hanswer⟩ : ∃ answer, t.pc.response = some (.json answer) := by
    by_contra hnone
    rw [haccount.inserted fun answer he => hnone ⟨answer, he⟩] at hmem
    cases hmem
  obtain ⟨row', hinserted, -⟩ := haccount.answered hanswer
  have hin : t.pc.isInside = true := by
    unfold CreatePc.response at hanswer
    split at hanswer
    · rename_i hpc; cases hanswer; rw [hpc]; rfl
    · cases hanswer
  obtain ⟨p, hp, hagent⟩ := List.mem_map.mp ((h.creates k t hk).settled hin)
  obtain ⟨ip, hkey, -⟩ := (h.creates k t hk).own p hp hagent
  obtain ⟨agent, key, now⟩ := p
  cases hagent
  cases hkey
  refine ⟨?_, ip, now, now, hp, Nat.le_refl now, Nat.le_refl now⟩
  rw [hinserted] at hmem ⊢
  rw [List.mem_singleton.mp hmem]

theorem Tolls.inserted (h : Tolls env ls calls paid w) (hreach : Reachable env w) {t : Create}
    (hk : w.creates k = some t) :
    t.inserted.length ≤ 1 ∧ (t.inserted ≠ [] → .create k ∈ paid.map Payment.agent) := by
  cases hinserted : t.inserted with
  | nil => exact ⟨Nat.zero_le _, fun hne => absurd rfl hne⟩
  | cons entry rest =>
    obtain ⟨id, row⟩ := entry
    obtain ⟨hone, ip, now, now', hpaid, -⟩ :=
      h.inserter hreach hk (by rw [hinserted]; exact List.mem_cons_self)
    rw [hinserted] at hone
    exact ⟨by rw [hone]; exact Nat.le_refl 1, fun _ => List.mem_map_of_mem hpaid⟩

/-- One call makes one room. -/
theorem Tolls.card_created (h : Tolls env ls calls paid w) (hreach : Reachable env w)
    (hsteady : Admission.Steady calls) {ip : IpAddr} {a b : Instant} {ids : Finset String}
    (hids : ∀ id ∈ ids, w.CreatedWithin paid ip a b id) :
    (ids.card : ℚ) ≤
      (Budget.creation ip).capacity + secsSince a b * (Budget.creation ip).refill := by
  choose! maker hmaker using hids
  refine h.card_le hsteady (.creation ip) rfl a b ids (fun id => .create (maker id)) ?_ ?_
  · intro id hid id' hid' he
    obtain ⟨t, row, hk, hmem, -⟩ := hmaker id hid
    obtain ⟨t', row', hk', hmem', -⟩ := hmaker id' hid'
    have hsame : maker id = maker id' := Agent.create.inj he
    rw [hsame, hk'] at hk
    cases hk
    have hone := (h.inserter hreach hk' hmem).1
    have hone' := (h.inserter hreach hk' hmem').1
    exact congrArg Prod.fst (List.singleton_inj.mp (hone.symm.trans hone'))
  · intro id hid
    obtain ⟨t, row, -, -, hpaid⟩ := hmaker id hid
    exact hpaid

theorem creation_tokens (ip : IpAddr) (a b : Instant) :
    (Budget.creation ip).capacity + secsSince a b * (Budget.creation ip).refill =
      5 + secsSince a b / 12 := by
  rw [Budget.refill, show (Budget.creation ip).capacity = 5 from rfl]
  ring

theorem connection_tokens (ip : IpAddr) (a b : Instant) :
    (Budget.connection ip).capacity + secsSince a b * (Budget.connection ip).refill =
      30 + secsSince a b / 2 := by
  rw [Budget.refill, show (Budget.connection ip).capacity = 30 from rfl]
  ring

/-- **What an address can make the server do.** In every run of the router a call of `create_room`
hashes at most one password and inserts at most one row, and a socket looks up its room at most once,
only after one check that the budget of its own address granted, and no check is granted to two of
them; nothing else adds a row. Where checks read a clock that does not run back, also from the
prunings nine minutes before, what an address was granted in a window of `T` seconds is at most
`5 + T / 12` rows, as many hashes, and `30 + T / 2` sockets that look up a room. -/
theorem address_bound (env : Http) (db : Db.Rooms) {ls : List Label} {w : App}
    (hrun : Machine.run (step env) (start db) ls = some w) :
    Settled env db ls w ∧
      (Admission.Steady (limiterCalls env (start db) ls) → ∀ ip a b,
        (∀ ids : Finset String,
          (∀ id ∈ ids, w.CreatedWithin (payments env (start db) ls) ip a b id) →
            (ids.card : ℚ) ≤ 5 + secsSince a b / 12) ∧
        (∀ ks : Finset Nat, (∀ k ∈ ks, k ∈ hashes env (start db) ls ∧
          PaidWithin (payments env (start db) ls) (.creation ip) a b (.create k)) →
            (ks.card : ℚ) ≤ 5 + secsSince a b / 12) ∧
        ∀ ks : Finset Nat, (∀ k ∈ ks, k ∈ lookups env (start db) ls ∧
          PaidWithin (payments env (start db) ls) (.connection ip) a b (.socket k)) →
            (ks.card : ℚ) ≤ 30 + secsSince a b / 2) := by
  have hreach : Reachable env w := ⟨db, ls, hrun⟩
  have htolls := tolls_run db hrun
  have hacted := acted_run db hrun
  refine ⟨⟨htolls.once, fun p hp => htolls.entitled hp, ?_, fun k t hk => htolls.inserted hreach hk,
    ⟨hacted.calls.once, hacted.calls.settled⟩, ⟨hacted.sockets.once, hacted.sockets.settled⟩,
    hacted.seen⟩, ?_⟩
  · intro id hid
    rcases sown_run db hrun id hid with hdb | ⟨k, t, row, hk, hmem⟩
    · exact .inl hdb
    · obtain ⟨-, ip, now, hpaid⟩ := htolls.inserter hreach hk hmem
      exact .inr ⟨ip, now, k, t, row, hk, hmem, hpaid⟩
  · intro hsteady ip a b
    refine ⟨?_, ?_, ?_⟩
    · intro ids hids
      exact (htolls.card_created hreach hsteady hids).trans (creation_tokens ip a b).le
    · intro ks hks
      have hcard := htolls.card_le hsteady (.creation ip) rfl a b ks Agent.create
        (fun _ _ _ _ he => Agent.create.inj he) fun k hk => (hks k hk).2
      exact hcard.trans (creation_tokens ip a b).le
    · intro ks hks
      have hcard := htolls.card_le hsteady (.connection ip) rfl a b ks Agent.socket
        (fun _ _ _ _ he => Agent.socket.inj he) fun k hk => (hks k hk).2
      exact hcard.trans (connection_tokens ip a b).le

/-- Open room `id`, from one address at `now`. -/
def opening (k : Nat) (id : String) (now : Instant) : List Label :=
  [.createRoom k ⟨.v4 0, [], [], []⟩, .create k .proceed, .create k (.clock now),
    .create k (.statement id 0 false)]

/-- A room for each of the five tokens of an address, one more call that is refused, a failed lookup
and, when a token is back, another room. -/
def sixRooms : List Label :=
  opening 0 "a" 0 ++ opening 1 "b" 0 ++ opening 2 "c" 0 ++ opening 3 "d" 0 ++ opening 4 "e" 0 ++
    [.createRoom 5 ⟨.v4 0, [], [], []⟩, .create 5 .proceed, .create 5 (.clock (fromSecs 11))] ++
    [.serve (.connect 0 "a"),
      .serve (.socket 0 (.request [some "https://parrhesia.example"] (.v4 0) [])),
      .serve (.socket 0 (.clock (fromSecs 11))), .serve (.socket 0 (.statement true))] ++
    opening 6 "f" (fromSecs 12)

/-- The rooms of `sixRooms`, with the calls that made them. -/
def sixMade : List (String × Nat) := [("a", 0), ("b", 1), ("c", 2), ("d", 3), ("e", 4), ("f", 6)]

/-- What the address was granted. -/
def sixPaid : List Payment :=
  [⟨.create 0, .creation (.v4 0), 0⟩, ⟨.create 1, .creation (.v4 0), 0⟩,
    ⟨.create 2, .creation (.v4 0), 0⟩, ⟨.create 3, .creation (.v4 0), 0⟩,
    ⟨.create 4, .creation (.v4 0), 0⟩, ⟨.socket 0, .connection (.v4 0), fromSecs 11⟩,
    ⟨.create 6, .creation (.v4 0), fromSecs 12⟩]

/-- Six rooms in the twelve seconds that give six tokens. -/
theorem address_bound_sixRooms : ∃ w, Machine.run (step roomsEnv) (start ∅) sixRooms = some w ∧
    Settled roomsEnv ∅ sixRooms w ∧ lookups roomsEnv (start ∅) sixRooms = [0] ∧
    (((sixMade.map Prod.fst).toFinset.card : Nat) : ℚ) ≤ 5 + secsSince 0 (fromSecs 12) / 12 ∧
    (({0} : Finset Nat).card : ℚ) ≤ 30 + secsSince 0 (fromSecs 12) / 2 := by
  have hrun : ((Machine.run (step roomsEnv) (start ∅) sixRooms).map fun w =>
      sixMade.map fun p => (w.creates p.2).map Create.inserted) =
        some (sixMade.map fun p => some [(p.1, ⟨0, 0, none⟩)]) := by decide +kernel
  have hpaid : payments roomsEnv (start ∅) sixRooms = sixPaid := by decide +kernel
  have hlooks : lookups roomsEnv (start ∅) sixRooms = [0] := by decide +kernel
  have hsteady : Admission.Steady (limiterCalls roomsEnv (start ∅) sixRooms) := by decide +kernel
  have hpayers : ∀ p ∈ sixMade, ∃ q ∈ sixPaid, q.agent = .create p.2 ∧
      q.key = .creation (.v4 0) ∧ 0 ≤ q.now ∧ q.now ≤ fromSecs 12 := by decide
  obtain ⟨w, hw, hmade⟩ := Option.map_eq_some_iff.mp hrun
  obtain ⟨hsettled, hwindow⟩ := address_bound roomsEnv ∅ hw
  obtain ⟨hrooms, -, hsockets⟩ := hwindow hsteady (.v4 0) 0 (fromSecs 12)
  refine ⟨w, hw, hsettled, hlooks, hrooms _ ?_, hsockets _ ?_⟩
  · intro id hid
    obtain ⟨p, hp, rfl⟩ := List.mem_map.mp (List.mem_toFinset.mp hid)
    obtain ⟨t, hk, hinserted⟩ := Option.map_eq_some_iff.mp (List.map_inj_left.mp hmade p hp)
    obtain ⟨⟨agent, key, now⟩, hq, rfl, rfl, hfrom, hto⟩ := hpayers p hp
    rw [hpaid]
    exact ⟨p.2, t, ⟨0, 0, none⟩, hk, by rw [hinserted]; exact List.mem_singleton_self _, now, hq,
      hfrom, hto⟩
  · intro k hk
    rw [Finset.mem_singleton.mp hk, hlooks, hpaid]
    exact ⟨List.mem_singleton_self _, fromSecs 11, by decide, by decide, by decide⟩

end App
end Parrhesia
