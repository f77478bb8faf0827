import Parrhesia.Logs
import Parrhesia.Moves

/-!
# Parrhesia.Server

The process: any number of sockets on one shared state, the calls of the other endpoints, and the
tasks in the background, interleaved in every order.

* `socket`     : one move of one socket.
* `background` : room creation (with any hash), `get_room`, and the pieces of the cleanup task.
* `creationBudget`, `hash`, `jobEnds`, `maintain` : what they and the runtime do to the limits and to
  the password jobs.

The store of a reachable server is a reachable store (`Reachable.store`), so the invariants of the
store hold in it.
-/

namespace Parrhesia

open Lib

structure Server where
  shared : Shared
  sockets : Nat → Option Session

/-- The operations that no socket performs. -/
def Store.Op.isBackground : Store.Op → Bool
  | .createRoom .. => true
  | .roomPassword .. => true
  | .expireDelete .. => true
  | .expireRemove => true
  | .expireDone => true
  | _ => false

namespace Server

inductive Label where
  | connect (k : Nat) (roomId : String)
  | socket (k : Nat) (choice : Choice)
  | background (op : Store.Op)
  | creationBudget (ip : IpAddr) (now : Instant)
  | hash (password : String) (salt : List UInt8)
  | jobEnds (job : Nat) (panics : Bool)
  | maintain (now : Instant)

variable (env : Env)

def start (db : Db.Rooms) : Server := ⟨⟨.start db, .empty, .new⟩, fun _ => none⟩

def setSocket (v : Server) (k : Nat) (s : Session) (sh : Shared) : Server :=
  ⟨sh, Function.update v.sockets k (some s)⟩

/-- Socket `k` moves. -/
def socket (v : Server) (k : Nat) (ch : Choice) : Option Server :=
  match v.sockets k with
  | none => none
  | some s => (s.next env v.shared ch).map fun (s', sh) => v.setSocket k s' sh

def step (v : Server) : Label → Option Server
  | .connect k roomId =>
    match v.sockets k with
    | none => some (v.setSocket k (.connect roomId) v.shared)
    | some _ => none
  | .socket k ch => v.socket env k ch
  | .background op =>
    if op.isBackground then (v.shared.apply op).map fun shared => { v with shared } else none
  | .creationBudget ip now =>
    let limits := (v.shared.limits.checkAt (.creation ip) now).2
    some { v with shared := { v.shared with limits } }
  | .hash password salt =>
    match v.shared.passwords.hash env.crates password salt with
    | .ok (_, passwords) => some { v with shared := { v.shared with passwords } }
    | .error _ => some v
  | .jobEnds job panics =>
    (v.shared.passwords.finish env.crates job panics).map fun passwords =>
      { v with shared := { v.shared with passwords } }
  | .maintain now =>
    some { v with shared := { v.shared with limits := v.shared.limits.maintain now } }

/-- A state some run reaches from the start of a process. -/
def Reachable (v : Server) : Prop := ∃ db, Machine.Reachable (step env) (start db) v

end Server

namespace Server

variable {env : Env} {v v' : Server}

theorem setSocket_cases {k k' : Nat} {s s' : Session} {sh : Shared}
    (h : (v.setSocket k s sh).sockets k' = some s') :
    k' = k ∧ s' = s ∨ k' ≠ k ∧ v.sockets k' = some s' := by
  simp only [setSocket, Function.update_apply] at h
  split at h
  · rename_i he; cases h; exact .inl ⟨he, rfl⟩
  · rename_i hne; exact .inr ⟨hne, h⟩

theorem setSocket_self (k : Nat) (s : Session) (sh : Shared) :
    (v.setSocket k s sh).sockets k = some s := Function.update_self ..

theorem setSocket_of_ne {k k' : Nat} (h : k' ≠ k) (s : Session) (sh : Shared) :
    (v.setSocket k s sh).sockets k' = v.sockets k' := Function.update_of_ne h ..

/-- Everything a step can do. -/
inductive Step (env : Env) (v : Server) : Server → Prop
  | opened {k roomId} (hk : v.sockets k = none) :
      Step env v (v.setSocket k (.connect roomId) v.shared)
  | moved {k s m} (hk : v.sockets k = some s) (hm : PcStep env v.shared s.roomId s.pc m) :
      Step env v (v.setSocket k { s with pc := m.pc, trace := s.trace ++ m.obs } m.shared)
  | background {op store} (hop : op.isBackground = true)
      (hstep : v.shared.store.step op = some store) :
      Step env v { v with shared := { v.shared with store } }
  | budgeted {ip now} :
      Step env v { v with shared := { v.shared with
        limits := (v.shared.limits.checkAt (.creation ip) now).2 } }
  | hashing {password salt job passwords}
      (hhash : v.shared.passwords.hash env.crates password salt = .ok (job, passwords)) :
      Step env v { v with shared := { v.shared with passwords } }
  | refused : Step env v v
  | ended {job panics passwords}
      (hfinish : v.shared.passwords.finish env.crates job panics = some passwords) :
      Step env v { v with shared := { v.shared with passwords } }
  | maintained {now} :
      Step env v { v with shared := { v.shared with limits := v.shared.limits.maintain now } }

/-- A socket moves by its choice. -/
theorem socket_next {k : Nat} {ch : Choice} (h : v.socket env k ch = some v') :
    ∃ s m, v.sockets k = some s ∧ s.pc.next env v.shared s.roomId ch = some m ∧
      v' = v.setSocket k { s with pc := m.pc, trace := s.trace ++ m.obs } m.shared := by
  simp only [socket] at h
  split at h
  · cases h
  · rename_i s hk
    obtain ⟨⟨s', sh⟩, hs', rfl⟩ := Option.map_eq_some_iff.mp h
    obtain ⟨m, hm, hmove⟩ := Option.map_eq_some_iff.mp hs'
    cases hmove
    exact ⟨s, m, hk, hm, rfl⟩

theorem socket_cases {k : Nat} {ch : Choice} (h : v.socket env k ch = some v') :
    ∃ s m, v.sockets k = some s ∧ PcStep env v.shared s.roomId s.pc m ∧
      v' = v.setSocket k { s with pc := m.pc, trace := s.trace ++ m.obs } m.shared := by
  obtain ⟨s, m, hk, hm, hv'⟩ := socket_next h
  exact ⟨s, m, hk, Pc.next_cases hm, hv'⟩

/-- What each label does. -/
inductive Does (env : Env) (v : Server) : Label → Server → Prop
  | connect {k roomId} (hk : v.sockets k = none) :
      Does env v (.connect k roomId) (v.setSocket k (.connect roomId) v.shared)
  | socket {k ch v'} (hmove : v.socket env k ch = some v') : Does env v (.socket k ch) v'
  | background {op store} (hop : op.isBackground = true)
      (hstep : v.shared.store.step op = some store) :
      Does env v (.background op) { v with shared := { v.shared with store } }
  | creationBudget {ip now} :
      Does env v (.creationBudget ip now) { v with shared := { v.shared with
        limits := (v.shared.limits.checkAt (.creation ip) now).2 } }
  | hash {password salt job passwords}
      (hhash : v.shared.passwords.hash env.crates password salt = .ok (job, passwords)) :
      Does env v (.hash password salt) { v with shared := { v.shared with passwords } }
  | refused {password salt} : Does env v (.hash password salt) v
  | jobEnds {job panics passwords}
      (hfinish : v.shared.passwords.finish env.crates job panics = some passwords) :
      Does env v (.jobEnds job panics) { v with shared := { v.shared with passwords } }
  | maintain {now} :
      Does env v (.maintain now)
        { v with shared := { v.shared with limits := v.shared.limits.maintain now } }

theorem step_does {l : Label} (h : v.step env l = some v') : Does env v l v' := by
  cases l with
  | connect k roomId =>
    simp only [step] at h
    split at h
    · rename_i hk; cases h; exact .connect hk
    · cases h
  | socket k ch => exact .socket h
  | background op =>
    simp only [step] at h
    split at h
    · rename_i hop
      obtain ⟨sh, happly, rfl⟩ := Option.map_eq_some_iff.mp h
      obtain ⟨store, hstep, rfl⟩ := Shared.apply_eq_some.mp happly
      exact .background hop hstep
    · cases h
  | creationBudget ip now => cases h; exact .creationBudget
  | hash password salt =>
    simp only [step] at h
    split at h
    · rename_i hhash; cases h; exact .hash hhash
    · cases h; exact .refused
  | jobEnds job panics =>
    obtain ⟨passwords, hfinish, rfl⟩ := Option.map_eq_some_iff.mp h
    exact .jobEnds hfinish
  | maintain now => cases h; exact .maintain

theorem step_cases {l : Label} (h : v.step env l = some v') : Step env v v' := by
  cases step_does h with
  | connect hk => exact .opened hk
  | socket hmove =>
    obtain ⟨s, m, hk, hm, rfl⟩ := socket_cases hmove
    exact .moved hk hm
  | background hop hstep => exact .background hop hstep
  | creationBudget => exact .budgeted
  | hash hhash => exact .hashing hhash
  | refused => exact .refused
  | jobEnds hfinish => exact .ended hfinish
  | maintain => exact .maintained

end Server

/-! ## The store of a server -/

section Store

variable {env : Env} {sh : Shared} {roomId connId : String}

/-- The store after a move: as it was, or one operation later. -/
def Store.Stepped (s s' : Store) : Prop := s' = s ∨ ∃ op, s.step op = some s'

theorem Store.Stepped.created_keep {s s' : Store} (h : s.Stepped s') {id : String}
    {hash : Option String} (hcr : s.created id = some hash) : s'.created id = some hash := by
  rcases h with rfl | ⟨op, hop⟩
  · exact hcr
  · exact (Store.step_cases hop).created_keep hcr

theorem Store.Stepped.created_isSome {s s' : Store} (h : s.Stepped s') {id : String}
    (hcr : (s.created id).isSome) : (s'.created id).isSome := by
  obtain ⟨hash, hhash⟩ := Option.isSome_iff_exists.mp hcr
  rw [h.created_keep hhash]
  rfl

theorem Store.Stepped.row_none {s s' : Store} (h : s.Stepped s') {id : String}
    (hcr : (s.created id).isSome) (hrow : s.row id = none) : s'.row id = none := by
  rcases h with rfl | ⟨op, hop⟩
  · exact hrow
  · exact (Store.step_cases hop).row_none hcr hrow

theorem AuthStep.store {guard : Option IpAddr} {hash : String} {p : AuthPc} {m : Move Pc}
    (h : AuthStep env sh roomId guard hash p m) : m.shared.store = sh.store := by
  cases h <;> rfl

theorem RelayStep.store {r : Relay} {p : RelayPc} {m : Move LivePc}
    (h : RelayStep env sh roomId connId r p m) : sh.store.Stepped m.shared.store := by
  cases h with
  | updated hstep => exact .inr ⟨_, hstep⟩
  | published hstep => exact .inr ⟨_, hstep⟩
  | _ => exact .inl rfl

theorem LiveStep.store {isProtected : Bool} {attached : Attached} {p : LivePc} {m : Move LivePc}
    (h : LiveStep env sh roomId isProtected connId attached p m) :
    sh.store.Stepped m.shared.store := by
  cases h with
  | asked hstep => exact .inr ⟨_, hstep⟩
  | joined hlock hstep => exact .inr ⟨_, hstep⟩
  | relayed hrelay => exact hrelay.store
  | _ => exact .inl rfl

theorem PcStep.store {pc : Pc} {m : Move Pc} (h : PcStep env sh roomId pc m) :
    sh.store.Stepped m.shared.store := by
  cases h with
  | auth hauth => exact .inl hauth.store
  | dropped hdrop => exact .inl (Shared.dropGuard_store hdrop)
  | attaching hstep => exact .inr ⟨_, hstep⟩
  | attached hstep => exact .inr ⟨_, hstep⟩
  | live hlive => exact hlive.store
  | detached hstep => exact .inr ⟨_, hstep⟩
  | _ => exact .inl rfl

end Store

namespace Server

variable {env : Env} {v v' : Server}

theorem Step.store (h : Step env v v') : v.shared.store.Stepped v'.shared.store := by
  cases h with
  | moved hk hm => exact hm.store
  | background hop hstep => exact .inr ⟨_, hstep⟩
  | _ => exact .inl rfl

/-- Runs of the server are runs of the store. -/
theorem store_run (h : Machine.Reachable (step env) v v') :
    Machine.Reachable Store.step v.shared.store v'.shared.store := by
  have hstep : ∀ (v : Server) (l : Label) (v' : Server), v.step env l = some v' →
      v'.shared.store = v.shared.store ∨ ∃ op, v.shared.store.step op = some v'.shared.store :=
    fun v l v' hs => (step_cases hs).store
  exact h.map (fun v => v.shared.store) hstep

theorem Reachable.store (h : Reachable env v) : v.shared.store.Reachable := by
  obtain ⟨db, hrun⟩ := h
  exact ⟨db, store_run hrun⟩

/-- The invariants of the store hold in a reachable server. -/
theorem Reachable.inv (h : Reachable env v) : v.shared.store.Inv := h.store.inv

/-- Induction on a run of the server. -/
theorem Reachable.invariant {I : Server → Prop} (h : Reachable env v) (hstart : ∀ db, I (start db))
    (hstep : ∀ v v', Reachable env v → I v → Step env v v' → I v') : I v := by
  obtain ⟨db, hrun⟩ := h
  refine (hrun.invariant (I := fun v => Reachable env v ∧ I v) ⟨⟨db, .refl⟩, hstart db⟩ ?_).2
  rintro v l v' ⟨⟨db', hreach⟩, hI⟩ hs
  exact ⟨⟨db', hreach.snoc hs⟩, hstep v v' ⟨db', hreach⟩ hI (step_cases hs)⟩

/-- What every socket starts with, every step of the server keeps, and the socket's own moves keep,
holds of every socket. -/
theorem Reachable.socket {I : Shared → Session → Prop} (h : Reachable env v)
    (hconnect : ∀ sh roomId, I sh (.connect roomId))
    (hkeep : ∀ v v' s, Reachable env v → Step env v v' → I v.shared s → I v'.shared s)
    (hmove : ∀ v s m, Reachable env v → I v.shared s → PcStep env v.shared s.roomId s.pc m →
      I m.shared { s with pc := m.pc, trace := s.trace ++ m.obs })
    {k : Nat} {s : Session} (hk : v.sockets k = some s) : I v.shared s := by
  refine h.invariant (I := fun v => ∀ k s, v.sockets k = some s → I v.shared s) ?_ ?_ k s hk
  · intro db k s hk
    cases hk
  · intro v v' hv ih hs k s hk
    cases hs with
    | @opened k₀ roomId hk₀ =>
      rcases setSocket_cases hk with ⟨-, rfl⟩ | ⟨-, hk⟩
      · exact hconnect v.shared roomId
      · exact ih k s hk
    | @moved k₀ s₀ m hk₀ hm =>
      have hs := Step.moved hk₀ hm
      rcases setSocket_cases hk with ⟨-, rfl⟩ | ⟨-, hk⟩
      · exact hmove v s₀ m hv (ih k₀ s₀ hk₀) hm
      · exact hkeep v _ s hv hs (ih k s hk)
    | background hop hstep => exact hkeep v _ s hv (.background hop hstep) (ih k s hk)
    | budgeted => exact hkeep v _ s hv .budgeted (ih k s hk)
    | hashing hhash => exact hkeep v _ s hv (.hashing hhash) (ih k s hk)
    | refused => exact ih k s hk
    | ended hfinish => exact hkeep v _ s hv (.ended hfinish) (ih k s hk)
    | maintained => exact hkeep v _ s hv .maintained (ih k s hk)

end Server
end Parrhesia
