import Parrhesia.Gate

/-!
# Parrhesia.Rooms

`routes/rooms.rs` and `app`: any number of calls of `create_room` and `get_room`, each cut where it
waits, beside the sockets and the background of the server.

* `CreateCall.read`  : what is read of the body, or the response that refuses it.
* `CreatePc.next`    : a call of `create_room`, from one wait to the next.
* `App`              : the server with the calls made to it; its runs are runs of the server
  (`App.Reachable.server`), in which rooms are created by `create_room` alone.

JSON is third-party (`Http.parseJson`), the derived `Deserialize` of the request is not. A call whose
client has gone away is dropped where it waits: it does not move any more.
-/

namespace Parrhesia

open Lib
open Admission (AdmissionError)

/-- A JSON value; the fields of an object are in the order of the text, with every repetition. -/
inductive Json where
  | null
  | bool (value : Bool)
  | number (text : String)
  | string (value : String)
  | array (items : List Json)
  | object (fields : List (String × Json))

structure Http extends Env where
  parseJson : Bytes → Option Json

inductive StatusCode where
  | badRequest
  | notFound
  | payloadTooLarge
  | unsupportedMediaType
  | tooManyRequests
  | internalServerError
  | serviceUnavailable
  deriving DecidableEq, Repr

structure CreateRoomRequest where
  password : Option String
  deriving DecidableEq, Repr

structure CreateRoomResponse where
  roomId : String
  passwordRequired : Bool
  deriving DecidableEq, Repr

structure RoomStatusResponse where
  exists_ : Bool
  roomId : String
  passwordRequired : Bool
  deriving DecidableEq, Repr

structure ErrorResponse where
  error : String
  deriving DecidableEq, Repr

/-- `Json(body)`, an error with its `Retry-After`, or what an extractor answers in place of the
handler. -/
inductive Response (α : Type) where
  | json (body : α)
  | error (status : StatusCode) (retryAfter : Option Nat) (body : ErrorResponse)
  | rejection (status : StatusCode)
  deriving DecidableEq, Repr

def Response.isSuccess {α : Type} : Response α → Bool
  | .json _ => true
  | _ => false

namespace Rooms

def error {α : Type} (status : StatusCode) (message : String) : Response α :=
  .error status none ⟨message⟩

def admissionError {α : Type} : AdmissionError → Response α
  | .limited retry => .error .tooManyRequests (some retry) ⟨"Too many attempts; retry later"⟩
  | .unavailable => error .serviceUnavailable "Admission temporarily unavailable"

/-- What is answered when `hash` fails. -/
def hashError {α : Type} : PasswordError → Response α
  | .invalid =>
    error .badRequest "Password must contain 15–256 characters and at most 1024 UTF-8 bytes"
  | .common =>
    error .badRequest "This password is commonly used; choose a different passphrase"
  | _ => error .serviceUnavailable "Password protection temporarily unavailable"

/-- `DefaultBodyLimit`. -/
def bodyLimit : Nat := 4096

/-- `str::trim`, of a header value. -/
def trim (cs : List Char) : List Char :=
  ((cs.dropWhile Char.isWhitespace).reverse.dropWhile Char.isWhitespace).reverse

/-- A content type without its parameters. -/
def mediaType (value : String) : String := String.ofList (trim (value.toList.takeWhile (· ≠ ';')))

def getRoom (db : Db.Rooms) (roomId : String) (fault : Bool) : Response RoomStatusResponse :=
  match Db.roomPassword db roomId fault with
  | .ok (some hash) => .json ⟨true, roomId, hash.isSome⟩
  | .ok none => error .notFound "Room not found"
  | .error _ => error .internalServerError "Failed to check room"

end Rooms

open Rooms

/-! ## The request -/

/-- An `Option<String>`. -/
def Json.optionString : Json → Option (Option String)
  | .null => some none
  | .string value => some (some value)
  | _ => none

/-- The derived `Deserialize`: an object without a field that is unknown or repeated, where a missing
`password` is `None`, or the fields by position. -/
def CreateRoomRequest.deserialize : Json → Option CreateRoomRequest
  | .object [] => some ⟨none⟩
  | .object [(key, value)] => if key = "password" then value.optionString.map .mk else none
  | .array [value] => value.optionString.map .mk
  | _ => none

/-- What `create_room` gets. A header value that is not visible ASCII is `none`. -/
structure CreateCall where
  peer : IpAddr
  forwarded : List (Option String)
  contentTypes : List (Option String)
  body : Bytes

def CreateCall.read (env : Http) (call : CreateCall) :
    Except (Response CreateRoomResponse) CreateRoomRequest :=
  if call.body.isEmpty then .ok ⟨none⟩
  else if call.contentTypes.head?.join.map mediaType ≠ some "application/json" then
    .error (error .unsupportedMediaType "Expected application/json")
  else
    match (env.parseJson call.body).bind CreateRoomRequest.deserialize with
    | some request => .ok request
    | none => .error (error .badRequest "Invalid room request")

/-! ## A call of `create_room` -/

/-- The places of `create_room`. -/
inductive CreatePc where
  | request
  | budget (ip : IpAddr)
  | hash (password : String)
  | hashing (password : String) (job : Nat)
  | insert (passwordHash : Option String)
  | responded (response : Response CreateRoomResponse)

def CreatePc.response : CreatePc → Option (Response CreateRoomResponse)
  | .responded response => some response
  | _ => none

inductive CreateChoice where
  | proceed
  | clock (now : Instant)
  | salt (salt : List UInt8)
  | statement (roomId : String) (now : Int) (fault : Bool)

/-- A move of a call; `inserted` is the row that its `INSERT` added. -/
structure CreateMove where
  pc : CreatePc
  inserted : List (String × Db.Row)
  shared : Shared

/-- Where the request leads once it is read. -/
def CreatePc.ofRead : Except (Response CreateRoomResponse) CreateRoomRequest → CreatePc
  | .error response => .responded response
  | .ok ⟨none⟩ => .insert none
  | .ok ⟨some password⟩ => .hash password

/-- Where the outcome of `hash` leads. -/
def CreatePc.ofHash : Except PasswordError String → CreatePc
  | .ok passwordHash => .insert (some passwordHash)
  | .error e => .responded (hashError e)

def CreatePc.next (env : Http) (sh : Shared) (call : CreateCall) (pc : CreatePc)
    (ch : CreateChoice) : Option CreateMove :=
  match pc, ch with
  | .request, .proceed =>
    if bodyLimit < call.body.length then some ⟨.responded (.rejection .payloadTooLarge), [], sh⟩
    else
      match env.clientIp call.peer call.forwarded with
      | some ip => some ⟨.budget ip, [], sh⟩
      | none => some ⟨.responded (error .badRequest "Invalid client address"), [], sh⟩
  | .budget ip, .clock now =>
    match sh.limits.checkAt (.creation ip) now with
    | (.ok (), limits) => some ⟨.ofRead (call.read env), [], { sh with limits }⟩
    | (.error e, limits) => some ⟨.responded (admissionError e), [], { sh with limits }⟩
  | .hash password, .salt salt =>
    match sh.passwords.hash env.crates password salt with
    | .ok (job, passwords) => some ⟨.hashing password job, [], { sh with passwords }⟩
    | .error e => some ⟨.ofHash (.error e), [], sh⟩
  | .hashing _ job, .proceed =>
    (sh.passwords.hashed job).map fun result => ⟨.ofHash result, [], sh⟩
  | .insert passwordHash, .statement roomId now fault =>
    match Db.createRoomWithPassword sh.store.app.db roomId passwordHash now fault with
    | .error _ =>
      some ⟨.responded (error .internalServerError "Failed to create room"), [], sh⟩
    -- a v4 id is not drawn twice, so not that of an expired room either
    | .ok _ =>
      (sh.apply (.createRoom roomId passwordHash now fault)).map fun sh =>
        ⟨.responded (.json ⟨roomId, passwordHash.isSome⟩), [(roomId, ⟨now, now, passwordHash⟩)], sh⟩
  | _, _ => none

/-- A call of `create_room`, where it is and what it has inserted. -/
structure Create where
  call : CreateCall
  pc : CreatePc
  inserted : List (String × Db.Row)

/-- A call of `get_room`, and its response once it has one. -/
structure Get where
  roomId : String
  response : Option (Response RoomStatusResponse)

/-! ## The router -/

structure App where
  server : Server
  creates : Nat → Option Create
  gets : Nat → Option Get

/-- What the endpoints do; it is left to the calls. -/
def Server.Label.isEndpoint : Server.Label → Bool
  | .background (.createRoom ..) => true
  | .background (.roomPassword ..) => true
  | .creationBudget .. => true
  | .hash .. => true
  | _ => false

namespace App

inductive Label where
  | serve (l : Server.Label)
  | createRoom (k : Nat) (call : CreateCall)
  | create (k : Nat) (choice : CreateChoice)
  | getRoom (k : Nat) (roomId : String)
  | get (k : Nat) (fault : Bool)

def start (db : Db.Rooms) : App := ⟨.start db, fun _ => none, fun _ => none⟩

def setCreate (w : App) (k : Nat) (t : Create) (sh : Shared) : App :=
  { w with server := { w.server with shared := sh }, creates := Function.update w.creates k (some t) }

def setGet (w : App) (k : Nat) (g : Get) : App := { w with gets := Function.update w.gets k (some g) }

def step (env : Http) (w : App) : Label → Option App
  | .serve l =>
    if l.isEndpoint then none
    else (w.server.step env.toEnv l).map fun server => { w with server }
  | .createRoom k call =>
    match w.creates k with
    | none => some (w.setCreate k ⟨call, .request, []⟩ w.server.shared)
    | some _ => none
  | .create k ch =>
    match w.creates k with
    | none => none
    | some t =>
      (t.pc.next env w.server.shared t.call ch).map fun m =>
        w.setCreate k { t with pc := m.pc, inserted := t.inserted ++ m.inserted } m.shared
  | .getRoom k roomId =>
    match w.gets k with
    | none => some (w.setGet k ⟨roomId, none⟩)
    | some _ => none
  | .get k fault =>
    match w.gets k with
    | some ⟨roomId, none⟩ =>
      some (w.setGet k ⟨roomId, some (getRoom w.server.shared.store.app.db roomId fault)⟩)
    | _ => none

/-- A state some run reaches from the start of a process. -/
def Reachable (env : Http) (w : App) : Prop := ∃ db, Machine.Reachable (step env) (start db) w

end App

/-! ## What a call can do -/

variable {env : Http} {sh : Shared} {call : CreateCall}

/-- Everything a move of `create_room` can do. -/
inductive CreateStep (env : Http) (sh : Shared) (call : CreateCall) : CreatePc → CreateMove → Prop
  | rejected {response} (hfail : response.isSuccess = false) :
      CreateStep env sh call .request ⟨.responded response, [], sh⟩
  | addressed {ip} : CreateStep env sh call .request ⟨.budget ip, [], sh⟩
  | limited {ip now e limits} (hcheck : sh.limits.checkAt (.creation ip) now = (.error e, limits)) :
      CreateStep env sh call (.budget ip) ⟨.responded (admissionError e), [], { sh with limits }⟩
  | paid {ip now limits} (hcheck : sh.limits.checkAt (.creation ip) now = (.ok (), limits)) :
      CreateStep env sh call (.budget ip) ⟨.ofRead (call.read env), [], { sh with limits }⟩
  | started {password salt job passwords}
      (hhash : sh.passwords.hash env.crates password salt = .ok (job, passwords)) :
      CreateStep env sh call (.hash password) ⟨.hashing password job, [], { sh with passwords }⟩
  | notStarted {password e} :
      CreateStep env sh call (.hash password) ⟨.responded (hashError e), [], sh⟩
  | hashed {password job passwordHash} (hjob : sh.passwords.hashed job = some (.ok passwordHash)) :
      CreateStep env sh call (.hashing password job) ⟨.insert (some passwordHash), [], sh⟩
  | failed {password job e} (hjob : sh.passwords.hashed job = some (.error e)) :
      CreateStep env sh call (.hashing password job) ⟨.responded (hashError e), [], sh⟩
  | notInserted {passwordHash} :
      CreateStep env sh call (.insert passwordHash)
        ⟨.responded (error .internalServerError "Failed to create room"), [], sh⟩
  | inserted {passwordHash roomId now store}
      (hstep : sh.store.step (.createRoom roomId passwordHash now false) = some store)
      (hfree : HashMap.get sh.store.app.db roomId = none)
      (hdb : store.app.db = HashMap.insert sh.store.app.db roomId ⟨now, now, passwordHash⟩)
      (hcreated : store.created roomId = some passwordHash) :
      CreateStep env sh call (.insert passwordHash)
        ⟨.responded (.json ⟨roomId, passwordHash.isSome⟩), [(roomId, ⟨now, now, passwordHash⟩)],
          { sh with store }⟩

theorem createRoomWithPassword_ok {db db' : Db.Rooms} {roomId : String}
    {passwordHash : Option String} {now : Int} {fault : Bool}
    (h : Db.createRoomWithPassword db roomId passwordHash now fault = .ok db') :
    fault = false ∧ HashMap.get db roomId = none ∧
      db' = HashMap.insert db roomId ⟨now, now, passwordHash⟩ := by
  unfold Db.createRoomWithPassword at h
  split at h
  · cases h
  · rename_i hkey
    cases fault with
    | true => cases h
    | false =>
      cases h
      exact ⟨rfl, Option.not_isSome_iff_eq_none.mp hkey, rfl⟩

theorem createRoom_ok {s : Store} {db : Db.Rooms} {roomId : String} {passwordHash : Option String}
    {now : Int} {store : Store}
    (hdb : Db.createRoomWithPassword s.app.db roomId passwordHash now false = .ok db)
    (h : s.step (.createRoom roomId passwordHash now false) = some store) :
    store.app.db = db ∧ store.created roomId = some passwordHash := by
  simp only [Store.step, Store.createRoom] at h
  split at h
  · cases h
  · rw [hdb] at h
    cases h
    exact ⟨rfl, Function.update_self ..⟩

theorem CreatePc.next_cases {pc : CreatePc} {ch : CreateChoice} {m : CreateMove}
    (h : pc.next env sh call ch = some m) : CreateStep env sh call pc m := by
  unfold CreatePc.next at h
  split at h
  · split at h
    · cases h; exact .rejected rfl
    · split at h
      · cases h; exact .addressed
      · cases h; exact .rejected rfl
  · split at h
    · rename_i hcheck; cases h; exact .paid hcheck
    · rename_i hcheck; cases h; exact .limited hcheck
  · split at h
    · rename_i hhash; cases h; exact .started hhash
    · cases h; exact .notStarted
  · obtain ⟨result, hjob, rfl⟩ := Option.map_eq_some_iff.mp h
    cases result with
    | ok passwordHash => exact .hashed hjob
    | error e => exact .failed hjob
  · split at h
    · cases h; exact .notInserted
    · rename_i db hdb
      obtain ⟨sh', happly, rfl⟩ := Option.map_eq_some_iff.mp h
      obtain ⟨store, hstep, rfl⟩ := Shared.apply_eq_some.mp happly
      obtain ⟨rfl, hfree, rfl⟩ := createRoomWithPassword_ok hdb
      obtain ⟨hrows, hcreated⟩ := createRoom_ok hdb hstep
      exact .inserted hstep hfree hrows hcreated
  · cases h

/-- A move of a call is a step of the server, or changes nothing there. -/
theorem CreateStep.server {v : Server} {pc : CreatePc} {m : CreateMove}
    (h : CreateStep env v.shared call pc m) :
    { v with shared := m.shared } = v ∨
      ∃ l, v.step env.toEnv l = some { v with shared := m.shared } := by
  cases h with
  | @limited ip now e limits hcheck =>
    exact .inr ⟨.creationBudget ip now, by simp only [Server.step, hcheck]⟩
  | @paid ip now limits hcheck =>
    exact .inr ⟨.creationBudget ip now, by simp only [Server.step, hcheck]⟩
  | @started password salt job passwords hhash =>
    exact .inr ⟨.hash password salt, by simp only [Server.step, hhash]⟩
  | @inserted passwordHash roomId now store hstep =>
    refine .inr ⟨.background (.createRoom roomId passwordHash now false), ?_⟩
    simp only [Server.step, Store.Op.isBackground, if_true, Shared.apply, hstep, Option.map_some]
  | _ => exact .inl rfl

namespace App

variable {w w' : App}

theorem setCreate_cases {k k' : Nat} {t t' : Create} {sh : Shared}
    (h : (w.setCreate k t sh).creates k' = some t') : t' = t ∨ w.creates k' = some t' := by
  simp only [setCreate, Function.update_apply] at h
  split at h
  · cases h; exact .inl rfl
  · exact .inr h

theorem setGet_cases {k k' : Nat} {g g' : Get} (h : (w.setGet k g).gets k' = some g') :
    g' = g ∨ w.gets k' = some g' := by
  simp only [setGet, Function.update_apply] at h
  split at h
  · cases h; exact .inl rfl
  · exact .inr h

/-- Everything a step can do. -/
inductive Step (env : Http) (w : App) : App → Prop
  | served {l server} (hl : l.isEndpoint = false) (hs : w.server.step env.toEnv l = some server) :
      Step env w { w with server }
  | called {k call} (hk : w.creates k = none) :
      Step env w (w.setCreate k ⟨call, .request, []⟩ w.server.shared)
  | created {k t m} (hk : w.creates k = some t)
      (hm : CreateStep env w.server.shared t.call t.pc m) :
      Step env w
        (w.setCreate k { t with pc := m.pc, inserted := t.inserted ++ m.inserted } m.shared)
  | asked {k roomId} (hk : w.gets k = none) : Step env w (w.setGet k ⟨roomId, none⟩)
  | answered {k roomId fault} (hk : w.gets k = some ⟨roomId, none⟩) :
      Step env w
        (w.setGet k ⟨roomId, some (getRoom w.server.shared.store.app.db roomId fault)⟩)

theorem step_cases {l : Label} (h : w.step env l = some w') : Step env w w' := by
  cases l with
  | serve l =>
    simp only [step] at h
    split at h
    · cases h
    · rename_i hl
      obtain ⟨server, hs, rfl⟩ := Option.map_eq_some_iff.mp h
      exact .served (Bool.eq_false_iff.mpr hl) hs
  | createRoom k call =>
    simp only [step] at h
    split at h
    · rename_i hk; cases h; exact .called hk
    · cases h
  | create k ch =>
    simp only [step] at h
    split at h
    · cases h
    · rename_i t hk
      obtain ⟨m, hm, rfl⟩ := Option.map_eq_some_iff.mp h
      exact .created hk (CreatePc.next_cases hm)
  | getRoom k roomId =>
    simp only [step] at h
    split at h
    · rename_i hk; cases h; exact .asked hk
    · cases h
  | get k fault =>
    simp only [step] at h
    split at h
    · rename_i hk; cases h; exact .answered hk
    · cases h

theorem Step.server (hs : Step env w w') :
    w'.server = w.server ∨ ∃ l, w.server.step env.toEnv l = some w'.server := by
  cases hs with
  | served hl hs => exact .inr ⟨_, hs⟩
  | created hk hm => exact hm.server
  | _ => exact .inl rfl

/-- Runs of the router are runs of the server. -/
theorem server_run (h : Machine.Reachable (step env) w w') :
    Machine.Reachable (Server.step env.toEnv) w.server w'.server := by
  have hstep : ∀ (w : App) (l : Label) (w' : App), w.step env l = some w' →
      w'.server = w.server ∨ ∃ l, w.server.step env.toEnv l = some w'.server :=
    fun w l w' hs => (step_cases hs).server
  exact h.map (fun w => w.server) hstep

theorem Reachable.server (h : Reachable env w) : w.server.Reachable env.toEnv := by
  obtain ⟨db, hrun⟩ := h
  exact ⟨db, server_run hrun⟩

/-- Induction on a run of the router. -/
theorem Reachable.invariant {I : App → Prop} (h : Reachable env w) (hstart : ∀ db, I (start db))
    (hstep : ∀ w w', Reachable env w → I w → Step env w w' → I w') : I w := by
  obtain ⟨db, hrun⟩ := h
  refine (hrun.invariant (I := fun w => Reachable env w ∧ I w) ⟨⟨db, .refl⟩, hstart db⟩ ?_).2
  rintro w l w' ⟨⟨db', hreach⟩, hI⟩ hs
  exact ⟨⟨db', hreach.snoc hs⟩, hstep w w' ⟨db', hreach⟩ hI (step_cases hs)⟩

end App
end Parrhesia
