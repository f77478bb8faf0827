import Parrhesia.Activity
import Parrhesia.Gate
import Parrhesia.Lib.Restart

/-!
# Parrhesia.Restart

The database file, `init_pool`, and the processes that run on it one after the other.

A file of an earlier version has no column `password_hash`. `run_migrations` is one transaction, so
a start that fails at any statement, or a crash in the middle of it, leaves the file as it was. A
process that crashes leaves the table and loses everything else: the rooms, the limits, the sockets.

* `Life`         : what has become of an id, as the rooms are meant to come and go.
* `Disk.life`    : the life of an id by the file and the history of the inserts.
* `Life.Follows` : the one order in which a life passes.

Ids are fresh UUIDs, so no process inserts an id that an earlier one has inserted.
-/

namespace Parrhesia

open Lib

namespace Db

/-- A row of the table that the first statement of `run_migrations` creates. -/
structure OriginalRow where
  createdAt : Int
  lastActivity : Int
  deriving DecidableEq

inductive Table where
  | original (rows : HashMap String OriginalRow)
  | migrated (rows : Rooms)

/-- A row with `NULL` for its `password_hash`. -/
def OriginalRow.migrate (row : OriginalRow) : Row := ⟨row.createdAt, row.lastActivity, none⟩

namespace Table

/-- `SELECT COUNT(*) FROM pragma_table_info('rooms') WHERE name = 'password_hash'`. -/
def hasPasswordHash : Table → Nat
  | .original _ => 0
  | .migrated _ => 1

/-- `ALTER TABLE rooms ADD COLUMN`, refused when the column is there. -/
def addPasswordHash : Table → Except SqlxError Table
  | .original rows => .ok (.migrated (HashMap.mapValues OriginalRow.migrate rows))
  | .migrated _ => .error .failed

/-- The column is added when the count is 0. -/
def addMissing (table : Table) (hasPasswordHash : Nat) (fault : Bool) : Except SqlxError Table :=
  if hasPasswordHash = 0 then do
    statement fault ()
    table.addPasswordHash
  else .ok table

def row : Table → String → Option Row
  | .original rows, id => (HashMap.get rows id).map OriginalRow.migrate
  | .migrated rows, id => HashMap.get rows id

end Table

/-- `CREATE TABLE IF NOT EXISTS`. -/
def createTable (file : Option Table) : Table := file.getD (.original ∅)

/-- Which steps of a start fail. -/
structure Faults where
  connect : Bool
  begins : Bool
  create : Bool
  count : Bool
  alter : Bool
  commit : Bool

/-- No step fails. -/
def Faults.none : Faults := ⟨false, false, false, false, false, false⟩

/-- The file after a transaction that has gone through; an error drops the transaction. -/
def runMigrations (file : Option Table) (faults : Faults) : Except SqlxError Table := do
  statement faults.begins ()
  let table ← statement faults.create (createTable file)
  let hasPasswordHash ← statement faults.count table.hasPasswordHash
  let table ← table.addMissing hasPasswordHash faults.alter
  statement faults.commit table

def initPool (file : Option Table) (faults : Faults) : Except SqlxError Table := do
  statement faults.connect ()
  runMigrations file faults

theorem statement_ok {α : Type} {fault : Bool} {a b : α} (h : statement fault a = .ok b) : b = a := by
  unfold statement at h
  split at h
  · cases h
  · cases h; rfl

theorem bind_ok {α β : Type} {x : Except SqlxError α} {f : α → Except SqlxError β} {b : β}
    (h : (x >>= f) = .ok b) : ∃ a, x = .ok a ∧ f a = .ok b := by
  cases x with
  | error e => cases h
  | ok a => exact ⟨a, rfl, h⟩

@[simp] theorem row_createTable (file : Option Table) (id : String) :
    (createTable file).row id = file.bind fun table => table.row id := by
  cases file <;> rfl

theorem addMissing_ok {t t' : Table} {fault : Bool}
    (h : t.addMissing t.hasPasswordHash fault = .ok t') :
    ∃ rows, t' = .migrated rows ∧ ∀ id, HashMap.get rows id = t.row id := by
  cases t with
  | original rows =>
    obtain ⟨_, -, hadd⟩ := bind_ok h
    cases hadd
    exact ⟨_, rfl, fun id => HashMap.get_mapValues ..⟩
  | migrated rows =>
    cases h
    exact ⟨rows, rfl, fun _ => rfl⟩

/-- A migration that goes through adds the column and keeps the rows. -/
theorem runMigrations_ok {file : Option Table} {faults : Faults} {t : Table}
    (h : runMigrations file faults = .ok t) :
    ∃ rows, t = .migrated rows ∧
      ∀ id, HashMap.get rows id = file.bind fun table => table.row id := by
  obtain ⟨_, -, hbegun⟩ := bind_ok h
  obtain ⟨table, hcreate, hcreated⟩ := bind_ok hbegun
  obtain ⟨count, hcount, hcounted⟩ := bind_ok hcreated
  obtain ⟨last, halter, hcommit⟩ := bind_ok hcounted
  cases statement_ok hcreate
  cases statement_ok hcount
  cases statement_ok hcommit
  obtain ⟨rows, hrows, hget⟩ := addMissing_ok halter
  exact ⟨rows, hrows, fun id => by rw [hget, row_createTable]⟩

theorem initPool_ok {file : Option Table} {faults : Faults} {t : Table}
    (h : initPool file faults = .ok t) :
    ∃ rows, t = .migrated rows ∧
      ∀ id, HashMap.get rows id = file.bind fun table => table.row id := by
  obtain ⟨_, -, h⟩ := bind_ok h
  exact runMigrations_ok h

/-- Only the faults keep a file from being migrated. -/
theorem initPool_none (file : Option Table) : ∃ t, initPool file .none = .ok t := by
  rcases file with _ | table
  · exact ⟨_, rfl⟩
  · cases table <;> exact ⟨_, rfl⟩

end Db

/-! ## Lives -/

inductive Life where
  | unused
  | kept (createdAt : Int) (passwordHash : Option String)
  | deleted (passwordHash : Option String)
  deriving DecidableEq

namespace Life

/-- A room is created once, keeps its password hash, and is deleted once. -/
inductive Follows : Life → Life → Prop
  | refl {l} : Follows l l
  | created {l} : Follows .unused l
  | deleted {t hash} : Follows (.kept t hash) (.deleted hash)

/-- The password hash of a room, also of one that is deleted. -/
def passwordHash : Life → Option (Option String)
  | .unused => none
  | .kept _ hash => some hash
  | .deleted hash => some hash

variable {l l' l'' : Life}

theorem Follows.trans (h : Follows l l') (h' : Follows l' l'') : Follows l l'' := by
  cases h with
  | refl => exact h'
  | created => exact .created
  | deleted => cases h'; exact .deleted

theorem Follows.passwordHash {hash : Option String} (h : Follows l l')
    (hl : l.passwordHash = some hash) : l'.passwordHash = some hash := by
  cases h with
  | refl => exact hl
  | created => cases hl
  | deleted => exact hl

end Life

/-! ## What a process leaves -/

/-- The file, and which ids were ever inserted, with which hash. -/
structure Disk where
  file : Option Db.Table
  given : String → Option (Option String)

namespace Disk

def row (d : Disk) (id : String) : Option Db.Row := d.file.bind fun table => table.row id

/-- A file that was never written by this program but for the rows in it. -/
def new (file : Option Db.Table) : Disk where
  file := file
  given id := (file.bind fun table => table.row id).map Db.Row.passwordHash

def life (d : Disk) (id : String) : Life :=
  match d.row id with
  | some row => .kept row.createdAt row.passwordHash
  | none =>
    match d.given id with
    | some hash => .deleted hash
    | none => .unused

structure Inv (d : Disk) : Prop where
  given : ∀ id row, d.row id = some row → d.given id = some row.passwordHash

theorem inv_new (file : Option Db.Table) : (new file).Inv where
  given id row h := by
    have hrow : (file.bind fun table => table.row id) = some row := h
    simp only [new, hrow, Option.map_some]

variable {d d' : Disk} {id : String}

theorem Inv.passwordHash (h : d.Inv) (id : String) : (d.life id).passwordHash = d.given id := by
  unfold life
  split
  · rename_i row hrow; exact (h.given id row hrow).symm
  · split
    · rename_i hash hgiven; rw [hgiven]; rfl
    · rename_i hgiven; rw [hgiven]; rfl

/-- A later disk keeps what was given, and has a row only for an id that has the same row, up to the
activity, or that was not given. -/
theorem follows (hd : d.Inv)
    (hgiven : ∀ hash, d.given id = some hash → d'.given id = some hash)
    (hrow : ∀ row', d'.row id = some row' →
      (∃ row, d.row id = some row ∧ row.createdAt = row'.createdAt ∧
        row.passwordHash = row'.passwordHash) ∨ d.given id = none) :
    Life.Follows (d.life id) (d'.life id) := by
  cases hr : d.row id with
  | some row =>
    have hg := hd.given id row hr
    have hlife : d.life id = .kept row.createdAt row.passwordHash := by simp only [life, hr]
    rw [hlife]
    cases hr' : d'.row id with
    | some row' =>
      have hlife' : d'.life id = .kept row'.createdAt row'.passwordHash := by simp only [life, hr']
      rcases hrow row' hr' with ⟨row₀, hr₀, hcreated, hhash⟩ | hnone
      · cases hr.symm.trans hr₀
        rw [hlife', hcreated, hhash]
        exact .refl
      · rw [hg] at hnone; cases hnone
    | none =>
      have hlife' : d'.life id = .deleted row.passwordHash := by
        simp only [life, hr', hgiven _ hg]
      rw [hlife']
      exact .deleted
  | none =>
    cases hg : d.given id with
    | none =>
      have hlife : d.life id = .unused := by simp only [life, hr, hg]
      rw [hlife]
      exact .created
    | some hash =>
      have hnone : d'.row id = none := by
        refine Option.eq_none_iff_forall_ne_some.mpr ?_
        intro row' hr'
        rcases hrow row' hr' with ⟨row₀, hr₀, -⟩ | hnone
        · rw [hr] at hr₀; cases hr₀
        · rw [hg] at hnone; cases hnone
      have hlife : d.life id = .deleted hash := by simp only [life, hr, hg]
      have hlife' : d'.life id = .deleted hash := by simp only [life, hnone, hgiven _ hg]
      rw [hlife, hlife']
      exact .refl

end Disk

/-! ## Processes -/

/-- The id that is inserted. -/
def Store.Op.inserts : Store.Op → Option String
  | .createRoom id _ _ _ => some id
  | _ => none

def Server.Label.inserts : Server.Label → Option String
  | .background op => op.inserts
  | _ => none

/-- A server, and what was inserted before it was started. -/
structure Process where
  server : Server
  given : String → Option (Option String)

namespace Process

def created (p : Process) (id : String) : Option (Option String) := p.server.shared.store.created id

/-- A step of the server; no id is inserted that was given before. -/
def step (env : Env) (p : Process) (l : Server.Label) : Option Process :=
  if (l.inserts.bind p.given).isSome then none
  else (p.server.step env l).map fun server => { p with server }

def disk (p : Process) : Disk where
  file := some (.migrated p.server.shared.store.app.db)
  given id := (p.given id).or (p.created id)

/-- `init_pool` and `AppState::new`; when the first fails, the process ends. -/
def boot (d : Disk) (faults : Db.Faults) : Process ⊕ Disk :=
  match Db.initPool d.file faults with
  | .ok (.migrated rows) => .inl ⟨.start rows, d.given⟩
  | _ => .inr d

/-- The processes on one file, one after the other. -/
def lifetimes (env : Env) :
    Restart.Phase Process Disk → Restart.Event Server.Label Db.Faults →
      Option (Restart.Phase Process Disk) :=
  Restart.step (step env) disk boot

structure Inv (env : Env) (p : Process) : Prop where
  reachable : Server.Reachable env p.server
  agrees : ∀ id hash, p.given id = some hash → ∀ hash', p.created id = some hash' → hash' = hash

variable {env : Env} {p p' : Process} {d : Disk} {id : String}

theorem step_cases {l : Server.Label} (h : p.step env l = some p') :
    ∃ server, p.server.step env l = some server ∧ p' = { p with server } ∧
      ∀ id, l.inserts = some id → p.given id = none := by
  unfold step at h
  split at h
  · cases h
  · rename_i hnew
    obtain ⟨server, hs, rfl⟩ := Option.map_eq_some_iff.mp h
    refine ⟨server, hs, rfl, ?_⟩
    intro id hid
    rw [hid] at hnew
    exact Option.not_isSome_iff_eq_none.mp hnew

end Process

namespace Store

/-- An id is created by its insertion. -/
theorem Step.inserts {s s' : Store} {op : Op} (hs : Step s op s') {id : String}
    (hnone : s.created id = none) (h : (s'.created id).isSome) : op.inserts = some id := by
  cases hs with
  | @created id₀ hash now hnew hrow =>
    by_cases he : id = id₀
    · rw [he]; rfl
    · simp only [Function.update_of_ne he, hnone] at h
      cases h
  | _ =>
    have hsame : (s.created id).isSome := h
    rw [hnone] at hsame
    cases hsame

end Store

namespace Server

variable {env : Env} {v v' : Server} {l : Label} {id : String}

theorem step_inserts (h : v.step env l = some v') (hnone : v.shared.store.created id = none)
    (hsome : (v'.shared.store.created id).isSome) : l.inserts = some id := by
  rcases step_op h with hsame | ⟨op, hop, hback⟩
  · rw [hsame, hnone] at hsome; cases hsome
  · have hins := (Store.step_cases hop).inserts hnone hsome
    have hlabel : op.isBackground = true := by
      cases op <;> first | rfl | cases hins
    rw [hback hlabel]
    exact hins

/-- What `attach` was called after. -/
theorem Reachable.entered (h : Reachable env v) {k : Nat} {s : Session} (hk : v.sockets k = some s)
    {pre post : List Obs} {connId : String} (hsplit : s.trace = pre ++ .attaching connId :: post) :
    v.shared.store.created s.roomId = some none ∨
      ∃ hash password, v.shared.store.created s.roomId = some (some hash) ∧
        .verified password hash (.ok true) ∈ pre ∧ Passwords.accepts env.crates password hash := by
  have hsub : pre ⊆ s.trace := fun o ho => by rw [hsplit]; exact List.mem_append_left _ ho
  rcases (h.gate hk).entry pre _ post hsplit connId rfl with hopen | ⟨hash, hlooked, password, hok⟩
  · exact .inl (h.looked hk (hsub hopen))
  · exact .inr ⟨hash, password, h.looked hk (hsub hlooked), hok,
      (h.honest hk).accepted password hash (hsub hok)⟩

end Server

namespace Process

variable {env : Env} {p p' : Process} {d : Disk} {id : String}

theorem Inv.disk (h : p.Inv env) : p.disk.Inv where
  given id row hrow := by
    have hcreated : p.created id = some row.passwordHash :=
      h.reachable.inv.rows.created id row hrow
    show (p.given id).or (p.created id) = some row.passwordHash
    cases hg : p.given id with
    | none => exact hcreated
    | some hash => rw [h.agrees id hash hg _ hcreated]; rfl

/-- A step of the process moves no life back. -/
theorem Inv.step {l : Server.Label} (h : p.Inv env) (hs : p.step env l = some p') :
    p'.Inv env ∧ ∀ id, Life.Follows (p.disk.life id) (p'.disk.life id) := by
  obtain ⟨v', hv', rfl, hfresh⟩ := step_cases hs
  have hstore := (Server.step_cases hv').store
  have hreach : Server.Reachable env v' := by
    obtain ⟨db, hrun⟩ := h.reachable
    exact ⟨db, hrun.snoc hv'⟩
  refine ⟨⟨hreach, ?_⟩, fun id => Disk.follows h.disk ?_ ?_⟩
  · intro id hash hg hash' hcreated
    cases hold : p.created id with
    | some hash₀ =>
      have hkept : v'.shared.store.created id = some hash₀ := hstore.created_keep hold
      cases hkept.symm.trans hcreated
      exact h.agrees id hash hg hash' hold
    | none =>
      have hins := Server.step_inserts hv' hold (Option.isSome_iff_exists.mpr ⟨hash', hcreated⟩)
      rw [hfresh id hins] at hg
      cases hg
  · intro hash hgiven
    have hgiven : (p.given id).or (p.created id) = some hash := hgiven
    show (p.given id).or (v'.shared.store.created id) = some hash
    cases hg : p.given id with
    | some hash₀ => rw [hg] at hgiven; exact hgiven
    | none =>
      rw [hg] at hgiven
      exact hstore.created_keep hgiven
  · intro row' hrow'
    have hfollows := Server.row_step hv' hrow'
    rcases hfollows with ⟨hnone, -⟩ | ⟨row, hrow, ⟨now, -, rfl⟩ | ⟨rfl, -⟩⟩
    · right
      have hcreated := hreach.inv.rows.created id row' hrow'
      have hins := Server.step_inserts hv' hnone (by rw [hcreated]; rfl)
      show (p.given id).or (p.created id) = none
      rw [hfresh id hins]
      exact hnone
    · exact .inl ⟨row, hrow, rfl, rfl⟩
    · exact .inl ⟨row', hrow, rfl, rfl⟩

/-- A start moves no life at all. -/
theorem boot_inl {faults : Db.Faults} (hd : d.Inv) (h : boot d faults = .inl p) :
    p.Inv env ∧ ∀ id, p.disk.life id = d.life id := by
  unfold boot at h
  split at h
  · rename_i rows hrows
    cases h
    obtain ⟨_, he, hget⟩ := Db.initPool_ok hrows
    cases he
    have hrow : ∀ id, HashMap.get rows id = d.row id := hget
    have hcreated : ∀ id, (Server.start rows).shared.store.created id =
        (d.row id).map Db.Row.passwordHash := by
      intro id
      rw [← hrow]
      rfl
    refine ⟨⟨⟨rows, .refl⟩, ?_⟩, fun id => ?_⟩
    · intro id hash hg hash' hcr
      obtain ⟨row, hr, rfl⟩ := Option.map_eq_some_iff.mp ((hcreated id).symm.trans hcr)
      exact Option.some.inj ((hd.given id row hr).symm.trans hg)
    · have hdisk : (disk ⟨.start rows, d.given⟩).row id = d.row id := hrow id
      have hgiven : (disk ⟨.start rows, d.given⟩).given id = d.given id := by
        show (d.given id).or ((Server.start rows).shared.store.created id) = d.given id
        rw [hcreated]
        cases hr : d.row id with
        | none => rw [Option.map_none, Option.or_none]
        | some row => rw [hd.given id row hr]; rfl
      simp only [Disk.life, hdisk, hgiven]
  · cases h

theorem boot_inr {faults : Db.Faults} {d' : Disk} (h : boot d faults = .inr d') : d' = d := by
  unfold boot at h
  split at h
  · cases h
  · cases h; rfl

/-- Whatever is on the file, a start without faults succeeds. -/
theorem exists_boot (d : Disk) : ∃ p, boot d .none = .inl p := by
  obtain ⟨t, ht⟩ := Db.initPool_none d.file
  obtain ⟨rows, rfl, -⟩ := Db.initPool_ok ht
  exact ⟨⟨.start rows, d.given⟩, by simp only [boot, ht]⟩

section Lifetimes

variable {file : Option Db.Table} {q q' : Restart.Phase Process Disk}

theorem lifetimes_inv (h : Machine.Reachable (lifetimes env) (.down (.new file)) q) :
    q.Holds (Inv env) Disk.Inv :=
  Restart.holds h (Disk.inv_new file) (fun _ _ _ hp hs => (hp.step hs).1) (fun _ hp => hp.disk)
    (fun _ _ _ hd hb => (boot_inl hd hb).1) (fun _ _ _ hd hb => boot_inr hb ▸ hd)

/-- Lives pass in one direction over all processes. -/
theorem lifetimes_follows (hq : q.Holds (Inv env) Disk.Inv)
    (h : Machine.Reachable (lifetimes env) q q') (id : String) :
    Life.Follows ((q.left disk).life id) ((q'.left disk).life id) := by
  refine Restart.ordered (R := fun d d' => Life.Follows (d.life id) (d'.life id))
    (fun _ => .refl) (fun _ _ _ => Life.Follows.trans) h hq ?_ (fun _ hp => hp.disk) ?_ ?_
  · intro p l p' hp hs
    obtain ⟨hp', hfollows⟩ := hp.step hs
    exact ⟨hp', hfollows id⟩
  · intro d faults p hd hb
    obtain ⟨hp, hlife⟩ := boot_inl hd hb
    refine ⟨hp, ?_⟩
    rw [hlife]
    exact .refl
  · intro d faults d' hd hb
    rw [boot_inr hb]
    exact ⟨hd, .refl⟩

/-- A socket that is inside a room has given the password of the room, whichever process the room
was created in. -/
theorem Inv.entered (h : p.Inv env) {k : Nat} {s : Session} (hk : p.server.sockets k = some s)
    {hash : String} (hlife : (p.disk.life s.roomId).passwordHash = some (some hash))
    {pre post : List Obs} {connId : String} (hsplit : s.trace = pre ++ .attaching connId :: post) :
    ∃ password, .verified password hash (.ok true) ∈ pre ∧
      Passwords.accepts env.crates password hash := by
  have hgiven : (p.given s.roomId).or (p.created s.roomId) = some (some hash) := by
    rw [h.disk.passwordHash] at hlife
    exact hlife
  have hsame : ∀ hash', p.created s.roomId = some hash' → hash' = some hash := by
    intro hash' hcreated
    cases hg : p.given s.roomId with
    | none =>
      rw [hg, Option.none_or, hcreated] at hgiven
      exact Option.some.inj hgiven
    | some hash₀ =>
      rw [hg] at hgiven
      cases hgiven
      exact h.agrees _ _ hg hash' hcreated
  rcases h.reachable.entered hk hsplit with hopen | ⟨hash', password, hcreated, hok, haccepts⟩
  · cases hsame none hopen
  · cases hsame (some hash') hcreated
    exact ⟨password, hok, haccepts⟩

/-- **Rooms survive the process.** Whatever runs on a file, with processes that crash at any step and
starts that fail at any statement, a room is created once, keeps its password hash, and is deleted
once; a start without faults succeeds and changes no room; and in every later process a socket calls
`attach` on a room with a password only after `verify` accepted one against the hash the room was
created with. -/
theorem survives (env : Env) (file : Option Db.Table) (q q' : Restart.Phase Process Disk)
    (hq : Machine.Reachable (lifetimes env) (.down (.new file)) q)
    (hq' : Machine.Reachable (lifetimes env) q q') :
    (∀ id, Life.Follows ((q.left disk).life id) ((q'.left disk).life id)) ∧
    (∀ d, q' = .down d → ∃ p, lifetimes env q' (.boot .none) = some (.up p) ∧
      ∀ id, p.disk.life id = d.life id) ∧
    ∀ p, q' = .up p → ∀ k s, p.server.sockets k = some s →
      ∀ hash, ((q.left disk).life s.roomId).passwordHash = some (some hash) →
        ∀ pre connId post, s.trace = pre ++ .attaching connId :: post →
          ∃ password, .verified password hash (.ok true) ∈ pre ∧
            Passwords.accepts env.crates password hash := by
  have hinv := lifetimes_inv hq
  have hinv' := lifetimes_inv (hq.trans hq')
  refine ⟨lifetimes_follows hinv hq', ?_, ?_⟩
  · rintro d rfl
    obtain ⟨p, hp⟩ := exists_boot d
    have hboot : lifetimes env (.down d) (.boot .none) = some (.up p) := by
      simp only [lifetimes, Restart.step, hp]
    exact ⟨p, hboot, (@boot_inl env _ _ _ hinv' hp).2⟩
  · rintro p rfl k s hk hash hlife pre connId post hsplit
    have hlater := (lifetimes_follows hinv hq' s.roomId).passwordHash hlife
    exact Inv.entered hinv' hk hlater hsplit

end Lifetimes

/-- A file of an earlier version, with one room. -/
def originalFile : Option Db.Table := some (.original (HashMap.insert ∅ "old" ⟨123, 456⟩))

/-- The first process creates a room with a password. -/
def creating : List (Restart.Event Server.Label Db.Faults) :=
  [.boot .none, .step (.background (.createRoom "room" (some Server.phcOfPassphrase) 500 false))]

/-- It crashes, a second one fails to start, and a socket of the third gives the password. -/
def returning : List (Restart.Event Server.Label Db.Faults) :=
  [.crash, .boot { Db.Faults.none with commit := true }, .boot .none] ++
    Server.authenticating.map .step

/-- The room, its life before the crash, and the connection id of the first socket at the end. -/
def returned (q q' : Restart.Phase Process Disk) : Option (String × Life × Option String) :=
  match q' with
  | .up p => (p.server.sockets 0).map fun s => (s.roomId, (q.left disk).life s.roomId, s.pc.conn)
  | .down _ => none

theorem survives_returning : ∃ q p s,
    Machine.run (lifetimes Server.passphraseEnv) (.down (.new originalFile)) creating = some q ∧
    Machine.run (lifetimes Server.passphraseEnv) q returning = some (.up p) ∧
    p.server.sockets 0 = some s ∧
    (∀ id, Life.Follows ((q.left disk).life id) (p.disk.life id)) ∧
    ∃ password, .verified password Server.phcOfPassphrase (.ok true) ∈ s.trace := by
  have hrun : ((Machine.run (lifetimes Server.passphraseEnv) (.down (.new originalFile)) creating).bind
      fun q => (Machine.run (lifetimes Server.passphraseEnv) q returning).bind (returned q)) =
        some ("room", .kept 500 (some Server.phcOfPassphrase), some "a") := by decide +kernel
  obtain ⟨q, hq, hlater⟩ := Option.bind_eq_some_iff.mp hrun
  obtain ⟨q', hq', hreturned⟩ := Option.bind_eq_some_iff.mp hlater
  cases q' with
  | down d => cases hreturned
  | up p =>
    obtain ⟨s, hk, hs⟩ := Option.map_eq_some_iff.mp hreturned
    obtain ⟨-, hlife, hconn⟩ : s.roomId = "room" ∧
        (q.left disk).life s.roomId = .kept 500 (some Server.phcOfPassphrase) ∧
          s.pc.conn = some "a" := by simpa using hs
    obtain ⟨hfollows, -, hentered⟩ :=
      survives Server.passphraseEnv originalFile q (.up p) ⟨creating, hq⟩ ⟨returning, hq'⟩
    have hinv := lifetimes_inv (Machine.Reachable.trans ⟨creating, hq⟩ ⟨returning, hq'⟩)
    refine ⟨q, p, s, hq, hq', hk, hfollows, ?_⟩
    by_contra hnot
    have hnever : ∀ connId, .attaching connId ∉ s.trace := by
      intro connId hmem
      obtain ⟨pre, post, hsplit⟩ := List.append_of_mem hmem
      obtain ⟨password, hok, -⟩ := hentered p rfl 0 s hk Server.phcOfPassphrase
        (by rw [hlife]; rfl) pre connId post hsplit
      exact hnot ⟨password, by rw [hsplit]; exact List.mem_append_left _ hok⟩
    rw [(Server.Reachable.gate (Inv.reachable hinv) hk).phase.conn hnever] at hconn
    cases hconn

end Process
end Parrhesia
