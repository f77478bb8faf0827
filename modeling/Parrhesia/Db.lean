import Parrhesia.Lib.HashMap

/-!
# Parrhesia.Db

`db.rs`: the `rooms` table and the statements on it.

A statement is atomic: it fails without effect (`fault`) or does what it says. `id` is the primary
key, so the table is a map. Timestamps are `i64`; `now` is what `now_timestamp` returned.
-/

namespace Parrhesia

open Lib

inductive SqlxError where
  | failed
  deriving DecidableEq, Repr

namespace Db

structure Row where
  createdAt : Int
  lastActivity : Int
  passwordHash : Option String
  deriving DecidableEq

abbrev Rooms := HashMap String Row

/-- The outcome of a statement that may fail. -/
def statement {α : Type} (fault : Bool) (a : α) : Except SqlxError α :=
  if fault then .error .failed else .ok a

/-- `INSERT`, refused when the primary key is taken. -/
def createRoomWithPassword (db : Rooms) (roomId : String) (passwordHash : Option String) (now : Int)
    (fault : Bool) : Except SqlxError Rooms :=
  if HashMap.containsKey db roomId then .error .failed
  else statement fault (HashMap.insert db roomId ⟨now, now, passwordHash⟩)

/-- The outer `Option` distinguishes a missing room from an open room. -/
def roomPassword (db : Rooms) (roomId : String) (fault : Bool) :
    Except SqlxError (Option (Option String)) :=
  statement fault ((HashMap.get db roomId).map Row.passwordHash)

def roomExists (db : Rooms) (roomId : String) (fault : Bool) : Except SqlxError Bool :=
  statement fault (HashMap.containsKey db roomId)

def updateActivity (db : Rooms) (roomId : String) (now : Int) (fault : Bool) :
    Except SqlxError Rooms :=
  statement fault <|
    match HashMap.get db roomId with
    | some row => HashMap.insert db roomId { row with lastActivity := now }
    | none => db

/-- `now - threshold` in `i64`, wrapping modulo `2 ^ 64` as a release build does. -/
def cutoff (now threshold : Int) : Int := (now - threshold).bmod 18446744073709551616

def inactive (db : Rooms) (cutoff : Int) : List String :=
  ((HashMap.toList db).filter fun e => decide (e.2.lastActivity < cutoff)).map Prod.fst

/-- The rows that are left. -/
def active (db : Rooms) (cutoff : Int) : Rooms :=
  HashMap.retain (fun _ row => decide (cutoff ≤ row.lastActivity)) db

/-- `DELETE .. RETURNING id`: the deleted ids, in an order of the database's own, and what is left. -/
def deleteInactiveRooms (db : Rooms) (now threshold : Int) (fault : Bool) :
    Except SqlxError (List String × Rooms) :=
  statement fault (inactive db (cutoff now threshold), active db (cutoff now threshold))

/-- A difference that fits `i64`. -/
theorem cutoff_eq {now threshold : Int} (hlower : -9223372036854775808 ≤ now - threshold)
    (hupper : now - threshold < 9223372036854775808) : cutoff now threshold = now - threshold := by
  rw [cutoff, Int.bmod_def]
  split <;> omega

theorem mem_inactive {db : Rooms} {c : Int} {id : String} :
    id ∈ inactive db c ↔ ∃ row, HashMap.get db id = some row ∧ row.lastActivity < c := by
  simp only [inactive, List.mem_map, List.mem_filter, decide_eq_true_eq]
  constructor
  · rintro ⟨⟨id', row⟩, ⟨hmem, hlt⟩, rfl⟩
    exact ⟨row, HashMap.mem_toList.mp hmem, hlt⟩
  · rintro ⟨row, hget, hlt⟩
    exact ⟨⟨id, row⟩, ⟨HashMap.mem_toList.mpr hget, hlt⟩, rfl⟩

theorem nodup_inactive (db : Rooms) (c : Int) : (inactive db c).Nodup := by
  refine List.Nodup.sublist (List.filter_sublist.map Prod.fst) ?_
  rw [HashMap.map_fst_toList]
  exact AList.keys_nodup db

/-- A row is left exactly when it was there and its id is not among the deleted ones. -/
theorem get_active {db : Rooms} {c : Int} {id : String} {row : Row} :
    HashMap.get (active db c) id = some row ↔
      HashMap.get db id = some row ∧ id ∉ inactive db c := by
  rw [active, HashMap.get_retain, Option.filter_eq_some_iff, decide_eq_true_eq, mem_inactive]
  constructor
  · rintro ⟨hget, hle⟩
    refine ⟨hget, ?_⟩
    rintro ⟨row', hget', hlt⟩
    rw [hget] at hget'
    cases hget'
    omega
  · rintro ⟨hget, hnot⟩
    refine ⟨hget, ?_⟩
    by_contra hlt
    exact hnot ⟨row, hget, by omega⟩

end Db
end Parrhesia
