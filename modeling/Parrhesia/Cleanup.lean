import Parrhesia.State

/-!
# Parrhesia.Cleanup

The settings of `config.rs` that the cleanup task of `cleanup.rs` reads, and the arithmetic from them
to the cutoff of `delete_inactive_rooms` and the period of the ticker. It is that of a release build:
the products wrap modulo `2 ^ 64`, the cast to `i64` may change the sign, and so may the difference.

`fromEnv_accepts` : every pair of `u64` can be configured. `cleanup_exact_iff` : the arithmetic is exact
where the hours in seconds fit `i64`, and the minutes are not zero and in seconds fit `u64`.
-/

namespace Parrhesia

open Lib

/-- `env::var`, with nothing for a variable that is not set or not Unicode. -/
abbrev Vars := String → Option String

/-- `str::parse::<u64>`: ASCII digits, after one `+` at most. -/
def parseU64 (s : String) : Option UInt64 :=
  let digits := match s.toList with
    | '+' :: digits => digits
    | digits => digits
  if digits ≠ [] ∧ digits.all Char.isDigit = true ∧ Nat.ofDigitChars 10 digits 0 < 2 ^ 64 then
    some (.ofNat (Nat.ofDigitChars 10 digits 0))
  else none

/-- The part of `Config` that is for the cleanup task. -/
structure CleanupConfig where
  inactivityExpiryHours : UInt64
  cleanupIntervalMins : UInt64
  deriving DecidableEq

namespace CleanupConfig

/-- `Config::from_env`. -/
def fromEnv (vars : Vars) : CleanupConfig where
  inactivityExpiryHours := ((vars "INACTIVITY_EXPIRY_HOURS").bind parseU64).getD 24
  cleanupIntervalMins := ((vars "CLEANUP_INTERVAL_MINS").bind parseU64).getD 5

variable (config : CleanupConfig)

def inactivityExpirySecs : Int := (config.inactivityExpiryHours * 3600).toInt64.toInt

/-- The argument of `Duration::from_secs` for the ticker. -/
def periodSecs : UInt64 := config.cleanupIntervalMins * 60

end CleanupConfig

/-- `tokio::time::interval` on a period in seconds; nothing for its panic on a zero period. -/
def interval (secs : UInt64) : Option UInt64 := if secs = 0 then none else some secs

/-- The task of `spawn_cleanup_task`, once it has its ticker. -/
structure CleanupTask where
  period : UInt64
  expirySecs : Int

/-- `spawn_cleanup_task`; nothing when the task dies before its first round. -/
def spawnCleanupTask (config : CleanupConfig) : Option CleanupTask :=
  (interval config.periodSecs).map fun period => ⟨period, config.inactivityExpirySecs⟩

/-- A round of the task. -/
def CleanupTask.round (task : CleanupTask) (s : AppState) (now : Int) (fault : Bool) :
    Except SqlxError (List String) × AppState :=
  s.expireInactiveRooms now task.expirySecs fault

/-! ## What can be configured -/

theorem parseU64_repr (n : UInt64) : parseU64 (Nat.repr n.toNat) = some n := by
  have hdigits : (match (Nat.repr n.toNat).toList with
      | '+' :: digits => digits
      | digits => digits) = Nat.toDigits 10 n.toNat := by
    rw [Nat.toList_repr]
    split
    · -- a plus is no digit
      rename_i digits hplus
      have hdigit := Nat.isDigit_of_mem_toDigits (b := 10) (n := n.toNat) (c := '+') (by decide)
        (by decide) (by rw [hplus]; simp)
      exact absurd hdigit (by decide)
    · rfl
  have hall : (Nat.toDigits 10 n.toNat).all Char.isDigit = true := by
    rw [List.all_eq_true]
    intro c hc
    exact Nat.isDigit_of_mem_toDigits (by decide) (by decide) hc
  simp only [parseU64, hdigits]
  rw [Nat.ofDigitChars_ten_toDigits, if_pos ⟨Nat.toDigits_ne_nil, hall, n.toNat_lt⟩, UInt64.ofNat_toNat]

/-- `from_env` accepts every pair of `u64`. -/
theorem fromEnv_accepts (config : CleanupConfig) : ∃ vars, CleanupConfig.fromEnv vars = config := by
  refine ⟨fun name =>
    if name = "INACTIVITY_EXPIRY_HOURS" then some (Nat.repr config.inactivityExpiryHours.toNat)
    else some (Nat.repr config.cleanupIntervalMins.toNat), ?_⟩
  simp [CleanupConfig.fromEnv, parseU64_repr]

/-! ## The arithmetic -/

/-- A `u64` cast to `i64` keeps its value exactly when it fits. -/
theorem toInt64_eq_iff (x : UInt64) (n : Nat) (h : x.toNat = n % 2 ^ 64) :
    x.toInt64.toInt = n ↔ n < 2 ^ 63 := by
  have hcast : x.toInt64.toInt = (x.toNat : Int).bmod (2 ^ 64) := BitVec.toInt_eq_toNat_bmod _
  rw [hcast, h, Int.bmod_def]
  omega

theorem inactivityExpirySecs_eq_iff (config : CleanupConfig) :
    config.inactivityExpirySecs = config.inactivityExpiryHours.toNat * 3600 ↔
      config.inactivityExpiryHours.toNat * 3600 < 2 ^ 63 := by
  have h := toInt64_eq_iff (config.inactivityExpiryHours * 3600)
    (config.inactivityExpiryHours.toNat * 3600) (UInt64.toNat_mul _ _)
  rw [Int.natCast_mul] at h
  exact h

theorem periodSecs_eq_iff (config : CleanupConfig) :
    config.periodSecs.toNat = config.cleanupIntervalMins.toNat * 60 ↔
      config.cleanupIntervalMins.toNat * 60 < 2 ^ 64 := by
  have h : config.periodSecs.toNat = config.cleanupIntervalMins.toNat * 60 % 2 ^ 64 :=
    UInt64.toNat_mul _ _
  omega

/-- The arithmetic of the cleanup task at `now` is that of the integers, and what comes of it. -/
structure CleanupConfig.Exact (config : CleanupConfig) (now : Int) : Prop where
  expiry : config.inactivityExpirySecs = config.inactivityExpiryHours.toNat * 3600
  fits : -9223372036854775808 ≤ now - config.inactivityExpirySecs ∧
    now - config.inactivityExpirySecs < 9223372036854775808
  cutoff : Db.cutoff now config.inactivityExpirySecs = now - config.inactivityExpirySecs ∧
    Db.cutoff now config.inactivityExpirySecs ≤ now
  kept : ∀ task, spawnCleanupTask config = some task → ∀ (s : AppState) (fault : Bool) id row,
    HashMap.get s.db id = some row →
      now - config.inactivityExpiryHours.toNat * 3600 ≤ row.lastActivity →
        HashMap.get (task.round s now fault).2.db id = some row ∧
          HashMap.get (task.round s now fault).2.rooms id = HashMap.get s.rooms id
  period : config.periodSecs.toNat = config.cleanupIntervalMins.toNat * 60
  ticks : (spawnCleanupTask config).isSome = true

theorem AppState.expireRoom_keeps {s : AppState} {id id' : String} (h : id' ≠ id) :
    (s.expireRoom id).db = s.db ∧
      HashMap.get (s.expireRoom id).rooms id' = HashMap.get s.rooms id' := by
  unfold AppState.expireRoom
  split
  · exact ⟨rfl, rfl⟩
  · exact ⟨rfl, HashMap.get_remove_of_ne h⟩

theorem AppState.expireRooms_keep {ids : List String} {id : String} (h : id ∉ ids) (s : AppState) :
    (ids.foldl AppState.expireRoom s).db = s.db ∧
      HashMap.get (ids.foldl AppState.expireRoom s).rooms id = HashMap.get s.rooms id := by
  induction ids generalizing s with
  | nil => exact ⟨rfl, rfl⟩
  | cons id' ids ih =>
    rw [List.mem_cons, not_or] at h
    obtain ⟨hdb, hrooms⟩ := ih h.2 (s.expireRoom id')
    obtain ⟨hdb', hrooms'⟩ := AppState.expireRoom_keeps (s := s) h.1
    exact ⟨hdb.trans hdb', hrooms.trans hrooms'⟩

/-- A round keeps the rooms whose last activity is not before its cutoff. -/
theorem CleanupTask.round_keeps {task : CleanupTask} {now : Int}
    (hcutoff : Db.cutoff now task.expirySecs = now - task.expirySecs) {s : AppState} {id : String}
    {row : Db.Row} (hrow : HashMap.get s.db id = some row)
    (hactive : now - task.expirySecs ≤ row.lastActivity) (fault : Bool) :
    HashMap.get (task.round s now fault).2.db id = some row ∧
      HashMap.get (task.round s now fault).2.rooms id = HashMap.get s.rooms id := by
  cases fault with
  | true => exact ⟨hrow, rfl⟩
  | false =>
    have hnot : id ∉ Db.inactive s.db (Db.cutoff now task.expirySecs) := by
      rw [Db.mem_inactive]
      rintro ⟨row', hrow', hlt⟩
      rw [hrow] at hrow'
      cases hrow'
      omega
    have hleft : HashMap.get (Db.active s.db (Db.cutoff now task.expirySecs)) id = some row :=
      Db.get_active.mpr ⟨hrow, hnot⟩
    obtain ⟨hdb, hrooms⟩ := AppState.expireRooms_keep hnot
      { s with db := Db.active s.db (Db.cutoff now task.expirySecs) }
    exact ⟨(congrArg (HashMap.get · id) hdb).trans hleft, hrooms⟩

theorem spawnCleanupTask_isSome (config : CleanupConfig) :
    (spawnCleanupTask config).isSome = true ↔ config.periodSecs.toNat ≠ 0 := by
  rw [spawnCleanupTask, Option.isSome_map, interval]
  split
  · rename_i hzero; simp [hzero]
  · rename_i hne
    refine ⟨fun _ hzero => hne (UInt64.toNat_inj.mp hzero), fun _ => rfl⟩

theorem spawnCleanupTask_expirySecs {config : CleanupConfig} {task : CleanupTask}
    (h : spawnCleanupTask config = some task) : task.expirySecs = config.inactivityExpirySecs := by
  obtain ⟨period, -, rfl⟩ := Option.map_eq_some_iff.mp h
  rfl

/-- **When the cleanup arithmetic is exact.** Every pair of `u64` can be configured, and at every
timestamp from zero on the arithmetic is exact, a room active within the configured period is kept and
the task lives, exactly for hours that in seconds are below `2 ^ 63` and minutes that are not zero and
in seconds are below `2 ^ 64`. -/
theorem cleanup_exact_iff (config : CleanupConfig) (now : Int) (hnow : 0 ≤ now)
    (hlt : now < 9223372036854775808) :
    (∃ vars, CleanupConfig.fromEnv vars = config) ∧
      (config.Exact now ↔ config.inactivityExpiryHours.toNat * 3600 < 2 ^ 63 ∧
        config.cleanupIntervalMins.toNat ≠ 0 ∧ config.cleanupIntervalMins.toNat * 60 < 2 ^ 64) := by
  refine ⟨fromEnv_accepts config, ?_⟩
  constructor
  · intro h
    have hticks := (spawnCleanupTask_isSome config).mp h.ticks
    rw [h.period] at hticks
    refine ⟨(inactivityExpirySecs_eq_iff config).mp h.expiry, ?_,
      (periodSecs_eq_iff config).mp h.period⟩
    omega
  · rintro ⟨hhours, hmins, hperiod⟩
    have hexpiry := (inactivityExpirySecs_eq_iff config).mpr hhours
    have hsecs := (periodSecs_eq_iff config).mpr hperiod
    have hcutoff : Db.cutoff now config.inactivityExpirySecs = now - config.inactivityExpirySecs :=
      Db.cutoff_eq (by omega) (by omega)
    refine ⟨hexpiry, ⟨by omega, by omega⟩, ⟨hcutoff, by omega⟩, ?_, hsecs, ?_⟩
    · intro task htask s fault id row hrow hactive
      rw [← hexpiry, ← spawnCleanupTask_expirySecs htask] at hactive
      rw [← spawnCleanupTask_expirySecs htask] at hcutoff
      exact CleanupTask.round_keeps hcutoff hrow hactive fault
    · rw [spawnCleanupTask_isSome, hsecs]
      omega

/-- A day's retention, checked every five minutes. -/
theorem cleanup_exact_iff_default :
    (CleanupConfig.fromEnv fun _ => none).Exact 1750000000 :=
  (cleanup_exact_iff _ 1750000000 (by omega) (by omega)).2.mpr (by decide +kernel)

/-- Minutes set to zero kill the task. Hours that wrap give a retention of 3584 seconds, and a room
active an hour ago is deleted. -/
theorem cleanup_inexact :
    spawnCleanupTask ⟨24, 0⟩ = none ∧ ¬ CleanupConfig.Exact ⟨24, 0⟩ 1750000000 ∧
      CleanupConfig.inactivityExpirySecs ⟨5124095576030432, 5⟩ = 3584 ∧
      Db.inactive (HashMap.insert ∅ "room" ⟨0, 1750000000 - 3600, none⟩)
        (Db.cutoff 1750000000 (CleanupConfig.inactivityExpirySecs ⟨5124095576030432, 5⟩)) =
          ["room"] ∧
      ¬ CleanupConfig.Exact ⟨5124095576030432, 5⟩ 1750000000 := by
  have hsecs : CleanupConfig.inactivityExpirySecs ⟨5124095576030432, 5⟩ = 3584 := by
    decide +kernel
  refine ⟨by decide, ?_, hsecs, by rw [hsecs]; decide +kernel, ?_⟩
  · intro h
    have hticks : (spawnCleanupTask ⟨24, 0⟩).isSome = true := h.ticks
    exact absurd hticks (by decide)
  · intro h
    have hexpiry := h.expiry
    rw [hsecs] at hexpiry
    exact absurd hexpiry (by decide)

end Parrhesia
